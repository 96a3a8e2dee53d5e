import TemplateTag.Text.Basic
/-!
# Shapes of raw arguments

What a raw argument is at first sight: a call in parentheses, block parameters between bars, or a
binding of a name to a value.
-/
namespace TemplateTag

/-- Is the text something between parentheses? -/
def isCall (raw : Text) : Bool :=
  (raw.filledBetween? ['('] [')']).isSome

/-- Does the text start and end with marks of quoted texts? -/
def hasQuoteMarks (raw : Text) : Bool :=
  (['"'].isPrefixOf raw || escapedQuote.isPrefixOf raw) &&
    (['"'].isSuffixOf raw || escapedQuote.isSuffixOf raw)

/-- The names between the bars, if the text is blanks and then a list of block parameters. -/
def blockParamNames? (raw : Text) : Option (List Text) :=
  if raw.startsIn isBlank then
    (Text.filledBetween? (raw.dropWhile isBlank) ['|'] ['|']).map (Text.fields isBlank)
  else none

/-- A named argument. -/
structure Binding where
  /-- Was the name written in brackets? -/
  bracketed : Bool
  key : Text
  value : Text
  deriving DecidableEq

namespace Binding

/-- Can the character stand in a name without brackets? -/
def isKeyChar (c : Char) : Bool :=
  c != '=' && c != '^' && c != '[' && c != '"' && c != '\''

/-- A binding of which neither part is empty. -/
def ofParts? (bracketed : Bool) (key value : Text) : Option Binding :=
  if key.isEmpty || value.isEmpty then none else some { bracketed, key, value }

/-- Read a raw argument as `name=value` or `[name]=value`. -/
def ofText? : Text → Option Binding
  | '[' :: t =>
    match t.dropWhile (· != ']') with
    | ']' :: '=' :: value => ofParts? true (t.takeWhile (· != ']')) value
    | _ => none
  | t =>
    match t.dropWhile isKeyChar with
    | '=' :: value => ofParts? false (t.takeWhile isKeyChar) value
    | _ => none

end Binding

end TemplateTag
