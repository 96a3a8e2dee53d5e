import TemplateTag.Argument.Basic
import TemplateTag.Numeral.Canonical
/-!
# Literals

A numeral, a text in double quotes, a text between escaped single quotes, or a keyword.
-/
namespace TemplateTag

/-- Drop every backslash that stands before a double quote and not after a backslash. The flag says
whether the text follows a backslash. -/
def unescape : Bool → Text → Text
  | _, [] => []
  | true, '\\' :: '"' :: t => '\\' :: '"' :: unescape false t
  | false, '\\' :: '"' :: t => '"' :: unescape false t
  | _, c :: t => c :: unescape (c == '\\') t

def keywords : List Text :=
  ["true".toList, "false".toList, "null".toList, "undefined".toList]

/-- The kind and the content of a literal, if the whole text is one. -/
def literal? (source : Text) : Option (LiteralKind × Text) :=
  match Numeral.ofText? source with
  | some n => some (.number, n.canonical source)
  | none =>
    match source.between? ['"'] ['"'] with
    | some content => some (.string, unescape false content)
    | none =>
      match source.between? escapedQuote escapedQuote with
      | some content => some (.string, content)
      | none => if keywords.contains source then some (.keyword, source) else none

/-- The content of a string argument as it is stored. -/
def singleQuoted (content : Text) : Text :=
  '\'' :: content ++ ['\'']

/-- The argument for a literal that is not in first position. -/
def Argument.ofLiteral : LiteralKind → Text → Argument
  | .string, content => .literal .string (singleQuoted content)
  | kind, text => .literal kind text

end TemplateTag
