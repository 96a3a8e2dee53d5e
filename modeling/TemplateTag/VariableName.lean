import TemplateTag.Report
import TemplateTag.Text.Brackets
/-!
# Variable names

The check of a variable name in a dialect with advanced variables: brackets must pair up and stand
around whole segments, and special characters must stand inside brackets.
-/
namespace TemplateTag.VariableName

/-- Does the text start with one or more characters of the first class, followed by one of the
second? -/
def runThen (p q : Char → Bool) : Text → Bool
  | [] => false
  | c :: t => p c && (Text.startsIn q t || runThen p q t)

def isBracket (c : Char) : Bool :=
  c = '[' || c = ']'

/-- Does the name start outside brackets and come to a bracket within its first segment? -/
def unopened (name : Text) : Bool :=
  runThen (fun c => c != '[' && c != '.') isBracket name

/-- Does the last bracket have a text after it that the name ends with? -/
def unclosed (name : Text) : Bool :=
  name.anySuffix fun
    | [] => false
    | c :: t => isBracket c && !t.isEmpty && t.all fun d => d != ']' && d != '.'

/-- Does a segment go on after a closing bracket, up to a point? -/
def closedInside (name : Text) : Bool :=
  name.anySuffix fun
    | [] => false
    | c :: t => c = ']' && runThen (fun d => !isBracket d && d != '.') (· == '.') t

/-- Does a segment start outside brackets and come to an opening bracket? -/
def openedInside (name : Text) : Bool :=
  name.anySuffix fun
    | [] => false
    | c :: t => c = '.' && runThen (fun d => !isBracket d && d != '.') (· == '[') t

/-- The text without the steps up at its start. -/
def dropParents : Text → Text
  | '.' :: '.' :: '/' :: t => dropParents t
  | t => t

/-- The name with harmless content in its brackets and without its steps up. -/
def normalized (name : Text) : Text :=
  dropParents <| (Glyph.ofText Glyph.closesLater name).flatMap fun
    | .plain c => [c]
    | .bracketed _ => "[XXX]".toList

/-- The characters of the name outside brackets. -/
def exposed (name : Text) : Text :=
  (Glyph.ofText Glyph.closesOnLine name).filterMap fun
    | .plain c => some c
    | .bracketed _ => none

/-- The characters that must stand inside brackets. -/
def needsProtection (c : Char) : Bool :=
  "!\"#%&'*+,;<=>\x7b|\x7d~".toList.contains c

/-- What is wrong with a name, if anything. -/
def fault? (name : Text) : Option NameFault :=
  if unopened name || unclosed name || closedInside name || openedInside (normalized name) then
    some .brackets
  else if (exposed name).any needsProtection then some .unprotected
  else none

/-- Report a name with a fault. -/
def check (name tag : Text) : Reported Unit :=
  match fault? name with
  | some fault => Reported.diagnose (.malformedName name tag fault)
  | none => pure ()

end TemplateTag.VariableName
