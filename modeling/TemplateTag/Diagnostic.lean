import TemplateTag.Text.Basic
/-!
# Diagnostics

What can be wrong with a tag or with a choice of delimiters. A diagnostic never stops the reading of
a tag; `message` words it for the author of the template.
-/
namespace TemplateTag

/-- What is wrong with a variable name. -/
inductive NameFault where
  /-- A bracket is unpaired, or stands in the middle of a segment. -/
  | brackets
  /-- A special character stands outside brackets. -/
  | unprotected
  deriving DecidableEq

inductive Diagnostic where
  /-- A delimiter contains the sign that switches delimiters. -/
  | equalsInDelimiter (left right : Text)
  | malformedName (name tag : Text) (fault : NameFault)
  /-- The parentheses of a tag do not pair up. -/
  | unbalanced (tag : Text)
  | unknownHelper (name : Text)
  /-- A path leaves the current context and the dialect does not let it. -/
  | parentAccess (path : Text)
  /-- The name of a named argument is bracketed and the dialect does not let it. -/
  | bracketedKey (name tag : Text)
  | tooDeep (limit : Nat) (tag : Text)
  deriving DecidableEq

namespace NameFault

/-- The advice that follows the complaint about a name. -/
def advice : NameFault → Text
  | brackets => []
  | unprotected =>
    ", you should wrap ! \" # % & ' * + , ; < = > \x7b | \x7d ~ into [ ]".toList

end NameFault

namespace Diagnostic

def message : Diagnostic → Text
  | equalsInDelimiter left right =>
    "can not set delimiter containing '=', tried to set delimiter as '".toList ++ left ++
      "' and '".toList ++ right ++ "'".toList
  | malformedName name tag fault =>
    "wrong variable naming as '".toList ++ name ++ "' in ".toList ++ tag ++ fault.advice
  | unbalanced tag => "unexpected ')' in expression '".toList ++ tag ++ "'".toList
  | unknownHelper name =>
    "can not find custom helper function definition ".toList ++ name ++ "()".toList
  | parentAccess path =>
    "parent access is not enabled, can not resolve '".toList ++ path ++ "'".toList
  | bracketedKey name tag =>
    "wrong argument name as '[".toList ++ name ++ "]' in ".toList ++ tag ++
      ", bracketed argument names need advanced variables".toList
  | tooDeep limit tag =>
    "subexpressions nested deeper than ".toList ++ Nat.toDigits 10 limit ++
      " levels near \"".toList ++ tag ++ "\"".toList

end Diagnostic

end TemplateTag
