import TemplateTag.Argument.Basic
import TemplateTag.Text.Quoted
/-!
# Inspection

A one-line picture of an argument list that shows every field by name.
-/
namespace TemplateTag.Inspect

def sequence (elements : List Text) : Text :=
  "[".toList ++ ", ".toList.intercalate elements ++ "]".toList

def ofSegment : Segment → Text
  | .current => "Current".toList
  | .name n => "Name(".toList ++ n.quote ++ ")".toList

def ofKind : LiteralKind → Text
  | .number => "Number".toList
  | .string => "String".toList
  | .keyword => "Keyword".toList

def ofBlockParams : Option (List Text) → Text
  | none => "None".toList
  | some names => "Some(".toList ++ sequence (names.map Text.quote) ++ ")".toList

mutual

def ofArgument : Argument → Text
  | .path levels segments =>
    "Path \x7b levels: ".toList ++ Nat.toDigits 10 levels ++ ", segments: ".toList ++
      sequence (segments.map ofSegment) ++ " \x7d".toList
  | .literal kind text =>
    "Literal \x7b kind: ".toList ++ ofKind kind ++ ", text: ".toList ++ text.quote ++
      " \x7d".toList
  | .subexpression source args =>
    "SubExpression(SubExpression \x7b args: ".toList ++ ofList args ++ ", source: ".toList ++
      source.quote ++ " \x7d)".toList

def ofList : Arguments Argument → Text
  | ⟨positional, named, blockParams⟩ =>
    "ArgumentList \x7b positional: ".toList ++ sequence (ofPositional positional) ++
      ", named: ".toList ++ sequence (ofNamed named) ++ ", block_params: ".toList ++
      ofBlockParams blockParams ++ " \x7d".toList

def ofPositional : List Argument → List Text
  | [] => []
  | a :: rest => ofArgument a :: ofPositional rest

def ofNamed : List (Text × Argument) → List Text
  | [] => []
  | (name, a) :: rest =>
    ("(".toList ++ name.quote ++ ", ".toList ++ ofArgument a ++ ")".toList) :: ofNamed rest

end

end TemplateTag.Inspect
