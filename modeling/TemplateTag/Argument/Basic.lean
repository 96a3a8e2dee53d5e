import TemplateTag.Arguments
/-!
# Arguments

An argument is a path into the data, a literal, or a subexpression with arguments of its own.
`Argument.text` writes an argument the way a template could.
-/
namespace TemplateTag

/-- One step of a path. -/
inductive Segment where
  /-- The current context, written `this`. -/
  | current
  | name (name : Text)
  deriving DecidableEq

inductive LiteralKind where
  | number
  | string
  | keyword
  deriving DecidableEq

inductive Argument where
  /-- A path that leaves `levels` contexts and then follows the segments. -/
  | path (levels : Nat) (segments : List Segment)
  | literal (kind : LiteralKind) (text : Text)
  /-- A call, with its text in the template, parentheses included. -/
  | subexpression (source : Text) (args : Arguments Argument)

abbrev ArgumentList := Arguments Argument

def Segment.text : Segment → Text
  | current => "this".toList
  | name n => n

namespace Argument

/-- The path of one name in the current context. -/
def ofName (name : Text) : Argument :=
  .path 0 [.name name]

def text : Argument → Text
  | path levels segments =>
    (List.replicate levels "../".toList).flatten ++
      ['.'].intercalate (segments.map Segment.text)
  | literal _ text => text
  | subexpression source _ => source

/-- The helper that a call names with this argument in front: the first name of a path that starts
in the current context. -/
def helper? : Argument → Option Text
  | path 0 (.name n :: _) => some n
  | _ => none

/-- Is the argument the current context itself? -/
def isHere : Argument → Bool
  | path 0 [] => true
  | _ => false

end Argument

end TemplateTag
