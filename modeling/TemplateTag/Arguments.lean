import TemplateTag.Text.Basic
/-!
# Argument lists

The arguments of one tag: a sequence of positional ones, named ones in the order in which their
names first came up, and at most one list of block parameters. The three parts never influence each
other.
-/
namespace TemplateTag

structure Arguments (α : Type) where
  positional : List α := []
  named : List (Text × α) := []
  blockParams : Option (List Text) := none
  deriving DecidableEq

namespace Arguments

variable {α : Type}

/-- Bind a name in a list of bindings. A name that is there keeps its place. -/
def assign (name : Text) (a : α) : List (Text × α) → List (Text × α)
  | [] => [(name, a)]
  | (other, b) :: rest =>
    if other = name then (other, a) :: rest else (other, b) :: assign name a rest

def push (l : Arguments α) (a : α) : Arguments α :=
  { l with positional := l.positional ++ [a] }

def bindName (l : Arguments α) (name : Text) (a : α) : Arguments α :=
  { l with named := assign name a l.named }

def withBlockParams (l : Arguments α) (names : List Text) : Arguments α :=
  { l with blockParams := some names }

/-- Take the block parameters out of the list. -/
def takeBlockParams (l : Arguments α) : Option (List Text) × Arguments α :=
  (l.blockParams, { l with blockParams := none })

def get? (l : Arguments α) (index : Nat) : Option α :=
  l.positional[index]?

def lookup? (l : Arguments α) (name : Text) : Option α :=
  l.named.lookup name

def isEmpty (l : Arguments α) : Bool :=
  l.positional.isEmpty && l.named.isEmpty && l.blockParams.isNone

end Arguments

end TemplateTag
