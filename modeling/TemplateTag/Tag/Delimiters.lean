import TemplateTag.Text.Basic
/-!
# Delimiters

The marks around a tag, and how many braces may stand inside them.
-/
namespace TemplateTag

structure Delimiters where
  left : Text
  right : Text
  /-- The smallest number of braces inside either delimiter. -/
  fewestBraces : Nat
  /-- The largest number of braces inside either delimiter. -/
  mostBraces : Nat
  deriving DecidableEq

namespace Delimiters

/-- Delimiters with the braces that the state of the template asks for: exactly two in an active raw
block, up to two in a dialect with raw blocks, and otherwise at most one. -/
def build (rawBlocks rawBlockActive : Bool) (left right : Text) : Delimiters where
  left := left
  right := right
  fewestBraces := if rawBlockActive then 2 else 0
  mostBraces := if rawBlockActive || rawBlocks then 2 else 1

/-- The equals sign is kept for the tag that switches delimiters. -/
def isAllowed (left right : Text) : Bool :=
  !left.contains '=' && !right.contains '='

/-- The character that every tag starts with, unless the left delimiter is empty. -/
def firstChar? (d : Delimiters) : Option Char :=
  d.left.head?

end Delimiters

end TemplateTag
