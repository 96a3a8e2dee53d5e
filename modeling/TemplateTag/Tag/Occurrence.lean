import TemplateTag.Tag.Basic
import TemplateTag.Tag.Delimiters
/-!
# Finding a tag

A text with a tag splits into the text and the blanks before the tag, the parts of the tag, and the
blanks and the text after it. Where several splits are possible the parts are settled from left to
right: the leading text and the inside of the tag are as short as possible, and every other part is
as long as possible.
-/
namespace TemplateTag

/-- A text split at a tag. -/
structure Occurrence where
  textBefore : Text
  spaceBefore : Text
  tag : Tag
  spaceAfter : Text
  textAfter : Text
  deriving DecidableEq

/-- The text that was split. -/
def Occurrence.source (o : Occurrence) : Text :=
  o.textBefore ++ o.spaceBefore ++ o.tag.text ++ o.spaceAfter ++ o.textAfter

namespace Delimiters

/-- Take between `fewest` and `most` characters of a class off the front of a text and read the
rest. As many are taken as let the rest be read. -/
def takeFor? {β : Type} (p : Char → Bool) (read : Text → Option β) :
    (fewest most : Nat) → Text → Option (Text × β)
  | fewest, _, [] => if fewest = 0 then (read []).map ([], ·) else none
  | fewest, most, c :: t =>
    match if 0 < most && p c then takeFor? p read (fewest - 1) (most - 1) t else none with
    | some (taken, b) => some (c :: taken, b)
    | none => if fewest = 0 then (read (c :: t)).map ([], ·) else none

/-- The control of blanks beside a tag. -/
def isControl (c : Char) : Bool :=
  c = '~'

def isOperator (c : Char) : Bool :=
  "^#/!&>*".toList.contains c

/-- What ends a tag, and the text after it. -/
structure Closing where
  braces : Text
  control : Text
  rest : Text
  deriving DecidableEq

/-- Close a tag at the front of a text. -/
def close? (d : Delimiters) (t : Text) : Option Closing :=
  (takeFor? (· == '\x7d') (takeFor? isControl d.right.isPrefixOf? 0 1) d.fewestBraces d.mostBraces
    t).map fun (braces, control, rest) => { braces, control, rest }

/-- The shortest inside of a tag that can be closed, with the closing. -/
def inside? (d : Delimiters) : Text → Option (Text × Closing)
  | [] => (d.close? []).map ([], ·)
  | c :: t =>
    match d.close? (c :: t) with
    | some closing => some ([], closing)
    | none => (d.inside? t).map fun (inner, closing) => (c :: inner, closing)

/-- The control, the braces and the operator after a left delimiter, with the inside and the
closing. -/
def open? (d : Delimiters) (t : Text) : Option (Text × Text × Text × Text × Closing) :=
  takeFor? isControl
    (takeFor? (· == '\x7b') (takeFor? isOperator d.inside? 0 2) d.fewestBraces d.mostBraces) 0 1 t

/-- The tag at the very front of a text. -/
def tagAtFront? (d : Delimiters) (t : Text) : Option Occurrence := do
  let rest ← d.left.isPrefixOf? t
  let (leftControl, leftBraces, operator, inner, closing) ← d.open? rest
  return {
    textBefore := []
    spaceBefore := []
    tag :=
      { left := d.left, leftControl, leftBraces, operator, inner
        rightBraces := closing.braces
        rightControl := closing.control
        right := d.right }
    spaceAfter := closing.rest.takeWhile isBlank
    textAfter := closing.rest.dropWhile isBlank }

/-- The tag after nothing but blanks, and as many of them as possible. -/
def tagAfterSpace? (d : Delimiters) (t : Text) : Option Occurrence :=
  (takeFor? isBlank d.tagAtFront? 0 t.length t).map fun (space, found) =>
    { found with spaceBefore := space }

/-- Find the first tag of a text. -/
def firstTag? (d : Delimiters) : Text → Option Occurrence
  | [] => d.tagAfterSpace? []
  | c :: t =>
    match d.tagAfterSpace? (c :: t) with
    | some found => some found
    | none => (d.firstTag? t).map fun found => { found with textBefore := c :: found.textBefore }

/-- Does the text contain a tag? -/
def hasTag (d : Delimiters) (t : Text) : Bool :=
  (d.firstTag? t).isSome

end Delimiters

end TemplateTag
