/-!
# Text

A text is a list of characters. This module has the few operations on texts that every later
module shares: the class of blank characters, trimming, searching, and cutting at separators.
-/
namespace TemplateTag

/-- Template text, character by character. -/
abbrev Text := List Char

/-- The characters with the property White_Space. -/
def isBlank (c : Char) : Bool :=
  let n := c.toNat
  (9 ≤ n && n ≤ 13) || n = 0x20 || n = 0x85 || n = 0xA0 || n = 0x1680 ||
    (0x2000 ≤ n && n ≤ 0x200A) || n = 0x2028 || n = 0x2029 || n = 0x202F || n = 0x205F ||
    n = 0x3000

namespace Text

/-- Does the text start with a character of the class? -/
def startsIn (p : Char → Bool) : Text → Bool
  | [] => false
  | c :: _ => p c

/-- Does the text end with the character? -/
def endsWith (t : Text) (c : Char) : Bool :=
  t.getLast? == some c

/-- The text without the blanks at its end. -/
def trimEnd (t : Text) : Text :=
  (t.reverse.dropWhile isBlank).reverse

/-- The text without the blanks at either end. -/
def trim (t : Text) : Text :=
  trimEnd (t.dropWhile isBlank)

/-- Does some part of the text, from one of its positions to its end, pass the test? -/
def anySuffix (test : Text → Bool) : Text → Bool
  | [] => test []
  | c :: t => test (c :: t) || anySuffix test t

/-- Does the pattern occur in the text? -/
def hasInfix (t pattern : Text) : Bool :=
  t.anySuffix pattern.isPrefixOf

/-- The maximal non-empty runs without a separator, in order. -/
def fields (separator : Char → Bool) (t : Text) : List Text :=
  (t.splitOnP separator).filter (! ·.isEmpty)

/-- The number of times the character repeats at the start of the text. -/
def runAtStart (c : Char) (t : Text) : Nat :=
  (t.takeWhile (· == c)).length

/-- The number of times the character repeats at the end of the text. -/
def runAtEnd (c : Char) (t : Text) : Nat :=
  runAtStart c t.reverse

/-- The size of the text in UTF-8 bytes. -/
def byteSize : Text → Nat
  | [] => 0
  | c :: t => c.utf8Size + byteSize t

theorem byteSize_append (s t : Text) : byteSize (s ++ t) = byteSize s + byteSize t := by
  induction s with
  | nil => simp [byteSize]
  | cons c s ih => rw [List.cons_append, byteSize, byteSize, ih, Nat.add_assoc]

/-- The longest end of the text that has at most the given number of bytes. -/
def lastBytes (limit : Nat) : Text → Text
  | [] => []
  | c :: t => if byteSize (c :: t) ≤ limit then c :: t else lastBytes limit t

/-- What lies between an opening and a closing mark, if the text starts with the one and ends with
the other and the two do not overlap. -/
def between? (t opening closing : Text) : Option Text := do
  let rest ← opening.isPrefixOf? t
  if closing.isSuffixOf rest then some (rest.take (rest.length - closing.length)) else none

/-- What lies between an opening and a closing mark, unless it is empty. -/
def filledBetween? (t opening closing : Text) : Option Text :=
  (t.between? opening closing).filter (! ·.isEmpty)

end Text

/-- The mark on either side of a text in escaped single quotes. -/
def escapedQuote : Text :=
  ['\\', '\'']

end TemplateTag
