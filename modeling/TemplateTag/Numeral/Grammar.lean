import TemplateTag.Text.DecimalDigit
/-!
# Numerals

A numeral is an optional sign, digits with an optional fraction or a fraction alone, and an optional
exponent. The decimal digits of every script are digits here; `isAscii` says whether only the usual
ten occur, and only then does the numeral denote a number.
-/
namespace TemplateTag

inductive Sign where
  | unsigned
  | plus
  | minus
  deriving DecidableEq

/-- Read the sign off the front of a text. -/
def Sign.split : Text → Sign × Text
  | '+' :: t => (.plus, t)
  | '-' :: t => (.minus, t)
  | t => (.unsigned, t)

structure Exponent where
  sign : Sign
  digits : Text
  deriving DecidableEq

structure Numeral where
  sign : Sign
  whole : Text
  /-- The digits after the point, if there is a point. -/
  fraction : Option Text
  exponent : Option Exponent
  deriving DecidableEq

namespace Numeral

/-- The digits after a point, if a point comes first, and the rest of the text. -/
def splitFraction : Text → Option Text × Text
  | '.' :: t => (some (t.takeWhile isDecimalDigit), t.dropWhile isDecimalDigit)
  | t => (none, t)

/-- Read a whole text as the end of a numeral: nothing, or an exponent. -/
def exponent? : Text → Option (Option Exponent)
  | [] => some none
  | mark :: t =>
    let (sign, digits) := Sign.split t
    if (mark = 'e' || mark = 'E') && !digits.isEmpty && digits.all isDecimalDigit then
      some (some ⟨sign, digits⟩)
    else none

/-- Read a whole text as a numeral. -/
def ofText? (t : Text) : Option Numeral := do
  let (sign, t) := Sign.split t
  let whole := t.takeWhile isDecimalDigit
  let (fraction, t) := splitFraction (t.dropWhile isDecimalDigit)
  if whole.isEmpty && (fraction.getD []).isEmpty then none
  else
    let exponent ← exponent? t
    some { sign, whole, fraction, exponent }

/-- The digits before the exponent. -/
def digits (n : Numeral) : Text :=
  n.whole ++ n.fraction.getD []

/-- Are all digits among the usual ten? -/
def isAscii (n : Numeral) : Bool :=
  n.digits.all Char.isDigit && (n.exponent.map (·.digits.all Char.isDigit)).getD true

/-- Is there neither a point nor an exponent? -/
def isInteger (n : Numeral) : Bool :=
  n.fraction.isNone && n.exponent.isNone

/-- The digits before the exponent, read as one number. -/
def coefficient (n : Numeral) : Nat :=
  Nat.ofDigitChars 10 n.digits 0

/-- The power of ten that the coefficient is to be multiplied with. -/
def scale (n : Numeral) : Int :=
  let exponent : Int :=
    match n.exponent with
    | none => 0
    | some ⟨.minus, digits⟩ => -(Nat.ofDigitChars 10 digits 0 : Nat)
    | some ⟨_, digits⟩ => (Nat.ofDigitChars 10 digits 0 : Nat)
  exponent - (n.fraction.getD []).length

end Numeral

end TemplateTag
