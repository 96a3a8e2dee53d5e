import TemplateTag.Numeral.Binary64
import TemplateTag.Text.Basic
/-!
# Shortest decimals

The text of a positive binary64 number is the decimal with the fewest digits that reads back as the
number. Of two such decimals the nearer one is taken, and the larger one if both are equally near.
It is written without an exponent.
-/
namespace TemplateTag.Binary64

/-- The multiple of `10 ^ scale` next to the magnitude that reads back as it, if there is one. -/
def readingBack? (magnitude : Nat) (scale : Int) : Option Nat :=
  let n := magnitude * Nat.pow 10 (-scale).toNat
  let d := Nat.pow 2 1074 * Nat.pow 10 scale.toNat
  let below := n / d
  let readsBack (k : Nat) : Bool := nearest? k scale == some magnitude
  if readsBack below && (2 * (n % d) < d || !readsBack (below + 1)) then some below
  else if readsBack (below + 1) then some (below + 1)
  else none

/-- The scales of decimals, from the largest that a finite number can have down to the one that
expresses every number exactly. -/
def scales : List Int :=
  (List.range 1384).map fun (i : Nat) => 309 - (i : Int)

/-- The coefficient and the scale of the shortest decimal. -/
def shortest (magnitude : Nat) : Nat × Int :=
  (scales.findSome? fun scale => (readingBack? magnitude scale).map (·, scale)).getD
    (magnitude * Nat.pow 5 1074, -1074)

/-- The decimal `coefficient * 10 ^ scale` without an exponent. -/
def positional (coefficient : Nat) (scale : Int) : Text :=
  let digits := Nat.toDigits 10 coefficient
  let places := (-scale).toNat
  if places = 0 then digits ++ List.replicate scale.toNat '0'
  else
    let digits := List.replicate (places + 1 - digits.length) '0' ++ digits
    digits.take (digits.length - places) ++ '.' :: digits.drop (digits.length - places)

/-- The text of a positive number. -/
def text (magnitude : Nat) : Text :=
  let (coefficient, scale) := shortest magnitude
  positional coefficient scale

end TemplateTag.Binary64
