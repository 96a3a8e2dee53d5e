/-!
# Rounding to binary64

The magnitude of a finite binary64 number is a whole multiple of the smallest positive one,
`2⁻¹⁰⁷⁴`, and it is written here as that multiple. All arithmetic is exact until one division rounds
to the nearest, a tie to the even neighbour.
-/
namespace TemplateTag.Binary64

/-- The quotient rounded to the nearest whole number, a tie to the even one. -/
def divNearestEven (n d : Nat) : Nat :=
  let quotient := n / d
  let remainder := n % d
  if 2 * remainder < d ∨ (2 * remainder = d ∧ quotient % 2 = 0) then quotient else quotient + 1

/-- The first multiple that is out of range, `2¹⁰²⁴`. -/
def overflow : Nat :=
  Nat.pow 2 (1024 + 1074)

/-- The quotient rounded to a number with at most 53 significant bits. -/
def round (n d : Nat) : Nat :=
  let shift := (n / d).log2 + 1 - 53
  divNearestEven n (d * Nat.pow 2 shift) * Nat.pow 2 shift

/-- The magnitude nearest to `coefficient * 10 ^ scale`, or `none` if that is out of range. Scales
far outside the range are settled by the number of digits, so that no power gets large. -/
def nearest? (coefficient : Nat) (scale : Int) : Option Nat :=
  let size := (Nat.toDigits 10 coefficient).length + scale
  if coefficient = 0 ∨ size < -330 then some 0
  else if 330 < size then none
  else
    let magnitude :=
      round (coefficient * Nat.pow 10 scale.toNat * Nat.pow 2 1074) (Nat.pow 10 (-scale).toNat)
    if magnitude < overflow then some magnitude else none

end TemplateTag.Binary64
