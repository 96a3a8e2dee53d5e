import TemplateTag.Numeral.Grammar
import TemplateTag.Numeral.Shortest
/-!
# Canonical numerals

The text that stands for a numeral in an argument. An integer of up to 64 bits is written anew, and
a wider one keeps its digits. Every other numeral is written as the shortest decimal of its binary64
value. What has no finite value keeps its source text.
-/
namespace TemplateTag.Numeral

/-- Is the numeral an integer that fits into 64 bits with a sign? -/
def isWord (n : Numeral) : Bool :=
  n.isInteger && n.coefficient < if n.sign = .minus then Nat.pow 2 63 + 1 else Nat.pow 2 63

/-- A minus sign if the numeral has one and is not zero. -/
def minusText (n : Numeral) : Text :=
  if n.sign = .minus && n.coefficient != 0 then ['-'] else []

/-- The canonical text of a numeral that was read from `source`. -/
def canonical (n : Numeral) (source : Text) : Text :=
  if !n.isAscii then source
  else if n.isWord then n.minusText ++ Nat.toDigits 10 n.coefficient
  else
    match Binary64.nearest? n.coefficient n.scale with
    | none => source
    | some magnitude =>
      if n.isInteger then n.minusText ++ n.whole
      else if magnitude = 0 then ['0']
      else n.minusText ++ Binary64.text magnitude

end TemplateTag.Numeral
