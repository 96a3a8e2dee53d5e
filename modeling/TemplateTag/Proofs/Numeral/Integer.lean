import Mathlib.Data.List.TakeWhile
import TemplateTag.Numeral.Canonical
/-!
# Integers

A sign and ASCII digits are a numeral, and its canonical text is a sign and ASCII digits again that
denote the same integer (`value_canonical`). It is the shortest such text just if the integer fits
into 64 bits or its digits have no zero in front already (`canonical_eq_ofInt_iff`).
-/
namespace TemplateTag

def Sign.text : Sign → Text
  | unsigned => []
  | plus => ['+']
  | minus => ['-']

section Signs

variable {sign : Sign} {t u : Text}

theorem Sign.split_text_append (hu : ∀ c ∈ u.head?, c ≠ '+' ∧ c ≠ '-') :
    Sign.split (sign.text ++ u) = (sign, u) := by
  cases sign with
  | plus => rfl
  | minus => rfl
  | unsigned =>
    cases u with
    | nil => rfl
    | cons c u =>
      obtain ⟨hplus, hminus⟩ := hu c rfl
      simp [Sign.text, Sign.split, hplus, hminus]

theorem Sign.eq_of_split (h : Sign.split t = (sign, u)) : t = sign.text ++ u := by
  unfold Sign.split at h
  split at h <;> (cases h; rfl)

theorem ne_sign_of_isDecimalDigit {c : Char} (h : isDecimalDigit c = true) : c ≠ '+' ∧ c ≠ '-' := by
  constructor <;> (rintro rfl; revert h; decide)

end Signs

/-- An optional sign and digits among the usual ten. -/
@[ext] structure SignedDigits where
  sign : Sign
  digits : Text
  ne_nil : digits ≠ []
  ascii : ∀ c ∈ digits, c.isDigit = true

/-- Does the integer fit into 64 bits with a sign? -/
def FitsWord (z : Int) : Prop :=
  -(Nat.pow 2 63 : Nat) ≤ z ∧ z < (Nat.pow 2 63 : Nat)

instance (z : Int) : Decidable (FitsWord z) :=
  inferInstanceAs (Decidable (_ ∧ _))

namespace SignedDigits

/-- The digits without superfluous zeros and the sign only if it is needed. -/
def ofInt (z : Int) : SignedDigits where
  sign := if z < 0 then .minus else .unsigned
  digits := Nat.toDigits 10 z.natAbs
  ne_nil := Nat.toDigits_ne_nil
  ascii := fun _ hc => Nat.isDigit_of_mem_toDigits (by decide) (by decide) hc

theorem sign_ofInt (z : Int) : (ofInt z).sign = if z < 0 then .minus else .unsigned := rfl

theorem digits_ofInt (z : Int) : (ofInt z).digits = Nat.toDigits 10 z.natAbs := rfl

section

variable (n : SignedDigits)

def text : Text :=
  n.sign.text ++ n.digits

def magnitude : Nat :=
  Nat.ofDigitChars 10 n.digits 0

/-- The integer that the text denotes. -/
def value : Int :=
  if n.sign = .minus then -n.magnitude else n.magnitude

def numeral : Numeral where
  sign := n.sign
  whole := n.digits
  fraction := none
  exponent := none

def withoutPlus : SignedDigits :=
  { n with sign := if n.sign = .plus then .unsigned else n.sign }

/-- An integer of up to 64 bits is written anew. A wider one keeps its digits, and if it is out of the
range of binary64 its sign, too. -/
def canonical : SignedDigits :=
  if FitsWord n.value then ofInt n.value
  else if (Binary64.nearest? n.magnitude 0).isSome then n.withoutPlus
  else n

end

section Value

variable {n : SignedDigits}

theorem natAbs_value : n.value.natAbs = n.magnitude := by
  rw [value]
  split <;> simp

theorem value_lt_zero_iff : n.value < 0 ↔ n.sign = .minus ∧ n.magnitude ≠ 0 := by
  rw [value]
  split
  · next hminus =>
    simp only [hminus, true_and]
    omega
  · next hminus => simp [hminus]

theorem value_ofInt (z : Int) : (ofInt z).value = z := by
  have hmagnitude : (ofInt z).magnitude = z.natAbs := Nat.ofDigitChars_ten_toDigits
  rw [value, hmagnitude, sign_ofInt]
  by_cases hz : z < 0
  · simp only [if_pos hz, if_true]
    omega
  · simp only [if_neg hz, reduceCtorEq, if_false]
    omega

theorem value_withoutPlus : n.withoutPlus.value = n.value := by
  have hsign : n.withoutPlus.sign = .minus ↔ n.sign = .minus := by
    rw [withoutPlus]
    split <;> simp_all
  simp only [value, hsign]
  rfl

/-- The integer is the same in the canonical text, whatever its width. -/
theorem value_canonical : n.canonical.value = n.value := by
  rw [canonical]
  split
  · exact value_ofInt n.value
  · split
    · exact value_withoutPlus
    · rfl

end Value

section Reading

variable {n m : SignedDigits}

theorem split_text : Sign.split n.text = (n.sign, n.digits) := by
  have hhead : ∀ c ∈ n.digits.head?, c ≠ '+' ∧ c ≠ '-' := fun c hc =>
    ne_sign_of_isDecimalDigit (isDecimalDigit_of_isDigit (n.ascii c (List.mem_of_head? hc)))
  exact Sign.split_text_append hhead

theorem ofText?_text : Numeral.ofText? n.text = some n.numeral := by
  have hdigits : ∀ c ∈ n.digits, isDecimalDigit c = true :=
    fun c hc => isDecimalDigit_of_isDigit (n.ascii c hc)
  have htake : n.digits.takeWhile isDecimalDigit = n.digits := List.takeWhile_eq_self_iff.mpr hdigits
  have hdrop : n.digits.dropWhile isDecimalDigit = [] := List.dropWhile_eq_nil_iff.mpr hdigits
  simp [Numeral.ofText?, split_text, htake, hdrop, Numeral.splitFraction, Numeral.exponent?, n.ne_nil,
    numeral]

theorem text_inj : n.text = m.text ↔ n = m := by
  refine ⟨fun h => ?_, fun h => by rw [h]⟩
  have hsplit : Sign.split n.text = Sign.split m.text := by rw [h]
  rw [split_text, split_text, Prod.mk.injEq] at hsplit
  exact SignedDigits.ext hsplit.1 hsplit.2

theorem coefficient_numeral : n.numeral.coefficient = n.magnitude :=
  congrArg (Nat.ofDigitChars 10 · 0) (List.append_nil n.digits)

theorem isWord_numeral : n.numeral.isWord = true ↔ FitsWord n.value := by
  have hinteger : n.numeral.isInteger = true := rfl
  have hsign : n.numeral.sign = n.sign := rfl
  have hpow : 0 < Nat.pow 2 63 := by decide
  rw [Numeral.isWord, hinteger, coefficient_numeral, hsign, Bool.true_and, decide_eq_true_eq,
    FitsWord, value]
  split <;> omega

theorem minusText_numeral : n.numeral.minusText = (ofInt n.value).sign.text := by
  have hminus : (n.numeral.sign = .minus && n.numeral.coefficient != 0) = true ↔ n.value < 0 := by
    rw [value_lt_zero_iff, coefficient_numeral, numeral]
    simp
  rw [Numeral.minusText, sign_ofInt]
  by_cases hneg : n.value < 0
  · rw [if_pos (hminus.mpr hneg), if_pos hneg]
    rfl
  · rw [if_neg (mt hminus.mp hneg), if_neg hneg]
    rfl

theorem sign_withoutPlus (h : n.magnitude ≠ 0) : n.withoutPlus.sign = (ofInt n.value).sign := by
  rw [withoutPlus, sign_ofInt]
  cases hsign : n.sign <;> simp [value_lt_zero_iff, hsign, h]

theorem magnitude_ne_zero (h : ¬FitsWord n.value) : n.magnitude ≠ 0 := by
  intro hzero
  apply h
  have hvalue : n.value = 0 := by simp [value, hzero]
  rw [hvalue]
  decide

theorem canonical_numeral : n.numeral.canonical n.text = n.canonical.text := by
  have hascii : n.numeral.isAscii = true := by
    have hall : n.numeral.digits.all Char.isDigit = true := by
      rw [show n.numeral.digits = n.digits from List.append_nil n.digits]
      exact List.all_eq_true.mpr n.ascii
    rw [Numeral.isAscii, hall]
    rfl
  have hinteger : n.numeral.isInteger = true := rfl
  have hscale : n.numeral.scale = 0 := rfl
  rw [Numeral.canonical, hascii, canonical, minusText_numeral, coefficient_numeral, hscale, hinteger]
  by_cases hword : FitsWord n.value
  · rw [isWord_numeral.mpr hword, if_pos hword, ← natAbs_value]
    rfl
  · rw [Bool.eq_false_iff.mpr (mt isWord_numeral.mp hword), if_neg hword]
    cases Binary64.nearest? n.magnitude 0 with
    | none => rfl
    | some _ =>
      rw [← sign_withoutPlus (magnitude_ne_zero hword)]
      rfl

end Reading

section Digits

theorem toDigits_digit {c : Char} (hc : c.isDigit = true) :
    Nat.toDigits 10 (c.toNat - '0'.toNat) = [c] := by
  obtain ⟨hlower, hupper⟩ := Char.isDigit_iff_toNat.mp hc
  have hlower' : 48 ≤ c.toNat := hlower
  have hupper' : c.toNat ≤ 57 := hupper
  have hzero : '0'.toNat = 48 := rfl
  rw [hzero, Nat.toDigits_of_lt_base (by omega), List.cons.injEq]
  refine ⟨Char.toNat_inj.mp ?_, rfl⟩
  rw [Nat.toNat_digitChar_of_lt_ten (by omega)]
  omega

theorem toDigits_append {k : Nat} (hk : 0 < k) {digits : Text}
    (h : ∀ c ∈ digits, c.isDigit = true) :
    Nat.toDigits 10 k ++ digits = Nat.toDigits 10 (Nat.ofDigitChars 10 digits k) := by
  induction digits generalizing k with
  | nil => exact List.append_nil _
  | cons c digits ih =>
    obtain ⟨hc, hdigits⟩ := List.forall_mem_cons.mp h
    have hlt : c.toNat - '0'.toNat < 10 := by
      have hupper : c.toNat ≤ 57 := (Char.isDigit_iff_toNat.mp hc).2
      have hzero : '0'.toNat = 48 := rfl
      omega
    calc
      Nat.toDigits 10 k ++ c :: digits
        = (Nat.toDigits 10 k ++ Nat.toDigits 10 (c.toNat - '0'.toNat)) ++ digits := by
        rw [toDigits_digit hc, List.append_assoc, List.singleton_append]
      _ = Nat.toDigits 10 (10 * k + (c.toNat - '0'.toNat)) ++ digits := by
        rw [Nat.toDigits_append_toDigits (by decide) hk hlt]
      _ = Nat.toDigits 10 (Nat.ofDigitChars 10 (c :: digits) k) := by
        rw [ih (by omega) hdigits, Nat.ofDigitChars_cons]

theorem toDigits_ofDigitChars {digits : Text} (h : ∀ c ∈ digits, c.isDigit = true)
    (hne : Nat.ofDigitChars 10 digits 0 ≠ 0) :
    Nat.toDigits 10 (Nat.ofDigitChars 10 digits 0) = digits.dropWhile (· == '0') := by
  induction digits with
  | nil => exact absurd rfl hne
  | cons c digits ih =>
    obtain ⟨hc, hdigits⟩ := List.forall_mem_cons.mp h
    by_cases hzero : c = '0'
    · subst hzero
      exact ih hdigits hne
    · have hpos : 0 < c.toNat - '0'.toNat := by
        have hlower : '0'.toNat ≤ c.toNat := (Char.isDigit_iff_toNat.mp hc).1
        have hne : c.toNat ≠ '0'.toNat := fun heq => hzero (Char.toNat_inj.mp heq)
        omega
      rw [List.dropWhile_cons_of_neg (by simpa using hzero), Nat.ofDigitChars_cons, Nat.mul_zero,
        Nat.zero_add, ← toDigits_append hpos hdigits, toDigits_digit hc]
      rfl

variable {n : SignedDigits}

/-- An integer that is not zero is written in its shortest form if there is neither a zero nor a plus
in front. -/
theorem eq_ofInt_iff (h : n.magnitude ≠ 0) :
    n = ofInt n.value ↔ n.digits.head? ≠ some '0' ∧ n.sign ≠ .plus := by
  have hdigits : (ofInt n.value).digits = n.digits.dropWhile (· == '0') := by
    rw [digits_ofInt, natAbs_value]
    exact toDigits_ofDigitChars n.ascii h
  have hshort : n.digits.dropWhile (· == '0') = n.digits ↔ n.digits.head? ≠ some '0' := by
    rw [List.dropWhile_eq_self_iff]
    cases n.digits <;> simp
  have hsign : n.sign = n.withoutPlus.sign ↔ n.sign ≠ .plus := by
    rw [withoutPlus]
    split <;> simp_all
  rw [SignedDigits.ext_iff, ← sign_withoutPlus h, hdigits, hsign, eq_comm (a := n.digits), hshort,
    and_comm]

theorem canonical_eq_ofInt_iff : n.canonical = ofInt n.value ↔
    FitsWord n.value ∨ n.digits.head? ≠ some '0' ∧
      (n.sign = .plus → (Binary64.nearest? n.magnitude 0).isSome = true) := by
  rw [canonical]
  by_cases hword : FitsWord n.value
  · simp [hword]
  · rw [if_neg hword]
    have hne := magnitude_ne_zero hword
    by_cases hfinite : (Binary64.nearest? n.magnitude 0).isSome = true
    · have hsign : n.withoutPlus.sign ≠ .plus := by
        rw [withoutPlus]
        split <;> simp_all
      have hwithout := eq_ofInt_iff (n := n.withoutPlus) hne
      rw [value_withoutPlus] at hwithout
      rw [if_pos hfinite, hwithout]
      simp only [hword, hfinite, hsign, false_or, ne_eq, not_false_eq_true, and_true, implies_true]
      rfl
    · rw [if_neg hfinite, eq_ofInt_iff hne]
      simp [hword, hfinite]

end Digits

end SignedDigits

end TemplateTag
