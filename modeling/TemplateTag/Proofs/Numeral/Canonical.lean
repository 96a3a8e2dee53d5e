import TemplateTag.Proofs.Numeral.Grammar
import TemplateTag.Proofs.Numeral.Rounding
/-!
# Canonical texts of numerals

The canonical text of a numeral in the usual ten digits is a numeral in these digits again, and it is
its own canonical text (`isCanonicalNumeral_canonical`). An integer keeps its digits or is written in
the shortest form, and both stay as they are. A shortest decimal with a point reads back as the
number that it was written for, and one without a point is an integer in shortest form.
-/
namespace TemplateTag

/-- The text is a numeral in the usual ten digits and its own canonical text. -/
def Text.IsCanonicalNumeral (t : Text) : Prop :=
  ∃ n : Numeral, n.MadeOf Char.isDigit ∧ (∃ mark, (mark = 'e' ∨ mark = 'E') ∧ t = n.text mark) ∧
    n.canonical t = t

theorem Text.IsCanonicalNumeral.isAsciiNumeral {t : Text} (h : t.IsCanonicalNumeral) :
    t.IsAsciiNumeral := by
  obtain ⟨n, hdigits, ht, -⟩ := h
  exact ⟨n, hdigits, ht⟩

namespace Numeral

variable {n : Numeral}

theorem canonical_of_nearest? (hascii : n.isAscii = true) (hinteger : n.isInteger = false)
    {magnitude : Nat} (h : Binary64.nearest? n.coefficient n.scale = some magnitude) (source : Text) :
    n.canonical source = if magnitude = 0 then ['0'] else n.minusText ++ Binary64.text magnitude := by
  rw [canonical, hascii, isWord, hinteger, h]
  rfl

end Numeral

namespace SignedDigits

section Integers

variable {n : SignedDigits}

theorem withoutPlus_of_sign (h : n.sign ≠ .plus) : n.withoutPlus = n := by
  rw [withoutPlus, if_neg h]

theorem sign_withoutPlus_ne : n.withoutPlus.sign ≠ .plus := by
  rw [withoutPlus]
  split <;> simp_all

theorem canonical_ofInt {z : Int} (h : FitsWord z) : (ofInt z).canonical = ofInt z := by
  rw [canonical, value_ofInt, if_pos h]

theorem canonical_canonical : n.canonical.canonical = n.canonical := by
  have hvalue : n.canonical.value = n.value := value_canonical
  by_cases hword : FitsWord n.value
  · have hanew : n.canonical = ofInt n.value := by
      rw [canonical, if_pos hword]
    rw [hanew, canonical_ofInt hword]
  · by_cases hfinite : (Binary64.nearest? n.magnitude 0).isSome = true
    · have hshort : n.canonical = n.withoutPlus := by
        rw [canonical, if_neg hword, if_pos hfinite]
      rw [canonical, hvalue, if_neg hword, hshort, withoutPlus_of_sign sign_withoutPlus_ne]
      split <;> rfl
    · have hkept : n.canonical = n := by
        rw [canonical, if_neg hword, if_neg hfinite]
      rw [hkept, hkept]

theorem canonical_of_shortest (hne : n.magnitude ≠ 0) (hhead : n.digits.head? ≠ some '0')
    (hsign : n.sign ≠ .plus) : n.canonical = n := by
  have hshort : n = ofInt n.value := (eq_ofInt_iff hne).mpr ⟨hhead, hsign⟩
  rw [canonical, withoutPlus_of_sign hsign, ← hshort, ite_self, ite_self]

theorem madeOf_numeral : n.numeral.MadeOf Char.isDigit where
  digits_ne_nil := List.append_ne_nil_of_left_ne_nil n.ne_nil []
  digits := fun c hc => n.ascii c (by simpa [Numeral.digits, numeral] using hc)
  exponent := nofun

theorem text_numeral (mark : Char) : n.numeral.text mark = n.text := by
  simp [Numeral.text, numeral, Numeral.fractionText, Numeral.exponentText, text]

theorem isCanonicalNumeral_text (h : n.canonical = n) : n.text.IsCanonicalNumeral :=
  ⟨n.numeral, madeOf_numeral, ⟨'e', .inl rfl, (text_numeral 'e').symm⟩, by rw [canonical_numeral, h]⟩

theorem exists_numeral_eq {m : Numeral} (hdigits : m.MadeOf Char.isDigit)
    (hinteger : m.isInteger = true) : ∃ n : SignedDigits, n.numeral = m := by
  rcases m with ⟨sign, whole, fraction, exponent⟩
  rw [Numeral.isInteger, Bool.and_eq_true, Option.isNone_iff_eq_none, Option.isNone_iff_eq_none] at hinteger
  obtain ⟨rfl, rfl⟩ := hinteger
  have hwhole : Numeral.digits ⟨sign, whole, none, none⟩ = whole := List.append_nil whole
  exact ⟨⟨sign, whole, hwhole ▸ hdigits.digits_ne_nil, hwhole ▸ hdigits.digits⟩, rfl⟩

end Integers

end SignedDigits

section Decimals

variable {sign : Sign} {c : Nat} {scale : Int}

theorem head?_toDigits (hc : c ≠ 0) : (Nat.toDigits 10 c).head? ≠ some '0' := by
  have hdigits : ∀ d ∈ Nat.toDigits 10 c, d.isDigit = true :=
    fun d hd => Nat.isDigit_of_mem_toDigits (by decide) (by decide) hd
  have hdrop := SignedDigits.toDigits_ofDigitChars hdigits (by rwa [Nat.ofDigitChars_ten_toDigits])
  rw [Nat.ofDigitChars_ten_toDigits, eq_comm, List.dropWhile_eq_self_iff] at hdrop
  cases h : Nat.toDigits 10 c with
  | nil => exact nofun
  | cons d digits => simpa [h] using hdrop

/-- The integer that has zeros behind the digits of a number. -/
def SignedDigits.scaled (sign : Sign) (c zeros : Nat) : SignedDigits where
  sign := sign
  digits := Nat.toDigits 10 c ++ List.replicate zeros '0'
  ne_nil := List.append_ne_nil_of_left_ne_nil Nat.toDigits_ne_nil _
  ascii := by
    intro d hd
    rcases List.mem_append.mp hd with hd | hd
    · exact Nat.isDigit_of_mem_toDigits (by decide) (by decide) hd
    · rw [List.eq_of_mem_replicate hd]
      decide

theorem SignedDigits.canonical_scaled (hc : c ≠ 0) (hsign : sign ≠ .plus) (zeros : Nat) :
    (scaled sign c zeros).canonical = scaled sign c zeros := by
  have hmagnitude : (scaled sign c zeros).magnitude = 10 ^ zeros * c := by
    rw [magnitude, scaled, Nat.ofDigitChars_append, Nat.ofDigitChars_ten_toDigits,
      Nat.ofDigitChars_replicate_zero]
  have hne : (scaled sign c zeros).magnitude ≠ 0 := by
    rw [hmagnitude]
    exact Nat.mul_ne_zero (Nat.ne_of_gt (Nat.pow_pos (by decide))) hc
  have hhead : (scaled sign c zeros).digits.head? ≠ some '0' := by
    rw [scaled, List.head?_append, List.head?_eq_some_head Nat.toDigits_ne_nil, Option.some_or,
      ← List.head?_eq_some_head]
    exact head?_toDigits hc
  exact canonical_of_shortest hne hhead hsign

/-- The numeral that has a point in front of the last places of a number, with zeros before the number
as far as there would be no digit in front of the point. -/
def Numeral.decimal (sign : Sign) (c places : Nat) : Numeral :=
  let digits := List.replicate (places + 1 - (Nat.toDigits 10 c).length) '0' ++ Nat.toDigits 10 c
  { sign
    whole := digits.take (digits.length - places)
    fraction := some (digits.drop (digits.length - places))
    exponent := none }

namespace Numeral

variable {places : Nat}

theorem digits_decimal : (decimal sign c places).digits =
    List.replicate (places + 1 - (Nat.toDigits 10 c).length) '0' ++ Nat.toDigits 10 c :=
  List.take_append_drop _ _

theorem madeOf_decimal : (decimal sign c places).MadeOf Char.isDigit where
  digits_ne_nil := by
    rw [digits_decimal]
    exact List.append_ne_nil_of_right_ne_nil _ Nat.toDigits_ne_nil
  digits := by
    intro d hd
    rw [digits_decimal] at hd
    rcases List.mem_append.mp hd with hd | hd
    · rw [List.eq_of_mem_replicate hd]
      decide
    · exact Nat.isDigit_of_mem_toDigits (by decide) (by decide) hd
  exponent := nofun

theorem coefficient_decimal : (decimal sign c places).coefficient = c := by
  rw [coefficient, digits_decimal, Nat.ofDigitChars_append, Nat.ofDigitChars_replicate_zero,
    Nat.mul_zero, Nat.ofDigitChars_ten_toDigits]

theorem scale_decimal : (decimal sign c places).scale = -(places : Int) := by
  have hlength : ((decimal sign c places).fraction.getD []).length = places := by
    simp only [decimal, Option.getD_some, List.length_drop, List.length_append,
      List.length_replicate]
    omega
  rw [scale, hlength]
  simp [decimal]

theorem text_decimal (hplaces : places ≠ 0) (mark : Char) :
    (decimal sign c places).text mark = sign.text ++ Binary64.positional c (-(places : Int)) := by
  have hneg : (-(-(places : Int))).toNat = places := by omega
  simp only [text, decimal, fractionText, exponentText, Binary64.positional, hneg, if_neg hplaces,
    List.append_nil]

theorem minusText_decimal (hsign : sign ≠ .plus) (hc : c ≠ 0) :
    (decimal sign c places).minusText = sign.text := by
  have hcoefficient : ((decimal sign c places).coefficient != 0) = true := by
    rw [coefficient_decimal]
    exact bne_iff_ne.mpr hc
  rw [minusText, hcoefficient, Bool.and_true]
  cases sign with
  | unsigned => rfl
  | plus => exact absurd rfl hsign
  | minus => rfl

theorem canonical_decimal (hsign : sign ≠ .plus) (hc : c ≠ 0) {magnitude : Nat} (hpos : 0 < magnitude)
    (h : Binary64.nearest? c (-(places : Int)) = some magnitude) (source : Text) :
    (decimal sign c places).canonical source = sign.text ++ Binary64.text magnitude := by
  have hascii : (decimal sign c places).isAscii = true :=
    (isAscii_iff madeOf_decimal.isDecimalDigit).mpr madeOf_decimal
  have hnearest : Binary64.nearest? (decimal sign c places).coefficient (decimal sign c places).scale =
      some magnitude := by
    rw [coefficient_decimal, scale_decimal, h]
  rw [canonical_of_nearest? hascii rfl hnearest, if_neg (Nat.ne_of_gt hpos), minusText_decimal hsign hc]

end Numeral

/-- The shortest decimal of a number is canonical. -/
theorem isCanonicalNumeral_shortest {magnitude : Nat} (hsign : sign ≠ .plus) (hpos : 0 < magnitude)
    (h : Binary64.nearest? c scale = some magnitude) :
    (sign.text ++ Binary64.text magnitude).IsCanonicalNumeral := by
  have hreads := Binary64.nearest?_shortest h hpos
  rcases hshortest : Binary64.shortest magnitude with ⟨k, s⟩
  rw [hshortest] at hreads
  have htext : Binary64.text magnitude = Binary64.positional k s := by
    rw [Binary64.text, hshortest]
  have hk : k ≠ 0 := by
    rintro rfl
    rw [Binary64.nearest?_zero, Option.some.injEq] at hreads
    omega
  by_cases hplaces : (-s).toNat = 0
  · have hscaled : sign.text ++ Binary64.text magnitude =
        (SignedDigits.scaled sign k s.toNat).text := by
      rw [htext, Binary64.positional, if_pos hplaces]
      rfl
    rw [hscaled]
    exact SignedDigits.isCanonicalNumeral_text (SignedDigits.canonical_scaled hk hsign s.toNat)
  · have hs : -((-s).toNat : Int) = s := by omega
    have hdecimal : sign.text ++ Binary64.text magnitude =
        (Numeral.decimal sign k (-s).toNat).text 'e' := by
      rw [Numeral.text_decimal hplaces, htext, hs]
    exact ⟨.decimal sign k (-s).toNat, Numeral.madeOf_decimal, ⟨'e', .inl rfl, hdecimal⟩,
      Numeral.canonical_decimal hsign hk hpos (hs.symm ▸ hreads) _⟩

end Decimals

section Reading

variable {source : Text} {n : Numeral}

theorem Numeral.isCanonicalNumeral_canonical (h : ofText? source = some n)
    (hascii : n.isAscii = true) : (n.canonical source).IsCanonicalNumeral := by
  obtain ⟨hmade, mark, hmark, rfl⟩ := of_ofText?_eq_some h
  have hdigits : n.MadeOf Char.isDigit := (isAscii_iff hmade).mp hascii
  by_cases hinteger : n.isInteger = true
  · obtain ⟨k, rfl⟩ := SignedDigits.exists_numeral_eq hdigits hinteger
    rw [SignedDigits.text_numeral, SignedDigits.canonical_numeral]
    exact SignedDigits.isCanonicalNumeral_text SignedDigits.canonical_canonical
  · rw [Bool.not_eq_true] at hinteger
    cases hnearest : Binary64.nearest? n.coefficient n.scale with
    | none =>
      have hkept : n.canonical (n.text mark) = n.text mark := by
        rw [canonical, hascii, isWord, hinteger, hnearest]
        rfl
      exact hkept.symm ▸ ⟨n, hdigits, ⟨mark, hmark, rfl⟩, hkept⟩
    | some magnitude =>
      rw [canonical_of_nearest? hascii hinteger hnearest]
      split
      · have hzero : (SignedDigits.ofInt 0).canonical = .ofInt 0 :=
          SignedDigits.canonical_ofInt (by decide)
        exact SignedDigits.isCanonicalNumeral_text hzero
      · next hne =>
        have hminus : ∃ sign : Sign, sign ≠ .plus ∧ n.minusText = sign.text := by
          rw [minusText]
          split
          · exact ⟨.minus, by decide, rfl⟩
          · exact ⟨.unsigned, by decide, rfl⟩
        obtain ⟨sign, hsign, htext⟩ := hminus
        rw [htext]
        exact isCanonicalNumeral_shortest hsign (Nat.pos_of_ne_zero hne) hnearest

end Reading

end TemplateTag
