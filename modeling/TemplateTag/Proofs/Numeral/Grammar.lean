import TemplateTag.Proofs.Numeral.Integer
import TemplateTag.Proofs.Text.Search
/-!
# Numerals and their texts

A text is read as a numeral just if the numeral is made of decimal digits and the text is the one that
it is written as (`ofText?_eq_some`), where the mark of the exponent may be of either case. Whether
the digits are the usual ten can be seen on the text (`isAscii_of_ofText?_eq_some`).
-/
namespace TemplateTag

namespace Numeral

/-- The text of a fraction: nothing, or a point and digits. -/
def fractionText : Option Text → Text
  | none => []
  | some digits => '.' :: digits

/-- The text of an exponent: nothing, or its mark, a sign and digits. -/
def exponentText (mark : Char) : Option Exponent → Text
  | none => []
  | some e => mark :: (e.sign.text ++ e.digits)

/-- The text of a numeral with the given mark before its exponent. -/
def text (n : Numeral) (mark : Char) : Text :=
  n.sign.text ++ (n.whole ++ (fractionText n.fraction ++ exponentText mark n.exponent))

/-- An exponent, if there is one, has digits, and all of them are of the class. -/
def ExponentMadeOf (digit : Char → Bool) (exponent : Option Exponent) : Prop :=
  ∀ e ∈ exponent, e.digits ≠ [] ∧ ∀ c ∈ e.digits, digit c = true

/-- There are digits before the exponent and in it, and all of them are of the class. -/
structure MadeOf (digit : Char → Bool) (n : Numeral) : Prop where
  digits_ne_nil : n.digits ≠ []
  digits : ∀ c ∈ n.digits, digit c = true
  exponent : ExponentMadeOf digit n.exponent

section Exponents

variable {t : Text} {exponent : Option Exponent} {mark : Char}

theorem exponent?_exponentText (hmark : mark = 'e' ∨ mark = 'E')
    (h : ExponentMadeOf isDecimalDigit exponent) :
    exponent? (exponentText mark exponent) = some exponent := by
  cases exponent with
  | none => rfl
  | some e =>
    obtain ⟨hne, hdigits⟩ := h e rfl
    have hsplit : Sign.split (e.sign.text ++ e.digits) = (e.sign, e.digits) :=
      Sign.split_text_append fun c hc => ne_sign_of_isDecimalDigit (hdigits c (List.mem_of_head? hc))
    simp [exponentText, exponent?, hsplit, hmark, hne, List.all_eq_true.mpr hdigits]

theorem of_exponent?_eq_some (h : exponent? t = some exponent) :
    ExponentMadeOf isDecimalDigit exponent ∧
      ∃ mark, (mark = 'e' ∨ mark = 'E') ∧ t = exponentText mark exponent := by
  cases t with
  | nil =>
    obtain rfl := Option.some.inj h
    exact ⟨nofun, 'e', .inl rfl, rfl⟩
  | cons mark t =>
    rw [exponent?] at h
    rcases hsplit : Sign.split t with ⟨sign, digits⟩
    rw [hsplit] at h
    simp only [Option.ite_none_right_eq_some, Bool.and_eq_true, Bool.or_eq_true,
      decide_eq_true_eq, Bool.not_eq_true', List.isEmpty_eq_false_iff, Option.some.injEq] at h
    obtain ⟨⟨⟨hmark, hne⟩, hall⟩, rfl⟩ := h
    refine ⟨?_, mark, hmark, ?_⟩
    · intro e he
      obtain rfl := Option.some.inj he
      exact ⟨hne, List.all_eq_true.mp hall⟩
    · rw [exponentText, ← Sign.eq_of_split hsplit]

theorem head_exponentText (hmark : mark = 'e' ∨ mark = 'E') :
    ∀ c ∈ (exponentText mark exponent).head?, isDecimalDigit c = false ∧ c ≠ '.' := by
  cases exponent with
  | none => nofun
  | some e =>
    intro c hc
    obtain rfl := Option.some.inj hc
    rcases hmark with rfl | rfl <;> decide

end Exponents

section Fractions

variable {t rest : Text} {fraction : Option Text}

theorem splitFraction_append (hfraction : ∀ c ∈ fraction.getD [], isDecimalDigit c = true)
    (hrest : ∀ c ∈ rest.head?, isDecimalDigit c = false ∧ c ≠ '.') :
    splitFraction (fractionText fraction ++ rest) = (fraction, rest) := by
  cases fraction with
  | none =>
    cases rest with
    | nil => rfl
    | cons c rest => simp [fractionText, splitFraction, (hrest c rfl).2]
  | some digits =>
    obtain ⟨htake, hdrop⟩ := Text.span_append hfraction fun c hc => (hrest c hc).1
    simp only [Option.getD_some] at htake hdrop
    simp [fractionText, splitFraction, htake, hdrop]

theorem of_splitFraction (h : splitFraction t = (fraction, rest)) :
    (∀ c ∈ fraction.getD [], isDecimalDigit c = true) ∧ t = fractionText fraction ++ rest := by
  unfold splitFraction at h
  split at h
  · cases h
    refine ⟨List.all_eq_true.mp List.all_takeWhile, ?_⟩
    rw [fractionText, List.cons_append, List.takeWhile_append_dropWhile]
  · cases h
    exact ⟨nofun, rfl⟩

theorem head_fractionText (hrest : ∀ c ∈ rest.head?, isDecimalDigit c = false ∧ c ≠ '.') :
    ∀ c ∈ (fractionText fraction ++ rest).head?, isDecimalDigit c = false := by
  cases fraction with
  | none => exact fun c hc => (hrest c hc).1
  | some digits =>
    intro c hc
    obtain rfl := Option.some.inj hc
    decide

end Fractions

section Reading

variable {n : Numeral} {t : Text} {mark : Char}

theorem head_unsigned (h : n.MadeOf isDecimalDigit) (rest : Text) :
    ∀ c ∈ (n.whole ++ (fractionText n.fraction ++ rest)).head?, c ≠ '+' ∧ c ≠ '-' := by
  have hne := h.digits_ne_nil
  have hdigits := h.digits
  rw [Numeral.digits] at hne hdigits
  cases hwhole : n.whole with
  | cons d whole =>
    intro c hc
    obtain rfl := Option.some.inj hc
    exact ne_sign_of_isDecimalDigit (hdigits d (by simp [hwhole]))
  | nil =>
    cases hfraction : n.fraction with
    | none => simp [hwhole, hfraction] at hne
    | some digits =>
      intro c hc
      obtain rfl := Option.some.inj hc
      decide

theorem ofText?_text_mark (hmark : mark = 'e' ∨ mark = 'E') (h : n.MadeOf isDecimalDigit) :
    ofText? (n.text mark) = some n := by
  have hwhole : ∀ c ∈ n.whole, isDecimalDigit c = true :=
    fun c hc => h.digits c (List.mem_append_left _ hc)
  have hfraction : ∀ c ∈ n.fraction.getD [], isDecimalDigit c = true :=
    fun c hc => h.digits c (List.mem_append_right _ hc)
  have hexponent : ∀ c ∈ (exponentText mark n.exponent).head?, isDecimalDigit c = false ∧ c ≠ '.' :=
    head_exponentText hmark
  have hbehind : ∀ c ∈ (fractionText n.fraction ++ exponentText mark n.exponent).head?,
      isDecimalDigit c = false := head_fractionText hexponent
  obtain ⟨htake, hdrop⟩ := Text.span_append hwhole hbehind
  have hsign : Sign.split (n.text mark) =
      (n.sign, n.whole ++ (fractionText n.fraction ++ exponentText mark n.exponent)) :=
    Sign.split_text_append (head_unsigned h _)
  have hdigits : (n.whole.isEmpty && (n.fraction.getD []).isEmpty) = false := by
    have hne := h.digits_ne_nil
    rw [Numeral.digits, ne_eq, List.append_eq_nil_iff] at hne
    simpa using hne
  simp only [ofText?, hsign, htake, hdrop, splitFraction_append hfraction hexponent,
    exponent?_exponentText hmark h.exponent, hdigits]
  rfl

theorem of_ofText?_eq_some (h : ofText? t = some n) :
    n.MadeOf isDecimalDigit ∧ ∃ mark, (mark = 'e' ∨ mark = 'E') ∧ t = n.text mark := by
  rcases hsign : Sign.split t with ⟨sign, u⟩
  rcases hfraction : splitFraction (u.dropWhile isDecimalDigit) with ⟨fraction, v⟩
  simp only [ofText?, hsign, hfraction] at h
  split at h
  · cases h
  · next hne =>
    obtain ⟨exponent, hexponent, hn⟩ := Option.bind_eq_some_iff.mp h
    obtain rfl := Option.some.inj hn
    obtain ⟨hmade, mark, hmark, rfl⟩ := of_exponent?_eq_some hexponent
    obtain ⟨hdigits, hu⟩ := of_splitFraction hfraction
    refine ⟨⟨?_, ?_, hmade⟩, mark, hmark, ?_⟩
    · simpa [Numeral.digits] using hne
    · intro c hc
      rcases List.mem_append.mp hc with hc | hc
      · exact List.all_eq_true.mp List.all_takeWhile c hc
      · exact hdigits c hc
    · rw [text, ← hu, List.takeWhile_append_dropWhile]
      exact Sign.eq_of_split hsign

/-- A text is read as a numeral just if it is one that the numeral is written as. -/
theorem ofText?_eq_some : ofText? t = some n ↔
    n.MadeOf isDecimalDigit ∧ ∃ mark, (mark = 'e' ∨ mark = 'E') ∧ t = n.text mark := by
  refine ⟨of_ofText?_eq_some, ?_⟩
  rintro ⟨h, mark, hmark, rfl⟩
  exact ofText?_text_mark hmark h

end Reading

end Numeral

section Ascii

/-- All characters are among the first 128. -/
def Text.IsAscii (t : Text) : Prop :=
  ∀ c ∈ t, c.toNat < 128

instance (t : Text) : Decidable t.IsAscii :=
  List.decidableBAll (fun c : Char => c.toNat < 128) t

theorem Text.isAscii_cons {c : Char} {t : Text} :
    Text.IsAscii (c :: t) ↔ c.toNat < 128 ∧ t.IsAscii :=
  List.forall_mem_cons

theorem Text.isAscii_append {s t : Text} : Text.IsAscii (s ++ t) ↔ s.IsAscii ∧ t.IsAscii :=
  List.forall_mem_append

theorem Sign.isAscii_text (sign : Sign) : sign.text.IsAscii := by
  cases sign <;> decide

theorem isDigit_iff_of_isDecimalDigit {c : Char} (h : isDecimalDigit c = true) :
    c.isDigit = true ↔ c.toNat < 128 := by
  rw [Char.isDigit_iff_toNat]
  constructor
  · intro hdigit
    have hupper : c.toNat ≤ 57 := hdigit.2
    omega
  · intro hascii
    obtain ⟨z, hz, hvalue⟩ := List.any_eq_true.mp h
    have hother : ∀ z ∈ digitZeros, z = 48 ∨ 128 ≤ z := by decide
    simp only [Bool.and_eq_true, decide_eq_true_eq] at hvalue
    have hlower : 48 ≤ c.toNat ∧ c.toNat ≤ 57 := by
      have := hother z hz
      omega
    exact hlower

theorem forall_isDigit_iff {t : Text} (h : ∀ c ∈ t, isDecimalDigit c = true) :
    (∀ c ∈ t, c.isDigit = true) ↔ t.IsAscii :=
  forall₂_congr fun c hc => isDigit_iff_of_isDecimalDigit (h c hc)

namespace Numeral

variable {n : Numeral} {mark : Char}

theorem MadeOf.mono {p q : Char → Bool} (hpq : ∀ c, p c = true → q c = true) (h : n.MadeOf p) :
    n.MadeOf q where
  digits_ne_nil := h.digits_ne_nil
  digits := fun c hc => hpq c (h.digits c hc)
  exponent := fun e he => ⟨(h.exponent e he).1, fun c hc => hpq c ((h.exponent e he).2 c hc)⟩

theorem MadeOf.isDecimalDigit (h : n.MadeOf Char.isDigit) : n.MadeOf isDecimalDigit :=
  h.mono fun _ => isDecimalDigit_of_isDigit

theorem isAscii_iff (h : n.MadeOf isDecimalDigit) : n.isAscii = true ↔ n.MadeOf Char.isDigit := by
  have hexponent : (n.exponent.map (·.digits.all Char.isDigit)).getD true = true ↔
      ∀ e ∈ n.exponent, ∀ c ∈ e.digits, c.isDigit = true := by
    cases n.exponent <;> simp
  rw [isAscii, Bool.and_eq_true, hexponent, List.all_eq_true]
  exact ⟨fun hascii => ⟨h.digits_ne_nil, hascii.1, fun e he => ⟨(h.exponent e he).1, hascii.2 e he⟩⟩,
    fun hdigits => ⟨hdigits.digits, fun e he => (hdigits.exponent e he).2⟩⟩

theorem isAscii_fractionText {fraction : Option Text} :
    (fractionText fraction).IsAscii ↔ Text.IsAscii (fraction.getD []) := by
  cases fraction with
  | none => rfl
  | some digits => exact Text.isAscii_cons.trans (and_iff_right (by decide))

theorem isAscii_exponentText (hmark : mark = 'e' ∨ mark = 'E') {exponent : Option Exponent} :
    (exponentText mark exponent).IsAscii ↔ ∀ e ∈ exponent, e.digits.IsAscii := by
  cases exponent with
  | none => simp [exponentText, Text.IsAscii]
  | some e =>
    have hascii : mark.toNat < 128 := by
      rcases hmark with rfl | rfl <;> decide
    rw [exponentText, Text.isAscii_cons, Text.isAscii_append]
    simp [hascii, e.sign.isAscii_text]

/-- The digits of a numeral are the only characters of its text that can be unusual. -/
theorem madeOf_isDigit_iff (h : n.MadeOf isDecimalDigit) (hmark : mark = 'e' ∨ mark = 'E') :
    n.MadeOf Char.isDigit ↔ (n.text mark).IsAscii := by
  have hdigits := forall_isDigit_iff h.digits
  have hexponent : ExponentMadeOf Char.isDigit n.exponent ↔ ∀ e ∈ n.exponent, e.digits.IsAscii :=
    forall₂_congr fun e he => by
      rw [← forall_isDigit_iff (h.exponent e he).2]
      exact and_iff_right (h.exponent e he).1
  have htext : (n.text mark).IsAscii ↔ n.digits.IsAscii ∧ ∀ e ∈ n.exponent, e.digits.IsAscii := by
    rw [text, Text.isAscii_append, Text.isAscii_append, Text.isAscii_append, isAscii_fractionText,
      isAscii_exponentText hmark, ← and_assoc (a := n.whole.IsAscii), ← Text.isAscii_append]
    exact and_iff_right n.sign.isAscii_text
  rw [htext, ← hdigits, ← hexponent]
  exact ⟨fun hmade => ⟨hmade.digits, hmade.exponent⟩,
    fun hmade => ⟨h.digits_ne_nil, hmade.1, hmade.2⟩⟩

theorem isAscii_of_ofText?_eq_some {t : Text} (h : ofText? t = some n) :
    n.isAscii = true ↔ t.IsAscii := by
  obtain ⟨hmade, mark, hmark, rfl⟩ := of_ofText?_eq_some h
  rw [isAscii_iff hmade, madeOf_isDigit_iff hmade hmark]

end Numeral

/-- The text is a numeral in the usual ten digits. -/
def Text.IsAsciiNumeral (t : Text) : Prop :=
  ∃ n : Numeral, n.MadeOf Char.isDigit ∧ ∃ mark, (mark = 'e' ∨ mark = 'E') ∧ t = n.text mark

theorem Text.IsAsciiNumeral.isAscii {t : Text} (h : t.IsAsciiNumeral) : t.IsAscii := by
  obtain ⟨n, hdigits, mark, hmark, rfl⟩ := h
  exact (Numeral.madeOf_isDigit_iff hdigits.isDecimalDigit hmark).mp hdigits

end Ascii

end TemplateTag
