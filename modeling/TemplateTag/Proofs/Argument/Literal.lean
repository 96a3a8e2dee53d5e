import TemplateTag.Argument.Literal
import TemplateTag.Proofs.Text.Search
import TemplateTag.RawArgument.Shape
/-!
# Texts that are no literals

A text is no literal if it is no numeral and no keyword and does not start like a quoted text. No call
is one, nor is a text with a closing bracket that does not start like a quoted one.
-/
namespace TemplateTag

theorem Numeral.ofText?_of_head {c : Char} (hplus : c ≠ '+') (hminus : c ≠ '-') (hpoint : c ≠ '.')
    (hdigit : isDecimalDigit c = false) (t : Text) : Numeral.ofText? (c :: t) = none := by
  have hsign : Sign.split (c :: t) = (.unsigned, c :: t) := by simp [Sign.split, hplus, hminus]
  have hfraction : splitFraction (c :: t) = (none, c :: t) := by simp [splitFraction, hpoint]
  simp [ofText?, hsign, hdigit, hfraction]

theorem literal?_eq_none {c : Char} {t : Text} (hnumeral : Numeral.ofText? (c :: t) = none)
    (hdouble : c ≠ '"') (hescaped : c ≠ '\\') (hkeyword : c :: t ∉ keywords) :
    literal? (c :: t) = none := by
  have hstring : Text.between? (c :: t) ['"'] ['"'] = none :=
    Text.between?_of_head_ne hdouble t [] ['"']
  have hsingle : Text.between? (c :: t) escapedQuote escapedQuote = none :=
    Text.between?_of_head_ne hescaped t ['\''] escapedQuote
  rw [literal?, hnumeral, hstring, hsingle, if_neg (by simpa using hkeyword)]

theorem literal?_of_isCall {raw : Text} (h : isCall raw = true) : literal? raw = none := by
  obtain ⟨content, hcontent⟩ := Option.isSome_iff_exists.mp h
  obtain ⟨rfl, -⟩ := Text.filledBetween?_eq_some.mp hcontent
  apply literal?_eq_none ?_ (by decide) (by decide) (by simp [keywords])
  exact Numeral.ofText?_of_head (by decide) (by decide) (by decide) (by decide) (content ++ [')'])

section Closing

variable {t : Text} (h : ']' ∈ t)

include h

theorem Numeral.closing_mem_split : ']' ∈ (Sign.split t).2 := by
  unfold Sign.split
  split <;> simpa using h

theorem Numeral.closing_mem_dropWhile : ']' ∈ t.dropWhile isDecimalDigit := by
  rw [← List.takeWhile_append_dropWhile (p := isDecimalDigit) (l := t)] at h
  rcases List.mem_append.mp h with h | h
  · exact absurd (List.all_eq_true.mp List.all_takeWhile _ h) (by decide)
  · exact h

theorem Numeral.closing_mem_splitFraction : ']' ∈ (splitFraction t).2 := by
  unfold splitFraction
  split
  · exact closing_mem_dropWhile (by simpa using h)
  · exact h

theorem Numeral.exponent?_of_closing : exponent? t = none := by
  cases t with
  | nil => cases h
  | cons mark t =>
    rw [exponent?]
    rcases hsplit : Sign.split t with ⟨sign, digits⟩
    apply if_neg
    intro hall
    simp only [Bool.and_eq_true, Bool.or_eq_true, decide_eq_true_eq] at hall
    rcases List.mem_cons.mp h with rfl | h
    · rcases hall.1.1 with h | h <;> cases h
    · have hmem := closing_mem_split h
      rw [hsplit] at hmem
      have hdigit := List.all_eq_true.mp hall.2 _ hmem
      revert hdigit
      decide

theorem Numeral.ofText?_of_closing : ofText? t = none := by
  have hrest := closing_mem_dropWhile (closing_mem_split h)
  rw [ofText?]
  rcases hsplit : Sign.split t with ⟨sign, u⟩
  rw [hsplit] at hrest
  have hend := closing_mem_splitFraction hrest
  rcases hfraction : splitFraction (u.dropWhile isDecimalDigit) with ⟨fraction, v⟩
  rw [hfraction] at hend
  simp [hfraction, exponent?_of_closing hend]

theorem literal?_of_closing (hhead : ∀ c ∈ t.head?, c ≠ '"' ∧ c ≠ '\\') : literal? t = none := by
  obtain ⟨c, t, rfl⟩ := List.exists_cons_of_ne_nil (List.ne_nil_of_mem h)
  have hfree : ∀ word ∈ keywords, ']' ∉ word := by decide
  exact literal?_eq_none (Numeral.ofText?_of_closing h) (hhead c rfl).1 (hhead c rfl).2
    fun hmem => hfree (c :: t) hmem h

end Closing

end TemplateTag
