import TemplateTag.Text.Brackets
/-!
# Bracketed parts of a text

What the reading of a text finds in it: brackets that open nothing are characters like any other, and
a part in brackets is found whole in front of any text.
-/
namespace TemplateTag.Glyph

variable (opens : Text → Bool) {s t : Text}

theorem ofText_of_unopened (h : ∀ before after, t = before ++ '[' :: after → opens after = false) :
    ofText opens t = t.map .plain := by
  rw [ofText]
  induction t with
  | nil => rfl
  | cons c t ih =>
    have hopens : ¬(c = '[' && opens t) = true := by
      rintro hopen
      simp only [Bool.and_eq_true, decide_eq_true_eq] at hopen
      rw [h [] t (by rw [hopen.1]; rfl)] at hopen
      cases hopen.2
    rw [scan, if_neg hopens, ih fun before after heq => h (c :: before) after (by rw [heq]; rfl)]
    rfl

theorem ofText_append (h : '[' ∉ s) (t : Text) :
    ofText opens (s ++ t) = s.map .plain ++ ofText opens t := by
  rw [ofText, ofText]
  induction s with
  | nil => rfl
  | cons c s ih =>
    have hc : c ≠ '[' := fun heq => h (by simp [heq])
    have hs : '[' ∉ s := fun hmem => h (List.mem_cons_of_mem c hmem)
    rw [List.cons_append, scan]
    simp [hc, ih hs]

theorem scan_inside {content : Text} (h : ']' ∉ content) (t : Text) :
    scan opens .inside (content ++ ']' :: t) = (content, ofText opens t) := by
  induction content with
  | nil => rfl
  | cons c content ih =>
    have hc : c ≠ ']' := fun heq => h (by simp [heq])
    rw [List.cons_append, scan, if_neg hc, ih fun hmem => h (List.mem_cons_of_mem c hmem)]

/-- A bracketed part goes up to the first closing bracket after the first character of its content. -/
theorem ofText_opened {opens : Text → Bool} {c : Char} {content : Text} (h : ']' ∉ content)
    (hopens : opens (c :: (content ++ ']' :: t)) = true) :
    ofText opens ('[' :: c :: (content ++ ']' :: t)) = .bracketed (c :: content) :: ofText opens t := by
  rw [ofText, scan, if_pos (by rw [hopens]; rfl), scan, scan_inside opens h]

theorem ofText_bracketed {content : Text} (hne : content ≠ []) (h : ']' ∉ content) (t : Text) :
    ofText closesLater ('[' :: (content ++ ']' :: t)) =
      .bracketed content :: ofText closesLater t := by
  obtain ⟨c, content, rfl⟩ := List.exists_cons_of_ne_nil hne
  rw [List.mem_cons, not_or] at h
  apply ofText_opened h.2
  simp [closesLater, Text.startsIn, Ne.symm h.1]

/-- The reading of a front does not depend on what follows it if the same brackets open a part. -/
private theorem scan_append (t s : Text)
    (h : ∀ before after, s = before ++ '[' :: after → closesLater (after ++ t) = closesLater after) :
    (scan closesLater .outside (s ++ t)).2 = (scan closesLater .outside s).2 ++ ofText closesLater t ∧
      (']' ∈ s → scan closesLater .inside (s ++ t) =
        ((scan closesLater .inside s).1, (scan closesLater .inside s).2 ++ ofText closesLater t)) := by
  induction s with
  | nil => exact ⟨rfl, by simp⟩
  | cons c s ih =>
    have ih := ih fun before after hs => h (c :: before) after (by rw [hs]; rfl)
    constructor
    · rw [List.cons_append, scan, scan]
      by_cases hc : c = '['
      · subst hc
        rw [h [] s rfl]
        cases hopens : closesLater s with
        | false =>
          simp only [Bool.and_false, Bool.false_eq_true, if_false, ih.1]
          rfl
        | true =>
          simp only [closesLater, Bool.and_eq_true, List.contains_eq_mem, decide_eq_true_eq,
            Bool.not_eq_true'] at hopens
          obtain ⟨hstart, hclosing⟩ := hopens
          cases s with
          | nil => cases hclosing
          | cons d s =>
            have hd : d ≠ ']' := by simpa [Text.startsIn] using hstart
            have hinside := ih.2 hclosing
            rw [List.cons_append, scan, scan, if_neg hd, if_neg hd] at hinside
            simp only [Prod.mk.injEq, List.cons.injEq, true_and] at hinside
            simp [scan, hinside.1, hinside.2]
      · simp only [hc, decide_false, Bool.false_and, Bool.false_eq_true, if_false, ih.1]
        rfl
    · intro hclosing
      rw [List.cons_append, scan, scan]
      split
      · rw [ih.1]
      · next hc => rw [ih.2 (by simpa [Ne.symm hc] using hclosing)]

theorem ofText_append_unclosed (s : Text) (h : ']' ∉ t) :
    ofText closesLater (s ++ t) = ofText closesLater s ++ t.map .plain := by
  have hplain : ofText closesLater t = t.map .plain := by
    apply ofText_of_unopened
    rintro before after rfl
    have hafter : ']' ∉ after := fun hmem => h (by simp [hmem])
    simp [closesLater, hafter]
  rw [ofText, (scan_append t s ?_).1, hplain]
  · rfl
  · rintro before after -
    cases after with
    | nil => simp [closesLater, h]
    | cons c after => simp [closesLater, Text.startsIn, h]

end TemplateTag.Glyph

namespace TemplateTag

namespace Text

/-- Every opening bracket of the text has a closing one behind it. -/
def BracketsClose (t : Text) : Prop :=
  ∀ before after, t = before ++ '[' :: after → ']' ∈ after

theorem bracketsClose_nil : BracketsClose [] :=
  fun _ _ h => by simp at h

theorem BracketsClose.cons {c : Char} {t : Text} (h : t.BracketsClose) (hc : c = '[' → ']' ∈ t) :
    BracketsClose (c :: t) := by
  intro before after ht
  cases before with
  | nil =>
    obtain ⟨rfl, rfl⟩ := List.cons.inj ht
    exact hc rfl
  | cons d before => exact h before after (List.cons.inj ht).2

theorem bracketsClose_of_not_mem {t : Text} (h : '[' ∉ t) : t.BracketsClose :=
  fun before after ht => absurd (by simp [ht]) h

theorem BracketsClose.append {s t : Text} (hs : s.BracketsClose) (ht : t.BracketsClose) :
    BracketsClose (s ++ t) := by
  induction s with
  | nil => exact ht
  | cons c s ih =>
    refine (ih fun before after h => hs (c :: before) after (by rw [h]; rfl)).cons ?_
    rintro rfl
    exact List.mem_append_left t (hs [] s rfl)

theorem BracketsClose.of_append_left {s t : Text} (h : BracketsClose (s ++ t)) (ht : ']' ∉ t) :
    s.BracketsClose := by
  rintro before after rfl
  have hmem := h before (after ++ t) (by simp)
  exact (List.mem_append.mp hmem).resolve_right ht

theorem BracketsClose.of_append_right {s t : Text} (h : BracketsClose (s ++ t)) :
    t.BracketsClose := by
  rintro before after rfl
  exact h (s ++ before) after (by simp)

theorem BracketsClose.append_closing {t : Text} (h : t.BracketsClose) (s : Text) :
    BracketsClose (s ++ ']' :: t) := by
  induction s with
  | nil => exact h.cons fun heq => absurd heq (by decide)
  | cons c s ih => exact ih.cons fun _ => by simp

end Text

theorem Glyph.ofText_append_of_close {s : Text} (h : s.BracketsClose) (t : Text) :
    ofText closesLater (s ++ t) = ofText closesLater s ++ ofText closesLater t := by
  apply (scan_append t s ?_).1
  intro before after hs
  have hclosing := h before after hs
  cases after with
  | nil => cases hclosing
  | cons c after =>
    have hlater : ']' ∈ c :: (after ++ t) := List.mem_append_left t hclosing
    simp only [closesLater, Text.startsIn, List.contains_eq_mem, hclosing, hlater, List.cons_append]

end TemplateTag
