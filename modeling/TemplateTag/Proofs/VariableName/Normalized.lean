import TemplateTag.Proofs.Argument.Path
import TemplateTag.Proofs.Text.Brackets
import TemplateTag.Proofs.Text.Search
import TemplateTag.VariableName
/-!
# Normalized names

A name is normalized by masking the content of its brackets and taking off its steps up, in either
order (`normalized_eq`). What a bracketed part hides does not change by what follows it.
-/
namespace TemplateTag

/-- The glyph with its content masked. -/
def Glyph.masked : Glyph → Text
  | plain c => [c]
  | bracketed _ => "[XXX]".toList

namespace VariableName

/-- The text with harmless content in its brackets. -/
def masked (t : Text) : Text :=
  (Glyph.ofText Glyph.closesLater t).flatMap Glyph.masked

variable {s t : Text}

theorem flatMap_masked_plain (t : Text) : (t.map Glyph.plain).flatMap Glyph.masked = t := by
  induction t with
  | nil => rfl
  | cons c t ih => rw [List.map_cons, List.flatMap_cons, ih]; rfl

theorem masked_append (h : '[' ∉ s) (t : Text) : masked (s ++ t) = s ++ masked t := by
  rw [masked, Glyph.ofText_append _ h, List.flatMap_append, flatMap_masked_plain]
  rfl

theorem masked_bracketed {content : Text} (hne : content ≠ []) (h : ']' ∉ content) (t : Text) :
    masked ('[' :: (content ++ ']' :: t)) = "[XXX]".toList ++ masked t := by
  rw [masked, Glyph.ofText_bracketed hne h]
  rfl

theorem masked_append_unclosed (s : Text) (h : ']' ∉ t) : masked (s ++ t) = masked s ++ t := by
  rw [masked, Glyph.ofText_append_unclosed s h, List.flatMap_append, flatMap_masked_plain]
  rfl

theorem masked_append_of_close (h : s.BracketsClose) (t : Text) :
    masked (s ++ t) = masked s ++ masked t := by
  rw [masked, Glyph.ofText_append_of_close h, List.flatMap_append]
  rfl

theorem masked_cons {c : Char} (hc : c ≠ '[') (t : Text) : masked (c :: t) = c :: masked t :=
  masked_append (s := [c]) (by simpa using hc.symm) t

/-- A bracket either opens nothing, because a closing one comes next or none follows at all, or it
opens a part that is masked. -/
theorem masked_opening (t : Text) :
    (masked ('[' :: t) = '[' :: masked t ∧ (']' ∈ t → t.head? = some ']')) ∨
      ∃ content rest, t = content ++ ']' :: rest ∧
        masked ('[' :: t) = "[XXX]".toList ++ masked rest := by
  cases hopens : Glyph.closesLater t with
  | false =>
    refine .inl ⟨?_, fun hclosing => ?_⟩
    · rw [masked, Glyph.ofText, Glyph.scan, if_neg (by simp [hopens])]
      rfl
    · cases t with
      | nil => cases hclosing
      | cons c t => simpa [Glyph.closesLater, Text.startsIn, hclosing] using hopens
  | true =>
    simp only [Glyph.closesLater, Bool.and_eq_true, List.contains_eq_mem, decide_eq_true_eq,
      Bool.not_eq_true'] at hopens
    obtain ⟨content, rest, rfl, hcontent⟩ := List.eq_append_cons_of_mem hopens.2
    refine .inr ⟨content, rest, rfl, masked_bracketed ?_ hcontent rest⟩
    rintro rfl
    simp [Text.startsIn] at hopens

theorem masked_eq_cons {c : Char} {u : Text} (hc : c ≠ '[') (h : masked t = c :: u) :
    ∃ rest, t = c :: rest ∧ masked rest = u := by
  cases t with
  | nil => cases h
  | cons d t =>
    by_cases hd : d = '['
    · subst hd
      rcases masked_opening t with ⟨heq, -⟩ | ⟨content, rest, -, heq⟩ <;> rw [heq] at h <;>
        exact absurd (List.cons.inj h).1.symm hc
    · rw [masked_cons hd] at h
      obtain ⟨rfl, hu⟩ := List.cons.inj h
      exact ⟨t, rfl, hu⟩

theorem masked_eq_append_point {t u r : Text} (h : masked t = u ++ '.' :: r) :
    ∃ before after, t = before ++ '.' :: after ∧ masked after = r ∧
      (']' ∈ after → before.BracketsClose) := by
  match t with
  | [] => simp [masked, Glyph.ofText, Glyph.scan] at h
  | c :: t =>
    by_cases hc : c = '['
    · subst hc
      rcases masked_opening t with ⟨hplain, hnext⟩ | ⟨content, rest, rfl, hmasked⟩
      · rw [hplain] at h
        obtain ⟨v, -, ht⟩ := Text.exists_append_of_not_mem (s := ['[']) (by decide) h
        obtain ⟨before, after, rfl, hafter, hclose⟩ := masked_eq_append_point ht
        refine ⟨'[' :: before, after, rfl, hafter, fun hmem => (hclose hmem).cons fun _ => ?_⟩
        have hhead := hnext (by simp [hmem])
        cases before with
        | nil => simp at hhead
        | cons d before => simp_all
      · rw [hmasked] at h
        obtain ⟨v, -, hrest⟩ := Text.exists_append_of_not_mem (by decide) h
        obtain ⟨before, after, rfl, hafter, hclose⟩ := masked_eq_append_point hrest
        exact ⟨'[' :: (content ++ ']' :: before), after, by simp, hafter,
          fun hmem => (hclose hmem).append_closing ('[' :: content)⟩
    · rw [masked_cons hc] at h
      cases u with
      | nil =>
        obtain ⟨rfl, rfl⟩ := List.cons.inj h
        exact ⟨[], t, rfl, rfl, fun _ => Text.bracketsClose_nil⟩
      | cons d u =>
        obtain ⟨before, after, rfl, hafter, hclose⟩ := masked_eq_append_point (List.cons.inj h).2
        exact ⟨c :: before, after, rfl, hafter,
          fun hmem => (hclose hmem).cons fun heq => absurd heq hc⟩
termination_by t.length

theorem exists_masked_opening (t : Text) : ∃ u, masked ('[' :: t) = '[' :: u := by
  rcases masked_opening t with ⟨h, -⟩ | ⟨content, rest, -, h⟩
  · exact ⟨masked t, h⟩
  · exact ⟨"XXX]".toList ++ masked rest, h⟩

theorem masked_eq_append_opening {run u : Text} (hrun : '[' ∉ run)
    (h : masked t = run ++ '[' :: u) : ∃ after, t = run ++ '[' :: after := by
  induction run generalizing t with
  | nil =>
    cases t with
    | nil => cases h
    | cons c t =>
      by_cases hc : c = '['
      · exact ⟨t, by rw [hc]; rfl⟩
      · rw [masked_cons hc] at h
        exact absurd (List.cons.inj h).1 hc
  | cons c run ih =>
    rw [List.mem_cons, not_or] at hrun
    obtain ⟨t, rfl, ht⟩ := masked_eq_cons (Ne.symm hrun.1) h
    obtain ⟨after, rfl⟩ := ih hrun.2 ht
    exact ⟨after, rfl⟩

theorem dropParents_masked (t : Text) : dropParents (masked t) = masked (dropParents t) := by
  fun_induction dropParents t with
  | case1 t ih =>
    have hsteps : masked ('.' :: '.' :: '/' :: t) = '.' :: '.' :: '/' :: masked t :=
      masked_append (s := "../".toList) (by decide) t
    rw [hsteps, dropParents, ih]
  | case2 t h =>
    rw [dropParents]
    intro rest hrest
    obtain ⟨u, rfl, hu⟩ := masked_eq_cons (by decide) hrest
    obtain ⟨v, rfl, hv⟩ := masked_eq_cons (by decide) hu
    obtain ⟨w, rfl, -⟩ := masked_eq_cons (by decide) hv
    exact h w rfl

theorem normalized_eq (name : Text) : normalized name = masked (dropParents name) :=
  dropParents_masked name

theorem dropParents_append_cons {c : Char} (hc : c ∉ "../".toList) (s t : Text) :
    dropParents (s ++ c :: t) = dropParents s ++ c :: t := by
  fun_induction dropParents s with
  | case1 s ih => exact ih
  | case2 s h =>
    rw [dropParents]
    intro rest hrest
    have hsplit : s ++ c :: t = "../".toList ++ rest := hrest
    rcases List.append_eq_append_iff.mp hsplit with ⟨after, hsteps, hafter⟩ | ⟨after, rfl, -⟩
    · cases after with
      | nil => exact h [] (by simpa using hsteps.symm)
      | cons d after =>
        obtain ⟨rfl, -⟩ := List.cons.inj hafter
        exact hc (by rw [hsteps]; simp)
    · exact h after rfl

theorem dropParents_stepsUp_append (levels : Nat) {rest : Text} (h : ¬"../".toList <+: rest) :
    dropParents (stepsUp levels ++ rest) = rest := by
  induction levels with
  | zero =>
    rw [stepsUp, List.replicate_zero, List.flatten_nil, List.nil_append, dropParents]
    exact fun t ht => h ⟨t, ht.symm⟩
  | succ levels ih =>
    rwa [stepsUp_succ, List.cons_append, List.cons_append, List.cons_append, dropParents]

theorem exists_stepsUp_append (t : Text) : ∃ levels, t = stepsUp levels ++ dropParents t := by
  fun_induction dropParents t with
  | case1 t ih =>
    obtain ⟨levels, ht⟩ := ih
    refine ⟨levels + 1, ?_⟩
    rw [stepsUp_succ]
    exact congrArg ("../".toList ++ ·) ht
  | case2 t _ => exact ⟨0, rfl⟩

end VariableName

end TemplateTag
