import TemplateTag.Proofs.VariableName.Normalized
import TemplateTag.Proofs.VariableName.Tests
/-!
# Names with unpaired brackets

A bracket is noticed where a text stands on a certain side of it: in front of it in the first segment,
behind it in the last one, behind a closing one up to a point, or in front of an opening one from a
point on. A name is rejected for its brackets just if one of them is noticed, and an unpaired bracket
that stands at an end of its segment may not be.
-/
namespace TemplateTag.VariableName

/-- The bracket between the two texts has no partner in them. -/
def Unpaired (before : Text) (b : Char) (after : Text) : Prop :=
  b = '[' ∧ ']' ∉ after ∨ b = ']' ∧ '[' ∉ before

/-- How a bracket with a text on either side of it comes to be noticed. -/
inductive Noticed (before after : Text) : Char → Prop
  | first {b : Char} (hb : isBracket b = true) (hne : before ≠ [])
    (hsegment : ∀ c ∈ before, c ≠ '[' ∧ c ≠ '.') : Noticed before after b
  | last {b : Char} (hb : isBracket b = true) (hne : after ≠ [])
    (hsegment : ∀ c ∈ after, c ≠ ']' ∧ c ≠ '.') : Noticed before after b
  | closing {run rest : Text} (hafter : after = run ++ '.' :: rest) (hne : run ≠ [])
    (hrun : ∀ c ∈ run, isBracket c = false ∧ c ≠ '.') : Noticed before after ']'
  /-- The point is none of those in steps up. -/
  | opening {front run : Text} (hbefore : dropParents before = front ++ '.' :: run) (hne : run ≠ [])
    (hrun : ∀ c ∈ run, isBracket c = false ∧ c ≠ '.') : Noticed before after '['

variable {name t : Text}

theorem not_mem_run {run : Text} (hrun : ∀ c ∈ run, isBracket c = false ∧ c ≠ '.') {b : Char}
    (hb : isBracket b = true) : b ∉ run := by
  intro hmem
  rw [(hrun b hmem).1] at hb
  cases hb

theorem not_mem_stepsUp {levels : Nat} : '[' ∉ stepsUp levels :=
  fun hmem => absurd (mem_stepsUp '[' hmem) (by decide)

theorem openedInside_masked_iff : openedInside (masked t) = true ↔
    ∃ before run after, t = before ++ '.' :: (run ++ '[' :: after) ∧ run ≠ [] ∧
      (∀ c ∈ run, isBracket c = false ∧ c ≠ '.') ∧ (']' ∈ after → before.BracketsClose) := by
  rw [openedInside_iff]
  constructor
  · rintro ⟨u, run, v, ht, hne, hrun⟩
    obtain ⟨before, rest, rfl, hrest, hclose⟩ := masked_eq_append_point ht
    obtain ⟨after, rfl⟩ := masked_eq_append_opening (not_mem_run hrun rfl) hrest
    exact ⟨before, run, after, rfl, hne, hrun, fun hmem => hclose (by simp [hmem])⟩
  · rintro ⟨before, run, after, rfl, hne, hrun, hclose⟩
    by_cases hmem : ']' ∈ after
    · have hopen : '[' ∉ '.' :: run := by simp [not_mem_run hrun (b := '[') rfl]
      obtain ⟨u, hu⟩ := exists_masked_opening after
      refine ⟨masked before, run, u, ?_, hne, hrun⟩
      rw [masked_append_of_close (hclose hmem), ← List.cons_append, masked_append hopen, hu]
      rfl
    · have hclosing : ']' ∉ '.' :: (run ++ '[' :: after) := by
        simp [not_mem_run hrun (b := ']') rfl, hmem]
      exact ⟨masked before, run, after, masked_append_unclosed before hclosing, hne, hrun⟩

/-- A name is rejected for its brackets just if one of them is noticed, and not inside brackets. -/
theorem fault?_eq_brackets_iff_noticed : fault? name = some .brackets ↔
    ∃ before b after, name = before ++ b :: after ∧ Noticed before after b ∧
      (b = '[' → ']' ∈ after → before.BracketsClose) := by
  rw [fault?_eq_brackets_iff, unopened_iff, unclosed_iff, closedInside_iff, normalized_eq,
    openedInside_masked_iff]
  constructor
  · rintro (⟨before, b, after, rfl, hb, hne, hsegment⟩ | ⟨before, b, after, rfl, hb, hne, hsegment⟩ |
      ⟨before, run, after, rfl, hne, hrun⟩ | ⟨front, run, after, hname, hne, hrun, hclose⟩)
    · refine ⟨before, b, after, rfl, .first hb hne hsegment, fun _ _ => ?_⟩
      exact Text.bracketsClose_of_not_mem fun hmem => (hsegment '[' hmem).1 rfl
    · refine ⟨before, b, after, rfl, .last hb hne hsegment, fun _ hmem => ?_⟩
      exact absurd rfl (hsegment ']' hmem).1
    · exact ⟨before, ']', run ++ '.' :: after, rfl, .closing rfl hne hrun, fun heq => by cases heq⟩
    · obtain ⟨levels, hsteps⟩ := exists_stepsUp_append name
      obtain ⟨before, hbefore⟩ : ∃ before, before = stepsUp levels ++ (front ++ '.' :: run) := ⟨_, rfl⟩
      have hsplit : name = before ++ '[' :: after := by
        rw [hsteps, hname, hbefore]
        simp
      have hdrop : dropParents before = front ++ '.' :: run := by
        rw [hsplit, dropParents_append_cons (by decide)] at hname
        exact List.append_cancel_right (hname.trans (by simp))
      refine ⟨before, '[', after, hsplit, .opening hdrop hne hrun, fun _ hmem => ?_⟩
      have hopen : '[' ∉ '.' :: run := by simp [not_mem_run hrun (b := '[') rfl]
      rw [hbefore]
      exact (Text.bracketsClose_of_not_mem not_mem_stepsUp).append
        ((hclose hmem).append (Text.bracketsClose_of_not_mem hopen))
  · rintro ⟨before, b, after, rfl, hnoticed, hclose⟩
    cases hnoticed with
    | first hb hne hsegment => exact .inl ⟨before, b, after, rfl, hb, hne, hsegment⟩
    | last hb hne hsegment => exact .inr (.inl ⟨before, b, after, rfl, hb, hne, hsegment⟩)
    | closing hafter hne hrun =>
      subst hafter
      exact .inr (.inr (.inl ⟨before, _, _, rfl, hne, hrun⟩))
    | @opening front run hbefore hne hrun =>
      refine .inr (.inr (.inr ⟨front, run, after, ?_, hne, hrun, fun hmem => ?_⟩))
      · rw [dropParents_append_cons (by decide), hbefore]
        simp
      · obtain ⟨levels, hsteps⟩ := exists_stepsUp_append before
        have hfront := hclose rfl hmem
        rw [hsteps, hbefore] at hfront
        refine hfront.of_append_right.of_append_left ?_
        simp [not_mem_run hrun (b := ']') rfl]

/-- A name with an unpaired bracket is rejected if that bracket is noticed, and otherwise just if
another one is that is not inside brackets. -/
theorem rejects_unpaired {before after : Text} {b : Char} (h : Unpaired before b after) (tag : Text) :
    let name := before ++ b :: after
    let rejected := Diagnostic.malformedName name tag .brackets ∈ (check name tag).report.diagnostics
    (Noticed before after b → rejected) ∧
      (rejected ↔ ∃ u c v, name = u ++ c :: v ∧ Noticed u v c ∧
        (c = '[' → ']' ∈ v → u.BracketsClose)) := by
  intro name rejected
  have hrejected : rejected ↔ fault? name = some .brackets := mem_diagnostics_check
  rw [hrejected, fault?_eq_brackets_iff_noticed]
  refine ⟨fun hnoticed => ⟨before, b, after, rfl, hnoticed, ?_⟩, Iff.rfl⟩
  rintro rfl hclosing
  rcases h with ⟨-, hafter⟩ | ⟨heq, -⟩
  · exact absurd hclosing hafter
  · cases heq

theorem rejects_unpaired_inner :
    Unpaired "../a.b".toList '[' ".c".toList ∧
      .malformedName "../a.b[.c".toList [] .brackets ∈
        (check "../a.b[.c".toList []).report.diagnostics := by
  have h : Unpaired "../a.b".toList '[' ".c".toList := .inl ⟨rfl, by decide⟩
  have hbefore : dropParents "../a.b".toList = "a".toList ++ '.' :: "b".toList := by decide
  have hnoticed : Noticed "../a.b".toList ".c".toList '[' :=
    .opening hbefore (by decide) (by simp [isBracket])
  exact ⟨h, (rejects_unpaired h []).1 hnoticed⟩

/-- A closing bracket at the end of a later segment is not noticed, nor an opening one at the start of
an earlier one. -/
theorem rejects_unpaired_overlooked :
    (Unpaired "a.b".toList ']' [] ∧ (∀ c ∈ "a.b]".toList, isBlank c = false) ∧
      (check "a.b]".toList []).report.diagnostics = []) ∧
    Unpaired [] '[' "a.b".toList ∧ (∀ c ∈ "[a.b".toList, isBlank c = false) ∧
      (check "[a.b".toList []).report.diagnostics = [] := by
  refine ⟨⟨.inr ⟨rfl, by decide⟩, by simp [isBlank], by decide⟩, .inl ⟨rfl, by decide⟩,
    by simp [isBlank], by decide⟩

end TemplateTag.VariableName
