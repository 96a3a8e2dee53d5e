import TemplateTag.Proofs.Text.Search
import TemplateTag.VariableName
/-!
# The tests of a name

What each of the tests that a name has to pass looks for: a bracket with a certain text on one side
of it.
-/
namespace TemplateTag.VariableName

variable {p q : Char → Bool} {name tag t : Text} {fault : NameFault}

theorem runThen_iff : runThen p q t = true ↔
    ∃ run c after, t = run ++ c :: after ∧ run ≠ [] ∧ (∀ d ∈ run, p d = true) ∧ q c = true := by
  induction t with
  | nil => simp [runThen]
  | cons d t ih =>
    simp only [runThen, Bool.and_eq_true, Bool.or_eq_true, ih]
    constructor
    · rintro ⟨hd, hstart | ⟨run, c, after, rfl, -, hrun, hc⟩⟩
      · cases t with
        | nil => cases hstart
        | cons c t => exact ⟨[d], c, t, rfl, by simp, by simpa using hd, hstart⟩
      · exact ⟨d :: run, c, after, rfl, by simp, List.forall_mem_cons.mpr ⟨hd, hrun⟩, hc⟩
    · rintro ⟨run, c, after, ht, hne, hrun, hc⟩
      obtain ⟨e, run, rfl⟩ := List.exists_cons_of_ne_nil hne
      obtain ⟨rfl, rfl⟩ := List.cons.inj ht
      obtain ⟨hd, hrun⟩ := List.forall_mem_cons.mp hrun
      refine ⟨hd, ?_⟩
      cases run with
      | nil => exact .inl hc
      | cons e run => exact .inr ⟨e :: run, c, after, rfl, by simp, hrun, hc⟩

theorem anySuffix_cons_iff {test : Text → Bool} (hnil : test [] = false) :
    t.anySuffix test = true ↔
      ∃ before c after, t = before ++ c :: after ∧ test (c :: after) = true := by
  rw [Text.anySuffix_iff]
  constructor
  · rintro ⟨s, ⟨before, rfl⟩, hs⟩
    cases s with
    | nil => simp [hnil] at hs
    | cons c after => exact ⟨before, c, after, rfl, hs⟩
  · rintro ⟨before, c, after, rfl, hs⟩
    exact ⟨c :: after, ⟨before, rfl⟩, hs⟩

theorem unopened_iff : unopened name = true ↔
    ∃ before b after, name = before ++ b :: after ∧ isBracket b = true ∧ before ≠ [] ∧
      ∀ c ∈ before, c ≠ '[' ∧ c ≠ '.' := by
  simp only [unopened, runThen_iff, Bool.and_eq_true, bne_iff_ne]
  grind

theorem unclosed_iff : unclosed name = true ↔
    ∃ before b after, name = before ++ b :: after ∧ isBracket b = true ∧ after ≠ [] ∧
      ∀ c ∈ after, c ≠ ']' ∧ c ≠ '.' := by
  rw [unclosed, anySuffix_cons_iff rfl]
  simp only [Bool.and_eq_true, Bool.not_eq_true', List.isEmpty_eq_false_iff, List.all_eq_true,
    bne_iff_ne, and_assoc]

theorem closedInside_iff : closedInside name = true ↔
    ∃ before run after, name = before ++ ']' :: (run ++ '.' :: after) ∧ run ≠ [] ∧
      ∀ c ∈ run, isBracket c = false ∧ c ≠ '.' := by
  rw [closedInside, anySuffix_cons_iff rfl]
  simp only [runThen_iff, Bool.and_eq_true, Bool.not_eq_true', bne_iff_ne, decide_eq_true_eq,
    beq_iff_eq]
  grind

theorem openedInside_iff : openedInside name = true ↔
    ∃ before run after, name = before ++ '.' :: (run ++ '[' :: after) ∧ run ≠ [] ∧
      ∀ c ∈ run, isBracket c = false ∧ c ≠ '.' := by
  rw [openedInside, anySuffix_cons_iff rfl]
  simp only [runThen_iff, Bool.and_eq_true, Bool.not_eq_true', bne_iff_ne, decide_eq_true_eq,
    beq_iff_eq]
  grind

theorem fault?_eq_brackets_iff : fault? name = some .brackets ↔
    unopened name = true ∨ unclosed name = true ∨ closedInside name = true ∨
      openedInside (normalized name) = true := by
  rw [fault?]
  split
  · next h => simpa [or_assoc] using h
  · next h =>
    have hbrackets := h
    simp only [Bool.or_eq_true, or_assoc] at hbrackets
    split <;> simp [hbrackets]

theorem fault?_eq_none_iff : fault? name = none ↔
    (unopened name = false ∧ unclosed name = false ∧ closedInside name = false ∧
      openedInside (normalized name) = false) ∧ (exposed name).any needsProtection = false := by
  rw [fault?]
  split
  · next h => grind
  · next h =>
    have hbrackets := h
    simp only [Bool.or_eq_true, not_or, Bool.not_eq_true, and_assoc] at hbrackets
    split <;> simp_all

theorem diagnostics_check_eq_nil : (check name tag).report.diagnostics = [] ↔ fault? name = none := by
  rw [check]
  cases fault? name <;> simp

theorem mem_diagnostics_check : .malformedName name tag fault ∈ (check name tag).report.diagnostics ↔
    fault? name = some fault := by
  rw [check]
  cases fault? name with
  | none => simp
  | some _ => simp [eq_comm]

end TemplateTag.VariableName
