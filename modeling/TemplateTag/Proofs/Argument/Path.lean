import TemplateTag.Proofs.Reading.Syntax
import TemplateTag.Proofs.Text.Search
/-!
# The parts of a path

What the reading of a path takes off a text before its names are looked at: blanks at the ends, steps
up in front (`readPath_stepsUp`) and marks `./` anywhere (`dropHereMarks_eq_self_iff`).
-/
namespace TemplateTag

/-- Steps up as a path starts with them. -/
def stepsUp (levels : Nat) : Text :=
  (List.replicate levels "../".toList).flatten

theorem stepsUp_succ (levels : Nat) : stepsUp (levels + 1) = '.' :: '.' :: '/' :: stepsUp levels := by
  rw [stepsUp, List.replicate_succ, List.flatten_cons]
  rfl

theorem mem_stepsUp {levels : Nat} : ∀ c ∈ stepsUp levels, c = '.' ∨ c = '/' := by
  induction levels with
  | zero => simp [stepsUp]
  | succ levels ih => simpa [stepsUp_succ] using ih

theorem ink_stepsUp {levels : Nat} : ∀ c ∈ stepsUp levels, isBlank c = false := by
  intro c hc
  rcases mem_stepsUp c hc with rfl | rfl <;> decide

theorem splitParents_suffix (t : Text) : (splitParents t).2 <:+ t := by
  fun_induction splitParents t with
  | case1 t n rest h ih =>
    rw [h] at ih
    exact ih.trans ⟨"../".toList, rfl⟩
  | case2 t _ => exact List.suffix_refl t

theorem splitParents_stepsUp (levels : Nat) {rest : Text} (h : ¬"../".toList <+: rest) :
    splitParents (stepsUp levels ++ rest) = (levels, rest) := by
  induction levels with
  | zero =>
    rw [splitParents]
    · rfl
    · intro t ht
      exact h ⟨t, ht.symm⟩
  | succ levels ih => rw [stepsUp_succ, List.cons_append, List.cons_append, List.cons_append,
      splitParents, ih]

theorem Text.trim_eq_self {t : Text} (hhead : ∀ c ∈ t.head?, isBlank c = false)
    (hlast : ∀ c ∈ t.getLast?, isBlank c = false) : t.trim = t := by
  have hdrop {u : Text} (hu : ∀ c ∈ u.head?, isBlank c = false) : u.dropWhile isBlank = u := by
    cases u with
    | nil => rfl
    | cons c u => simp [hu c rfl]
  rw [trim, hdrop hhead, trimEnd, hdrop (by simpa using hlast), List.reverse_reverse]

theorem Text.trim_of_ink {t : Text} (ht : ∀ c ∈ t, isBlank c = false) : t.trim = t :=
  trim_eq_self (fun c hc => ht c (List.mem_of_head? hc)) fun c hc => ht c (List.mem_of_getLast? hc)

theorem Text.trim_stepsUp_append (levels : Nat) {rest : Text}
    (hhead : ∀ c ∈ rest.head?, isBlank c = false) (hlast : ∀ c ∈ rest.getLast?, isBlank c = false) :
    Text.trim (stepsUp levels ++ rest) = stepsUp levels ++ rest := by
  apply trim_eq_self
  · cases levels with
    | zero => exact hhead
    | succ levels => simp [stepsUp_succ, isBlank]
  · intro c hc
    rw [List.getLast?_append] at hc
    cases hrest : rest.getLast? with
    | some d =>
      obtain rfl : d = c := by simpa [hrest] using hc
      exact hlast d hrest
    | none =>
      rw [hrest, Option.none_or] at hc
      exact ink_stepsUp c (List.mem_of_getLast? hc)

/-- A path is read with its steps up counted and taken off. -/
theorem readPath_stepsUp (d : Dialect) (head : Bool) (levels : Nat) {rest : Text}
    (hhead : ∀ c ∈ rest.head?, isBlank c = false ∧ c ≠ '.')
    (hlast : ∀ c ∈ rest.getLast?, isBlank c = false) :
    readPath d head (stepsUp levels ++ rest) =
      { value := pathArgument d head levels rest
        report :=
          { diagnostics :=
              if 0 < levels && !d.parentAccess then [.parentAccess (stepsUp levels ++ rest)] else []
            usage := { parents := levels } } } := by
  have htrim : Text.trim (stepsUp levels ++ rest) = stepsUp levels ++ rest :=
    Text.trim_stepsUp_append levels (fun c hc => (hhead c hc).1) hlast
  have hpoint (t : Text) : rest ≠ '.' :: t := by
    rintro rfl
    exact (hhead '.' rfl).2 rfl
  have hparent : stepsUp levels ++ rest ≠ "..".toList := by
    cases levels with
    | zero => exact hpoint ['.']
    | succ levels => simp [stepsUp_succ]
  have hparts : pathParts (stepsUp levels ++ rest) = (levels, rest) := by
    rw [pathParts, htrim, if_neg hparent, splitParents_stepsUp levels]
    rintro ⟨t, rfl⟩
    exact hpoint _ rfl
  simp only [readPath_eq, hparts, htrim]

section HereMarks

theorem dropHereMarks_sublist (t : Text) : (dropHereMarks t).Sublist t := by
  fun_induction dropHereMarks t with
  | case1 => exact List.Sublist.refl []
  | case2 t ih => exact (ih.cons _).cons _
  | case3 c t _ ih => exact ih.cons_cons c

theorem dropHereMarks_append {s t : Text} (h : t.head? ≠ some '/') :
    dropHereMarks (s ++ t) = dropHereMarks s ++ dropHereMarks t := by
  fun_induction dropHereMarks s with
  | case1 => rfl
  | case2 s ih => rw [List.cons_append, List.cons_append, dropHereMarks, ih]
  | case3 c s hmark ih =>
    rw [List.cons_append, dropHereMarks, ih, List.cons_append]
    rintro rest rfl hrest
    cases s with
    | nil => exact h (by rw [List.nil_append] at hrest; rw [hrest]; rfl)
    | cons d s =>
      rw [List.cons_append, List.cons.injEq] at hrest
      exact hmark s rfl (by rw [hrest.1])

theorem dropHereMarks_eq_self_iff {t : Text} : dropHereMarks t = t ↔ ¬"./".toList <:+: t := by
  fun_induction dropHereMarks t with
  | case1 => simp
  | case2 t ih =>
    have hmark : "./".toList <:+: '.' :: '/' :: t := ⟨[], t, rfl⟩
    have hlength := (dropHereMarks_sublist t).length_le
    refine ⟨fun h => ?_, fun h => absurd hmark h⟩
    have h' := congrArg List.length h
    simp only [List.length_cons] at h'
    omega
  | case3 c t hmark ih =>
    have hmissing : ¬"./".toList <+: c :: t := by
      rintro ⟨rest, hrest⟩
      obtain ⟨rfl, rfl⟩ := List.cons.inj hrest
      exact hmark rest rfl rfl
    rw [List.cons.injEq, List.infix_cons_iff, ih, not_or]
    exact ⟨fun h => ⟨hmissing, h.2⟩, fun h => ⟨rfl, h.2⟩⟩

theorem dropHereMarks_of_not_mem {t : Text} {c : Char} (hc : c ∈ "./".toList) (h : c ∉ t) :
    dropHereMarks t = t :=
  dropHereMarks_eq_self_iff.mpr fun hmark => h (hmark.subset hc)

end HereMarks

/-- The names of a path are those of its steps that do not mean the current context. It starts from
the current context if the text says so and there are names, but no steps up. -/
theorem pathArgument_of_steps {d : Dialect} (hd : d.stringParams = false) (head : Bool)
    (levels : Nat) {rest : Text} {steps : List Step}
    (hsteps : Step.ofText d.advancedVariables (dropHereMarks rest) = steps) {names : List Text}
    (hnames : (steps.filter (! ·.isThis d)).map Step.name = names) :
    pathArgument d head levels rest =
      if (rest.hasInfix "./".toList = true ∨ ∃ s ∈ steps, s.isThis d = true) ∧ levels = 0 ∧
          names ≠ [] then
        .path 0 (.current :: names.map .name)
      else .path levels (names.map .name) := by
  simp only [pathArgument, hsteps, hnames, hd, Bool.false_and, Bool.false_eq_true, if_false,
    Bool.and_eq_true, Bool.or_eq_true, List.any_eq_true, decide_eq_true_eq, Bool.not_eq_true',
    List.isEmpty_eq_false_iff, and_assoc]

end TemplateTag
