import TemplateTag.Argument.Path
import TemplateTag.Proofs.Text.Fields
/-!
# The names in a path

No name that a path is cut into is empty: a bracket that opens a part has something behind it, and
what stands between separators is left out if there is nothing.
-/
namespace TemplateTag

namespace Glyph

theorem ne_nil_of_mem_scan {opens : Text → Bool} (hopens : opens [] = false) (p : Place)
    (t : Text) : ∀ content, .bracketed content ∈ (scan opens p t).2 → content ≠ [] := by
  induction t generalizing p with
  | nil => cases p <;> simp [scan]
  | cons c t ih =>
    cases p with
    | outside =>
      rw [scan]
      split
      · next hopen =>
        intro content hmem
        rcases List.mem_cons.mp hmem with heq | hmem
        · cases t with
          | nil => simp [hopens] at hopen
          | cons d t =>
            cases heq
            simp [scan]
        · exact ih .entering content hmem
      · intro content hmem
        rcases List.mem_cons.mp hmem with heq | hmem
        · cases heq
        · exact ih .outside content hmem
    | entering => exact ih .inside
    | inside =>
      rw [scan]
      split
      · exact ih .outside
      · exact ih .inside

end Glyph

namespace Step

theorem name_ne_nil_consPlain {run : Text} {steps : List Step} (h : ∀ s ∈ steps, s.name ≠ []) :
    ∀ s ∈ consPlain run steps, s.name ≠ [] := by
  intro s hs
  rw [consPlain] at hs
  split at hs
  · exact h s hs
  · next hrun =>
    rcases List.mem_cons.mp hs with rfl | hs
    · simpa [name] using hrun
    · exact h s hs

theorem name_ne_nil_gather {glyphs : List Glyph}
    (h : ∀ content, .bracketed content ∈ glyphs → content ≠ []) :
    ∀ s ∈ (gather glyphs).2, s.name ≠ [] := by
  induction glyphs with
  | nil => simp [gather]
  | cons g glyphs ih =>
    have hsteps := ih fun content hmem => h content (List.mem_cons_of_mem g hmem)
    cases g with
    | plain c =>
      by_cases hends : (isSeparator c || c = '[' || c = ']') = true
      · simp only [gather, if_pos hends]
        exact name_ne_nil_consPlain hsteps
      · simp only [gather, if_neg hends]
        exact hsteps
    | bracketed content =>
      intro s hs
      rcases List.mem_cons.mp hs with rfl | hs
      · exact h content (List.mem_cons_self ..)
      · exact name_ne_nil_consPlain hsteps s hs

theorem name_ne_nil_ofText (advanced : Bool) (t : Text) :
    ∀ s ∈ ofText advanced t, s.name ≠ [] := by
  rw [ofText]
  split
  · have hopens : Glyph.closesLater [] = false := rfl
    have hglyphs := Glyph.ne_nil_of_mem_scan hopens .outside t
    exact name_ne_nil_consPlain (name_ne_nil_gather hglyphs)
  · intro s hs
    obtain ⟨field, hfield, rfl⟩ := List.mem_map.mp hs
    exact (Text.of_mem_fields hfield).1

end Step

theorem pathArgument_cases (d : Dialect) (head : Bool) (levels : Nat) (rest : Text) :
    (∃ content, pathArgument d head levels rest = .ofLiteral .string content) ∨
      ∃ names : List Text, (∀ name ∈ names, name ≠ []) ∧
        (pathArgument d head levels rest = .path levels (names.map .name) ∨
          levels = 0 ∧ names ≠ [] ∧
            pathArgument d head levels rest = .path 0 (.current :: names.map .name)) := by
  let steps := Step.ofText d.advancedVariables (dropHereMarks rest)
  let names := (steps.filter (! ·.isThis d)).map Step.name
  have hnames : ∀ name ∈ names, name ≠ [] := by
    intro name hname
    obtain ⟨s, hs, rfl⟩ := List.mem_map.mp hname
    exact Step.name_ne_nil_ofText _ _ s (List.mem_filter.mp hs).1
  rw [pathArgument]
  split
  · exact .inl ⟨_, rfl⟩
  · refine .inr ⟨names, hnames, ?_⟩
    split
    · next hhere =>
      simp only [Bool.and_eq_true, decide_eq_true_eq, Bool.not_eq_true', List.isEmpty_eq_false_iff]
        at hhere
      exact .inr ⟨hhere.1.2, hhere.2, rfl⟩
    · exact .inl rfl

end TemplateTag
