import TemplateTag.Proofs.Argument.Literal
import TemplateTag.Proofs.Argument.Steps
import TemplateTag.Proofs.Context.Paths
/-!
# Paths with names in brackets

A path with a name in brackets is read with all its names as they are written, unless there is a mark
`./` between the brackets: the marks are dropped before the brackets are looked at.
-/
namespace TemplateTag

/-- A name that needs no brackets and does not start like a quoted text, or any text without a closing
bracket in brackets. -/
def Step.Proper (d : Dialect) : Step → Prop
  | plain name => BareName d name ∧ name.startsIn (fun c => c = '"' || c = '\\') = false
  | bracketed content => content ≠ [] ∧ ']' ∉ content

instance (d : Dialect) (s : Step) : Decidable (s.Proper d) := by
  cases s <;> exact inferInstanceAs (Decidable (_ ∧ _))

namespace Step.Proper

variable {d : Dialect} {s : Step} (h : s.Proper d)

include h

theorem readable : s.Readable := by
  cases s with
  | plain name => exact ⟨h.1.ne_nil, h.1.unmarked⟩
  | bracketed content => exact h.2

theorem name_ne_nil : s.name ≠ [] := by
  cases s with
  | plain name => exact h.1.ne_nil
  | bracketed content => exact h.1

theorem isThis_eq_false : s.isThis d = false := by
  cases s with
  | plain name => exact isThis_of_bareNames (List.forall_mem_singleton.mpr h.1) _ (by simp)
  | bracketed content => simp [isThis]

theorem head?_written : ∀ c ∈ s.written.head?,
    (isBlank c = false ∧ c ≠ '.') ∧ c ≠ '"' ∧ c ≠ '\\' := by
  intro c hc
  have hpoint := (Step.head?_written h.readable c hc).1
  cases s with
  | plain name =>
    obtain ⟨t, rfl⟩ := List.head?_eq_some_iff.mp hc
    have hquote := h.2
    simp only [Text.startsIn, Bool.or_eq_false_iff, decide_eq_false_iff_not] at hquote
    exact ⟨⟨h.1.ink c (List.mem_cons_self ..), hpoint⟩, hquote⟩
  | bracketed content =>
    obtain rfl : '[' = c := by simpa [written] using hc
    decide

theorem getLast?_written : ∀ c ∈ s.written.getLast?, isBlank c = false := by
  intro c hc
  cases s with
  | plain name => exact h.1.ink c (List.mem_of_getLast? hc)
  | bracketed content =>
    obtain rfl : ']' = c := by simpa [written, List.getLast?_cons] using hc
    decide

end Step.Proper

section Read

variable {d : Dialect} {steps : List Step} (h : ∀ s ∈ steps, s.Proper d)

include h

theorem forall_readable : ∀ s ∈ steps, s.Readable :=
  fun s hs => (h s hs).readable

theorem isThis_of_mem_kept : ∀ u ∈ Step.kept steps, u.isThis d = false := by
  intro u hu
  obtain ⟨s, hs, rfl⟩ := List.mem_map.mp (List.mem_filter.mp hu).1
  rw [Step.isThis_unmarked, (h s hs).isThis_eq_false]

theorem head?_join : ∀ c ∈ (Step.join steps).head?,
    (isBlank c = false ∧ c ≠ '.') ∧ c ≠ '"' ∧ c ≠ '\\' := by
  apply Text.head?_intercalate
  intro t ht
  obtain ⟨s, hs, rfl⟩ := List.mem_map.mp ht
  exact ⟨Step.written_ne_nil (h s hs).readable, (h s hs).head?_written⟩

theorem readPath_join (head : Bool) (levels : Nat) :
    (readPath d head (stepsUp levels ++ Step.join steps)).value =
      pathArgument d head levels (Step.join steps) := by
  rw [readPath_stepsUp]
  · exact fun c hc => (head?_join h c hc).1
  · apply Text.getLast?_intercalate
    intro t ht
    obtain ⟨s, hs, rfl⟩ := List.mem_map.mp ht
    exact ⟨Step.written_ne_nil (h s hs).readable, (h s hs).getLast?_written⟩

variable {content : Text} (hcontent : .bracketed content ∈ steps)

include hcontent

theorem literal?_join (levels : Nat) : literal? (stepsUp levels ++ Step.join steps) = none := by
  have hclosing : ']' ∈ Step.join steps :=
    (Step.written_infix_join hcontent).subset (by simp [Step.written])
  apply literal?_of_closing (List.mem_append_right _ hclosing)
  cases levels with
  | zero => exact fun c hc => (head?_join h c hc).2
  | succ levels => simp [stepsUp_succ]

/-- What is read of a path with brackets: its names without the marks, and from the current context
if there is a mark. -/
theorem pathArgument_join (hd : d.stringParams = false) (hadvanced : d.advancedVariables = true)
    (head : Bool) (levels : Nat) :
    let names := (Step.kept steps).map Step.name
    pathArgument d head levels (Step.join steps) =
      if (Step.join steps).hasInfix "./".toList = true ∧ levels = 0 ∧ names ≠ [] then
        .path 0 (.current :: names.map .name)
      else .path levels (names.map .name) := by
  intro names
  have hthis := isThis_of_mem_kept h
  have hnames : ((Step.kept steps).filter (! ·.isThis d)).map Step.name = names := by
    rw [List.filter_eq_self.mpr]
    intro u hu
    rw [hthis u hu, Bool.not_false]
  have hnone : ¬∃ u ∈ Step.kept steps, u.isThis d = true := by
    rintro ⟨u, hu, htrue⟩
    simp [hthis u hu] at htrue
  have hread := Step.ofText_join (forall_readable h) hcontent hadvanced
  rw [pathArgument_of_steps hd head levels hread hnames]
  simp only [hnone, or_false]

end Read

namespace Context

/-- A path with a name in brackets is read with its names as they are written just if no mark `./` is
in the brackets. -/
theorem readValue_join (ctx : Context) (hd : ctx.settings.dialect.stringParams = false)
    (hadvanced : ctx.settings.dialect.advancedVariables = true) (position : Position)
    (levels : Nat) {steps : List Step} (h : ∀ s ∈ steps, s.Proper ctx.settings.dialect)
    {content : Text} (hcontent : .bracketed content ∈ steps) :
    (ctx.readValue position (stepsUp levels ++ Step.join steps)).1 =
        .path levels (steps.map fun s => .name s.name) ↔
      ∀ content, .bracketed content ∈ steps → ¬"./".toList <:+: content := by
  have hvalue : (ctx.readValue position (stepsUp levels ++ Step.join steps)).1 =
      pathArgument ctx.settings.dialect position.isHead levels (Step.join steps) := by
    rw [readValue, absorb, TemplateTag.readValue, literal?_join h hcontent]
    exact readPath_join h position.isHead levels
  have hnames := Step.map_name_kept_iff fun s hs => (h s hs).name_ne_nil
  have hsegments : (steps.map fun s => Segment.name s.name) = (steps.map Step.name).map .name := by
    rw [List.map_map]
    rfl
  rw [hvalue, pathArgument_join h hcontent hd hadvanced, hsegments]
  constructor
  · intro hread
    apply hnames.mp
    split at hread
    · obtain ⟨s, rest, rfl⟩ := List.exists_cons_of_ne_nil (List.ne_nil_of_mem hcontent)
      cases hread
    · injection hread with _ hread
      exact (List.map_inj_right fun _ _ => Segment.name.inj).mp hread
  · intro hfree
    have hmark : ¬(Step.join steps).hasInfix "./".toList = true := by
      rw [Step.hasInfix_join (forall_readable h)]
      rintro ⟨content, hcontent, hin⟩
      exact hfree content hcontent hin
    rw [if_neg fun hall => hmark hall.1, hnames.mpr hfree]

theorem readValue_join_verbatim :
    let ctx := ofDialect .handlebars
    let steps : List Step :=
      [.plain "a-1".toList, .bracketed " this/.[b c".toList, .plain "e".toList]
    (∀ s ∈ steps, s.Proper ctx.settings.dialect) ∧
      (ctx.readValue (.positional 1) "../a-1.[ this/.[b c].e".toList).1 =
        .path 1 [.name "a-1".toList, .name " this/.[b c".toList, .name "e".toList] := by
  intro ctx steps
  have hsteps : ∀ s ∈ steps, s.Proper ctx.settings.dialect := by decide +kernel
  have hcontent : .bracketed " this/.[b c".toList ∈ steps := by simp [steps]
  have hfree : ∀ content, .bracketed content ∈ steps → ¬"./".toList <:+: content := by
    intro content hmem
    obtain rfl : content = " this/.[b c".toList := by simpa [steps] using hmem
    rw [← Text.hasInfix_iff]
    decide
  exact ⟨hsteps, (readValue_join ctx rfl rfl (.positional 1) 1 hsteps hcontent).mpr hfree⟩

/-- A mark in brackets is dropped like any other, and it makes the path start from the current
context. -/
theorem readValue_join_mark :
    let ctx := ofDialect .handlebars
    (ctx.readValue (.positional 1) "[a./b]".toList).1 = .path 0 [.current, .name "ab".toList] ∧
      (ctx.readValue (.positional 1) "../[./].c".toList).1 = .path 1 [.name "c".toList] :=
  ⟨rfl, rfl⟩

end Context

end TemplateTag
