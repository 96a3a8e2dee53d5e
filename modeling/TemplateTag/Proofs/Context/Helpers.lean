import TemplateTag.Context
import TemplateTag.Proofs.Reading.Tally
/-!
# Unknown helpers

A call that names no registered helper is reported when it is read. The reports match the calls that
stand in the arguments of the tag and in the argument that the name of a partial displaced.
-/
namespace TemplateTag

/-- What a call asks for in vain: the name of a helper that is not registered, or the text of a first
argument that names none. The current context alone asks for nothing. -/
def Settings.missingHelper? (s : Settings) : Argument → Option Text
  | .subexpression _ args =>
    (args.get? 0).bind fun head =>
      if head.isHere || head.helper?.any s.hasHelper then none
      else some (head.helper?.getD head.text)
  | _ => none

/-- The names of the unknown helpers that are reported, in order. -/
def Report.unknownHelpers (r : Report) : List Text :=
  r.diagnostics.filterMap Diagnostic.unknownHelper?

theorem Report.unknownHelpers_append (r r' : Report) :
    (r ++ r').unknownHelpers = r.unknownHelpers ++ r'.unknownHelpers :=
  List.filterMap_append

theorem unknownHelpers_readValue (d : Dialect) (position : Position) (source : Text) :
    (readValue d position source).report.unknownHelpers = [] := by
  rw [readValue]
  split
  · rfl
  · rw [readPath]
    generalize splitParents (if source.trim = "..".toList then "../".toList else source.trim) = up
    simp only [Reported.report_bind, Report.unknownHelpers_append]
    split <;> rfl

namespace Settings

variable {s : Settings}

theorem missingHelper?_eq_none_of_isPlain {a : Argument} (h : a.IsPlain) :
    s.missingHelper? a = none := by
  cases a with
  | subexpression source args => exact absurd rfl (h source args)
  | path levels segments => rfl
  | literal kind text => rfl

theorem unknownHelpers_checkHelper (h : s.dialect.arbitraryHelpers = false) (source : Text)
    (args : ArgumentList) :
    (s.checkHelper args).report.unknownHelpers =
      (s.missingHelper? (.subexpression source args)).toList := by
  rw [checkHelper, missingHelper?]
  cases args.get? 0 with
  | none => rfl
  | some head =>
    rw [Option.bind_some, h]
    by_cases hhere : head.isHere = true
    · simp [hhere, Report.unknownHelpers]
    · cases hname : head.helper? with
      | none => simp [hhere, hname, Report.unknownHelpers, Diagnostic.unknownHelper?]
      | some name =>
        by_cases hknown : s.hasHelper name = true <;>
          simp [hhere, hname, hknown, Report.unknownHelpers, Diagnostic.unknownHelper?]

theorem checkHelper_of_arbitraryHelpers (h : s.dialect.arbitraryHelpers = true)
    (args : ArgumentList) : s.checkHelper args = pure () := by
  rw [checkHelper]
  split
  · rfl
  · rw [h, Bool.true_or, if_pos rfl]

end Settings

namespace Tally

/-- The tally of the calls that ask for one unknown helper. -/
def unknownHelper (s : Settings) (name : Text) : Tally s where
  ofReport r := r.unknownHelpers.count name
  ofNode a :=
    if s.dialect.arbitraryHelpers then 0 else (s.missingHelper? a).toList.count name
  ofReport_empty := rfl
  ofReport_append r r' := by rw [Report.unknownHelpers_append, List.count_append]
  ofReport_diagnostic d h := by
    rw [Report.unknownHelpers, List.filterMap_cons_none h]
    rfl
  ofNode_ofName _ := by split <;> rfl
  ofNode_readValue_le position source := by
    rw [Settings.missingHelper?_eq_none_of_isPlain (isPlain_readValue s.dialect position source)]
    split <;> exact Nat.zero_le _
  ofNode_subexpression source args := by
    cases harbitrary : s.dialect.arbitraryHelpers with
    | true =>
      rw [Settings.checkHelper_of_arbitraryHelpers harbitrary]
      rfl
    | false =>
      rw [Settings.unknownHelpers_checkHelper harbitrary source]
      exact (Nat.zero_add _).symm

variable {s : Settings}

theorem unknownHelper_exact (name : Text) : (unknownHelper s name).Exact := by
  intro position source
  have hle := (unknownHelper s name).ofNode_readValue_le position source
  have hzero : (unknownHelper s name).ofReport (readValue s.dialect position source).report = 0 := by
    change List.count name (readValue s.dialect position source).report.unknownHelpers = 0
    rw [unknownHelpers_readValue, List.count_nil]
  omega

theorem total_unknownHelper (h : s.dialect.arbitraryHelpers = false) (name : Text)
    (nodes : List Argument) :
    (unknownHelper s name).total nodes = (nodes.filterMap s.missingHelper?).count name := by
  induction nodes with
  | nil => rfl
  | cons a nodes ih =>
    have hnode : (unknownHelper s name).ofNode a = (s.missingHelper? a).toList.count name := by
      change (if s.dialect.arbitraryHelpers = true then 0 else _) = _
      rw [h, if_neg (by decide)]
    rw [total, List.map_cons, List.sum_cons, hnode, List.filterMap_cons]
    rw [total] at ih
    rw [ih]
    cases s.missingHelper? a with
    | none => exact Nat.zero_add _
    | some missing => exact List.count_append.symm

theorem unknownHelper_silent (h : s.dialect.arbitraryHelpers = true) (name : Text) :
    (unknownHelper s name).Silent where
  value position source := by
    change List.count name (readValue s.dialect position source).report.unknownHelpers = 0
    rw [unknownHelpers_readValue, List.count_nil]
  call := rfl
  helper args := by
    rw [Settings.checkHelper_of_arbitraryHelpers h]
    rfl

end Tally

namespace Context

/-- Each call in the arguments of a tag that asks for an unknown helper has been reported. Unless a
name is bound twice in one list, nothing else has: the reports name, one for one, the helpers that
are asked for in vain by the calls in the arguments and in the argument that the name of a partial
displaced. A dialect with arbitrary helpers has no such reports. -/
theorem readTag_unknownHelpers (ctx : Context) (tag : Tag) :
    let reading := ctx.readTag tag
    let displaced := (ctx.settings.displaced? tag).toList.flatMap Argument.nodes
    ∃ added : Report, reading.2 = { ctx with report := ctx.report ++ added } ∧
      (ctx.settings.dialect.arbitraryHelpers = true → added.unknownHelpers = []) ∧
      (ctx.settings.dialect.arbitraryHelpers = false →
        (added.unknownHelpers = [] → ∀ source args, HasCall reading.1.args source args →
          ctx.settings.missingHelper? (.subexpression source args) = none) ∧
        (tag.NamesOnce ctx.settings.dialect ctx.settings.maxDepth →
          added.unknownHelpers.Perm
            ((reading.1.args.nodes ++ displaced).filterMap ctx.settings.missingHelper?))) := by
  intro reading displaced
  refine ⟨(ctx.settings.readTag tag).report, rfl, ?_, ?_⟩
  · intro harbitrary
    refine List.eq_nil_iff_forall_not_mem.mpr fun name hmem => ?_
    have hzero := (Tally.unknownHelper_silent harbitrary name).readTag tag
    exact absurd hmem (List.count_eq_zero.mp hzero)
  · intro harbitrary
    have hcount (name : Text) :=
      (Tally.unknownHelper ctx.settings name).atMost_readTag tag
    simp only [Tally.total_unknownHelper harbitrary] at hcount
    refine ⟨?_, ?_⟩
    · intro hnone source args hcall
      cases hmissing : ctx.settings.missingHelper? (.subexpression source args) with
      | none => rfl
      | some name =>
        have hmem : name ∈ (reading.1.args.nodes ++ displaced).filterMap
            ctx.settings.missingHelper? :=
          List.mem_filterMap.mpr ⟨_, List.mem_append_left _ (hasCall_iff.mp hcall), hmissing⟩
        have hpos := List.count_pos_iff.mpr hmem
        have hreported : 0 < List.count name (ctx.settings.readTag tag).report.unknownHelpers :=
          Nat.lt_of_lt_of_le hpos (hcount name).le
        rw [hnone, List.count_nil] at hreported
        exact absurd hreported (Nat.lt_irrefl 0)
    · intro hnames
      rw [List.perm_iff_count]
      intro name
      exact ((hcount name).eq ⟨Tally.unknownHelper_exact name, hnames⟩).symm

theorem readTag_unknownHelpers_nested :
    let ctx := (ofDialect .handlebars).withHelpers fun name => name == "now".toList
    let tag := Tag.ofInner "f (nope (now) k=(../up (this x)))".toList
    tag.NamesOnce .handlebars 64 ∧
      ∃ added : Report, (ctx.readTag tag).2 = { ctx with report := ctx.report ++ added } ∧
        added.unknownHelpers.Perm ["nope".toList, "../up".toList] := by
  intro ctx tag
  have hnames : tag.NamesOnce .handlebars 64 := by decide +kernel
  have hmissing : ((ctx.readTag tag).1.args.nodes ++
      (ctx.settings.displaced? tag).toList.flatMap Argument.nodes).filterMap
        ctx.settings.missingHelper? = ["nope".toList, "../up".toList] := by
    decide +kernel
  obtain ⟨added, hadded, -, hreports⟩ := readTag_unknownHelpers ctx tag
  have hperm := (hreports rfl).2 hnames
  rw [hmissing] at hperm
  exact ⟨hnames, added, hadded, hperm⟩

/-- The first raw argument names the partial, and the first positional argument gives way to it. A
named argument in front makes them different arguments, and what is displaced is a call. -/
theorem readTag_unknownHelpers_displaced :
    let ctx := ofDialect .handlebars
    let tag := (Tag.ofInner "k=1 (nope x)".toList).withOperator ['>']
    tag.NamesOnce .handlebars 64 ∧
      (ctx.readTag tag).2.report.unknownHelpers = ["nope".toList] ∧
      (ctx.readTag tag).1.args.nodes.filterMap ctx.settings.missingHelper? = [] := by
  decide +kernel

end Context

end TemplateTag
