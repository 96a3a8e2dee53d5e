import TemplateTag.Context
import TemplateTag.Proofs.Reading.Tally
/-!
# Usage

The usage of a context accounts for the arguments of a tag: each call and each step to a parent
context that shows in them has been counted.
-/
namespace TemplateTag

namespace Argument

/-- Is the argument a call? -/
def isSubexpression : Argument → Bool
  | subexpression _ _ => true
  | _ => false

/-- The number of contexts that a path leaves. -/
def levels : Argument → Nat
  | path n _ => n
  | _ => 0

theorem levels_ofLiteral (kind : LiteralKind) (text : Text) : (ofLiteral kind text).levels = 0 := by
  cases kind <;> rfl

end Argument

theorem levels_pathArgument_le (d : Dialect) (head : Bool) (levels : Nat) (rest : Text) :
    (pathArgument d head levels rest).levels ≤ levels := by
  rw [pathArgument]
  split
  · rw [Argument.levels_ofLiteral]
    exact Nat.zero_le _
  · split
    · exact Nat.zero_le _
    · exact Nat.le_refl _

theorem levels_pathArgument {d : Dialect} (h : d.stringParams = false) (head : Bool) (levels : Nat)
    (rest : Text) : (pathArgument d head levels rest).levels = levels := by
  rw [pathArgument, h, if_neg (by simp)]
  split
  · next hhere =>
    simp only [Bool.and_eq_true, decide_eq_true_eq] at hhere
    exact hhere.1.2.symm
  · rfl

theorem parents_readPath (d : Dialect) (head : Bool) (source : Text) :
    ∃ levels rest, (readPath d head source).value = pathArgument d head levels rest ∧
      (readPath d head source).report.usage.parents = levels := by
  rw [readPath]
  generalize splitParents (if source.trim = "..".toList then "../".toList else source.trim) = up
  refine ⟨up.1, up.2, ?_, ?_⟩
  · simp only [Reported.value_bind]
    split <;> rfl
  · simp only [Reported.report_bind, Reported.report_countParents, Report.parents_append]
    split <;> rfl

theorem usage_checkHelper (s : Settings) (args : ArgumentList) :
    (s.checkHelper args).report.usage = {} := by
  rw [Settings.checkHelper]
  split
  · rfl
  · split
    · rfl
    · split
      · rfl
      · split <;> rfl

namespace Tally

/-- The tally of calls. -/
def calls (s : Settings) : Tally s where
  ofReport r := r.usage.subexpressions
  ofNode a := if a.isSubexpression then 1 else 0
  ofReport_empty := rfl
  ofReport_append _ _ := rfl
  ofReport_diagnostic _ _ := rfl
  ofNode_ofName _ := rfl
  ofNode_readValue_le position source := by
    have hplain := isPlain_readValue s.dialect position source
    cases hvalue : (readValue s.dialect position source).value with
    | subexpression source' args => exact absurd hvalue (hplain source' args)
    | path levels segments => exact Nat.zero_le _
    | literal kind text => exact Nat.zero_le _
  ofNode_subexpression source args := by
    rw [usage_checkHelper]
    rfl

theorem calls_exact (s : Settings) : (calls s).Exact := by
  intro position source
  have hfree := (callFree_readValue s.dialect position source).subexpressions
  exact Nat.le_antisymm ((calls s).ofNode_readValue_le position source)
    (Nat.le_trans (Nat.le_of_eq hfree) (Nat.zero_le _))

theorem total_calls {s : Settings} (nodes : List Argument) :
    (calls s).total nodes = nodes.countP Argument.isSubexpression := by
  induction nodes with
  | nil => rfl
  | cons a nodes ih =>
    rw [List.countP_cons, ← ih, Nat.add_comm]
    rfl

/-- The tally of the steps to a parent context. -/
def parents (s : Settings) : Tally s where
  ofReport r := r.usage.parents
  ofNode := Argument.levels
  ofReport_empty := rfl
  ofReport_append _ _ := rfl
  ofReport_diagnostic _ _ := rfl
  ofNode_ofName _ := rfl
  ofNode_readValue_le position source := by
    rw [readValue]
    split
    · split
      · exact Nat.le_refl _
      · rw [Reported.value_pure, Argument.levels_ofLiteral]
        exact Nat.zero_le _
    · obtain ⟨levels, rest, hvalue, hreport⟩ := parents_readPath s.dialect position.isHead source
      rw [hvalue, hreport]
      exact levels_pathArgument_le s.dialect _ levels rest
  ofNode_subexpression source args := by
    rw [usage_checkHelper]
    rfl

theorem parents_exact {s : Settings} (h : s.dialect.stringParams = false) : (parents s).Exact := by
  intro position source
  change (readValue s.dialect position source).value.levels =
    (readValue s.dialect position source).report.usage.parents
  rw [readValue]
  split
  · split
    · rfl
    · exact Argument.levels_ofLiteral ..
  · obtain ⟨levels, rest, hvalue, hreport⟩ := parents_readPath s.dialect position.isHead source
    rw [hvalue, hreport]
    exact levels_pathArgument h _ levels rest

end Tally

theorem displaced?_eq_none {s : Settings} {tag : Tag} (h : tag.operator ≠ ['>'])
    (h' : tag.operator ≠ ['#', '*']) : s.displaced? tag = none := by
  rw [Settings.displaced?, Tag.displaced?, Tag.partial?, Tag.partialIndex?, if_neg h, if_neg h']
  rfl

namespace Context

/-- The usage grows at least by the calls and by the steps to a parent context that show in the
arguments of a tag. It grows by just so many unless the dialect has string parameters, the tag names
a partial, or a name is bound twice in one list. -/
theorem readTag_usage (ctx : Context) (tag : Tag) :
    let reading := ctx.readTag tag
    let calls := reading.1.args.nodes.countP Argument.isSubexpression
    let parents := (reading.1.args.nodes.map Argument.levels).sum
    ctx.usage.subexpressions + calls ≤ reading.2.usage.subexpressions ∧
      ctx.usage.parents + parents ≤ reading.2.usage.parents ∧
      (ctx.settings.dialect.stringParams = false → tag.operator ≠ ['>'] →
        tag.operator ≠ ['#', '*'] →
        tag.NamesOnce ctx.settings.dialect ctx.settings.maxDepth →
        reading.2.usage.subexpressions = ctx.usage.subexpressions + calls ∧
          reading.2.usage.parents = ctx.usage.parents + parents) := by
  intro reading calls parents
  have hcalls := (Tally.calls ctx.settings).atMost_readTag tag
  have hparents := (Tally.parents ctx.settings).atMost_readTag tag
  rw [Tally.total_append, Tally.total_calls] at hcalls
  rw [Tally.total_append] at hparents
  refine ⟨?_, ?_, ?_⟩
  · exact Nat.add_le_add_left (Nat.le_of_add_right_le hcalls.le) _
  · exact Nat.add_le_add_left (Nat.le_of_add_right_le hparents.le) _
  · intro hstring hpartial hdecorator hnames
    rw [displaced?_eq_none hpartial hdecorator] at hcalls hparents
    have hcalls := hcalls.eq ⟨Tally.calls_exact _, hnames⟩
    have hparents := hparents.eq ⟨Tally.parents_exact hstring, hnames⟩
    exact ⟨congrArg (ctx.usage.subexpressions + ·) hcalls.symm,
      congrArg (ctx.usage.parents + ·) hparents.symm⟩

theorem readTag_usage_nested :
    let tag := Tag.ofInner "f (g ../a k=(h ../../b)) ../c".toList
    let reading := (ofDialect .handlebars).readTag tag
    tag.NamesOnce .handlebars 64 ∧
      reading.2.usage.subexpressions = 2 ∧ reading.2.usage.parents = 4 := by
  intro tag reading
  have hnames : tag.NamesOnce .handlebars 64 := by decide +kernel
  have hcalls : reading.1.args.nodes.countP Argument.isSubexpression = 2 := by decide +kernel
  have hparents : (reading.1.args.nodes.map Argument.levels).sum = 4 := by decide +kernel
  have husage := (readTag_usage (ofDialect .handlebars) tag).2.2 rfl (by decide) (by decide) hnames
  rw [hcalls, hparents] at husage
  exact ⟨hnames, husage⟩

end Context

end TemplateTag
