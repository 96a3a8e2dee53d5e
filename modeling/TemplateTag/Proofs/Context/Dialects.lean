import TemplateTag.Proofs.Reading.Plain
/-!
# Plain tags in all dialects

Two contexts read a plain tag alike if `this` and string parameters mean the same in both, whatever
else is switched on.
-/
namespace TemplateTag

theorem Settings.readTag_of_plain (s : Settings) {tag : Tag} (h : tag.inner.Plain) :
    s.readTag tag =
      (fun args => ⟨s.unescaped tag, tag.placePartial tag.inner.pieces args⟩) <$>
        readArguments s.dialect (s.readCall s.maxDepth) tag.text {} tag.inner.pieces := by
  rw [readTag, rawArguments_of_plain h, pure_bind]
  rfl

theorem placePartial_of_plain (tag : Tag) (raws : List Text) {positional : List Argument}
    (h : ∀ a ∈ positional, a.IsPlain) :
    ∃ positional' : List Argument, (∀ a ∈ positional', a.IsPlain) ∧
      tag.placePartial raws { positional := positional } = { positional := positional' } := by
  rw [Tag.placePartial]
  cases tag.partial? raws with
  | none => exact ⟨positional, h, rfl⟩
  | some slot =>
    refine ⟨positional.set slot.1 (.ofName slot.2), ?_, rfl⟩
    intro a ha
    rcases List.mem_or_eq_of_mem_set ha with ha | rfl
    · exact h a ha
    · intro source args hcall
      cases hcall

namespace Context

/-- Two contexts read a plain tag as the same list of positional arguments without calls, and count
the same number of steps to a parent context and no calls, if their dialects agree on `this` and on
string parameters. -/
theorem readTag_plain {ctx ctx' : Context}
    (hthis : ctx.settings.dialect.implicitThis = ctx'.settings.dialect.implicitThis)
    (hstring : ctx.settings.dialect.stringParams = ctx'.settings.dialect.stringParams)
    {tag : Tag} (h : tag.inner.Plain) :
    (∃ positional : List Argument, (∀ a ∈ positional, a.IsPlain) ∧
      (ctx.readTag tag).1.args = { positional := positional } ∧
      (ctx'.readTag tag).1.args = { positional := positional }) ∧
    ∃ parents,
      (ctx.readTag tag).2.usage =
        { ctx.usage with parents := ctx.usage.parents + parents } ∧
      (ctx'.readTag tag).2.usage =
        { ctx'.usage with parents := ctx'.usage.parents + parents } := by
  let reading (ctx : Context) : Reported ArgumentList :=
    readArguments ctx.settings.dialect (ctx.settings.readCall ctx.settings.maxDepth) tag.text {}
      tag.inner.pieces
  have hraws : ∀ raw ∈ tag.inner.pieces, raw.Unmarked := fun _ => h.unmarked_of_mem_pieces
  have hagrees : (reading ctx).Agrees (reading ctx') := agrees_readArguments hthis hstring hraws ..
  obtain ⟨positional, hvalue, hplain, hcalls⟩ := readArguments_of_unmarked hraws
    ctx.settings.dialect (ctx.settings.readCall ctx.settings.maxDepth) tag.text {}
  change (reading ctx).value = { positional := positional } at hvalue
  change (reading ctx).report.usage.subexpressions = 0 at hcalls
  have hargs (ctx : Context) : (ctx.readTag tag).1.args =
      tag.placePartial tag.inner.pieces (reading ctx).value := by
    rw [readTag, Settings.readTag_of_plain _ h]
    rfl
  have husage (ctx : Context) : (ctx.readTag tag).2.usage =
      ⟨ctx.usage.parents + (reading ctx).report.usage.parents,
        ctx.usage.subexpressions + (reading ctx).report.usage.subexpressions⟩ := by
    rw [readTag, Settings.readTag_of_plain _ h, absorb, Reported.report_map]
    rfl
  refine ⟨?_, (reading ctx).report.usage.parents, ?_, ?_⟩
  · obtain ⟨positional', hplain', hplaced⟩ :=
      placePartial_of_plain tag tag.inner.pieces hplain
    refine ⟨positional', hplain', ?_, ?_⟩
    · rw [hargs, hvalue, hplaced]
    · rw [hargs, ← hagrees.value, hvalue, hplaced]
  · rw [husage, hcalls, Nat.add_zero]
  · rw [husage, ← hagrees.usage, hcalls, Nat.add_zero]

theorem readTag_plain_mustache :
    let tag := (Tag.ofInner "a.b ../c 1".toList).withOperator ['>']
    tag.inner.Plain ∧
      ((ofDialect .handlebars).readTag tag).1.args = ((ofDialect .mustache).readTag tag).1.args ∧
      ((ofDialect .mustache).readTag tag).2.usage = { parents := 1 } := by
  intro tag
  have hplain : tag.inner.Plain := ⟨by decide, by decide⟩
  obtain ⟨⟨positional, -, hargs, hargs'⟩, parents, husage, husage'⟩ :=
    readTag_plain (show (ofDialect .handlebars).settings.dialect.implicitThis =
      (ofDialect .mustache).settings.dialect.implicitThis from rfl) rfl hplain
  have hone : ((ofDialect .handlebars).readTag tag).2.usage = { parents := 1 } := by
    decide +kernel
  rw [hone] at husage
  refine ⟨hplain, hargs.trans hargs'.symm, husage'.trans husage.symm⟩

end Context

end TemplateTag
