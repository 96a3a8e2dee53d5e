import TemplateTag.Proofs.Reading.Truncation
/-!
# The depth limit

What a lower depth limit changes in the reading of a tag: the arguments of the deepest calls are left
out, each with a complaint.
-/
namespace TemplateTag.Context

/-- Of two depth limits the lower one only cuts the arguments off, and complains about each call that
is made when `limit` calls are entered. Each entered call takes two characters off the text, so that
the text bounds the depth, whatever the limit. -/
theorem readTag_withMaxDepth (ctx : Context) (tag : Tag) {limit limit' : Nat}
    (hle : limit ≤ limit') :
    let low := (ctx.withMaxDepth limit).readTag tag
    let high := (ctx.withMaxDepth limit').readTag tag
    let made := tag.callTrace ctx.settings.dialect limit
    low.1.args = high.1.args.map (Argument.truncate limit) ∧
      (∀ n source args, HasCallAt n low.1.args source args → n ≤ limit) ∧
      (∃ added : Report, low.2 = { ctx.withMaxDepth limit with report := ctx.report ++ added } ∧
        added.diagnostics.filter Diagnostic.isTooDeep =
          ((made.filter (·.1 == limit)).map fun call =>
            .tooDeep limit (Text.lastBytes 32 call.2)) ∧
        added.usage.subexpressions = made.length) ∧
      (∀ n source args, HasCallAt n low.1.args source args →
        (n, source) ∈ made ∧ source.length + 2 * n ≤ tag.inner.length) ∧
      ∀ n source, (n, source) ∈ made → 2 * n + 3 ≤ tag.inner.length := by
  intro low high made
  have hdialect : (ctx.withMaxDepth limit').settings.dialect =
      (ctx.withMaxDepth limit).settings.dialect := rfl
  have hargs : low.1.args = high.1.args.map (Argument.truncate limit) :=
    Settings.args_readTag_truncate hdialect hle tag
  refine ⟨hargs, ?_, ⟨_, rfl, ?_, ?_⟩, ?_, ?_⟩
  · intro n source args h
    exact HasCallAt.le_of_truncate (hargs ▸ h)
  · exact congrArg Report.diagnostics (Settings.ofCalls_readTag tag)
  · exact congrArg (fun r => r.usage.subexpressions) (Settings.ofCalls_readTag tag)
  · intro n source args h
    have hmade : (n, source) ∈ made := h.mem_tagTrace
    exact ⟨hmade, (of_mem_tagTrace hmade).2⟩
  · intro n source hmade
    obtain ⟨hcall, hlength⟩ := of_mem_tagTrace hmade
    have hsource := length_of_isCall hcall
    have hbody := List.length_pos_iff.mpr (isCall_iff.mp hcall).2
    omega

theorem readTag_withMaxDepth_one :
    1 ≤ 3 ∧
      (((ofDialect .handlebars).withMaxDepth 1).readTag
        (Tag.ofInner "f (g (h (i x)))".toList)).1.args =
        { positional := [.ofName "f".toList, .subexpression "(g (h (i x)))".toList
            { positional := [.ofName "g".toList, .subexpression "(h (i x))".toList {}] }] } := by
  have hle : 1 ≤ 3 := by decide
  have hargs := (readTag_withMaxDepth (ofDialect .handlebars)
    (Tag.ofInner "f (g (h (i x)))".toList) hle).1
  refine ⟨hle, ?_⟩
  rw [hargs]
  rfl

end TemplateTag.Context
