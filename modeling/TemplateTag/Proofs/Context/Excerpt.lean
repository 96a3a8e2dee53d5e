import TemplateTag.Context
import TemplateTag.Proofs.Reading.Trace
import TemplateTag.Proofs.Text.Bytes
/-!
# What a complaint about depth quotes

A call that is nested too deep is quoted by the end of its source, cut at a boundary between
characters.
-/
namespace TemplateTag.Context

/-- A call that is nested too deep is quoted by the longest end of its source that has at most 32
bytes, whether it is read on its own or in a tag. Such an end starts at the first boundary that
leaves no more bytes, and it has at least 29 of them unless it is the whole source. -/
theorem tooDeep_excerpt (ctx : Context) (tag : Tag) (source : Text) :
    let excerpt := source.lastBytes 32
    let limit := ctx.settings.maxDepth
    let complaints (made : List (Nat × Text)) : List Diagnostic :=
      (made.filter (·.1 == limit)).map fun call => .tooDeep limit (Text.lastBytes 32 call.2)
    (excerpt <:+ source ∧ excerpt.byteSize ≤ 32 ∧
        ∀ u, u <:+ source → excerpt.length < u.length → 32 < Text.byteSize u) ∧
      (source.byteSize ≤ 32 → excerpt = source) ∧
      (32 < source.byteSize → 29 ≤ excerpt.byteSize) ∧
      (∃ before, source = before ++ excerpt ∧
        source.SeeksTo (source.byteSize - 32) (Text.byteSize before)) ∧
      (∃ added : Report,
        (ctx.readSubexpression source).2 = { ctx with report := ctx.report ++ added } ∧
          added.diagnostics.filter Diagnostic.isTooDeep =
            complaints (callTrace ctx.settings.dialect limit 0 source)) ∧
      ∃ added : Report, (ctx.readTag tag).2 = { ctx with report := ctx.report ++ added } ∧
        added.diagnostics.filter Diagnostic.isTooDeep =
          complaints (tag.callTrace ctx.settings.dialect limit) := by
  intro excerpt limit complaints
  have hcall := Settings.ofCalls_readCall (Nat.add_zero ctx.settings.maxDepth) source
  have htag := Settings.ofCalls_readTag (s := ctx.settings) tag
  obtain ⟨before, hbefore⟩ := Text.lastBytes_suffix 32 source
  refine ⟨⟨⟨before, hbefore⟩, Text.byteSize_lastBytes_le 32 source, ?_⟩, ?_, ?_, ?_, ?_, ?_⟩
  · intro u hu hlonger
    exact Text.lt_byteSize_of_longer hu hlonger
  · exact Text.lastBytes_eq_self
  · intro hlong
    have hle : 32 ≤ excerpt.byteSize + 3 := Text.le_byteSize_lastBytes hlong
    omega
  · exact ⟨before, hbefore.symm, Text.seeksTo_lastBytes hbefore.symm⟩
  · refine ⟨_, rfl, ?_⟩
    rw [Settings.readSubexpression, Reported.report_map]
    exact congrArg Report.diagnostics hcall
  · exact ⟨_, rfl, congrArg Report.diagnostics htag⟩

theorem tooDeep_excerpt_straddling :
    let source : Text := "(😀aaaaaaaaaaaaaaaaaaaaaaaaaaaa)".toList
    let ctx := (ofDialect .handlebars).withMaxDepth 0
    32 < source.byteSize ∧ 29 ≤ (source.lastBytes 32).byteSize ∧
      (ctx.readSubexpression source).2.diagnostics.filter Diagnostic.isTooDeep =
        [.tooDeep 0 "aaaaaaaaaaaaaaaaaaaaaaaaaaaa)".toList] := by
  intro source ctx
  obtain ⟨-, -, hmost, -, ⟨added, hctx, hadded⟩, -⟩ :=
    tooDeep_excerpt ctx (Tag.ofInner source) source
  have hlong : 32 < source.byteSize := by decide
  have hexcerpt : source.lastBytes 32 = "aaaaaaaaaaaaaaaaaaaaaaaaaaaa)".toList := by decide
  refine ⟨hlong, hmost hlong, ?_⟩
  rw [hctx, ← hexcerpt]
  exact hadded

end TemplateTag.Context
