import TemplateTag.Proofs.Context.History
import TemplateTag.Proofs.Reading.Calls
/-!
# Reading a call again

A call that was read as part of a tag can be read on its own, in another context and without the tag
around it.
-/
namespace TemplateTag.Context

variable {ctx ctx' : Context}

theorem readsCalls_readTag {tag : Tag} (h : (ctx.settings.readTag tag).report.InDepth) :
    ctx.settings.ReadsCalls ctx.settings.maxDepth (ctx.readTag tag).1.args := by
  intro source args hmem
  have hread := Report.inDepth_append.mp h
  exact Settings.readsCalls_readArguments (Report.inDepth_append.mp hread.2).1 source args
    (mem_values_placePartial hmem)

/-- The text of a call settles what it is read as, wherever it stood in a tag, unless something in
the tag was nested too deep. -/
theorem readSubexpression_of_hasCall (hsame : ctx.SameSyntax ctx') {tag : Tag} {added : Report}
    (hadded : (ctx.readTag tag).2.report = ctx.report ++ added) (hdepth : added.InDepth)
    {source : Text} {args : ArgumentList} (h : HasCall (ctx.readTag tag).1.args source args) :
    (ctx'.readSubexpression source).1 = .subexpression source args := by
  have hreport : (ctx.settings.readTag tag).report.InDepth := by
    intro limit t hmem
    have hdiagnostics := congrArg Report.diagnostics hadded
    simp only [readTag, absorb, Report.diagnostics_append, List.append_cancel_left_eq]
      at hdiagnostics
    exact hdepth limit t (hdiagnostics ▸ hmem)
  have hcall := Settings.readCall_of_hasCall h (Nat.le_refl _) (readsCalls_readTag hreport)
  rw [readSubexpression, absorb, Settings.readSubexpression, Reported.value_map,
    ← hsame.maxDepth, ← Settings.readCall_value hsame.dialect, hcall]

theorem readSubexpression_of_hasCall_nested :
    ((ofDialect .handlebars).readSubexpression "(h x)".toList).1 =
      .subexpression "(h x)".toList
        { positional := [.ofName "h".toList, .ofName "x".toList] } := by
  have hsame : SameSyntax ((ofDialect .handlebars).withHelpers fun _ => true)
      (ofDialect .handlebars) := ⟨.refl _, rfl⟩
  have hargs : (((ofDialect .handlebars).withHelpers fun _ => true).readTag
      (Tag.ofInner "f k=(g (h x))".toList)).1.args =
        { positional := [.ofName "f".toList]
          named := [("k".toList, .subexpression "(g (h x))".toList
            { positional := [.ofName "g".toList, .subexpression "(h x)".toList
              { positional := [.ofName "h".toList, .ofName "x".toList] }] })] } := by
    rfl
  have hadded : (((ofDialect .handlebars).withHelpers fun _ => true).readTag
      (Tag.ofInner "f k=(g (h x))".toList)).2.report =
        {} ++ { usage := { subexpressions := 2 } } := by
    rfl
  apply readSubexpression_of_hasCall hsame hadded
  · intro limit t hmem
    cases hmem
  · rw [hargs]
    exact .within (List.mem_of_getElem? (i := 1) rfl) (.here (List.mem_of_getElem? (i := 1) rfl))

end TemplateTag.Context
