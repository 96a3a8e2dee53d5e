import TemplateTag.Context
import TemplateTag.Proofs.RawArgument.Balance
import TemplateTag.Proofs.RawArgument.Part
/-!
# Balanced tags

If the parentheses of a text can be counted word by word, the text is reported as unbalanced if and
only if it is, and balanced text has balanced raw arguments.
-/
namespace TemplateTag

theorem Text.balanced_flatten_words (t : Text) : (Word.flatten t.words).Balanced ↔ t.Balanced := by
  have htrailing := (parenFree_of_blank t.trailing_blank).balanced
  have hsplit : t.depthAfter? 0 = (Word.flatten t.words).depthAfter? 0 := by
    conv => lhs; rw [← flatMap_words_append_trailing t]
    rw [depthAfter?_append]
    cases hdepth : depthAfter? 0 (t.words.flatMap Word.whole) with
    | none => rw [Word.flatten, hdepth]; rfl
    | some d => rw [Option.bind_some, htrailing.depthAfter?, Word.flatten, hdepth]
  rw [balanced_iff, balanced_iff, hsplit]

theorem Text.parenFree_of_words_eq_nil {t : Text} (h : t.words = []) : t.ParenFree := by
  have hsplit := flatMap_words_append_trailing t
  rw [h, List.flatMap_nil, List.nil_append] at hsplit
  exact hsplit ▸ parenFree_of_blank t.trailing_blank

theorem ofWords_words_of_counted {t : Text} (hmarks : t.Unprotected)
    (hcounted : CountedByWords t.words) :
    ((Runs.ofWords t.words).ending = .complete ↔ t.Balanced) ∧
      (t.Balanced → ∀ r ∈ (Runs.ofWords t.words).runs, r.text.Balanced) := by
  have hwords : ∀ w ∈ t.words, w.text.Unprotected := fun w hw =>
    ⟨fun h => hmarks.1 (Text.mem_of_mem_words hw h),
      fun h => hmarks.2.1 (Text.mem_of_mem_words hw h),
      fun h => hmarks.2.2 (Text.mem_of_mem_words hw h)⟩
  rw [← Text.balanced_flatten_words]
  exact Runs.ofWords_of_counted hcounted (Text.laid_words t).proper hwords

section RawArguments

variable {d : Dialect} (hd : d.advancedVariables = true) {source : Text}
  (hmarks : source.Unprotected) (hcounted : CountedByWords source.words) (tag : Text)

include hd hmarks hcounted

theorem report_rawArguments :
    (rawArguments d false tag source).report =
      if source.Balanced then {} else { diagnostics := [.unbalanced tag] } := by
  by_cases hne : source.words = []
  · have hbalanced := (Text.parenFree_of_words_eq_nil hne).balanced
    simp [rawArguments, hne, hbalanced]
  · have hending := (ofWords_words_of_counted hmarks hcounted).1
    rw [rawArguments_of_words hd hne, Reported.report_bind, Reported.report_pure,
      Report.append_empty, Ending.check]
    by_cases hbalanced : source.Balanced
    · rw [if_pos hbalanced, hending.mpr hbalanced]
      rfl
    · rw [if_neg hbalanced]
      cases hcase : (Runs.ofWords source.words).ending with
      | complete => exact absurd (hending.mp hcase) hbalanced
      | unclosed => rfl
      | overclosed => rfl

theorem balanced_of_mem_rawArguments (h : source.Balanced) {raw : Text}
    (hraw : raw ∈ (rawArguments d false tag source).value) : raw.Balanced := by
  by_cases hne : source.words = []
  · have hplain := Text.parenFree_of_words_eq_nil hne
    have hpart := infix_of_mem_rawArguments hraw
    exact Text.ParenFree.balanced
      ⟨fun hmem => hplain.1 (hpart.subset hmem), fun hmem => hplain.2 (hpart.subset hmem)⟩
  · rw [rawArguments_of_words hd hne] at hraw
    obtain ⟨r, hr, rfl⟩ := List.mem_map.mp hraw
    exact (ofWords_words_of_counted hmarks hcounted).2 h r hr

end RawArguments

namespace Context

variable {ctx : Context}

/-- Splitting a balanced text changes nothing in the context, and gives balanced raw arguments. That
its words are counted is sufficient for it, not necessary. -/
theorem split_of_balanced (hd : ctx.settings.dialect.advancedVariables = true) (tag : Text)
    {source : Text} (hmarks : source.Unprotected) (hcounted : CountedByWords source.words)
    (h : source.Balanced) :
    (ctx.split tag source).2 = ctx ∧
      ∀ raw ∈ (ctx.split tag source).1, Text.Balanced raw := by
  refine ⟨?_, fun raw hraw => balanced_of_mem_rawArguments hd hmarks hcounted tag h hraw⟩
  rw [split, absorb, report_rawArguments hd hmarks hcounted, if_pos h, Report.append_empty]

theorem split_of_balanced_blockParams :
    let source : Text := "f (g (h) k=(i x)) as |a|".toList
    CountedByWords source.words ∧ source.Balanced ∧
      ((ofDialect .handlebars).split [] source).2.diagnostics = [] := by
  intro source
  have hcounted : CountedByWords source.words := by decide +kernel
  have hbalanced : source.Balanced := by decide +kernel
  have hadvanced : (ofDialect .handlebars).settings.dialect.advancedVariables = true := rfl
  have hmarks : source.Unprotected := by decide +kernel
  have hsplit := split_of_balanced hadvanced [] hmarks hcounted hbalanced
  exact ⟨hcounted, hbalanced, congrArg diagnostics hsplit.1⟩

/-- A pair of parentheses in a value is only closed in the count, and of two runs of parentheses in
one word only the first is opened. So a call ends too early, and another one is reported. -/
theorem split_of_balanced_uncounted :
    let ctx := ofDialect .handlebars
    let value : Text := "f (g k=(now) x)".toList
    let runs : Text := "(f(g a))".toList
    (value.Unprotected ∧ value.Balanced ∧ (ctx.split [] value).1 =
      ["f".toList, "(g k=(now)".toList, "x)".toList]) ∧
    ¬Text.Balanced "(g k=(now)".toList ∧
    runs.Unprotected ∧ runs.Balanced ∧ (ctx.split [] runs).2.diagnostics = [.unbalanced []] := by
  decide +kernel

/-- A tag that is not balanced is reported when it is read. That its words are counted is sufficient
for it, not necessary: `)(` is reported as well. -/
theorem readTag_of_not_balanced (hd : ctx.settings.dialect.advancedVariables = true) {tag : Tag}
    (hmarks : tag.inner.Unprotected) (hcounted : CountedByWords tag.inner.words)
    (h : ¬tag.inner.Balanced) :
    ∃ added : Report, (ctx.readTag tag).2 = { ctx with report := ctx.report ++ added } ∧
      .unbalanced tag.text ∈ added.diagnostics := by
  refine ⟨(ctx.settings.readTag tag).report, rfl, ?_⟩
  rw [Settings.readTag, Reported.report_bind, Report.diagnostics_append,
    report_rawArguments hd hmarks hcounted, if_neg h]
  exact List.mem_append_left _ (List.mem_singleton.mpr rfl)

theorem readTag_of_not_balanced_unclosed :
    let ctx := ofDialect { Dialect.handlebars with arbitraryHelpers := true }
    let tag := Tag.ofInner "f (g k=(h x) y".toList
    CountedByWords tag.inner.words ∧ ¬tag.inner.Balanced ∧
      ∃ added : Report, (ctx.readTag tag).2 = { ctx with report := ctx.report ++ added } ∧
        .unbalanced tag.text ∈ added.diagnostics := by
  intro ctx tag
  have hcounted : CountedByWords tag.inner.words := by decide +kernel
  have hbalanced : ¬tag.inner.Balanced := by decide +kernel
  have hadvanced : ctx.settings.dialect.advancedVariables = true := rfl
  have hmarks : tag.inner.Unprotected := by decide +kernel
  exact ⟨hcounted, hbalanced, readTag_of_not_balanced hadvanced hmarks hcounted hbalanced⟩

/-- Outside a call nothing is closed. And of two runs of parentheses in one word only the last is
opened there, so that the text is cut as if it were complete; the call inside it, which is not, is
not reported since it is nested. -/
theorem readTag_of_not_balanced_uncounted :
    let ctx := ofDialect { Dialect.handlebars with arbitraryHelpers := true }
    ∀ inner ∈ (["a)".toList, "x (a(b c)".toList] : List Text),
      inner.Unprotected ∧ ¬inner.Balanced ∧
        (ctx.readTag (Tag.ofInner inner)).2.diagnostics = [] := by
  decide +kernel

end Context

end TemplateTag
