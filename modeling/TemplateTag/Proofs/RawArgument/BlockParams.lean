import TemplateTag.Proofs.RawArgument.Part
import TemplateTag.Proofs.RawArgument.Shape
/-!
# Block parameters among raw arguments

A raw argument that reads as block parameters is a closed run of them, and there is a name between
its bars: were there none, the run would have ended with the first bar.
-/
namespace TemplateTag

theorem of_blockParamNames?_eq_some {raw : Text} {names : List Text}
    (h : blockParamNames? raw = some names) :
    raw.startsIn isBlank = true ∧ ∃ gap content, (∀ c ∈ gap, isBlank c = true) ∧ content ≠ [] ∧
      raw = gap ++ ('|' :: content ++ ['|']) ∧ names = Text.fields isBlank content := by
  rw [blockParamNames?] at h
  split at h
  · next hstart =>
    obtain ⟨content, hcontent, rfl⟩ := Option.map_eq_some_iff.mp h
    obtain ⟨hbars, hne⟩ := Text.filledBetween?_eq_some.mp hcontent
    refine ⟨hstart, raw.takeWhile isBlank, content, ?_, hne, ?_, rfl⟩
    · intro c hc
      exact List.all_eq_true.mp List.all_takeWhile c hc
    · have hraw := List.takeWhile_append_dropWhile (p := isBlank) (l := raw)
      rw [hbars] at hraw
      exact hraw.symm
  · cases h

theorem words_of_two_bars {gap content : Text} (hgap : ∀ c ∈ gap, isBlank c = true)
    (hcontent : ∀ c ∈ content, isBlank c = true) (hne : content ≠ []) :
    Text.words (gap ++ ('|' :: content ++ ['|'])) = [⟨gap, ['|']⟩, ⟨content, ['|']⟩] := by
  have hbar : ∀ c ∈ ['|'], isBlank c = false := by
    intro c hc
    rw [List.mem_singleton.mp hc]
    decide
  have hnext : ∀ c ∈ (content ++ ['|']).head?, isBlank c = true := by
    obtain ⟨d, content, rfl⟩ := List.exists_cons_of_ne_nil hne
    intro c hc
    apply hcontent c
    cases hc
    exact List.mem_cons_self ..
  have hlast := Text.words_gap_ink hcontent (by simp) hbar
  have hwords := Text.words_gap_ink_append hgap (by simp) hbar hnext
  rwa [hlast] at hwords

theorem words_text_of_isBlockParams {t : Text} {r : Run} {before after : List Word}
    (hwords : t.words = before ++ r.words ++ after) (hblock : r.isBlockParams = true) :
    Text.words r.text = r.rest := by
  have hlaid := Text.laid_words t
  rw [hwords] at hlaid
  have hrest : Laid r.rest := by
    refine ⟨fun w hw => hlaid.proper w (by simp [Run.words, hw]), fun w hw => hlaid.apart w ?_⟩
    have hmem : w ∈ r.rest := List.mem_of_mem_tail hw
    cases before <;> simp [Run.words, hmem]
  have htext := Text.words_eq hrest [] (by simp)
  rw [List.append_nil] at htext
  rwa [Run.text, if_pos hblock]

theorem exists_not_blank_of_mem_runs {t : Text} {r : Run} (h : r ∈ (Runs.ofWords t.words).runs)
    (hblock : r.isBlockParams = true) {gap content : Text} (hgap : ∀ c ∈ gap, isBlank c = true)
    (hne : content ≠ []) (htext : r.text = gap ++ ('|' :: content ++ ['|'])) :
    ∃ c ∈ content, isBlank c = false := by
  by_cases hblank : ∀ c ∈ content, isBlank c = true
  · exfalso
    obtain ⟨before, after, hwords⟩ := exists_words_of_mem_runs h
    have hrest := words_text_of_isBlockParams hwords hblock
    rw [htext, words_of_two_bars hgap hblank hne] at hrest
    obtain ⟨-, ws, w, hlast, -, hopen⟩ := Runs.ofWords_sound t.words r h hblock
    rw [hlast, ← List.singleton_append] at hrest
    obtain ⟨hws, -⟩ := List.append_inj' hrest rfl
    have hbar := hopen ⟨gap, ['|']⟩ (hws ▸ List.mem_singleton_self _)
    cases hbar
  · simpa using hblank

/-- Block parameters are a feature of advanced variables. There is at least one of them, and their
names are not empty and have no blanks. -/
theorem blockParamNames_of_mem_rawArguments {d : Dialect} {nested : Bool} {tag source raw : Text}
    {names : List Text} (h : raw ∈ (rawArguments d nested tag source).value)
    (hnames : blockParamNames? raw = some names) :
    d.advancedVariables = true ∧ names ≠ [] ∧
      ∀ name ∈ names, name ≠ [] ∧ ∀ c ∈ name, isBlank c = false := by
  obtain ⟨hstart, gap, content, hgap, hne, hraw, rfl⟩ := of_blockParamNames?_eq_some hnames
  have hbar : isBlank '|' = false := by decide
  rw [rawArguments] at h
  split at h
  · next hwords =>
    rw [Reported.value_pure, List.splitOn_eq_splitOnP] at h
    have hmem : '|' ∈ source := (Text.of_mem_splitOnP h).1.subset (by rw [hraw]; simp)
    exact absurd (List.isEmpty_iff.mp hwords) (Text.words_ne_nil hmem hbar)
  · split at h
    · next hadvanced =>
      obtain ⟨r, hr, rfl⟩ := List.mem_map.mp h
      obtain ⟨before, after, hwords⟩ := exists_words_of_mem_runs hr
      rw [Run.startsIn_text (Runs.ofWords_sound _ r hr) hwords] at hstart
      obtain ⟨c, hc, hink⟩ := exists_not_blank_of_mem_runs hr hstart hgap hne hraw
      exact ⟨hadvanced, Text.fields_ne_nil hc hink, fun name hname => Text.of_mem_fields hname⟩
    · obtain ⟨w, hw, rfl⟩ := List.mem_map.mp h
      have hproper := (Text.laid_words source).proper w hw
      obtain ⟨c, text, htext⟩ := List.exists_cons_of_ne_nil hproper.text_ne_nil
      have hink := hproper.text_ink c (by simp [htext])
      rw [htext, Text.startsIn, hink] at hstart
      cases hstart

end TemplateTag
