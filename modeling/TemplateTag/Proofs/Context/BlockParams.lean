import TemplateTag.Proofs.Context.Quoted
import TemplateTag.Proofs.Text.Fields
/-!
# The layout of block parameters

Any blanks can stand between `as` and the opening bar, between the names and before the closing bar,
but none behind the opening bar: standing alone it is taken for the closing one.
-/
namespace TemplateTag

open Runs

/-- A list of block parameters, and the blanks that it is laid out with. -/
structure ParamLayout where
  /-- The blanks between `as` and the opening bar. -/
  gap : Text
  /-- The names, each with the blanks in front of it. -/
  words : List Word
  /-- The blanks before the closing bar. -/
  trailing : Text
  gap_ne_nil : gap ≠ []
  gap_blank : ∀ c ∈ gap, isBlank c = true
  words_ne_nil : words ≠ []
  words_laid : Laid words
  words_barless : ∀ w ∈ words, '|' ∉ w.text
  trailing_blank : ∀ c ∈ trailing, isBlank c = true

namespace ParamLayout

variable (p : ParamLayout)

def content : Text :=
  p.words.flatMap Word.whole ++ p.trailing

/-- All that is written behind `as`. -/
def text : Text :=
  p.gap ++ ('|' :: p.content ++ ['|'])

def names : List Text :=
  p.words.map Word.text

/-- No blank stands behind the opening bar. -/
def Tight : Prop :=
  ∀ w ∈ p.words.head?, w.gap = []

theorem fields_content : p.content.fields isBlank = p.names := by
  rw [Text.fields_isBlank, content, Text.words_eq p.words_laid _ p.trailing_blank, names]

theorem content_eq_cons :
    ∃ w ws, p.words = w :: ws ∧ w.Proper ∧
      p.content = w.gap ++ (w.text ++ (ws.flatMap Word.whole ++ p.trailing)) := by
  obtain ⟨w, ws, hwords⟩ := List.exists_cons_of_ne_nil p.words_ne_nil
  refine ⟨w, ws, hwords, p.words_laid.proper w (by simp [hwords]), ?_⟩
  simp [content, hwords, Word.whole]

theorem content_ne_nil : p.content ≠ [] := by
  obtain ⟨w, ws, -, hw, hcontent⟩ := p.content_eq_cons
  simp [hcontent, hw.text_ne_nil]

theorem bar_not_mem_content : '|' ∉ p.content := by
  have hbar {t : Text} (ht : ∀ c ∈ t, isBlank c = true) : '|' ∉ t := fun h => by cases ht _ h
  intro h
  rcases List.mem_append.mp h with h | h
  · obtain ⟨w, hw, h⟩ := List.mem_flatMap.mp h
    rcases List.mem_append.mp h with h | h
    · exact hbar (p.words_laid.proper w hw).gap_blank h
    · exact p.words_barless w hw h
  · exact hbar p.trailing_blank h

theorem startsIn_content_of_tight (h : p.Tight) : p.content.startsIn isBlank = false := by
  obtain ⟨w, ws, hwords, hw, hcontent⟩ := p.content_eq_cons
  have hgap : w.gap = [] := h w (by simp [hwords])
  obtain ⟨c, t, htext⟩ := List.exists_cons_of_ne_nil hw.text_ne_nil
  rw [hcontent, hgap, htext]
  exact hw.text_ink c (by simp [htext])

theorem head_content_of_not_tight (h : ¬p.Tight) : ∀ c ∈ p.content.head?, isBlank c = true := by
  obtain ⟨w, ws, hwords, hw, hcontent⟩ := p.content_eq_cons
  have hgap : w.gap ≠ [] := by simpa [Tight, hwords] using h
  obtain ⟨c, gap, hcons⟩ := List.exists_cons_of_ne_nil hgap
  rw [hcontent, hcons]
  simpa using hw.gap_blank c (by simp [hcons])

theorem head_text : ∀ c ∈ p.text.head?, isBlank c = true := by
  obtain ⟨c, gap, hgap⟩ := List.exists_cons_of_ne_nil p.gap_ne_nil
  rw [text, hgap]
  simpa using p.gap_blank c (by simp [hgap])

end ParamLayout

/-- Two names, and block parameters behind them. -/
def paramsInner (f x : Name) (p : ParamLayout) : Text :=
  [' '].intercalate [f.text, x.text, "as".toList ++ p.text]

section Cut

variable (f x : Name) (p : ParamLayout)

theorem scan_paramsInner {done : List Run} {s : State} {ws more : List Word}
    (hwords : p.text.words = ws ++ more)
    (hadvance : (State.inside .blockParams ⟨[' '], "as".toList⟩ []).advance ws =
      some (done, s)) :
    ofWords (paramsInner f x p).words =
      { scan s more with
        runs := ⟨⟨[], f.text⟩, [], false⟩ :: ⟨⟨[' '], x.text⟩, [], false⟩ :: done ++
          (scan s more).runs } := by
  have hall : (paramsInner f x p).words = ⟨[], f.text⟩ :: ⟨[' '], x.text⟩ ::
      ⟨[' '], "as".toList⟩ :: ws ++ more := by
    have has : ∀ c ∈ "as".toList, isBlank c = false := by simp [isBlank]
    have hinner : paramsInner f x p =
        f.text ++ ([' '] ++ (x.text ++ ([' '] ++ ("as".toList ++ p.text)))) := by
      simp [paramsInner, List.intercalate_cons_cons]
    rw [hinner, Text.words_ink_append f.text_ne_nil f.ink (by simp [isBlank]),
      Text.words_gap_ink_append blank_space x.text_ne_nil x.ink (by simp [isBlank]),
      Text.words_gap_ink_append blank_space (by simp) has p.head_text, hwords]
    rfl
  have hfirst : (State.between false).next ⟨[], f.text⟩ = _ :=
    State.next_of_opening?_none (f.plainWord.opening?_eq_none false)
  have hsecond : (State.between true).next ⟨[' '], x.text⟩ = _ :=
    State.next_of_opening?_none (x.plainWord.opening?_eq_none true)
  have hthird : (State.between true).next ⟨[' '], "as".toList⟩ =
      some ([], .inside .blockParams ⟨[' '], "as".toList⟩ []) :=
    State.next_of_opening?_some (by decide)
  rw [hall, ofWords]
  apply scan_of_advance
  rw [State.advance_cons hfirst, State.advance_cons hsecond, State.advance_cons hthird, hadvance]
  rfl

/-- Without a blank behind the opening bar all is cut out as it is meant. -/
theorem rawArguments_of_tight (hp : p.Tight) {d : Dialect} (hd : d.advancedVariables = true)
    (nested : Bool) (tag : Text) :
    rawArguments d nested tag (paramsInner f x p) = pure [f.text, x.text, p.text] := by
  obtain ⟨r, hadvance, htext⟩ := State.advance_between_bars p.gap_blank p.content_ne_nil
    (p.startsIn_content_of_tight hp) p.bar_not_mem_content ⟨[' '], "as".toList⟩
  have hscan := scan_paramsInner f x p (List.append_nil _).symm hadvance
  have hne : (paramsInner f x p).words ≠ [] := by
    intro hnil
    rw [hnil] at hscan
    cases hscan
  rw [rawArguments_of_complete hd hne (by rw [hscan]; rfl), hscan]
  change pure [Run.text _, Run.text _, Run.text r] = _
  rw [Run.text_single, Run.text_single]
  exact congrArg (fun raw => pure [f.text, x.text, raw]) htext

/-- With a blank behind it the opening bar ends the list. -/
theorem rawArguments_of_not_tight (hp : ¬p.Tight) {d : Dialect}
    (hd : d.advancedVariables = true) (nested : Bool) (tag : Text) :
    ∃ more, (rawArguments d nested tag (paramsInner f x p)).value =
      f.text :: x.text :: (p.gap ++ ['|']) :: more := by
  have hbar : ∀ c ∈ ['|'], isBlank c = false := by simp [isBlank]
  have hhead : ∀ c ∈ (p.content ++ ['|']).head?, isBlank c = true := by
    have hblank := p.head_content_of_not_tight hp
    obtain ⟨c, t, hcontent⟩ := List.exists_cons_of_ne_nil p.content_ne_nil
    rw [hcontent] at hblank ⊢
    exact hblank
  have hall : p.text.words = [⟨p.gap, ['|']⟩] ++ Text.words (p.content ++ ['|']) :=
    Text.words_gap_ink_append p.gap_blank (List.cons_ne_nil _ _) hbar hhead
  have hmiddle : ∀ v ∈ ([] : List Word), v.text.endsWith '|' = false := by simp
  have hlast : Text.endsWith (Word.mk p.gap ['|']).text '|' = true := rfl
  have hadvance := State.advance_mark (c := .blockParams) (fun _ => rfl) hmiddle hlast
    ⟨[' '], "as".toList⟩ []
  have hscan := scan_paramsInner f x p hall hadvance
  have hne : (paramsInner f x p).words ≠ [] := by
    intro hnil
    rw [hnil] at hscan
    cases hscan
  rw [rawArguments_of_words hd hne, Reported.value_bind, Reported.value_pure, hscan]
  refine ⟨(scan (.between true) (Text.words (p.content ++ ['|']))).runs.map Run.text, ?_⟩
  simp [Run.text, Word.whole]

end Cut

section Read

variable {d : Dialect} (call : Text → Reported ArgumentList) (tag : Text) (index : Nat)

theorem readArgument_paramLayout (p : ParamLayout) :
    readArgument d call tag index p.text = pure (.blockParams p.names) := by
  rw [← p.fields_content]
  exact readArgument_between_bars d call tag index p.gap_blank p.gap_ne_nil p.content_ne_nil

theorem exists_readArgument_bar {gap : Text} (hgap : ∀ c ∈ gap, isBlank c = true) :
    ∃ a, (readArgument d call tag index (gap ++ ['|'])).value = .positional a := by
  have hplain : ∀ c ∈ gap ++ ['|'], c ≠ '(' ∧ c ≠ '[' ∧ c ≠ '=' := by
    refine List.forall_mem_append.mpr ⟨fun c hc => ?_, by simp⟩
    have hblank := hgap c hc
    refine ⟨?_, ?_, ?_⟩ <;>
    · rintro rfl
      cases hblank
  have hcall : isCall (gap ++ ['|']) = false :=
    isCall_of_head fun c hc => (hplain c (List.mem_of_head? hc)).1
  have hnames : blockParamNames? (gap ++ ['|']) = none := by
    rw [blockParamNames?, List.dropWhile_append_of_pos hgap]
    exact ite_self none
  have hbinding : Binding.ofText? (gap ++ ['|']) = none :=
    Binding.ofText?_eq_none (fun c hc => (hplain c (List.mem_of_head? hc)).2.1) fun c hc =>
      (hplain c ((List.dropWhile_sublist _).subset (List.mem_of_head? hc))).2.2
  rw [readArgument, if_neg (by simp [hcall]), hnames]
  simp only [hbinding, ite_self, Reported.value_map]
  exact ⟨_, rfl⟩

end Read

namespace Context

/-- Block parameters behind two names are read in every layout that has no blank behind the opening
bar, and in no other one. -/
theorem readsAs_paramsInner (f x : Name) (p : ParamLayout) :
    (ofDialect .handlebars).ReadsAs (paramsInner f x p)
      { positional := [.ofName f.text, .ofName x.text], blockParams := some p.names } ↔
    p.Tight := by
  apply readsAs_iff.trans
  by_cases hp : p.Tight
  · refine iff_of_true ?_ hp
    simp only [rawArguments_of_tight f x p hp (d := .handlebars) rfl, pure_bind, readArguments,
      readArgument_name (d := .handlebars) rfl, readArgument_paramLayout]
    exact ⟨rfl, rfl⟩
  · refine iff_of_false (fun hread => ?_) hp
    let s := (ofDialect .handlebars).settings
    let tag := (Tag.ofInner (paramsInner f x p)).text
    obtain ⟨more, hraws⟩ := rawArguments_of_not_tight f x p hp (d := .handlebars) rfl false tag
    obtain ⟨a, ha⟩ := exists_readArgument_bar (d := .handlebars) (s.readCall s.maxDepth) tag 2
      p.gap_blank
    have hvalue := hread.1
    rw [Reported.value_bind, hraws, readArguments, readArgument_name rfl, pure_bind, readArguments,
      readArgument_name rfl, pure_bind, readArguments, Reported.value_bind] at hvalue
    change (readArguments _ _ _ (Arguments.place _ (readArgument _ _ _ 2 _).value) more).value = _
      at hvalue
    rw [ha] at hvalue
    obtain ⟨later, hlater, -⟩ := positional_readArguments .handlebars (s.readCall s.maxDepth) tag
      { positional := [.ofName f.text, .ofName x.text, a] } more
    have hpositional := hlater.symm.trans (congrArg Arguments.positional hvalue)
    cases hpositional

theorem readsAs_paramsInner_wide :
    (ofDialect .handlebars).ReadsAs "h x as\t |a\n\u2003b1 |".toList
      { positional := [.ofName "h".toList, .ofName "x".toList],
        blockParams := some ["a".toList, "b1".toList] } := by
  let p : ParamLayout :=
    { gap := "\t ".toList
      words := [⟨[], "a".toList⟩, ⟨"\n\u2003".toList, "b1".toList⟩]
      trailing := [' ']
      gap_ne_nil := by decide
      gap_blank := by simp [isBlank]
      words_ne_nil := by decide
      words_laid := by
        refine ⟨?_, by decide⟩
        rw [List.forall_mem_cons, List.forall_mem_singleton]
        exact ⟨⟨by simp, by decide, by simp [isBlank]⟩,
          ⟨by simp [isBlank], by decide, by simp [isBlank]⟩⟩
      words_barless := by decide
      trailing_blank := by simp [isBlank] }
  have htight : p.Tight := by
    rintro w ⟨⟩
    rfl
  exact (readsAs_paramsInner (.ofLetter 'h' rfl) (.ofLetter 'x' rfl) p).mpr htight

/-- A list that starts with a blank is not read, and its bars and names are positional arguments. -/
theorem readsAs_paramsInner_blank :
    let ctx := ofDialect .handlebars
    (∀ args, ¬ctx.ReadsAs "h x as | a|".toList args) ∧
      (ctx.readTag (Tag.ofInner "h x as | a|".toList)).1.args.blockParams = none ∧
      (ctx.split [] "h x as | a|".toList).1 =
        ["h".toList, "x".toList, " |".toList, "a|".toList] := by
  intro ctx
  refine ⟨fun args hreads => ?_, by decide +kernel, by decide +kernel⟩
  have hdiagnostics : (ctx.readTag (Tag.ofInner "h x as | a|".toList)).2.diagnostics ≠ [] := by
    decide +kernel
  exact hdiagnostics hreads.2

end Context

end TemplateTag
