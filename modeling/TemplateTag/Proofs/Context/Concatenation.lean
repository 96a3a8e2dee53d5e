import TemplateTag.Context
import TemplateTag.Proofs.RawArgument.Advance
import TemplateTag.Proofs.Text.Words
/-!
# Texts behind each other

A text is cut in front of another one as it is cut alone if no argument is open at its end, and so is
the other text behind it. All that is left of the arguments before is that there are some, and only a
word `as` depends on that.
-/
namespace TemplateTag

namespace Runs

/-- The texts of the runs, and how the words come to an end. -/
def cut (rs : Runs) : List Text × Ending :=
  (rs.runs.map Run.text, rs.ending)

theorem cut_cons (r : Run) (rs : Runs) : (rs.cons r).cut = (r.text :: rs.cut.1, rs.cut.2) := rfl

section Gap

variable {v w : Word}

theorem cut_scan_inside (h : v.text = w.text) (c : Construct) (rest ws : List Word) :
    (scan (.inside c v rest) ws).cut = (scan (.inside c w rest) ws).cut := by
  have htext (rest : List Word) (isBlockParams : Bool) :
      Run.text ⟨v, rest, isBlockParams⟩ = Run.text ⟨w, rest, isBlockParams⟩ := by
    rw [Run.text, Run.text, h]
  induction ws generalizing c rest with
  | nil => simp [scan, cut, htext]
  | cons x ws ih =>
    rw [scan, scan]
    cases c.step x.text with
    | stillOpen c => exact ih c (rest ++ [x])
    | closed => simp only [cut_cons, htext]
    | overclosed => rfl

theorem opening?_of_ne_as {word : Text} (h : word ≠ "as".toList) (started started' : Bool) :
    opening? started word = opening? started' word := by
  have hword : (word == "as".toList) = false := beq_eq_false_iff_ne.mpr h
  rw [opening?, opening?, hword, Bool.and_false, Bool.and_false]

/-- Whether there is an argument before matters to a first word `as` alone. -/
theorem cut_scan_between (h : v.text = w.text) (has : w.text ≠ "as".toList)
    (started started' : Bool) (ws : List Word) :
    (scan (.between started) (v :: ws)).cut = (scan (.between started') (w :: ws)).cut := by
  rw [scan, scan, h, opening?_of_ne_as has started started']
  cases opening? started' w.text with
  | none => simp only [cut_cons, Run.text, h]
  | some c => exact cut_scan_inside h c [] ws

end Gap

end Runs

/-- The words are read up to the end of an argument, and there is one at least. -/
def Text.Finished (t : Text) : Prop :=
  ∃ runs started, Runs.State.advance (.between false) t.words = some (runs, .between started) ∧
    runs ≠ []

theorem Text.Finished.words_ne_nil {t : Text} (h : t.Finished) : t.words ≠ [] := by
  obtain ⟨runs, started, hadvance, hne⟩ := h
  intro hwords
  rw [hwords, Runs.State.advance_nil, Option.some.injEq, Prod.mk.injEq] at hadvance
  exact hne hadvance.1.symm

theorem Text.Finished.advance {t : Text} (h : t.Finished) :
    Runs.State.advance (.between false) t.words =
      some ((Runs.ofWords t.words).runs, .between true) := by
  obtain ⟨runs, started, hadvance, -⟩ := id h
  obtain ⟨w, ws, hwords⟩ := List.exists_cons_of_ne_nil h.words_ne_nil
  obtain ⟨first, s, later, hw, hws, -⟩ := Runs.State.advance_cons_eq_some (hwords ▸ hadvance)
  obtain rfl : started = true :=
    Runs.State.started_of_advance (Runs.State.ne_between_false_of_next hw) hws
  rw [hadvance, Runs.ofWords, Runs.scan_of_advance_eq_some hadvance]

theorem rawArguments_eq_cut {d : Dialect} (hd : d.advancedVariables = true) {source : Text}
    (hne : source.words ≠ []) (nested : Bool) (tag : Text) :
    rawArguments d nested tag source =
      let cut := (Runs.ofWords source.words).cut
      { value := cut.1, report := (cut.2.check nested tag).report } := by
  rw [rawArguments_of_words hd hne]
  change Reported.mk _ (_ ++ {}) = _
  rw [Report.append_empty]
  rfl

section Behind

variable {s gap t : Text} {first : Word} (hs : s.Finished) (hne : gap ≠ [])
  (hgap : ∀ c ∈ gap, isBlank c = true) (hfirst : t.words.head? = some first)
  (has : first.text ≠ "as".toList)

include hs hne hgap hfirst has

theorem cut_append : (Runs.ofWords (Text.words (s ++ gap ++ t))).cut =
    ((Runs.ofWords s.words).cut.1 ++ (Runs.ofWords t.words).cut.1,
      (Runs.ofWords t.words).cut.2) := by
  obtain ⟨ws, hwords⟩ := List.head?_eq_some_iff.mp hfirst
  let moved : Word := { first with gap := (Layout.ofText s).trailing ++ gap ++ first.gap }
  have htext : moved.text = first.text := rfl
  have hlater : (Runs.scan (.between true) (moved :: ws)).cut = (Runs.ofWords (first :: ws)).cut :=
    Runs.cut_scan_between htext has true false ws
  rw [Text.words_append_gap s hne hgap, hwords, List.modifyHead_cons, Runs.ofWords,
    Runs.scan_of_advance hs.advance, ← hlater, Runs.cut, Runs.cut, Runs.cut, List.map_append]

theorem rawArguments_append {d : Dialect} (hd : d.advancedVariables = true) (nested : Bool)
    (tag : Text) :
    rawArguments d nested tag (s ++ gap ++ t) =
      { value := (rawArguments d nested tag s).value ++ (rawArguments d nested tag t).value
        report := (rawArguments d nested tag t).report } := by
  have ht : t.words ≠ [] := by
    intro hnil
    rw [hnil] at hfirst
    cases hfirst
  have hall : Text.words (s ++ gap ++ t) ≠ [] := by
    rw [Text.words_append_gap s hne hgap]
    exact List.append_ne_nil_of_left_ne_nil hs.words_ne_nil _
  rw [rawArguments_eq_cut hd hall, rawArguments_eq_cut hd hs.words_ne_nil,
    rawArguments_eq_cut hd ht]
  simp only [cut_append hs hne hgap hfirst has]

end Behind

namespace Context

/-- Behind arguments that are complete, a text that does not start with a word `as` is cut as it is
cut alone, and the same is reported, whether it is cut to its end or not. The same holds of texts
inside a subexpression. -/
theorem split_append {ctx : Context} (hd : ctx.settings.dialect.advancedVariables = true)
    (tag : Text) {s gap t : Text} (hs : s.Finished) (hne : gap ≠ [])
    (hgap : ∀ c ∈ gap, isBlank c = true) {first : Word} (hfirst : t.words.head? = some first)
    (has : first.text ≠ "as".toList) :
    ctx.split tag (s ++ gap ++ t) =
      ((ctx.split tag s).1 ++ (ctx.split tag t).1, (ctx.split tag t).2) ∧
    let nested (source : Text) := rawArguments ctx.settings.dialect true tag source
    nested (s ++ gap ++ t) =
      { value := (nested s).value ++ (nested t).value, report := (nested t).report } := by
  have houter := rawArguments_append hs hne hgap hfirst has hd false tag
  have hinner := rawArguments_append hs hne hgap hfirst has hd true tag
  refine ⟨?_, hinner⟩
  rw [split, split, split, absorb, absorb, absorb, houter]

/-- Behind a complete call, a call that is closed too often. -/
theorem split_append_overclosed :
    let ctx := ofDialect .handlebars
    let s : Text := "f (g a) ".toList
    let t : Text := "x (h b)) y".toList
    s.Finished ∧
      (ctx.split [] (s ++ "\n".toList ++ t)).1 = ["f".toList, "(g a)".toList, "x".toList] ∧
      (ctx.split [] (s ++ "\n".toList ++ t)).2.diagnostics = [.unbalanced []] := by
  intro ctx s t
  let runs : List Run := [⟨⟨[], "f".toList⟩, [], false⟩,
    ⟨⟨[' '], "(g".toList⟩, [⟨[' '], "a)".toList⟩], false⟩]
  have hs : s.Finished := ⟨runs, true, by decide +kernel, by decide⟩
  have hgap : ∀ c ∈ "\n".toList, isBlank c = true := List.all_eq_true.mp (by decide)
  have hfirst : t.words.head? = some ⟨[], "x".toList⟩ := by decide +kernel
  have hadvanced : ctx.settings.dialect.advancedVariables = true := rfl
  rw [(split_append hadvanced [] hs (by decide) hgap hfirst (by decide)).1]
  exact ⟨hs, by decide +kernel, by decide +kernel⟩

end Context

end TemplateTag
