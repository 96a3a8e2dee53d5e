import TemplateTag.Context
import TemplateTag.Proofs.RawArgument.BlockParams
/-!
# The blanks between words

How a text is cut depends on its words alone. Without the gaps the reading of the words goes through
the same states (`scan_bare`), so that texts with the same words are cut in the same places, however
wide their gaps are and whatever blanks they are made of.
-/
namespace TemplateTag

/-- The word without the blanks before it. -/
def Word.bare (w : Word) : Word :=
  { w with gap := [] }

/-- The run without the blanks before and between its words. -/
def Run.bare (r : Run) : Run :=
  { r with first := r.first.bare, rest := r.rest.map Word.bare }

namespace Runs

def bare (rs : Runs) : Runs :=
  { rs with runs := rs.runs.map Run.bare }

def State.bare : State → State
  | between started => between started
  | inside c first rest => inside c first.bare (rest.map Word.bare)

theorem bare_cons (r : Run) (rs : Runs) : (rs.cons r).bare = rs.bare.cons r.bare := rfl

theorem scan_bare (s : State) (ws : List Word) :
    scan s.bare (ws.map Word.bare) = (scan s ws).bare := by
  induction ws generalizing s with
  | nil => cases s <;> rfl
  | cons w ws ih =>
    have htext : w.bare.text = w.text := rfl
    cases s with
    | between started =>
      rw [State.bare, List.map_cons, scan, scan, htext]
      cases opening? started w.text with
      | none => exact congrArg (Runs.cons _) (ih (.between true))
      | some c => exact ih (.inside c w [])
    | inside c first rest =>
      rw [State.bare, List.map_cons, scan, scan, htext]
      cases c.step w.text with
      | stillOpen c =>
        have hrest := ih (.inside c first (rest ++ [w]))
        rwa [State.bare, List.map_append] at hrest
      | closed =>
        simp only [bare_cons, ← ih (.between true)]
        rw [Run.bare, List.map_append]
        rfl
      | overclosed => rfl

theorem ofWords_bare (ws : List Word) : ofWords (ws.map Word.bare) = (ofWords ws).bare :=
  scan_bare (.between false) ws

end Runs

/-- The words of a text, and whether there is a blank in front of them. -/
def Text.wording (t : Text) : List Text × Bool :=
  (t.fields isBlank, t.startsIn isBlank)

/-- The words of a run that are in its text. -/
def Run.written (r : Run) : List Text :=
  (if r.isBlockParams then r.rest else r.words).map Word.text

theorem Run.written_bare (r : Run) : r.bare.written = r.written := by
  have hrest : r.bare.rest.map Word.text = r.rest.map Word.text := by simp [bare, Word.bare]
  have hwords : r.bare.words.map Word.text = r.words.map Word.text := by
    simp [bare, words, Word.bare]
  rw [written, written, apply_ite (List.map Word.text), apply_ite (List.map Word.text), hrest,
    hwords]
  rfl

section Words

variable {t : Text} {r : Run}

theorem words_text_of_not_isBlockParams {before after : List Word}
    (hwords : t.words = before ++ r.words ++ after) (hblock : r.isBlockParams = false) :
    Text.words r.text = r.first.bare :: r.rest := by
  have hlaid := Text.laid_words t
  rw [hwords] at hlaid
  have hfirst := hlaid.proper r.first (by simp [Run.words])
  have hbare : r.first.bare.Proper := ⟨by simp [Word.bare], hfirst.text_ne_nil, hfirst.text_ink⟩
  have hrun : Laid (r.first.bare :: r.rest) := by
    refine ⟨?_, fun w hw => hlaid.apart w ?_⟩
    · intro w hw
      rcases List.mem_cons.mp hw with rfl | hw
      · exact hbare
      · exact hlaid.proper w (by simp [Run.words, hw])
    · have hmem : w ∈ r.rest := hw
      cases before <;> simp [Run.words, hmem]
  have htext := Text.words_eq hrun [] (by simp)
  rw [List.append_nil] at htext
  rw [Run.text, hblock]
  exact htext

theorem Run.wording_text (h : r ∈ (Runs.ofWords t.words).runs) :
    r.text.wording = (r.written, r.isBlockParams) := by
  obtain ⟨before, after, hwords⟩ := exists_words_of_mem_runs h
  have hstart := Run.startsIn_text (Runs.ofWords_sound t.words r h) hwords
  rw [Text.wording, hstart, Text.fields_isBlank, written]
  cases hblock : r.isBlockParams with
  | true => rw [words_text_of_isBlockParams hwords hblock, if_pos rfl]
  | false =>
    rw [words_text_of_not_isBlockParams hwords hblock, if_neg (by decide)]
    rfl

end Words

section Cut

variable {t t' : Text} (h : t.fields isBlank = t'.fields isBlank)

include h

theorem words_bare_eq : t.words.map Word.bare = t'.words.map Word.bare := by
  have hbare (ws : List Word) : ws.map Word.bare = (ws.map Word.text).map (⟨[], ·⟩) := by
    rw [List.map_map]
    rfl
  rw [hbare, hbare, ← Text.fields_isBlank, ← Text.fields_isBlank, h]

theorem ofWords_bare_eq : (Runs.ofWords t.words).bare = (Runs.ofWords t'.words).bare := by
  rw [← Runs.ofWords_bare, ← Runs.ofWords_bare, words_bare_eq h]

/-- The runs of both texts have the same words, one by one. -/
theorem map_wording_runs :
    (Runs.ofWords t.words).runs.map (Text.wording ∘ Run.text) =
      (Runs.ofWords t'.words).runs.map (Text.wording ∘ Run.text) := by
  let view (r : Run) : List Text × Bool := (r.written, r.isBlockParams)
  have hview (u : Text) : (Runs.ofWords u.words).runs.map (Text.wording ∘ Run.text) =
      (Runs.ofWords u.words).bare.runs.map view := by
    rw [Runs.bare, List.map_map]
    apply List.map_congr_left
    intro r hr
    rw [Function.comp_apply, Run.wording_text hr, Function.comp_apply]
    exact congrArg (·, r.isBlockParams) r.written_bare.symm
  rw [hview, hview, ofWords_bare_eq h]

theorem ending_eq_of_fields_eq :
    (Runs.ofWords t.words).ending = (Runs.ofWords t'.words).ending := by
  have hending := congrArg Runs.ending (ofWords_bare_eq h)
  exact hending

theorem rawArguments_of_fields_eq (hne : t.fields isBlank ≠ []) (d : Dialect) (nested : Bool)
    (tag : Text) :
    (rawArguments d nested tag t).value.map Text.wording =
        (rawArguments d nested tag t').value.map Text.wording ∧
      (rawArguments d nested tag t).report = (rawArguments d nested tag t').report := by
  have hwords {u : Text} (hu : u.fields isBlank ≠ []) : u.words.isEmpty = false := by
    rw [Text.fields_isBlank] at hu
    simpa using hu
  rw [rawArguments, rawArguments, hwords hne, hwords (h ▸ hne)]
  cases d.advancedVariables with
  | true =>
    have hruns := map_wording_runs h
    rw [← List.map_map, ← List.map_map] at hruns
    refine ⟨hruns, ?_⟩
    simp only [Bool.false_eq_true, if_false, if_true, Reported.report_bind, Reported.report_pure,
      ending_eq_of_fields_eq h]
  | false =>
    have htexts : t.words.map Word.text = t'.words.map Word.text := by
      rw [← Text.fields_isBlank, ← Text.fields_isBlank, h]
    exact ⟨congrArg (List.map Text.wording) htexts, rfl⟩

end Cut

namespace Context

/-- Two texts with the same words, of which there is one at least, are cut into as many arguments,
with the same words and a blank in front of the same ones, and the same is reported. The same holds
of texts inside a subexpression. -/
theorem split_of_fields_eq {t t' : Text} (h : t.fields isBlank = t'.fields isBlank)
    (hne : t.fields isBlank ≠ []) (ctx : Context) (tag : Text) :
    (ctx.split tag t).1.map Text.wording = (ctx.split tag t').1.map Text.wording ∧
    (ctx.split tag t).2 = (ctx.split tag t').2 ∧
    let nested (source : Text) := rawArguments ctx.settings.dialect true tag source
    (nested t).value.map Text.wording = (nested t').value.map Text.wording ∧
      (nested t).report = (nested t').report := by
  have houter := rawArguments_of_fields_eq h hne ctx.settings.dialect false tag
  have hinner := rawArguments_of_fields_eq h hne ctx.settings.dialect true tag
  refine ⟨houter.1, ?_, hinner⟩
  rw [split, split, absorb, absorb, houter.2]

theorem split_of_fields_eq_blockParams :
    let t : Text := "a (b c) as |x y|".toList
    let t' : Text := "\ta  (b\nc)\u2003as   |x\ty|  ".toList
    t.fields isBlank = t'.fields isBlank ∧ t.fields isBlank ≠ [] ∧
      ((ofDialect .handlebars).split [] t').1.map Text.wording =
        [(["a".toList], false), (["(b".toList, "c)".toList], false),
          (["|x".toList, "y|".toList], true)] := by
  intro t t'
  have h : t.fields isBlank = t'.fields isBlank := by decide
  have hne : t.fields isBlank ≠ [] := by decide
  have hraws := (split_of_fields_eq h hne (ofDialect .handlebars) []).1
  have hcut : ((ofDialect .handlebars).split [] t).1.map Text.wording =
      [(["a".toList], false), (["(b".toList, "c)".toList], false),
        (["|x".toList, "y|".toList], true)] := by
    decide +kernel
  exact ⟨h, hne, hraws.symm.trans hcut⟩

end Context

end TemplateTag
