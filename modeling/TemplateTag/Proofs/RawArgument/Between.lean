import TemplateTag.Proofs.RawArgument.Opening
import TemplateTag.Proofs.Written.Name
/-!
# An argument between two words

What is cut out of a text that has one argument, of one or several words, between two plain words.
All depends on the state that the words of the argument lead to.
-/
namespace TemplateTag

open Runs

/-- A word that is an argument by itself. -/
structure PlainWord (x : Text) : Prop where
  ne_nil : x ≠ []
  ink : ∀ c ∈ x, isBlank c = false
  opening?_eq_none : ∀ started, opening? started x = none

/-- The text is not empty and has no blank at either end. -/
structure Text.Trimmed (t : Text) : Prop where
  ne_nil : t ≠ []
  head_ink : ∀ c ∈ t.head?, isBlank c = false
  last_ink : ∀ c ∈ t.getLast?, isBlank c = false

theorem Text.Trimmed.intercalate {t u : Text} (ht : t.Trimmed) (hu : u.Trimmed) :
    Text.Trimmed ([' '].intercalate [t, u]) where
  ne_nil := by simp [List.intercalate_cons_cons]
  head_ink := by
    obtain ⟨c, t', rfl⟩ := List.exists_cons_of_ne_nil ht.ne_nil
    exact ht.head_ink
  last_ink c hc := by
    apply hu.last_ink c
    rw [List.intercalate_cons_cons, List.intercalate_singleton, List.getLast?_append,
      List.getLast?_eq_some_getLast hu.ne_nil] at hc
    rwa [List.getLast?_eq_some_getLast hu.ne_nil]

theorem PlainWord.trimmed {x : Text} (hx : PlainWord x) : x.Trimmed where
  ne_nil := hx.ne_nil
  head_ink c hc := hx.ink c (List.mem_of_head? hc)
  last_ink c hc := hx.ink c (List.mem_of_getLast? hc)

theorem plainWord_of_nameChars {x : Text} (hne : x ≠ []) (hx : ∀ c ∈ x, isNameChar c = true)
    (has : x ≠ "as".toList) : PlainWord x where
  ne_nil := hne
  ink c hc := by
    have h := of_isNameChar (p := fun c => !isBlank c) (by decide) (hx c hc)
    simpa using h
  opening?_eq_none := by
    apply opening?_of_unmarked ?_ has
    intro c hc hmem
    have hmarks : "\"'()[]=|".toList.all (fun c => !isNameChar c) = true := by decide
    simpa [hx c hmem] using List.all_eq_true.mp hmarks c hc

theorem Name.plainWord (n : Name) : PlainWord n.text :=
  plainWord_of_nameChars n.text_ne_nil n.chars
    (n.ne_of_mem_reservedNames (by simp [reservedNames]))

theorem Name.step (n : Name) {c : Construct} (hc : c ≠ .parentheses 0) :
    c.step n.text = .stillOpen c := by
  have hend {mark : Char} (hmark : isNameChar mark = false) : n.text.endsWith mark = false :=
    Text.endsWith_of_not_mem (n.not_mem hmark)
  cases c with
  | parentheses depth =>
    have hopened : openedBy n.text = 0 := openedBy_eq_zero (n.not_mem (by decide))
    have hclosed : n.text.runAtEnd ')' = 0 := Text.runAtEnd_eq_zero (hend (by decide))
    have hdepth : depth ≠ 0 := fun h => hc (congrArg Construct.parentheses h)
    simp [Construct.step, hopened, hclosed, hdepth]
  | doubleQuote => exact Construct.endingWith_eq_stillOpen (hend (by decide)) .doubleQuote
  | escapedQuote => exact Construct.endingWith_eq_stillOpen (hend (by decide)) .escapedQuote
  | bracket => exact Construct.endingWith_eq_stillOpen (hend (by decide)) .bracket
  | blockParams => exact Construct.endingWith_eq_stillOpen (hend (by decide)) .blockParams

section Between

variable {x v z : Text}

theorem words_append_ink (hv : v.Trimmed) (hne : z ≠ []) (hz : ∀ c ∈ z, isBlank c = false) :
    Text.words (' ' :: [' '].intercalate [v, z]) = Text.words (' ' :: v) ++ [⟨[' '], z⟩] := by
  have hlast : Text.words ([' '] ++ z) = [⟨[' '], z⟩] := Text.words_gap_ink blank_space hne hz
  have hend : ∀ c ∈ (' ' :: v).getLast?, isBlank c = false := by
    intro c hc
    apply hv.last_ink c
    rwa [List.getLast?_cons_of_ne_nil hv.ne_nil] at hc
  have hsplit : ' ' :: [' '].intercalate [v, z] = (' ' :: v) ++ ([' '] ++ z) := by
    simp [List.intercalate_cons_cons]
  rw [hsplit, Text.words_append hend (by simp [isBlank]), hlast]

theorem words_between (hx : PlainWord x) (hv : v.Trimmed) (hz : PlainWord z) :
    Text.words ([' '].intercalate [x, v, z]) =
      ⟨[], x⟩ :: (Text.words (' ' :: v) ++ [⟨[' '], z⟩]) := by
  rw [List.intercalate_cons_cons, List.append_assoc, List.singleton_append,
    Text.words_ink_append hx.ne_nil hx.ink (by simp [isBlank]),
    words_append_ink hv hz.ne_nil hz.ink]

theorem advance_between (hx : PlainWord x) (hv : v.Trimmed) (hz : PlainWord z) :
    (State.between false).advance (Text.words ([' '].intercalate [x, v, z])) =
      ((State.between true).advance (Text.words (' ' :: v) ++ [⟨[' '], z⟩])).map
        fun (later, s) => (⟨⟨[], x⟩, [], false⟩ :: later, s) := by
  rw [words_between hx hv hz,
    State.advance_cons (State.next_of_opening?_none (hx.opening?_eq_none false))]
  rfl

theorem Run.text_single (gap x : Text) : Run.text ⟨⟨gap, x⟩, [], false⟩ = x := by
  simp [Run.text]

section Cut

variable (hx : PlainWord x) (hv : v.Trimmed) (hz : PlainWord z) {d : Dialect}
  (hd : d.advancedVariables = true) (nested : Bool) (tag : Text)

include hx hv hz hd

private theorem rawArguments_between (runs : Runs)
    (hruns : ofWords (Text.words ([' '].intercalate [x, v, z])) = runs) :
    rawArguments d nested tag ([' '].intercalate [x, v, z]) = do
      runs.ending.check nested tag
      return runs.runs.map Run.text := by
  have hne : Text.words ([' '].intercalate [x, v, z]) ≠ [] := by
    rw [words_between hx hv hz]
    exact List.cons_ne_nil _ _
  rw [rawArguments_of_words hd hne, hruns]

/-- An argument that its own words complete is cut out as it stands. -/
theorem rawArguments_between_of_closed {r : Run} (hr : r.isBlockParams = false)
    (hadvance : (State.between true).advance (Text.words (' ' :: v)) =
      some ([r], .between true)) :
    rawArguments d nested tag ([' '].intercalate [x, v, z]) = pure [x, v, z] := by
  have hwords := State.advance_words hadvance
  simp only [State.pending, List.flatMap_cons, List.flatMap_nil, List.append_nil,
    List.nil_append] at hwords
  have htext : r.text = v :=
    Run.text_of_words hr blank_space hwords hv.ne_nil hv.head_ink hv.last_ink
  have hnext := State.next_of_opening?_none (w := ⟨[' '], z⟩) (hz.opening?_eq_none true)
  have hall := advance_between hx hv hz
  rw [State.advance_append hadvance, State.advance_singleton hnext] at hall
  rw [rawArguments_between hx hv hz hd nested tag _ (scan_of_advance_eq_some hall)]
  change pure [_, r.text, _] = _
  rw [htext, Run.text_single, Run.text_single]

/-- An argument that its own words leave open goes on to the end, unless the last word completes
it. -/
theorem rawArguments_between_of_open {c c' : Construct} {first : Word} {rest : List Word}
    (hadvance : (State.between true).advance (Text.words (' ' :: v)) =
      some ([], .inside c first rest)) (hstep : c.step z = .stillOpen c') :
    rawArguments d nested tag ([' '].intercalate [x, v, z]) = do
      c'.ending.check nested tag
      return [x, [' '].intercalate [v, z]] := by
  have hwords : first :: rest = Text.words (' ' :: v) := State.advance_words hadvance
  have hnext : (State.inside c first rest).next ⟨[' '], z⟩ =
      some ([], .inside c' first (rest ++ [⟨[' '], z⟩])) := by
    simp [State.next, hstep]
  have hall := advance_between hx hv hz
  rw [State.advance_append hadvance, State.advance_singleton hnext] at hall
  have htext : Run.text ⟨first, rest ++ [⟨[' '], z⟩], false⟩ = [' '].intercalate [v, z] := by
    have htrimmed := hv.intercalate hz.trimmed
    apply Run.text_of_words rfl blank_space ?_ htrimmed.ne_nil htrimmed.head_ink htrimmed.last_ink
    rw [List.singleton_append, words_append_ink hv hz.ne_nil hz.ink, ← hwords]
    rfl
  rw [rawArguments_between hx hv hz hd nested tag _ (scan_of_advance_eq_some hall)]
  change (do c'.ending.check nested tag; return [Run.text _, Run.text _]) = _
  rw [htext, Run.text_single]

end Cut

end Between

end TemplateTag
