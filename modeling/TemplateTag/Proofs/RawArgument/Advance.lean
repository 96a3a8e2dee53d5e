import TemplateTag.RawArgument.Split
/-!
# Cutting word by word

The reading of the words of a tag, one word at a time: `State.next` is what one word does, and
`State.advance` what a list of words does. Every word ends up in a completed run or in the pending
argument (`advance_words`), and what was completed is not touched again (`scan_of_advance`).
-/
namespace TemplateTag

/-- All words of a run, the `as` of block parameters included. -/
def Run.words (r : Run) : List Word :=
  r.first :: r.rest

/-- Block parameters follow a word `as`, and end with the first word that has a bar at its end. -/
def Run.Sound (r : Run) : Prop :=
  r.isBlockParams = true →
    r.first.text = "as".toList ∧ ∃ ws w, r.rest = ws ++ [w] ∧ w.text.endsWith '|' = true ∧
      ∀ v ∈ ws, v.text.endsWith '|' = false

theorem eq_of_opening?_eq_blockParams {started : Bool} {word : Text}
    (h : opening? started word = some .blockParams) : word = "as".toList := by
  grind [opening?]

theorem Construct.of_step_eq_blockParams {c : Construct} {word : Text}
    (h : c.step word = .stillOpen .blockParams) :
    c = .blockParams ∧ word.endsWith '|' = false := by
  cases c with
  | blockParams => simpa [Construct.step, Construct.endingWith] using h
  | _ => grind [Construct.step, Construct.endingWith]

theorem Construct.endsWith_of_blockParams_closed {word : Text}
    (h : Construct.blockParams.step word = .closed) : word.endsWith '|' = true := by
  simpa [Construct.step, Construct.endingWith] using h

theorem Construct.step_eq_overclosed {c : Construct} {word : Text} :
    c.step word = .overclosed ↔
      ∃ depth, c = .parentheses depth ∧ depth + openedBy word < word.runAtEnd ')' := by
  cases c with
  | parentheses depth => grind [Construct.step]
  | _ => grind [Construct.step, Construct.endingWith]

namespace Runs

namespace State

/-- The words of the argument that is not complete yet. -/
def pending : State → List Word
  | between _ => []
  | inside _ first rest => first :: rest

/-- Open block parameters follow a word `as`, and no word of them has a bar at its end. -/
def Sound : State → Prop
  | inside .blockParams first rest =>
    first.text = "as".toList ∧ ∀ v ∈ rest, v.text.endsWith '|' = false
  | _ => True

theorem sound_between (started : Bool) : (between started).Sound := trivial

/-- The runs that a word completes, and the state after it. There is none after a word that closes
more parentheses than are open. -/
def next : State → Word → Option (List Run × State)
  | between started, w =>
    match opening? started w.text with
    | none => some ([⟨w, [], false⟩], between true)
    | some c => some ([], inside c w [])
  | inside c first rest, w =>
    match c.step w.text with
    | .stillOpen c => some ([], inside c first (rest ++ [w]))
    | .closed => some ([⟨first, rest ++ [w], c = .blockParams⟩], between true)
    | .overclosed => none

/-- The runs that words complete one after another, and the state after them. -/
def advance : State → List Word → Option (List Run × State)
  | s, [] => some ([], s)
  | s, w :: ws =>
    match s.next w with
    | none => none
    | some (done, s') => (s'.advance ws).map fun (later, s'') => (done ++ later, s'')

theorem advance_nil (s : State) : s.advance [] = some ([], s) := by
  rw [advance]

theorem advance_cons {s s' : State} {w : Word} {done : List Run}
    (h : s.next w = some (done, s')) (ws : List Word) :
    s.advance (w :: ws) = (s'.advance ws).map fun (later, s'') => (done ++ later, s'') := by
  rw [advance, h]

theorem advance_singleton {s : State} {w : Word} {p : List Run × State} (h : s.next w = some p) :
    s.advance [w] = some p := by
  obtain ⟨done, s'⟩ := p
  simp [advance_cons h, advance_nil]

theorem advance_cons_eq_some {s s' : State} {w : Word} {ws : List Word} {done : List Run}
    (h : s.advance (w :: ws) = some (done, s')) :
    ∃ first t later, s.next w = some (first, t) ∧ t.advance ws = some (later, s') ∧
      done = first ++ later := by
  cases hw : s.next w with
  | none => rw [advance, hw] at h; cases h
  | some p =>
    obtain ⟨first, t⟩ := p
    rw [advance_cons hw, Option.map_eq_some_iff] at h
    obtain ⟨⟨later, t'⟩, hws, heq⟩ := h
    rw [Prod.mk.injEq] at heq
    obtain ⟨rfl, rfl⟩ := heq
    exact ⟨first, t, later, rfl, hws, rfl⟩

theorem advance_append {s s' : State} {ws : List Word} {done : List Run}
    (h : s.advance ws = some (done, s')) (more : List Word) :
    s.advance (ws ++ more) =
      (s'.advance more).map fun (later, s'') => (done ++ later, s'') := by
  induction ws generalizing s done with
  | nil =>
    rw [advance_nil, Option.some.injEq, Prod.mk.injEq] at h
    obtain ⟨rfl, rfl⟩ := h
    simp
  | cons w ws ih =>
    obtain ⟨first, t, later, hw, hws, rfl⟩ := advance_cons_eq_some h
    rw [List.cons_append, advance_cons hw, ih hws]
    cases State.advance s' more <;> simp

theorem advance_append_eq_some {s s' : State} {ws more : List Word} {done : List Run}
    (h : s.advance (ws ++ more) = some (done, s')) :
    ∃ first t later, s.advance ws = some (first, t) ∧ t.advance more = some (later, s') ∧
      done = first ++ later := by
  induction ws generalizing s done with
  | nil => exact ⟨[], s, done, advance_nil s, h, rfl⟩
  | cons w ws ih =>
    obtain ⟨first, t, later, hw, hws, rfl⟩ := advance_cons_eq_some h
    obtain ⟨mid, u, last, hmid, hlast, rfl⟩ := ih hws
    refine ⟨first ++ mid, u, last, ?_, hlast, by rw [List.append_assoc]⟩
    rw [advance_cons hw, hmid]
    rfl

end State

theorem scan_of_next {s s' : State} {w : Word} {done : List Run} (h : s.next w = some (done, s'))
    (ws : List Word) :
    scan s (w :: ws) = { scan s' ws with runs := done ++ (scan s' ws).runs } := by
  cases s with
  | between started =>
    simp only [State.next] at h
    split at h <;> next ho =>
      rw [Option.some.injEq, Prod.mk.injEq] at h
      obtain ⟨rfl, rfl⟩ := h
      simp [scan, ho, cons]
  | inside c first rest =>
    simp only [State.next] at h
    split at h
    · next hc =>
      rw [Option.some.injEq, Prod.mk.injEq] at h
      obtain ⟨rfl, rfl⟩ := h
      simp [scan, hc]
    · next hc =>
      rw [Option.some.injEq, Prod.mk.injEq] at h
      obtain ⟨rfl, rfl⟩ := h
      simp [scan, hc, cons]
    · cases h

theorem scan_of_advance {s s' : State} {ws : List Word} {done : List Run}
    (h : s.advance ws = some (done, s')) (more : List Word) :
    scan s (ws ++ more) = { scan s' more with runs := done ++ (scan s' more).runs } := by
  induction ws generalizing s done with
  | nil =>
    rw [State.advance_nil, Option.some.injEq, Prod.mk.injEq] at h
    obtain ⟨rfl, rfl⟩ := h
    rfl
  | cons w ws ih =>
    obtain ⟨first, t, later, hw, hws, rfl⟩ := State.advance_cons_eq_some h
    rw [List.cons_append, scan_of_next hw, ih hws]
    simp

namespace State

theorem next_words {s s' : State} {w : Word} {done : List Run} (h : s.next w = some (done, s')) :
    done.flatMap Run.words ++ s'.pending = s.pending ++ [w] := by
  cases s with
  | between started =>
    simp only [next] at h
    split at h <;>
    · rw [Option.some.injEq, Prod.mk.injEq] at h
      obtain ⟨rfl, rfl⟩ := h
      rfl
  | inside c first rest =>
    simp only [next] at h
    split at h
    · rw [Option.some.injEq, Prod.mk.injEq] at h
      obtain ⟨rfl, rfl⟩ := h
      rfl
    · rw [Option.some.injEq, Prod.mk.injEq] at h
      obtain ⟨rfl, rfl⟩ := h
      simp [Run.words, pending]
    · cases h

theorem advance_words {s s' : State} {ws : List Word} {done : List Run}
    (h : s.advance ws = some (done, s')) :
    done.flatMap Run.words ++ s'.pending = s.pending ++ ws := by
  induction ws generalizing s done with
  | nil =>
    rw [advance_nil, Option.some.injEq, Prod.mk.injEq] at h
    obtain ⟨rfl, rfl⟩ := h
    simp
  | cons w ws ih =>
    obtain ⟨first, t, later, hw, hws, rfl⟩ := advance_cons_eq_some h
    rw [List.flatMap_append, List.append_assoc, ih hws, ← List.append_assoc, next_words hw,
      List.append_assoc, List.singleton_append]

theorem ne_between_false_of_next {s s' : State} {w : Word} {done : List Run}
    (h : s.next w = some (done, s')) : s' ≠ between false := by
  rintro rfl
  cases s with
  | between started =>
    simp only [next] at h
    split at h <;> cases h
  | inside c first rest =>
    simp only [next] at h
    split at h <;> cases h

theorem started_of_advance {s : State} (hs : s ≠ between false) {ws : List Word} {done : List Run}
    {started : Bool} (h : s.advance ws = some (done, between started)) : started = true := by
  induction ws generalizing s done with
  | nil =>
    rw [advance_nil, Option.some.injEq, Prod.mk.injEq] at h
    simpa [h.2] using hs
  | cons w ws ih =>
    obtain ⟨first, t, later, hw, hws, rfl⟩ := advance_cons_eq_some h
    exact ih (ne_between_false_of_next hw) hws

theorem next_sound {s s' : State} {w : Word} {done : List Run} (hs : s.Sound)
    (h : s.next w = some (done, s')) : (∀ r ∈ done, r.Sound) ∧ s'.Sound := by
  cases s with
  | between started =>
    simp only [next] at h
    split at h
    · rw [Option.some.injEq, Prod.mk.injEq] at h
      obtain ⟨rfl, rfl⟩ := h
      exact ⟨by simp [Run.Sound], trivial⟩
    · next c ho =>
      rw [Option.some.injEq, Prod.mk.injEq] at h
      obtain ⟨rfl, rfl⟩ := h
      refine ⟨by simp, ?_⟩
      cases c with
      | blockParams => exact ⟨eq_of_opening?_eq_blockParams ho, by simp⟩
      | _ => trivial
  | inside c first rest =>
    simp only [next] at h
    split at h
    · next c' hc =>
      rw [Option.some.injEq, Prod.mk.injEq] at h
      obtain ⟨rfl, rfl⟩ := h
      refine ⟨by simp, ?_⟩
      cases c' with
      | blockParams =>
        obtain ⟨rfl, hw⟩ := Construct.of_step_eq_blockParams hc
        refine ⟨hs.1, ?_⟩
        intro v hv
        rcases List.mem_append.mp hv with hv | hv
        · exact hs.2 v hv
        · rw [List.mem_singleton.mp hv, hw]
      | _ => trivial
    · next hc =>
      rw [Option.some.injEq, Prod.mk.injEq] at h
      obtain ⟨rfl, rfl⟩ := h
      refine ⟨?_, trivial⟩
      intro r hr hblock
      rw [List.mem_singleton.mp hr, decide_eq_true_eq] at hblock
      subst hblock
      rw [List.mem_singleton.mp hr]
      exact ⟨hs.1, rest, w, rfl, Construct.endsWith_of_blockParams_closed hc, hs.2⟩
    · cases h

theorem advance_sound {s s' : State} {ws : List Word} {done : List Run} (hs : s.Sound)
    (h : s.advance ws = some (done, s')) : (∀ r ∈ done, r.Sound) ∧ s'.Sound := by
  induction ws generalizing s done with
  | nil =>
    rw [advance_nil, Option.some.injEq, Prod.mk.injEq] at h
    obtain ⟨rfl, rfl⟩ := h
    exact ⟨by simp, hs⟩
  | cons w ws ih =>
    obtain ⟨first, t, later, hw, hws, rfl⟩ := advance_cons_eq_some h
    have hnext := next_sound hs hw
    have hlater := ih hnext.2 hws
    exact ⟨fun r hr => (List.mem_append.mp hr).elim (hnext.1 r) (hlater.1 r), hlater.2⟩

theorem next_eq_none {s : State} {w : Word} (h : s.next w = none) :
    ∃ c first rest, s = inside c first rest ∧ c.step w.text = .overclosed := by
  cases s with
  | between started =>
    simp only [next] at h
    split at h <;> cases h
  | inside c first rest =>
    simp only [next] at h
    split at h
    · cases h
    · cases h
    · next hc => exact ⟨c, first, rest, rfl, hc⟩

end State

/-- Where the reading ends early, it does so inside a pending argument, which is dropped with all
that comes after it. -/
theorem scan_of_advance_eq_none {s : State} {ws : List Word} (h : s.advance ws = none) :
    ∃ before closing after done c first rest, ws = before ++ closing :: after ∧
      s.advance before = some (done, .inside c first rest) ∧
      c.step closing.text = .overclosed ∧ scan s ws = ⟨done, .overclosed⟩ := by
  induction ws generalizing s with
  | nil => cases h
  | cons w ws ih =>
    cases hw : s.next w with
    | none =>
      obtain ⟨c, first, rest, rfl, hc⟩ := State.next_eq_none hw
      exact ⟨[], w, ws, [], c, first, rest, rfl, rfl, hc, by simp [scan, hc]⟩
    | some p =>
      obtain ⟨done, t⟩ := p
      rw [State.advance_cons hw, Option.map_eq_none_iff] at h
      obtain ⟨before, closing, after, later, c, first, rest, rfl, hbefore, hc, hscan⟩ := ih h
      refine ⟨w :: before, closing, after, done ++ later, c, first, rest, rfl, ?_, hc, ?_⟩
      · rw [State.advance_cons hw, hbefore]
        rfl
      · rw [scan_of_next hw, hscan]

theorem scan_of_advance_eq_some {s s' : State} {ws : List Word} {done : List Run}
    (h : s.advance ws = some (done, s')) :
    scan s ws =
      match s' with
      | .between _ => ⟨done, .complete⟩
      | .inside c first rest => ⟨done ++ [⟨first, rest, false⟩], c.ending⟩ := by
  have hscan := scan_of_advance h []
  rw [List.append_nil] at hscan
  cases s' <;> simpa [scan] using hscan

theorem ofWords_sound (ws : List Word) : ∀ r ∈ (ofWords ws).runs, r.Sound := by
  cases h : State.advance (.between false) ws with
  | none =>
    obtain ⟨before, closing, after, done, c, first, rest, -, hbefore, -, hscan⟩ :=
      scan_of_advance_eq_none h
    rw [ofWords, hscan]
    exact (State.advance_sound (State.sound_between _) hbefore).1
  | some p =>
    obtain ⟨done, s⟩ := p
    have hdone := (State.advance_sound (State.sound_between _) h).1
    rw [ofWords, scan_of_advance_eq_some h]
    cases s with
    | between started => exact hdone
    | inside c first rest =>
      intro r hr
      rcases List.mem_append.mp hr with hr | hr
      · exact hdone r hr
      · rw [List.mem_singleton.mp hr, Run.Sound]
        simp

theorem ofWords_words {ws : List Word} (h : (ofWords ws).ending ≠ .overclosed) :
    (ofWords ws).runs.flatMap Run.words = ws := by
  cases hadvance : State.advance (.between false) ws with
  | none =>
    obtain ⟨_, _, _, _, _, _, _, -, -, -, hscan⟩ := scan_of_advance_eq_none hadvance
    rw [ofWords, hscan] at h
    exact absurd rfl h
  | some p =>
    obtain ⟨done, s⟩ := p
    have hwords := State.advance_words hadvance
    rw [ofWords, scan_of_advance_eq_some hadvance]
    cases s with
    | between started => simpa [State.pending] using hwords
    | inside c first rest => simpa [State.pending, Run.words] using hwords

theorem scan_of_advance_overclosed {s : State} {before : List Word} {done : List Run}
    {c : Construct} {first : Word} {rest : List Word}
    (h : s.advance before = some (done, .inside c first rest)) {closing : Word}
    (hclosing : c.step closing.text = .overclosed) (after : List Word) :
    scan s (before ++ closing :: after) = ⟨done, .overclosed⟩ := by
  rw [scan_of_advance h]
  simp [scan, hclosing]

theorem ofWords_words_of_overclosed {ws : List Word} (h : (ofWords ws).ending = .overclosed) :
    ∃ first pending closing after c,
      ws = (ofWords ws).runs.flatMap Run.words ++ first :: pending ++ closing :: after ∧
      State.advance (.between false) ((ofWords ws).runs.flatMap Run.words ++ first :: pending) =
        some ((ofWords ws).runs, .inside c first pending) ∧
      c.step closing.text = .overclosed := by
  cases hadvance : State.advance (.between false) ws with
  | none =>
    obtain ⟨before, closing, after, done, c, first, rest, hws, hbefore, hc, hscan⟩ :=
      scan_of_advance_eq_none hadvance
    have hwords := State.advance_words hbefore
    simp only [State.pending, List.nil_append] at hwords
    rw [ofWords, hscan]
    exact ⟨first, rest, closing, after, c, by rw [hwords, hws], by rw [hwords, hbefore], hc⟩
  | some p =>
    obtain ⟨done, s⟩ := p
    rw [ofWords, scan_of_advance_eq_some hadvance] at h
    cases s with
    | between started => cases h
    | inside c first rest => cases c <;> cases h

/-- The runs hold the first words in order, all of them or those before the pending argument. -/
theorem exists_eq_words_append (ws : List Word) :
    ∃ more, ws = (ofWords ws).runs.flatMap Run.words ++ more := by
  by_cases hover : (ofWords ws).ending = .overclosed
  · obtain ⟨first, pending, closing, after, c, hwords, -⟩ := ofWords_words_of_overclosed hover
    exact ⟨first :: pending ++ closing :: after, by rw [← List.append_assoc, ← hwords]⟩
  · exact ⟨[], by rw [List.append_nil, ofWords_words hover]⟩

end Runs

theorem rawArguments_of_words {d : Dialect} (hd : d.advancedVariables = true) {source : Text}
    (hne : source.words ≠ []) (nested : Bool) (tag : Text) :
    rawArguments d nested tag source = do
      (Runs.ofWords source.words).ending.check nested tag
      return (Runs.ofWords source.words).runs.map Run.text := by
  simp [rawArguments, hne, hd]

theorem rawArguments_of_complete {d : Dialect} (hd : d.advancedVariables = true) {source : Text}
    (hne : source.words ≠ []) (hending : (Runs.ofWords source.words).ending = .complete)
    (nested : Bool) (tag : Text) :
    rawArguments d nested tag source =
      pure ((Runs.ofWords source.words).runs.map Run.text) := by
  rw [rawArguments_of_words hd hne, hending]
  rfl

end TemplateTag
