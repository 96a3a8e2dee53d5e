import TemplateTag.Proofs.Text.Words
/-!
# Parts of a text by position

A span is the part of a text between the positions where it starts and stops. `IsWord` says without
a scanner what a word of a text is, and `isWord_iff` that the scanner finds just these.
-/
namespace TemplateTag

namespace Span

/-- The part of the text that the span takes up. -/
def slice (t : Text) (s : Span) : Text :=
  (t.drop s.start).take (s.stop - s.start)

/-- Does the span lie inside the other one? -/
def within (s outer : Span) : Bool :=
  outer.start ≤ s.start && s.stop ≤ outer.stop

theorem slice_append (before part after : Text) :
    slice (before ++ part ++ after) ⟨before.length, before.length + part.length⟩ = part := by
  simp [slice]

end Span

/-- A maximal run of characters that are not blank, at its place in the text. -/
def IsWord (t : Text) (s : Span) : Prop :=
  ∃ before word after, t = before ++ word ++ after ∧
    s = ⟨before.length, before.length + word.length⟩ ∧ word ≠ [] ∧
    (∀ c ∈ word, isBlank c = false) ∧ (∀ c ∈ before.getLast?, isBlank c = true) ∧
    ∀ c ∈ after.head?, isBlank c = true

/-- The text that words take up, gaps included. -/
def Word.flatten (ws : List Word) : Text :=
  ws.flatMap Word.whole

/-- The spans of words that are laid out one after another from a position on. -/
def Word.places : Nat → List Word → List Span
  | _, [] => []
  | p, w :: ws =>
    ⟨p + w.gap.length, p + w.whole.length⟩ :: places (p + w.whole.length) ws

namespace Word

@[simp] theorem flatten_nil : flatten [] = [] := rfl

theorem flatten_append (ws vs : List Word) : flatten (ws ++ vs) = flatten ws ++ flatten vs := by
  simp [flatten]

theorem flatten_cons (w : Word) (ws : List Word) :
    flatten (w :: ws) = w.gap ++ w.text ++ flatten ws := by
  simp [flatten, whole]

theorem places_append (p : Nat) (ws vs : List Word) :
    places p (ws ++ vs) = places p ws ++ places (p + (flatten ws).length) vs := by
  induction ws generalizing p with
  | nil => simp [places, flatten]
  | cons w ws ih => simp [places, ih, flatten_cons, whole, Nat.add_assoc]

theorem mem_places {p : Nat} {ws : List Word} {s : Span} (h : s ∈ places p ws) :
    ∃ before w after, ws = before ++ w :: after ∧
      s = ⟨p + (flatten before).length + w.gap.length,
        p + (flatten before).length + w.gap.length + w.text.length⟩ := by
  induction ws generalizing p with
  | nil => cases h
  | cons w ws ih =>
    rw [places, List.mem_cons] at h
    rcases h with rfl | h
    · exact ⟨[], w, ws, rfl, by simp [flatten, whole, Nat.add_assoc]⟩
    · obtain ⟨before, v, after, rfl, rfl⟩ := ih h
      exact ⟨w :: before, v, after, rfl, by simp [flatten_cons, whole, Nat.add_assoc]⟩

theorem bounds_of_mem_places {p : Nat} {ws : List Word} (hws : ∀ w ∈ ws, w.Proper) {s : Span}
    (h : s ∈ places p ws) : p ≤ s.start ∧ s.start < s.stop ∧ s.stop ≤ p + (flatten ws).length := by
  obtain ⟨before, w, after, rfl, rfl⟩ := mem_places h
  have hlen := List.length_pos_iff.mpr (hws w (by simp)).text_ne_nil
  simp only [flatten_append, flatten_cons, List.length_append]
  omega

theorem exists_place_stop {ws : List Word} (hne : ws ≠ []) (p : Nat) :
    ∃ s ∈ places p ws, s.stop = p + (flatten ws).length := by
  obtain ⟨vs, v, rfl⟩ := (List.eq_nil_or_concat ws).resolve_left hne
  rw [List.concat_eq_append, places_append, flatten_append]
  exact ⟨_, List.mem_append_right _ (List.mem_singleton_self _), by simp [flatten, Nat.add_assoc]⟩

end Word

private theorem isWord_of_mem_places {ws : List Word} (hws : Laid ws) {trailing : Text}
    (ht : ∀ c ∈ trailing, isBlank c = true) {s : Span} (h : s ∈ Word.places 0 ws) :
    IsWord (Word.flatten ws ++ trailing) s := by
  obtain ⟨before, w, after, rfl, rfl⟩ := Word.mem_places h
  have hw := hws.proper w (by simp)
  refine ⟨Word.flatten before ++ w.gap, w.text, Word.flatten after ++ trailing, ?_, ?_,
    hw.text_ne_nil, hw.text_ink, ?_, ?_⟩
  · simp [Word.flatten_append, Word.flatten_cons]
  · simp
  · intro c hc
    rw [List.getLast?_append] at hc
    cases hgap : w.gap.getLast? with
    | some d =>
      rw [hgap] at hc
      exact hw.gap_blank c (List.mem_of_getLast? (by simpa [hgap] using hc))
    | none =>
      cases before with
      | nil => simp [hgap, Word.flatten] at hc
      | cons v vs => exact absurd (List.getLast?_eq_none_iff.mp hgap) (hws.apart w (by simp))
  · intro c hc
    cases after with
    | nil => exact ht c (List.mem_of_head? (by simpa [Word.flatten] using hc))
    | cons v vs =>
      have hv := (hws.proper v (by simp)).gap_blank
      have hgap : v.gap ≠ [] := by
        cases before with
        | nil => exact hws.apart v (by simp)
        | cons u us => exact hws.apart v (by simp)
      obtain ⟨d, gap, hg⟩ := List.exists_cons_of_ne_nil hgap
      rw [Word.flatten_cons, hg] at hc
      have hd : d = c := by simpa using hc
      exact hd ▸ hv d (by simp [hg])

private theorem mem_places_of_isWord {t : Text} {s : Span} (h : IsWord t s) :
    s ∈ Word.places 0 t.words := by
  obtain ⟨before, word, after, rfl, rfl, hne, hink, hbefore, hafter⟩ := h
  let w : Word := ⟨(Layout.ofText before).trailing, word⟩
  have hw : w.Proper := ⟨Text.trailing_blank before, hne, hink⟩
  have hright : Laid ([w] ++ after.words) :=
    (laid_singleton.mpr hw).append (Text.laid_words after) fun _ => Text.gap_ne_nil_of_head hafter
  have hlaid : Laid (before.words ++ ([w] ++ after.words)) :=
    (Text.laid_words before).append hright fun hwords =>
      by simpa [w] using Text.trailing_ne_nil hwords hbefore
  have hbefore' := flatMap_words_append_trailing before
  have hafter' := flatMap_words_append_trailing after
  have hwords : Text.words (before ++ word ++ after) = before.words ++ ([w] ++ after.words) := by
    have h := Text.words_eq hlaid _ (Text.trailing_blank after)
    rw [List.flatMap_append, List.flatMap_append, List.flatMap_singleton, Word.whole] at h
    rwa [List.append_assoc, List.append_assoc, hafter', List.append_assoc, ← List.append_assoc,
      hbefore', ← List.append_assoc] at h
  rw [hwords, Word.places_append, List.singleton_append, Word.places]
  refine List.mem_append_right _ (List.mem_cons.mpr (.inl ?_))
  have hlen := congrArg List.length hbefore'
  rw [List.length_append] at hlen
  simp [w, Word.flatten, Word.whole, ← hlen, Nat.add_assoc]

theorem IsWord.stop_ne_start {t : Text} {w v : Span} (hw : IsWord t w) (hv : IsWord t v) :
    w.stop ≠ v.start := by
  obtain ⟨before, word, after, rfl, rfl, -, -, -, hafter⟩ := hw
  obtain ⟨before', word', after', heq, rfl, hne, hink, -, -⟩ := hv
  intro hstop
  rw [List.append_assoc before'] at heq
  have hrest := (List.append_inj heq (by simpa using hstop)).2
  obtain ⟨c, rest, rfl⟩ := List.exists_cons_of_ne_nil hne
  have hblank := hafter c (by simp [hrest])
  simp [hink c (by simp)] at hblank

theorem isWord_iff (t : Text) (s : Span) : IsWord t s ↔ s ∈ Word.places 0 t.words := by
  refine ⟨mem_places_of_isWord, fun h => ?_⟩
  have hword := isWord_of_mem_places (Text.laid_words t) (Text.trailing_blank t) h
  rwa [Word.flatten, flatMap_words_append_trailing] at hword

theorem isWord_of_words {t : Text} {before ws after : List Word}
    (h : t.words = before ++ ws ++ after) :
    ∀ s ∈ Word.places (Word.flatten before).length ws, IsWord t s := by
  intro s hs
  rw [isWord_iff, h, Word.places_append, Word.places_append, Nat.zero_add]
  exact List.mem_append_left _ (List.mem_append_right _ hs)

theorem exists_eq_flatten_of_words {t : Text} {before ws after : List Word}
    (h : t.words = before ++ ws ++ after) :
    ∃ rest, t = Word.flatten before ++ Word.flatten ws ++ rest := by
  have ht := flatMap_words_append_trailing t
  rw [← Word.flatten, h, Word.flatten_append, Word.flatten_append, List.append_assoc] at ht
  exact ⟨_, ht.symm⟩

end TemplateTag
