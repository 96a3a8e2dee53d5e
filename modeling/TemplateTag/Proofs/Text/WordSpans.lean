import TemplateTag.Proofs.Text.Bytes
import TemplateTag.Proofs.Text.Search
import TemplateTag.Proofs.Text.Span
/-!
# The words of a text in bytes

`wordSpans` finds the words of a text in one pass that counts bytes. It finds the words that the
layout of the text has (`wordSpans_eq`), and these are the maximal runs of characters that are not
blank.
-/
namespace TemplateTag

/-- The same part of the text, its positions counted in bytes. -/
def Span.inBytes (t : Text) (s : Span) : Span :=
  ⟨Text.byteSize (t.take s.start), Text.byteSize (t.take s.stop)⟩

theorem Span.inBytes_append (before part after : Text) :
    Span.inBytes (before ++ part ++ after) ⟨before.length, before.length + part.length⟩ =
      ⟨Text.byteSize before, Text.byteSize before + Text.byteSize part⟩ := by
  have hfront : (before ++ part ++ after).take before.length = before := by simp
  have hpart : (before ++ part ++ after).take (before.length + part.length) = before ++ part := by
    rw [← List.length_append, List.take_left]
  rw [Span.inBytes, hfront, hpart, Text.byteSize_append]

theorem Word.places_words_cons_blank {c : Char} (hc : isBlank c = true) (p : Nat) (t : Text) :
    places p (Text.words (c :: t)) = places (p + 1) t.words := by
  rw [Text.words_cons_blank hc]
  cases t.words with
  | nil => rfl
  | cons w ws =>
    simp only [List.modifyHead_cons, places, whole, List.length_append, List.length_cons]
    congr 2 <;> omega

namespace Text

private theorem inBytes_places_begun (before : Text) {begun rest : Text} (hne : begun ≠ [])
    (hink : ∀ c ∈ begun, isBlank c = false) (hrest : ∀ c ∈ rest.head?, isBlank c = true) :
    (Word.places before.length (words (begun ++ rest))).map
        (Span.inBytes (before ++ begun ++ rest)) =
      ⟨byteSize before, byteSize (before ++ begun)⟩ ::
        (Word.places (before ++ begun).length rest.words).map
          (Span.inBytes (before ++ begun ++ rest)) := by
  have hspan := Span.inBytes_append before begun rest
  rw [words_ink_append hne hink hrest, Word.places, List.map_cons]
  simp only [Word.whole, List.nil_append, List.length_nil, Nat.add_zero]
  rw [hspan, byteSize_append, List.length_append]

/-- What is left of the pass finds the words that are left, and first of all the one that has begun,
if there is one: what was read of it is put in front of the rest of the text again. -/
theorem wordSpansFrom_eq (before t : Text) :
    wordSpansFrom (byteSize before) none t =
        (Word.places before.length t.words).map (Span.inBytes (before ++ t)) ∧
      ∀ begun, begun ≠ [] → (∀ c ∈ begun, isBlank c = false) →
        wordSpansFrom (byteSize (before ++ begun)) (some (byteSize before)) t =
          (Word.places before.length (words (begun ++ t))).map
            (Span.inBytes (before ++ begun ++ t)) := by
  induction t generalizing before with
  | nil =>
    refine ⟨rfl, ?_⟩
    intro begun hne hink
    rw [inBytes_places_begun before hne hink (by simp)]
    rfl
  | cons c t ih =>
    have hposition (front : Text) : byteSize front + c.utf8Size = byteSize (front ++ [c]) := by
      rw [byteSize_append, byteSize_singleton]
    have hcut (front : Text) : front ++ c :: t = front ++ [c] ++ t := by simp
    cases hc : isBlank c with
    | true =>
      have hafter (front : Text) : wordSpansFrom (byteSize front + c.utf8Size) none t =
          (Word.places front.length (words (c :: t))).map (Span.inBytes (front ++ c :: t)) := by
        rw [hposition, (ih (front ++ [c])).1, ← hcut, Word.places_words_cons_blank hc,
          List.length_append, List.length_singleton]
      constructor
      · rw [wordSpansFrom, if_pos hc, hafter]
      · intro begun hne hink
        rw [wordSpansFrom, if_pos hc, hafter,
          inBytes_places_begun before hne hink (by simpa using hc)]
    | false =>
      constructor
      · have hrest := (ih before).2 [c] (by simp) (by simpa using hc)
        rw [wordSpansFrom, if_neg (by simp [hc]), hposition, hcut]
        exact hrest
      · intro begun hne hink
        have hlonger : ∀ d ∈ begun ++ [c], isBlank d = false :=
          List.forall_mem_append.mpr ⟨hink, by simpa using hc⟩
        have hrest := (ih before).2 (begun ++ [c]) (by simp) hlonger
        rw [wordSpansFrom, if_neg (by simp [hc]), hposition, hcut, hcut begun,
          List.append_assoc before]
        exact hrest

theorem wordSpans_eq (t : Text) :
    t.wordSpans = (Word.places 0 t.words).map (Span.inBytes t) :=
  (wordSpansFrom_eq [] t).1

end Text

namespace Word

theorem map_slice_places (before rest : Text) (ws : List Word) :
    (places before.length ws).map (Span.slice (before ++ flatten ws ++ rest)) = ws.map text := by
  induction ws generalizing before with
  | nil => rfl
  | cons w ws ih =>
    have hw := Span.slice_append (before ++ w.gap) w.text (flatten ws ++ rest)
    have hws := ih (before ++ w.whole)
    simp only [places, List.map_cons, flatten_cons, whole, List.append_assoc, List.length_append,
      Nat.add_assoc] at hw hws ⊢
    rw [hw, hws]

theorem places_pairwise {ws : List Word} (h : ∀ w ∈ ws.tail, w.gap ≠ []) (p : Nat) :
    (places p ws).Pairwise fun s s' => s.stop < s'.start := by
  induction ws generalizing p with
  | nil => exact .nil
  | cons w ws ih =>
    refine List.pairwise_cons.mpr ⟨?_, ih (fun v hv => h v (List.mem_of_mem_tail hv)) _⟩
    intro s hs
    obtain ⟨before, v, after, rfl, rfl⟩ := mem_places hs
    have hgap := List.length_pos_iff.mpr (h v (by simp))
    change p + w.whole.length <
      p + w.whole.length + (flatten before).length + v.gap.length
    omega

end Word

private theorem exists_ink_front (t : Text) :
    ∃ x rest, t = x ++ rest ∧ (∀ c ∈ x, isBlank c = false) ∧
      ∀ c ∈ rest.head?, isBlank c = true := by
  refine ⟨t.takeWhile (! isBlank ·), t.dropWhile (! isBlank ·), ?_, ?_, ?_⟩
  · exact List.takeWhile_append_dropWhile.symm
  · intro c hc
    simpa using List.all_eq_true.mp List.all_takeWhile c hc
  · intro c hc
    have h := List.head?_dropWhile_not (! isBlank ·) t
    rw [hc] at h
    simpa using h

namespace IsWord

/-- Every character that is not blank is part of a word, all of its bytes included. -/
theorem exists_around (before after : Text) {c : Char} (hc : isBlank c = false) :
    ∃ w, IsWord (before ++ c :: after) w ∧
      (w.inBytes (before ++ c :: after)).start ≤ before.byteSize ∧
      before.byteSize + c.utf8Size ≤ (w.inBytes (before ++ c :: after)).stop := by
  -- The word goes from the last blank before the character to the first one after it.
  obtain ⟨x, front, hbefore, hx, hfront⟩ := exists_ink_front before.reverse
  obtain ⟨y, rest, rfl, hy, hrest⟩ := exists_ink_front after
  rw [List.reverse_eq_iff, List.reverse_append] at hbefore
  subst hbefore
  have ht : front.reverse ++ x.reverse ++ c :: (y ++ rest) =
      front.reverse ++ (x.reverse ++ c :: y) ++ rest := by
    simp
  have hink : ∀ d ∈ x.reverse ++ c :: y, isBlank d = false :=
    List.forall_mem_append.mpr
      ⟨fun d hd => hx d (List.mem_reverse.mp hd), List.forall_mem_cons.mpr ⟨hc, hy⟩⟩
  rw [ht]
  refine ⟨_, ⟨_, _, _, rfl, rfl, by simp, hink, by simpa using hfront, hrest⟩, ?_⟩
  rw [Span.inBytes_append]
  simp only [Text.byteSize_append, Text.byteSize]
  omega

theorem apart_from_blank {before after : Text} {c : Char} {w : Span}
    (h : IsWord (before ++ c :: after) w) (hc : isBlank c = true) :
    before.byteSize + c.utf8Size ≤ (w.inBytes (before ++ c :: after)).start ∨
      (w.inBytes (before ++ c :: after)).stop ≤ before.byteSize := by
  obtain ⟨front, word, rest, ht, rfl, hne, hink, -, -⟩ := h
  have hword : c ∉ word := fun hmem => by simp [hink c hmem] at hc
  rw [ht, Span.inBytes_append]
  rw [List.append_assoc] at ht
  rcases List.append_eq_append_iff.mp ht with ⟨more, rfl, hmore⟩ | ⟨more, rfl, hmore⟩
  · cases more with
    | nil =>
      obtain ⟨between, hnil, -⟩ := Text.exists_append_of_not_mem (u := []) hword hmore.symm
      simp [hne] at hnil
    | cons d more =>
      obtain ⟨rfl, -⟩ := List.cons.inj hmore
      left
      simp only [Text.byteSize_append, Text.byteSize]
      omega
  · obtain ⟨between, rfl, -⟩ := Text.exists_append_of_not_mem hword hmore
    right
    simp only [Text.byteSize_append]
    omega

theorem bounds {t : Text} {w : Span} (h : IsWord t w) :
    w.start < w.stop ∧ w.stop ≤ t.length := by
  obtain ⟨before, word, after, rfl, rfl, hne, -⟩ := h
  have hlength := List.length_pos_iff.mpr hne
  simp only [List.length_append]
  omega

end IsWord

/-- The spans are the words of the text, in bytes and one behind the other. -/
structure WordsAt (t : Text) (spans : List Span) : Prop where
  words : ∀ s, s ∈ spans ↔ ∃ w, IsWord t w ∧ s = w.inBytes t
  in_order : spans.Pairwise fun s s' => s.stop < s'.start
  in_text : ∀ s ∈ spans, s.start < s.stop ∧ s.stop ≤ t.byteSize
  boundaries : ∀ s ∈ spans, t.IsBoundary s.start ∧ t.IsBoundary s.stop
  ink : ∀ before c after, t = before ++ c :: after → isBlank c = false →
    ∃ s ∈ spans, s.start ≤ Text.byteSize before ∧ Text.byteSize before + c.utf8Size ≤ s.stop
  blank : ∀ before c after, t = before ++ c :: after → isBlank c = true →
    ∀ s ∈ spans, Text.byteSize before + c.utf8Size ≤ s.start ∨ s.stop ≤ Text.byteSize before

namespace Text

/-- One pass over the text finds the spans of its words, and these are the words of its layout. -/
theorem wordSpans_exact (t : Text) :
    WordsAt t t.wordSpans ∧ t.wordSpans = (Word.places 0 t.words).map (Span.inBytes t) ∧
      t.words.map Word.text = (Word.places 0 t.words).map (Span.slice t) := by
  have hmem (s : Span) : s ∈ t.wordSpans ↔ ∃ w, IsWord t w ∧ s = w.inBytes t := by
    simp only [wordSpans_eq, List.mem_map, isWord_iff, eq_comm]
  have horder : t.wordSpans.Pairwise fun s s' => s.stop < s'.start := by
    rw [wordSpans_eq, List.pairwise_map]
    refine (Word.places_pairwise (laid_words t).apart 0).imp_of_mem ?_
    intro w v _ hv hlt
    -- Between two words there is a blank, and it has at least one byte.
    have hstart := ((isWord_iff t v).mpr hv).bounds
    exact byteSize_take_lt hlt (by omega)
  refine ⟨⟨hmem, horder, ?_, ?_, ?_, ?_⟩, wordSpans_eq t, ?_⟩
  · intro s hs
    obtain ⟨w, hw, rfl⟩ := (hmem s).mp hs
    obtain ⟨hlt, hle⟩ := hw.bounds
    exact ⟨byteSize_take_lt hlt hle, (isBoundary_take t w.stop).le⟩
  · intro s hs
    obtain ⟨w, -, rfl⟩ := (hmem s).mp hs
    exact ⟨isBoundary_take t w.start, isBoundary_take t w.stop⟩
  · intro before c after ht hc
    subst ht
    obtain ⟨w, hw, hstart, hstop⟩ := IsWord.exists_around before after hc
    exact ⟨_, (hmem _).mpr ⟨w, hw, rfl⟩, hstart, hstop⟩
  · intro before c after ht hc s hs
    subst ht
    obtain ⟨w, hw, rfl⟩ := (hmem s).mp hs
    exact hw.apart_from_blank hc
  · have hslices := Word.map_slice_places [] (Layout.ofText t).trailing t.words
    rw [List.nil_append, Word.flatten, flatMap_words_append_trailing] at hslices
    exact hslices.symm

theorem wordSpans_exact_multibyte :
    let t : Text := "é €\u3000a".toList
    WordsAt t [⟨0, 2⟩, ⟨3, 6⟩, ⟨9, 10⟩] ∧
      t.words.map Word.text = ["é".toList, "€".toList, "a".toList] := by
  intro t
  have hexact := wordSpans_exact t
  have hspans : t.wordSpans = [⟨0, 2⟩, ⟨3, 6⟩, ⟨9, 10⟩] := by decide
  rw [hspans] at hexact
  refine ⟨hexact.1, hexact.2.2.trans ?_⟩
  decide

end Text

end TemplateTag
