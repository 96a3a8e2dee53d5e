import TemplateTag.Text.Words
/-!
# The words of a text

The words of a text are the only way to lay it out as proper words with blanks between them
(`words_eq`). So the words of a text that is put together from parts can be read off the parts.
-/
namespace TemplateTag

/-- A non-empty text without blanks, after nothing but blanks. -/
structure Word.Proper (w : Word) : Prop where
  gap_blank : ∀ c ∈ w.gap, isBlank c = true
  text_ne_nil : w.text ≠ []
  text_ink : ∀ c ∈ w.text, isBlank c = false

/-- Proper words. Only the first one may stand without a blank before it. -/
structure Laid (ws : List Word) : Prop where
  proper : ∀ w ∈ ws, w.Proper
  apart : ∀ w ∈ ws.tail, w.gap ≠ []

theorem Laid.append {ws vs : List Word} (hws : Laid ws) (hvs : Laid vs)
    (hgap : ws ≠ [] → ∀ v ∈ vs.head?, v.gap ≠ []) : Laid (ws ++ vs) := by
  refine ⟨fun w hw => (List.mem_append.mp hw).elim (hws.proper w) (hvs.proper w), ?_⟩
  cases ws with
  | nil => simpa using hvs.apart
  | cons u us =>
    intro w hw
    rw [List.cons_append, List.tail_cons] at hw
    rcases List.mem_append.mp hw with hw | hw
    · exact hws.apart w hw
    · cases vs with
      | nil => cases hw
      | cons v vs =>
        rcases List.mem_cons.mp hw with rfl | hw
        · exact hgap (by simp) w (by simp)
        · exact hvs.apart w hw

theorem Laid.of_append_left {ws vs : List Word} (h : Laid (ws ++ vs)) : Laid ws := by
  refine ⟨fun w hw => h.proper w (by simp [hw]), fun w hw => h.apart w ?_⟩
  cases ws with
  | nil => cases hw
  | cons u us => exact List.mem_append_left vs hw

theorem laid_singleton {w : Word} : Laid [w] ↔ w.Proper :=
  ⟨fun h => h.proper w (by simp), fun h => ⟨by simpa using h, by simp⟩⟩

namespace Layout

private structure Sound (l : Layout) : Prop where
  head_ink : ∀ c ∈ l.head, isBlank c = false
  later_proper : ∀ w ∈ l.later, w.Proper
  later_apart : ∀ w ∈ l.later, w.gap ≠ []
  trailing_blank : ∀ c ∈ l.trailing, isBlank c = true

private theorem Sound.addBlank {c : Char} (hc : isBlank c = true) {l : Layout} (h : l.Sound) :
    (l.addBlank c).Sound := by
  obtain ⟨head, later, trailing⟩ := l
  obtain ⟨hhead, hproper, hapart, htrailing⟩ := h
  cases head with
  | nil =>
    cases later with
    | nil => exact ⟨by simp [Layout.addBlank], by simp [Layout.addBlank], by simp [Layout.addBlank],
        by simpa [Layout.addBlank, hc] using htrailing⟩
    | cons w later =>
      have hw := hproper w (by simp)
      have hw' : Word.Proper { w with gap := c :: w.gap } :=
        ⟨by simpa [hc] using hw.gap_blank, hw.text_ne_nil, hw.text_ink⟩
      refine ⟨by simp [Layout.addBlank], ?_, ?_, htrailing⟩
      · simpa [Layout.addBlank, hw'] using fun v hv => hproper v (by simp [hv])
      · simpa [Layout.addBlank] using fun v hv => hapart v (by simp [hv])
  | cons a head =>
    have hw : Word.Proper ⟨[c], a :: head⟩ := ⟨by simp [hc], by simp, hhead⟩
    refine ⟨by simp [Layout.addBlank], ?_, ?_, htrailing⟩
    · simpa [Layout.addBlank, hw] using hproper
    · simpa [Layout.addBlank] using hapart

private theorem Sound.addInk {c : Char} (hc : isBlank c = false) {l : Layout} (h : l.Sound) :
    (l.addInk c).Sound :=
  ⟨by simpa [Layout.addInk, hc] using h.head_ink, h.later_proper, h.later_apart, h.trailing_blank⟩

private theorem sound_ofText (t : Text) : (ofText t).Sound := by
  induction t with
  | nil => exact ⟨by simp [ofText], by simp [ofText], by simp [ofText], by simp [ofText]⟩
  | cons c t ih =>
    rw [ofText]
    split
    · next hc => exact ih.addBlank hc
    · next hc => exact ih.addInk (by simpa using hc)

theorem words_addBlank (c : Char) (l : Layout) :
    (l.addBlank c).words = l.words.modifyHead fun w => { w with gap := c :: w.gap } := by
  obtain ⟨head, later, trailing⟩ := l
  cases head <;> cases later <;> simp [addBlank, words]

end Layout

namespace Text

theorem laid_words (t : Text) : Laid t.words := by
  have h := Layout.sound_ofText t
  rw [words, Layout.words]
  split
  · exact ⟨h.later_proper, fun w hw => h.later_apart w (List.mem_of_mem_tail hw)⟩
  · next he =>
    have hhead : Word.Proper ⟨[], (Layout.ofText t).head⟩ :=
      ⟨by simp, by simpa [List.isEmpty_iff] using he, h.head_ink⟩
    exact ⟨by simpa [hhead] using h.later_proper, h.later_apart⟩

theorem trailing_blank (t : Text) : ∀ c ∈ (Layout.ofText t).trailing, isBlank c = true :=
  (Layout.sound_ofText t).trailing_blank

theorem words_cons_blank {c : Char} (hc : isBlank c = true) (t : Text) :
    words (c :: t) = t.words.modifyHead fun w => { w with gap := c :: w.gap } := by
  rw [words, Layout.ofText, if_pos hc, Layout.words_addBlank, words]

theorem words_gap_append {gap : Text} (hgap : ∀ c ∈ gap, isBlank c = true) (t : Text) :
    words (gap ++ t) = t.words.modifyHead fun w => { w with gap := gap ++ w.gap } := by
  induction gap with
  | nil => cases h : t.words <;> simp [h]
  | cons c gap ih =>
    rw [List.cons_append, words_cons_blank (hgap c (by simp)),
      ih fun d hd => hgap d (by simp [hd])]
    cases t.words <;> simp

private theorem ofText_ink_append {x : Text} (hx : ∀ c ∈ x, isBlank c = false) (t : Text) :
    Layout.ofText (x ++ t) = { Layout.ofText t with head := x ++ (Layout.ofText t).head } := by
  induction x with
  | nil => rfl
  | cons c x ih =>
    rw [List.cons_append, Layout.ofText, if_neg (by simp [hx c (by simp)]),
      ih fun d hd => hx d (by simp [hd])]
    rfl

private theorem head_ofText {t : Text} (ht : ∀ c ∈ t.head?, isBlank c = true) :
    (Layout.ofText t).head = [] := by
  cases t with
  | nil => rfl
  | cons c t =>
    rw [Layout.ofText, if_pos (ht c (by simp))]
    generalize Layout.ofText t = l
    obtain ⟨head, later, trailing⟩ := l
    cases head <;> cases later <;> rfl

theorem words_ink_append {x : Text} (hne : x ≠ []) (hx : ∀ c ∈ x, isBlank c = false) {t : Text}
    (ht : ∀ c ∈ t.head?, isBlank c = true) : words (x ++ t) = ⟨[], x⟩ :: t.words := by
  have hhead := head_ofText ht
  simp [words, Layout.words, ofText_ink_append hx, hhead, hne]

theorem words_gap_ink_append {gap x t : Text} (hgap : ∀ c ∈ gap, isBlank c = true) (hne : x ≠ [])
    (hx : ∀ c ∈ x, isBlank c = false) (ht : ∀ c ∈ t.head?, isBlank c = true) :
    words (gap ++ (x ++ t)) = ⟨gap, x⟩ :: t.words := by
  rw [words_gap_append hgap, words_ink_append hne hx ht]
  simp

theorem words_gap_ink {gap x : Text} (hgap : ∀ c ∈ gap, isBlank c = true) (hne : x ≠ [])
    (hx : ∀ c ∈ x, isBlank c = false) : words (gap ++ x) = [⟨gap, x⟩] := by
  have h := words_gap_ink_append hgap hne hx (t := []) (by simp)
  rwa [List.append_nil] at h

theorem words_blank {t : Text} (ht : ∀ c ∈ t, isBlank c = true) : t.words = [] := by
  have h := words_gap_append ht []
  rw [List.append_nil] at h
  rw [h]
  rfl

/-- Proper words, laid out with blanks between them, are the words of the text that results. -/
theorem words_eq {ws : List Word} (h : Laid ws) (trailing : Text)
    (ht : ∀ c ∈ trailing, isBlank c = true) :
    words (ws.flatMap Word.whole ++ trailing) = ws := by
  induction ws with
  | nil => exact words_blank ht
  | cons w ws ih =>
    have hw := h.proper w (by simp)
    have hrest : Laid ws :=
      ⟨fun v hv => h.proper v (by simp [hv]), fun v hv => h.apart v (List.mem_of_mem_tail hv)⟩
    have hnext : ∀ c ∈ (ws.flatMap Word.whole ++ trailing).head?, isBlank c = true := by
      cases ws with
      | nil => exact fun c hc => ht c (List.mem_of_head? hc)
      | cons v ws =>
        have hgap := h.apart v (by simp)
        obtain ⟨c, gap, hg⟩ := List.exists_cons_of_ne_nil hgap
        have hc := (hrest.proper v (by simp)).gap_blank c (by simp [hg])
        simp [Word.whole, hg, hc]
    rw [List.flatMap_cons, Word.whole, List.append_assoc, List.append_assoc,
      words_gap_append hw.gap_blank, words_ink_append hw.text_ne_nil hw.text_ink hnext, ih hrest]
    simp

theorem flatMap_words {t : Text} (ht : ∀ c ∈ t.getLast?, isBlank c = false) :
    t.words.flatMap Word.whole = t := by
  have hlayout := flatMap_words_append_trailing t
  cases htrailing : (Layout.ofText t).trailing.getLast? with
  | none => simpa [List.getLast?_eq_none_iff.mp htrailing] using hlayout
  | some c =>
    have hblank := trailing_blank t c (List.mem_of_getLast? htrailing)
    have hlast : t.getLast? = some c := by rw [← hlayout, List.getLast?_append, htrailing]; rfl
    simp [ht c hlast] at hblank

theorem mem_of_mem_words {t : Text} {w : Word} (hw : w ∈ t.words) {c : Char} (hc : c ∈ w.text) :
    c ∈ t := by
  have hwhole : c ∈ t.words.flatMap Word.whole :=
    List.mem_flatMap.mpr ⟨w, hw, List.mem_append_right _ hc⟩
  rw [← flatMap_words_append_trailing t]
  exact List.mem_append_left _ hwhole

theorem trailing_ne_nil {t : Text} (hne : t.words ≠ [])
    (ht : ∀ c ∈ t.getLast?, isBlank c = true) : (Layout.ofText t).trailing ≠ [] := by
  intro hnil
  obtain ⟨ws, w, hwords⟩ := (List.eq_nil_or_concat t.words).resolve_left hne
  have hlayout := flatMap_words_append_trailing t
  rw [hnil, List.append_nil, hwords, List.concat_eq_append, List.flatMap_append] at hlayout
  have hw := (laid_words t).proper w (by simp [hwords])
  have hlast : t.getLast? = some (w.text.getLast hw.text_ne_nil) := by
    simp [← hlayout, Word.whole, List.getLast?_append, List.getLast?_eq_some_getLast hw.text_ne_nil]
  have hblank := ht _ hlast
  simp [hw.text_ink _ (List.getLast_mem hw.text_ne_nil)] at hblank

theorem words_ne_nil {t : Text} {c : Char} (hc : c ∈ t) (hink : isBlank c = false) :
    t.words ≠ [] := by
  intro h
  have hlayout := flatMap_words_append_trailing t
  rw [h, List.flatMap_nil, List.nil_append] at hlayout
  have hblank := trailing_blank t c (by rwa [hlayout])
  simp [hink] at hblank

theorem gap_ne_nil_of_head {t : Text} (ht : ∀ c ∈ t.head?, isBlank c = true) :
    ∀ w ∈ t.words.head?, w.gap ≠ [] := by
  cases t with
  | nil => simp [words, Layout.ofText, Layout.words]
  | cons c t =>
    rw [words_cons_blank (ht c (by simp))]
    cases words t <;> simp

theorem exists_split_at_blank {t : Text} (h : ∃ c ∈ t, isBlank c = true) :
    ∃ x b y, t = x ++ b :: y ∧ (∀ c ∈ x, isBlank c = false) ∧ isBlank b = true := by
  obtain ⟨b, hfind⟩ := Option.isSome_iff_exists.mp (List.find?_isSome.mpr h)
  obtain ⟨hb, x, y, rfl, hx⟩ := List.find?_eq_some_iff_append.mp hfind
  exact ⟨x, b, y, rfl, fun c hc => by simpa using hx c hc, hb⟩

theorem words_append {a b : Text} (ha : ∀ c ∈ a.getLast?, isBlank c = false)
    (hb : ∀ c ∈ b.head?, isBlank c = true) : words (a ++ b) = a.words ++ b.words := by
  have hlaid := (laid_words a).append (laid_words b) fun _ => gap_ne_nil_of_head hb
  have h := words_eq hlaid _ (trailing_blank b)
  rwa [List.flatMap_append, flatMap_words ha, List.append_assoc,
    flatMap_words_append_trailing] at h

/-- The words of a text that goes on with a blank. The blanks at its end come to stand in front of the
next word. -/
theorem words_append_of_blank (a : Text) {b : Text} (hb : ∀ c ∈ b.head?, isBlank c = true) :
    words (a ++ b) = a.words ++ words ((Layout.ofText a).trailing ++ b) := by
  let rest := (Layout.ofText a).trailing ++ b
  have hhead : ∀ c ∈ rest.head?, isBlank c = true := by
    intro c hc
    rw [List.head?_append] at hc
    cases htrailing : (Layout.ofText a).trailing.head? with
    | none => exact hb c (by simpa [htrailing] using hc)
    | some d =>
      obtain rfl : d = c := by simpa [htrailing] using hc
      exact trailing_blank a d (List.mem_of_head? htrailing)
  have hlaid := (laid_words a).append (laid_words rest) fun _ => gap_ne_nil_of_head hhead
  have h := words_eq hlaid (Layout.ofText rest).trailing (trailing_blank rest)
  rwa [List.flatMap_append, List.append_assoc, flatMap_words_append_trailing, ← List.append_assoc,
    flatMap_words_append_trailing] at h

theorem words_append_gap (a : Text) {gap b : Text} (hne : gap ≠ [])
    (hgap : ∀ c ∈ gap, isBlank c = true) :
    words (a ++ gap ++ b) = a.words ++
      b.words.modifyHead fun w => { w with gap := (Layout.ofText a).trailing ++ gap ++ w.gap } := by
  have hhead : ∀ c ∈ (gap ++ b).head?, isBlank c = true := by
    obtain ⟨c, gap, rfl⟩ := List.exists_cons_of_ne_nil hne
    simpa using hgap c (by simp)
  have hall : ∀ c ∈ (Layout.ofText a).trailing ++ gap, isBlank c = true :=
    List.forall_mem_append.mpr ⟨trailing_blank a, hgap⟩
  rw [List.append_assoc, words_append_of_blank a hhead, ← List.append_assoc, words_gap_append hall]

theorem words_append_ink {a : Text} {ws : List Word} {w : Word} (hwords : a.words = ws ++ [w])
    (ha : ∀ c ∈ a.getLast?, isBlank c = false) {x : Text} (hx : ∀ c ∈ x, isBlank c = false) :
    words (a ++ x) = ws ++ [{ w with text := w.text ++ x }] := by
  have hla := laid_words a
  rw [hwords] at hla
  have hw := hla.proper w (by simp)
  have hlonger : Word.Proper { w with text := w.text ++ x } :=
    ⟨hw.gap_blank, by simp [hw.text_ne_nil],
      fun c hc => (List.mem_append.mp hc).elim (hw.text_ink c) (hx c)⟩
  have hgap : ws ≠ [] → w.gap ≠ [] := fun hne => hla.apart w (by simp [hne])
  have hlaid := hla.of_append_left.append (laid_singleton.mpr hlonger) (by simpa using hgap)
  have h := words_eq hlaid [] (by simp)
  have hflat := flatMap_words ha
  rw [hwords] at hflat
  simpa [← hflat, Word.whole] using h

theorem count_words {c : Char} (hc : isBlank c = false) (t : Text) :
    (t.words.flatMap Word.text).count c = t.count c := by
  have hblank {u : Text} (hu : ∀ d ∈ u, isBlank d = true) : u.count c = 0 :=
    List.count_eq_zero.mpr fun hm => by simp [hu c hm] at hc
  have hwhole (ws : List Word) (hws : ∀ w ∈ ws, w.Proper) :
      (ws.flatMap Word.whole).count c = (ws.flatMap Word.text).count c := by
    induction ws with
    | nil => rfl
    | cons w ws ih =>
      have hgap := hblank (hws w (by simp)).gap_blank
      have hrest := ih fun v hv => hws v (by simp [hv])
      simp only [List.flatMap_cons, Word.whole, List.count_append, hgap, hrest, Nat.zero_add]
  have h := congrArg (List.count c) (flatMap_words_append_trailing t)
  rwa [List.count_append, hblank (trailing_blank t), Nat.add_zero,
    hwhole _ (laid_words t).proper] at h

theorem words_of_mark_at_end {t : Text} {mark : Char} (hlast : t.getLast? = some mark)
    (hmark : isBlank mark = false) (hcount : t.count mark = 1) :
    ∃ ws w, t.words = ws ++ [w] ∧ w.text.endsWith mark = true ∧ ∀ v ∈ ws, mark ∉ v.text := by
  have hne : t.words ≠ [] := words_ne_nil (List.mem_of_getLast? hlast) hmark
  obtain ⟨ws, w, hwords⟩ := (List.eq_nil_or_concat t.words).resolve_left hne
  rw [List.concat_eq_append] at hwords
  have hw := (laid_words t).proper w (by simp [hwords])
  have hflat := flatMap_words (t := t) fun c hc => by
    obtain rfl : mark = c := by simpa [hlast] using hc
    exact hmark
  have hend : w.text.getLast? = some mark := by
    rw [← hlast, ← hflat, hwords, List.getLast?_eq_some_getLast hw.text_ne_nil]
    simp [Word.whole, List.getLast?_append, List.getLast?_eq_some_getLast hw.text_ne_nil]
  have hin : 0 < w.text.count mark := List.count_pos_iff.mpr (List.mem_of_getLast? hend)
  have hsum := count_words hmark t
  rw [hcount, hwords, List.flatMap_append, List.count_append, List.flatMap_singleton] at hsum
  have hzero : (ws.flatMap Word.text).count mark = 0 := by omega
  refine ⟨ws, w, hwords, by simp [endsWith, hend], ?_⟩
  intro v hv hmem
  exact List.count_eq_zero.mp hzero (List.mem_flatMap.mpr ⟨v, hv, hmem⟩)

/-- A mark around a text that it does not occur in stands at the end of the last word, and of no other
unless there is a blank right behind the first mark. -/
theorem words_between_marks {gap content : Text} {mark : Char} (hgap : ∀ c ∈ gap, isBlank c = true)
    (hmark : isBlank mark = false) (hne : content ≠ []) (hhead : content.startsIn isBlank = false)
    (hfree : mark ∉ content) :
    ∃ ws w, words (gap ++ (mark :: content ++ [mark])) = ws ++ [w] ∧
      w.text.endsWith mark = true ∧ ∀ v ∈ ws, v.text.endsWith mark = false := by
  have hend (t : Text) : endsWith (t ++ [mark]) mark = true := by simp [endsWith]
  by_cases hblank : ∃ c ∈ content, isBlank c = true
  · obtain ⟨x, b, y, rfl, hx, hb⟩ := exists_split_at_blank hblank
    have hxne : x ≠ [] := by
      intro hnil
      rw [hnil, List.nil_append, startsIn, hb] at hhead
      cases hhead
    have hfirst : ∀ c ∈ mark :: x, isBlank c = false := List.forall_mem_cons.mpr ⟨hmark, hx⟩
    have hfree' : mark ∉ x ∧ mark ∉ b :: y := by simpa using hfree
    have hcount : (b :: y ++ [mark]).count mark = 1 := by
      rw [List.count_append, List.count_eq_zero.mpr hfree'.2, List.count_singleton_self]
    obtain ⟨ws, w, hwords, hlast, hmiddle⟩ :=
      words_of_mark_at_end List.getLast?_concat hmark hcount
    have hsplit : gap ++ (mark :: (x ++ b :: y) ++ [mark]) =
        gap ++ (mark :: x ++ (b :: y ++ [mark])) := by
      simp
    refine ⟨⟨gap, mark :: x⟩ :: ws, w, ?_, hlast, ?_⟩
    · rw [hsplit, words_gap_ink_append hgap (List.cons_ne_nil _ _) hfirst (by simpa using hb),
        hwords, List.cons_append]
    · intro v hv
      cases hv with
      | head =>
        rw [endsWith, List.getLast?_cons_of_ne_nil hxne, beq_eq_false_iff_ne]
        exact fun heq => hfree'.1 (List.mem_of_getLast? heq)
      | tail _ hv =>
        rw [endsWith, beq_eq_false_iff_ne]
        exact fun heq => hmiddle v hv (List.mem_of_getLast? heq)
  · have hcontent : ∀ c ∈ content, isBlank c = false := by simpa using hblank
    have hink : ∀ c ∈ mark :: content ++ [mark], isBlank c = false :=
      List.forall_mem_append.mpr ⟨List.forall_mem_cons.mpr ⟨hmark, hcontent⟩, by simpa using hmark⟩
    exact ⟨[], ⟨gap, mark :: content ++ [mark]⟩, words_gap_ink hgap (by simp) hink, hend _,
      by simp⟩

end Text

end TemplateTag
