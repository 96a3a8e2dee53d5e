import TemplateTag.Proofs.RawArgument.Advance
import TemplateTag.Proofs.Text.Span
/-!
# What the raw arguments cover

The raw arguments of a text are slices of it, one behind the other, and each word of the text is in
exactly one of them. The exceptions are the word `as` before block parameters, and what follows an
argument in which more parentheses are closed than were opened.
-/
namespace TemplateTag

/-- The span of a run whose words are laid out from a position on. -/
def Run.span (p : Nat) (r : Run) : Span :=
  ⟨p + r.first.gap.length + if r.isBlockParams then r.first.text.length else 0,
    p + (Word.flatten r.words).length⟩

def Run.spans : Nat → List Run → List Span
  | _, [] => []
  | p, r :: rs => r.span p :: spans (p + (Word.flatten r.words).length) rs

/-- A span from the end of a word `as` to a bar. -/
def IsParamSpan (t : Text) (s : Span) : Prop :=
  (∃ w, IsWord t w ∧ w.slice t = "as".toList ∧ w.stop = s.start) ∧
    (s.slice t).endsWith '|' = true

/-- A span that ends with a word, and starts with one unless it is one of block parameters, which
are told by the blank in front. -/
structure IsArgumentSpan (t : Text) (s : Span) : Prop where
  ends_with_word : ∃ w, IsWord t w ∧ w.stop = s.stop
  blank_iff : (s.slice t).startsIn isBlank = true ↔ IsParamSpan t s
  starts_with_word : ¬IsParamSpan t s → ∃ w, IsWord t w ∧ w.start = s.start

/-- A word lies inside exactly one of the spans, or in none if it is the `as` before one of them. -/
structure Accounted (t : Text) (spans : List Span) (w : Span) : Prop where
  in_none : (∃ s ∈ spans, IsParamSpan t s ∧ w.stop = s.start) → spans.countP w.within = 0
  in_one : (¬∃ s ∈ spans, IsParamSpan t s ∧ w.stop = s.start) → spans.countP w.within = 1

/-- The reading of a text stops at a word that closes more parentheses than are open, while an
argument is pending whose first word is `opening`. -/
def StopsInside (t : Text) (opening : Span) : Prop :=
  ∃ before first pending closing after done depth,
    t.words = before ++ first :: pending ++ closing :: after ∧
    Runs.State.advance (.between false) (before ++ first :: pending) =
      some (done, .inside (.parentheses depth) first pending) ∧
    depth + openedBy closing.text < closing.text.runAtEnd ')' ∧
    opening = ⟨(Word.flatten before).length + first.gap.length,
      (Word.flatten before).length + first.whole.length⟩

namespace Run

private theorem flatten_words (r : Run) :
    Word.flatten r.words = r.first.gap ++ r.first.text ++ Word.flatten r.rest := by
  rw [words, Word.flatten_cons]

private theorem text_eq (r : Run) : r.text =
    if r.isBlockParams then Word.flatten r.rest else r.first.text ++ Word.flatten r.rest := rfl

theorem mem_spans {p : Nat} {rs : List Run} {s : Span} (h : s ∈ spans p rs) :
    ∃ before r after, rs = before ++ r :: after ∧
      s = r.span (p + (Word.flatten (before.flatMap words)).length) := by
  induction rs generalizing p with
  | nil => cases h
  | cons r rs ih =>
    rw [spans, List.mem_cons] at h
    rcases h with rfl | h
    · exact ⟨[], r, rs, rfl, by simp [Word.flatten]⟩
    · obtain ⟨before, r', after, rfl, rfl⟩ := ih h
      refine ⟨r :: before, r', after, rfl, ?_⟩
      simp [Word.flatten_append, Nat.add_assoc]

private theorem span_bounds {r : Run} (hr : r.Sound) (hw : ∀ w ∈ r.words, w.Proper) (p : Nat) :
    p + r.first.gap.length ≤ (r.span p).start ∧ (r.span p).start < (r.span p).stop := by
  have hfirst := List.length_pos_iff.mpr (hw r.first (by simp [words])).text_ne_nil
  simp only [span, flatten_words, List.length_append]
  split
  · next hblock =>
    obtain ⟨_, ws, w, hrest, _⟩ := hr hblock
    have hlast := List.length_pos_iff.mpr (hw w (by simp [words, hrest])).text_ne_nil
    simp only [hrest, Word.flatten_append, Word.flatten_cons, List.length_append]
    omega
  · omega

theorem bounds_of_mem_spans {p : Nat} {rs : List Run} (hrs : ∀ r ∈ rs, r.Sound)
    (hw : ∀ w ∈ rs.flatMap words, w.Proper) {s : Span} (h : s ∈ spans p rs) :
    p ≤ s.start ∧ s.start < s.stop ∧ s.stop ≤ p + (Word.flatten (rs.flatMap words)).length := by
  obtain ⟨before, r, after, rfl, rfl⟩ := mem_spans h
  have hr := span_bounds (hrs r (by simp))
    (fun w hw' => hw w (List.mem_flatMap.mpr ⟨r, by simp, hw'⟩))
    (p + (Word.flatten (before.flatMap words)).length)
  refine ⟨by omega, hr.2, ?_⟩
  simp [span, Word.flatten_append, Nat.add_assoc]

theorem spans_pairwise {p : Nat} {rs : List Run} (hrs : ∀ r ∈ rs, r.Sound)
    (hw : ∀ w ∈ rs.flatMap words, w.Proper) :
    (spans p rs).Pairwise fun s s' => s.stop ≤ s'.start := by
  induction rs generalizing p with
  | nil => exact .nil
  | cons r rs ih =>
    have hrs' : ∀ r' ∈ rs, r'.Sound := fun r' hr' => hrs r' (by simp [hr'])
    have hw' : ∀ w ∈ rs.flatMap words, w.Proper := fun w hw' => hw w (by simp [hw'])
    refine List.pairwise_cons.mpr ⟨fun s hs => ?_, ih hrs' hw'⟩
    exact (bounds_of_mem_spans hrs' hw' hs).1

theorem slice_span (before after : Text) (r : Run) :
    (r.span before.length).slice (before ++ Word.flatten r.words ++ after) = r.text := by
  cases hblock : r.isBlockParams with
  | false =>
    have h := Span.slice_append (before ++ r.first.gap) (r.first.text ++ Word.flatten r.rest) after
    simpa [span, flatten_words, hblock, text_eq, Nat.add_assoc] using h
  | true =>
    have h := Span.slice_append (before ++ r.first.gap ++ r.first.text) (Word.flatten r.rest) after
    simpa [span, flatten_words, hblock, text_eq, Nat.add_assoc] using h

theorem map_slice_spans (before after : Text) (rs : List Run) :
    (spans before.length rs).map (Span.slice (before ++ Word.flatten (rs.flatMap words) ++ after)) =
      rs.map text := by
  induction rs generalizing before with
  | nil => rfl
  | cons r rs ih =>
    have hr := slice_span before (Word.flatten (rs.flatMap words) ++ after) r
    have hrs := ih (before ++ Word.flatten r.words)
    simp only [spans, List.map_cons, List.flatMap_cons, Word.flatten_append, List.append_assoc,
      List.length_append] at hr hrs ⊢
    rw [hr, hrs]

theorem slice_first {before after : Text} {r : Run} :
    Span.slice (before ++ Word.flatten r.words ++ after)
      ⟨before.length + r.first.gap.length, before.length + r.first.whole.length⟩ =
        r.first.text := by
  have h := Span.slice_append (before ++ r.first.gap) r.first.text (Word.flatten r.rest ++ after)
  simpa [flatten_words, Word.whole, Nat.add_assoc] using h

private theorem lt_start_of_mem_spans {p : Nat} {rs : List Run} (hrs : ∀ r ∈ rs, r.Sound)
    (hw : ∀ w ∈ rs.flatMap words, w.Proper ∧ w.gap ≠ []) {s : Span} (h : s ∈ spans p rs) :
    p < s.start := by
  obtain ⟨before, r, after, rfl, rfl⟩ := mem_spans h
  have hmem {w : Word} (hwr : w ∈ r.words) := hw w (List.mem_flatMap.mpr ⟨r, by simp, hwr⟩)
  have hgap := List.length_pos_iff.mpr (hmem (w := r.first) (by simp [words])).2
  have hr := span_bounds (hrs r (by simp)) (fun w hwr => (hmem hwr).1)
    (p + (Word.flatten (before.flatMap words)).length)
  omega

/-- A word of a run lies inside its span, unless it is the `as` of block parameters. The span starts
where that word stops. -/
private theorem within_span {p : Nat} {r : Run} (hw : ∀ w ∈ r.words, w.Proper) {w : Span}
    (h : w ∈ Word.places p r.words) :
    w.within (r.span p) = true ∧ w.stop ≠ (r.span p).start ∨
      w.within (r.span p) = false ∧ w.stop = (r.span p).start := by
  rw [words, Word.places, List.mem_cons] at h
  have hfirst := List.length_pos_iff.mpr (hw r.first (by simp [words])).text_ne_nil
  simp only [Span.within, Bool.and_eq_true, Bool.and_eq_false_iff, decide_eq_true_eq,
    decide_eq_false_iff_not, span, flatten_words, List.length_append]
  rcases h with rfl | h
  · cases hblock : r.isBlockParams with
    | false => simp only [Word.whole, List.length_append, Bool.false_eq_true, if_false]; omega
    | true => simp only [Word.whole, List.length_append, if_true]; omega
  · have hbounds := Word.bounds_of_mem_places (fun v hv => hw v (by simp [words, hv])) h
    simp only [Word.whole, List.length_append] at hbounds
    split <;> omega

/-- A word of runs lies inside exactly one of their spans, or in none if one starts where it
stops. -/
theorem countP_within_spans {p : Nat} {rs : List Run} (hrs : ∀ r ∈ rs, r.Sound)
    (hlaid : Laid (rs.flatMap words)) {w : Span} (h : w ∈ Word.places p (rs.flatMap words)) :
    (spans p rs).countP w.within = if ∃ s ∈ spans p rs, w.stop = s.start then 0 else 1 := by
  induction rs generalizing p with
  | nil => cases h
  | cons r rs ih =>
    rw [List.flatMap_cons] at hlaid h
    have hrs' : ∀ r' ∈ rs, r'.Sound := fun r' hr' => hrs r' (by simp [hr'])
    have hrun : ∀ v ∈ r.words, v.Proper := fun v hv => hlaid.proper v (by simp [hv])
    have hlater : ∀ v ∈ rs.flatMap words, v.Proper ∧ v.gap ≠ [] := fun v hv =>
      ⟨hlaid.proper v (List.mem_append_right _ hv),
        hlaid.apart v (List.mem_append_right r.rest hv)⟩
    have hlaid' : Laid (rs.flatMap words) :=
      ⟨fun v hv => (hlater v hv).1, fun v hv => (hlater v (List.mem_of_mem_tail hv)).2⟩
    let q := p + (Word.flatten r.words).length
    have hr := span_bounds (hrs r (by simp)) hrun p
    have hstop : (r.span p).stop = q := rfl
    rw [Word.places_append, List.mem_append] at h
    simp only [spans, List.countP_cons, List.mem_cons, exists_eq_or_imp]
    rcases h with h | h
    · -- a word of the first run starts before every later span
      have hw := Word.bounds_of_mem_places hrun h
      have hcount : (spans q rs).countP w.within = 0 := by
        refine List.countP_eq_zero.mpr fun s hs => ?_
        have hs' := lt_start_of_mem_spans hrs' hlater hs
        simp only [Span.within, Bool.and_eq_true, decide_eq_true_eq]
        omega
      have hnone : ¬∃ s ∈ spans q rs, w.stop = s.start := by
        rintro ⟨s, hs, heq⟩
        have hs' := lt_start_of_mem_spans hrs' hlater hs
        omega
      rw [hcount]
      rcases within_span hrun h with ⟨hin, hne⟩ | ⟨hout, heq⟩
      · rw [if_pos hin, if_neg fun h => h.elim hne hnone]
      · rw [if_neg (by simp [hout]), if_pos (.inl heq)]
    · -- a word of a later run starts where the first span stops, or after it
      have hw := Word.bounds_of_mem_places (fun v hv => (hlater v hv).1) h
      have hout : ¬w.within (r.span p) = true := by
        simp only [Span.within, Bool.and_eq_true, decide_eq_true_eq]
        omega
      have hne : w.stop ≠ (r.span p).start := by omega
      rw [if_neg hout, Nat.add_zero, ih hrs' hlaid' h]
      simp only [hne, false_or]

end Run

section Words

variable {t : Text} {rs : List Run} {more : List Word}

private theorem exists_run_of_mem_spans (hwords : t.words = rs.flatMap Run.words ++ more)
    {s : Span} (hs : s ∈ Run.spans 0 rs) :
    ∃ r ∈ rs, ∃ before after, t.words = before ++ r.words ++ after ∧
      s = r.span (Word.flatten before).length ∧ s.slice t = r.text := by
  obtain ⟨before, r, after, rfl, rfl⟩ := Run.mem_spans hs
  rw [List.flatMap_append, List.flatMap_cons, List.append_assoc, List.append_assoc,
    ← List.append_assoc] at hwords
  refine ⟨r, by simp, before.flatMap Run.words, _, hwords, by rw [Nat.zero_add], ?_⟩
  obtain ⟨rest, ht⟩ := exists_eq_flatten_of_words hwords
  rw [Nat.zero_add]
  conv => lhs; arg 1; rw [ht]
  exact Run.slice_span _ _ r

theorem Run.startsIn_text {r : Run} (hr : r.Sound) {before after : List Word}
    (hwords : t.words = before ++ r.words ++ after) :
    r.text.startsIn isBlank = r.isBlockParams := by
  have hlaid := Text.laid_words t
  rw [hwords] at hlaid
  rw [Run.text]
  split
  · next hblock =>
    obtain ⟨-, ws, last, hrest, -⟩ := hr hblock
    obtain ⟨v, vs, hcons⟩ := List.exists_cons_of_ne_nil (l := r.rest) (by simp [hrest])
    have hgap : v.gap ≠ [] := by
      cases before with
      | nil => exact hlaid.apart v (by simp [Run.words, hcons])
      | cons u us => exact hlaid.apart v (by simp [Run.words, hcons])
    obtain ⟨c, gap, hc⟩ := List.exists_cons_of_ne_nil hgap
    have hblank := (hlaid.proper v (by simp [Run.words, hcons])).gap_blank c (by simp [hc])
    rw [hcons, List.flatMap_cons, Word.whole, hc, hblock]
    exact hblank
  · next hblock =>
    have hfirst := hlaid.proper r.first (by simp [Run.words])
    obtain ⟨c, x, hc⟩ := List.exists_cons_of_ne_nil hfirst.text_ne_nil
    rw [hc, Bool.eq_false_iff.mpr hblock]
    exact hfirst.text_ink c (by simp [hc])

private theorem isParamSpan_iff {r : Run} (hr : r.Sound) {before after : List Word}
    (hwords : t.words = before ++ r.words ++ after)
    (hslice : (r.span (Word.flatten before).length).slice t = r.text) :
    IsParamSpan t (r.span (Word.flatten before).length) ↔ r.isBlockParams = true := by
  have hfirst := isWord_of_words hwords _ (List.mem_cons_self ..)
  constructor
  · rintro ⟨⟨v, hv, -, hstop⟩, -⟩
    cases hblock : r.isBlockParams with
    | true => rfl
    | false => exact absurd (hstop.trans (by simp [Run.span, hblock])) (hv.stop_ne_start hfirst)
  · intro hblock
    obtain ⟨has, ws, last, hrest, hbar, -⟩ := hr hblock
    refine ⟨⟨_, hfirst, ?_, ?_⟩, ?_⟩
    · obtain ⟨rest, ht⟩ := exists_eq_flatten_of_words hwords
      rw [← has]
      conv => lhs; arg 1; rw [ht]
      exact Run.slice_first
    · simp [Run.span, hblock, Word.whole, Nat.add_assoc]
    · rw [hslice, Run.text, hblock, if_pos rfl, hrest]
      simp only [Text.endsWith, beq_iff_eq] at hbar ⊢
      simp [Word.whole, List.getLast?_append, hbar]

theorem isArgumentSpan_of_mem_spans (hwords : t.words = rs.flatMap Run.words ++ more)
    (hrs : ∀ r ∈ rs, r.Sound) {s : Span} (hs : s ∈ Run.spans 0 rs) : IsArgumentSpan t s := by
  obtain ⟨r, hmem, before, after, hrun, rfl, hslice⟩ := exists_run_of_mem_spans hwords hs
  have hplaces := isWord_of_words hrun
  have hparam := isParamSpan_iff (hrs r hmem) hrun hslice
  obtain ⟨w, hw, hstop⟩ := Word.exists_place_stop (List.cons_ne_nil r.first r.rest)
    (Word.flatten before).length
  refine ⟨⟨w, hplaces w hw, hstop⟩, ?_, fun hnot => ?_⟩
  · rw [hslice, Run.startsIn_text (hrs r hmem) hrun, hparam]
  · refine ⟨_, hplaces _ (List.mem_cons_self ..), ?_⟩
    rw [hparam] at hnot
    simp [Run.span, hnot]

/-- The words of complete runs are accounted for by the spans of the runs. -/
theorem accounted_of_mem_places (hwords : t.words = rs.flatMap Run.words ++ more)
    (hrs : ∀ r ∈ rs, r.Sound) {w : Span} (hw : w ∈ Word.places 0 (rs.flatMap Run.words)) :
    Accounted t (Run.spans 0 rs) w := by
  have hlaid : Laid (rs.flatMap Run.words) := (hwords ▸ Text.laid_words t).of_append_left
  have hcount := Run.countP_within_spans hrs hlaid hw
  have hsplit : t.words = [] ++ rs.flatMap Run.words ++ more := by simpa using hwords
  have hword : IsWord t w := isWord_of_words hsplit w hw
  refine ⟨fun ⟨s, hs, _, hstop⟩ => ?_, fun hnone => ?_⟩
  · rw [hcount, if_pos ⟨s, hs, hstop⟩]
  · rw [hcount, if_neg]
    rintro ⟨s, hs, hstop⟩
    by_cases hparam : IsParamSpan t s
    · exact hnone ⟨s, hs, hparam, hstop⟩
    · obtain ⟨v, hv, hstart⟩ :=
        (isArgumentSpan_of_mem_spans hwords hrs hs).starts_with_word hparam
      exact hword.stop_ne_start hv (hstop.trans hstart.symm)

theorem countP_of_mem_places_more (hwords : t.words = rs.flatMap Run.words ++ more)
    (hrs : ∀ r ∈ rs, r.Sound) {w : Span}
    (hw : w ∈ Word.places (Word.flatten (rs.flatMap Run.words)).length more) :
    (Run.spans 0 rs).countP w.within = 0 := by
  have hlaid := Text.laid_words t
  rw [hwords] at hlaid
  have hbounds := Word.bounds_of_mem_places (fun v hv => hlaid.proper v (by simp [hv])) hw
  refine List.countP_eq_zero.mpr fun s hs => ?_
  have hs' := Run.bounds_of_mem_spans hrs (fun v hv => hlaid.proper v (by simp [hv])) hs
  simp only [Span.within, Bool.and_eq_true, decide_eq_true_eq]
  omega

theorem accounted_or_countP {first : Word} {later : List Word}
    (hwords : t.words = rs.flatMap Run.words ++ first :: later) (hrs : ∀ r ∈ rs, r.Sound)
    {w : Span} (hw : IsWord t w) :
    (w.start < (Word.flatten (rs.flatMap Run.words)).length + first.gap.length →
        Accounted t (Run.spans 0 rs) w) ∧
      ((Word.flatten (rs.flatMap Run.words)).length + first.gap.length ≤ w.start →
        (Run.spans 0 rs).countP w.within = 0) := by
  have hlaid := Text.laid_words t
  rw [hwords] at hlaid
  rw [isWord_iff, hwords, Word.places_append, List.mem_append, Nat.zero_add] at hw
  rcases hw with hw | hw
  · have hbounds := Word.bounds_of_mem_places (fun v hv => hlaid.proper v (by simp [hv])) hw
    exact ⟨fun _ => accounted_of_mem_places hwords hrs hw, fun h => by omega⟩
  · refine ⟨fun h => ?_, fun _ => countP_of_mem_places_more hwords hrs hw⟩
    rw [Word.places, List.mem_cons] at hw
    rcases hw with rfl | hw
    · exact absurd h (Nat.lt_irrefl _)
    · have hbounds := Word.bounds_of_mem_places (fun v hv => hlaid.proper v (by simp [hv])) hw
      simp only [Word.whole, List.length_append] at hbounds
      omega

end Words

theorem exists_stopsInside {t : Text} (h : (Runs.ofWords t.words).ending = .overclosed) :
    ∃ opening, StopsInside t opening := by
  obtain ⟨first, pending, closing, after, c, hwords, hadvance, hstep⟩ :=
    Runs.ofWords_words_of_overclosed h
  obtain ⟨depth, rfl, hdepth⟩ := Construct.step_eq_overclosed.mp hstep
  exact ⟨_, _, first, pending, closing, after, _, depth, hwords, hadvance, hdepth, rfl⟩

theorem StopsInside.ofWords_eq {t : Text} {opening : Span} (h : StopsInside t opening) :
    ∃ rs first more, Runs.ofWords t.words = ⟨rs, .overclosed⟩ ∧
      t.words = rs.flatMap Run.words ++ first :: more ∧
      opening = ⟨(Word.flatten (rs.flatMap Run.words)).length + first.gap.length,
        (Word.flatten (rs.flatMap Run.words)).length + first.whole.length⟩ := by
  obtain ⟨before, first, pending, closing, after, rs, depth, hwords, hadvance, hdepth, rfl⟩ := h
  have hstep := Construct.step_eq_overclosed.mpr ⟨depth, rfl, hdepth⟩
  have hbefore := Runs.State.advance_words hadvance
  simp only [Runs.State.pending, List.nil_append, List.append_cancel_right_eq] at hbefore
  subst hbefore
  refine ⟨rs, first, pending ++ closing :: after, ?_, ?_, rfl⟩
  · rw [Runs.ofWords, hwords]
    exact Runs.scan_of_advance_overclosed hadvance hstep after
  · rw [hwords, List.append_assoc, List.cons_append]

/-- A text is cut at the spans, one behind the other. They account for every word of it, unless the
reading stops early. Then the imbalance is reported, the words before the pending argument are
accounted for, and the others lie in no span. -/
structure CutAt (tag source : Text) (raws : Reported (List Text)) (spans : List Span) : Prop where
  slices : raws.value = spans.map (Span.slice source)
  in_text : ∀ s ∈ spans, s.start < s.stop ∧ s.stop ≤ source.length
  in_order : spans.Pairwise fun s s' => s.stop ≤ s'.start
  argument : ∀ s ∈ spans, IsArgumentSpan source s
  complete : (∀ opening, ¬StopsInside source opening) →
    ∀ w, IsWord source w → Accounted source spans w
  stopped : ∀ opening, StopsInside source opening →
    raws.report.diagnostics = [.unbalanced tag] ∧ IsWord source opening ∧
      ∀ w, IsWord source w →
        (w.start < opening.start → Accounted source spans w) ∧
        (opening.start ≤ w.start → spans.countP w.within = 0)

/-- The raw arguments of a text with a word are cut out of it. -/
theorem exists_cutAt (d : Dialect) (hd : d.advancedVariables = true) (nested : Bool)
    (tag source : Text) (hink : ∃ c ∈ source, isBlank c = false) :
    ∃ spans, CutAt tag source (rawArguments d nested tag source) spans := by
  obtain ⟨c, hc, hink⟩ := hink
  have hne := Text.words_ne_nil hc hink
  obtain ⟨rs, hrs⟩ : ∃ rs, (Runs.ofWords source.words).runs = rs := ⟨_, rfl⟩
  have hsound : ∀ r ∈ rs, r.Sound := hrs ▸ Runs.ofWords_sound source.words
  obtain ⟨more, hwords⟩ : ∃ more, source.words = rs.flatMap Run.words ++ more :=
    hrs ▸ Runs.exists_eq_words_append source.words
  have hsplit : source.words = [] ++ rs.flatMap Run.words ++ more := by simpa using hwords
  obtain ⟨rest, hsource⟩ := exists_eq_flatten_of_words hsplit
  have hproper : ∀ w ∈ rs.flatMap Run.words, w.Proper := fun w hw =>
    (Text.laid_words source).proper w (by simp [hwords, hw])
  rw [rawArguments_of_words hd hne]
  refine ⟨Run.spans 0 rs, ?_, fun s hs => ?_, Run.spans_pairwise hsound hproper,
    fun s hs => isArgumentSpan_of_mem_spans hwords hsound hs, fun hcomplete w hw => ?_,
    fun opening hstops => ?_⟩
  · have hslices := Run.map_slice_spans [] rest rs
    conv => rhs; rw [hsource]
    simpa [hrs] using hslices.symm
  · have hbounds := Run.bounds_of_mem_spans hsound hproper hs
    rw [hsource, List.length_append, List.length_append]
    omega
  · have hending : (Runs.ofWords source.words).ending ≠ .overclosed := by
      intro hover
      obtain ⟨opening, hstops⟩ := exists_stopsInside hover
      exact hcomplete opening hstops
    rw [isWord_iff, ← Runs.ofWords_words hending, hrs] at hw
    exact accounted_of_mem_places hwords hsound hw
  · obtain ⟨rs', first, later, hruns, hstop, rfl⟩ := hstops.ofWords_eq
    obtain rfl : rs' = rs := by rw [← hrs, hruns]
    have hpending : source.words = rs'.flatMap Run.words ++ (first :: later) ++ [] := by
      rw [hstop, List.append_nil]
    have hopening := isWord_of_words hpending _ (List.mem_cons_self ..)
    exact ⟨by simp [Ending.check, hruns], hopening, fun w hw => accounted_or_countP hstop hsound hw⟩

theorem exists_cutAt_overclosed :
    Dialect.handlebars.advancedVariables = true ∧
      ∃ spans, CutAt "tag".toList "a (b c)) d".toList
        (rawArguments .handlebars false "tag".toList "a (b c)) d".toList) spans :=
  ⟨rfl, exists_cutAt .handlebars rfl false _ _ ⟨'a', by decide, by decide⟩⟩

end TemplateTag
