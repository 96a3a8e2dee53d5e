import TemplateTag.Proofs.Written.Depth
/-!
# Cutting written arguments

The printed arguments of a tag or of a call are cut into the texts of the arguments again. A string
and a call are each closed by their own last word.
-/
namespace TemplateTag

open Runs

private theorem opening?_name (key : Option Name) (n : Name) (started : Bool) :
    opening? started (keyText key ++ n.text) = none := by
  have hmark {c : Char} (hc : c ∈ "'()[]".toList) : c ∉ keyText key ++ n.text := by
    have h := not_mem_plain key (v := .name n) (fun _ _ h => by cases h) hc
    rwa [Written.text] at h
  have hquote : '"' ∉ keyText key ++ n.text := by
    intro h
    rcases List.mem_append.mp h with h | h
    · exact not_mem_keyText key (by decide) (by decide) h
    · exact n.not_mem (by decide) h
  have has : keyText key ++ n.text ≠ "as".toList := by
    cases key with
    | none => exact n.ne_of_mem_reservedNames (by simp [reservedNames])
    | some k =>
      intro h
      have hequals : '=' ∈ "as".toList := by simp [← h, keyText]
      simp at hequals
  rw [opening?_of_unenclosed (hmark (by decide)) (hmark (by decide)) (hmark (by decide)),
    opensWith_eq_false (by simp) hquote,
    opensValueWith_eq_false (by simp [List.count_eq_zero.mpr hquote])]
  simpa using fun _ => has

private theorem count_quote_keyText (key : Option Name) (t : Text) :
    (keyText key ++ t).count '"' = t.count '"' := by
  rw [List.count_append,
    List.count_eq_zero.mpr (not_mem_keyText key (c := '"') (by decide) (by decide)), Nat.zero_add]

private theorem count_quote_string (p : PlainString) : p.text.count '"' = 0 :=
  List.count_eq_zero.mpr (p.not_mem (by decide))

private theorem opening?_string (key : Option Name) (p : PlainString) (started : Bool) :
    opening? started (keyText key ++ (Written.string p).text) = none := by
  have hmark {c : Char} (hc : c ∈ "'()[]".toList) : c ∉ keyText key ++ (Written.string p).text :=
    not_mem_plain key (fun _ _ h => by cases h) hc
  have hcount : (keyText key ++ (Written.string p).text).count '"' = 2 := by
    rw [count_quote_keyText, Written.text]
    simp [List.count_append, count_quote_string]
  have has : keyText key ++ (Written.string p).text ≠ "as".toList := by
    intro h
    rw [h] at hcount
    cases hcount
  rw [opening?_of_unenclosed (hmark (by decide)) (hmark (by decide)) (hmark (by decide)),
    opensWith_eq_false_of_count (by omega), opensValueWith_eq_false (by omega)]
  simpa using fun _ => has

private theorem opening?_quote (key : Option Name) {x : Text}
    (hx : ∀ c ∈ x, c ∉ "\"'\\()[]".toList) (started : Bool) :
    opening? started (keyText key ++ '"' :: x) = some .doubleQuote := by
  have hmark {c : Char} (hc : c ∈ "'()[]".toList) : c ∉ keyText key ++ '"' :: x := by
    have h := not_mem_plain key (v := .string ⟨x, hx⟩) (fun _ _ h => by cases h) hc
    simp only [Written.text, List.mem_append, not_or] at h ⊢
    exact ⟨h.1, h.2.1⟩
  have hcount : (keyText key ++ '"' :: x).count '"' = 1 := by
    rw [count_quote_keyText, List.count_cons_self, count_quote_string ⟨x, hx⟩]
  rw [opening?_of_unenclosed (hmark (by decide)) (hmark (by decide)) (hmark (by decide))]
  apply if_pos
  cases key with
  | none =>
    have hquote : '"' ∉ x := fun h => hx _ h (by decide)
    have hmarked : ['"'].isPrefixOf? ('"' :: x) = some x := Text.isPrefixOf?_eq_some.mpr rfl
    simp [opensWith, keyText, hmarked, hquote]
  | some k =>
    have hinfix : (keyText (some k) ++ '"' :: x).hasInfix ['=', '"'] = true :=
      Text.hasInfix_iff.mpr ⟨k.text, x, by simp [keyText]⟩
    simp [opensValueWith, hinfix, hcount]

private theorem advance_name (key : Option Name) (n : Name) (started : Bool) {gap : Text}
    (hgap : ∀ c ∈ gap, isBlank c = true) :
    ∃ r : Run, r.isBlockParams = false ∧ (State.between started).advance
        (Text.words (gap ++ (keyText key ++ n.text))) =
      some ([r], .between true) := by
  have hne : keyText key ++ n.text ≠ [] := by simp [n.text_ne_nil]
  have hink : ∀ c ∈ keyText key ++ n.text, isBlank c = false :=
    List.forall_mem_append.mpr ⟨keyText_ink key, n.ink⟩
  rw [Text.words_gap_ink hgap hne hink]
  have hopening := opening?_name key n started
  exact ⟨_, rfl, State.advance_singleton (State.next_of_opening?_none hopening)⟩

private theorem advance_string (key : Option Name) (p : PlainString) (started : Bool) {gap : Text}
    (hgap : ∀ c ∈ gap, isBlank c = true) :
    ∃ r : Run, r.isBlockParams = false ∧ (State.between started).advance
        (Text.words (gap ++ (keyText key ++ (Written.string p).text))) =
      some ([r], .between true) := by
  by_cases hblank : ∃ c ∈ p.text, isBlank c = true
  · obtain ⟨x, b, y, hsplit, hx, hb⟩ := Text.exists_split_at_blank hblank
    have hchars : ∀ c ∈ x, c ∉ "\"'\\()[]".toList := fun c hc => p.chars c (by simp [hsplit, hc])
    have htext : keyText key ++ (Written.string p).text =
        (keyText key ++ '"' :: x) ++ (b :: y ++ ['"']) := by
      simp [Written.text, hsplit]
    have hfirst : ∀ c ∈ keyText key ++ '"' :: x, isBlank c = false :=
      List.forall_mem_append.mpr ⟨keyText_ink key, List.forall_mem_cons.mpr ⟨rfl, hx⟩⟩
    have hquote : '"' ∉ b :: y := by
      have hfree : '"' ∉ p.text := p.not_mem (by decide)
      rw [hsplit] at hfree
      exact fun h => hfree (List.mem_append_right x h)
    rw [htext]
    exact State.advance_marked (c := .doubleQuote) (fun _ => rfl) (by decide) (by decide)
      (opening?_quote key hchars started) hgap (by simp) hfirst hb hquote
  · have hcontent : ∀ c ∈ p.text, isBlank c = false := by
      intro c hc
      exact Bool.eq_false_iff.mpr fun h => hblank ⟨c, hc, h⟩
    have hstring : ∀ c ∈ (Written.string p).text, isBlank c = false := by
      rw [Written.text, List.forall_mem_append, List.forall_mem_cons, List.forall_mem_singleton]
      exact ⟨⟨rfl, hcontent⟩, rfl⟩
    have hink : ∀ c ∈ keyText key ++ (Written.string p).text, isBlank c = false :=
      List.forall_mem_append.mpr ⟨keyText_ink key, hstring⟩
    rw [Text.words_gap_ink hgap (by simp [Written.text]) hink]
    exact ⟨_, rfl,
      State.advance_singleton (State.next_of_opening?_none (opening?_string key p started))⟩

private theorem opening?_call (key : Option Name) (helper : Name) (started : Bool) :
    opening? started (callHead key helper) = some (.parentheses 1) := by
  have hmark {c : Char} (hc : isNameChar c = false ∧ c ≠ '=' ∧ c ≠ '(') :
      c ∉ callHead key helper := by
    intro h
    rcases List.mem_append.mp h with h | h
    · exact not_mem_keyText key hc.1 hc.2.1 h
    · rcases List.mem_cons.mp h with h | h
      · exact hc.2.2 h
      · exact helper.not_mem hc.1 h
  rw [opening?_of_plain (hmark (by decide)) (hmark (by decide)) (hmark (by decide))]
  by_cases hkey : keyText key = []
  · have hrun : (callHead key helper).runAtStart '(' = 1 := by
      rw [callHead, hkey]
      apply Text.runAtStart_singleton
      rintro d hd rfl
      exact helper.not_mem (by decide) (List.mem_of_head? hd)
    have hclosed : ')' ∉ callHead key helper := hmark (by decide)
    have hstart : (callHead key helper).startsIn (· == '(') = true := by
      rw [callHead, hkey]
      rfl
    rw [hrun, hstart]
    simp [hclosed]
  · have hstart : (callHead key helper).startsIn (· == '(') = false := by
      obtain ⟨c, t, hc, hkey⟩ := (exists_keyText_eq key).resolve_left hkey
      have hne : c ≠ '(' := by
        rintro rfl
        cases hc
      rw [callHead, hkey]
      simpa [Text.startsIn] using hne
    rw [hstart, lastOpenRun_callHead key helper hkey]
    rfl

private theorem opening?_bareCall (key : Option Name) (helper : Name) (started : Bool) :
    opening? started (callHead key helper ++ [')']) = none := by
  have hmark {c : Char} (hc : isNameChar c = false ∧ c ≠ '=' ∧ c ≠ '(' ∧ c ≠ ')') :
      c ∉ callHead key helper ++ [')'] := by
    intro h
    simp only [callHead, List.mem_append, List.mem_cons, List.not_mem_nil, or_false] at h
    rcases h with (h | h | h) | h
    · exact not_mem_keyText key hc.1 hc.2.1 h
    · exact hc.2.2.1 h
    · exact helper.not_mem hc.1 h
    · exact hc.2.2.2 h
  have hrun : lastOpenRun (callHead key helper ++ [')']) = 0 := by
    obtain ⟨c, t, htext⟩ := List.exists_cons_of_ne_nil (callHead_ne_nil key helper)
    rw [htext, List.cons_append]
    exact lastOpenRun_of_closed c t
  have has : callHead key helper ++ [')'] ≠ "as".toList := by
    intro h
    have hparen : ')' ∈ "as".toList := by simp [← h]
    simp at hparen
  rw [opening?_of_plain (hmark (by decide)) (hmark (by decide)) (hmark (by decide)), hrun]
  simpa using fun _ => has

private theorem advance_call (key : Option Name) (helper : Name) {args : WrittenList}
    (hargs : args ≠ .nil → KeepsDepth args.text) (started : Bool) {gap : Text}
    (hgap : ∀ c ∈ gap, isBlank c = true) :
    ∃ r : Run, r.isBlockParams = false ∧ (State.between started).advance
        (Text.words (gap ++ (keyText key ++ (Written.call helper args).text))) =
      some ([r], .between true) := by
  have htext : keyText key ++ (Written.call helper args).text =
      callHead key helper ++ (args.text ++ List.replicate 1 ')') := by
    simp [Written.text, callHead]
  rw [htext]
  by_cases hnil : args = .nil
  · have hink : ∀ c ∈ callHead key helper ++ [')'], isBlank c = false :=
      List.forall_mem_append.mpr ⟨callHead_ink key helper, closers_ink 1⟩
    rw [hnil, WrittenList.text, List.nil_append, List.replicate_one,
      Text.words_gap_ink hgap (by simp) hink]
    exact ⟨_, rfl,
      State.advance_singleton (State.next_of_opening?_none (opening?_bareCall key helper started))⟩
  · have hhead : ∀ c ∈ (args.text ++ List.replicate 1 ')').head?, isBlank c = true := by
      cases args with
      | nil => exact absurd rfl hnil
      | cons key' value rest =>
        intro c hc
        obtain rfl : ' ' = c := by simpa [WrittenList.text] using hc
        decide
    rw [Text.words_gap_ink_append hgap (callHead_ne_nil key helper) (callHead_ink key helper) hhead,
      State.advance_cons (State.next_of_opening?_some (opening?_call key helper started)),
      hargs hnil 1 1 _ _ (by omega) (by omega), State.closing, if_pos rfl]
    exact ⟨_, rfl, rfl⟩

theorem isBlank_getLast_keyText_append (key : Option Name) (v : Written) :
    ∀ c ∈ (keyText key ++ v.text).getLast?, isBlank c = false := by
  intro c hc
  apply isBlank_getLast_argument key v
  obtain ⟨d, t, ht⟩ := List.exists_cons_of_ne_nil (l := keyText key ++ v.text)
    (by simp [v.text_ne_nil])
  rw [ht] at hc ⊢
  exact hc

/-- A printed argument is cut out as it stands, whatever comes before it. -/
theorem advance_argument (key : Option Name) {v : Written} (hwf : v.WellFormed) (started : Bool)
    {gap : Text} (hgap : ∀ c ∈ gap, isBlank c = true) :
    ∃ r, (State.between started).advance (Text.words (gap ++ (keyText key ++ v.text))) =
      some ([r], .between true) ∧ r.text = keyText key ++ v.text := by
  have hrun : ∃ r : Run, r.isBlockParams = false ∧ (State.between started).advance
        (Text.words (gap ++ (keyText key ++ v.text))) = some ([r], .between true) := by
    cases v with
    | name n =>
      rw [Written.text]
      exact advance_name key n started hgap
    | string p => exact advance_string key p started hgap
    | call helper args =>
      obtain ⟨-, hbare, hargs⟩ := hwf
      exact advance_call key helper (fun hne => keepsDepth_arguments args hne hargs hbare) started
        hgap
  obtain ⟨r, hblock, hadvance⟩ := hrun
  have hwords := State.advance_words hadvance
  simp only [State.pending, List.flatMap_cons, List.flatMap_nil, List.append_nil,
    List.nil_append] at hwords
  exact ⟨r, hadvance, Run.text_of_words hblock hgap hwords (by simp [v.text_ne_nil])
    (keyText_append_isBlank_head key v) (isBlank_getLast_keyText_append key v)⟩

theorem advance_arguments : (args : WrittenList) → args.WellFormed →
    ∃ rs, (State.between true).advance (Text.words args.text) = some (rs, .between true) ∧
      rs.map Run.text = args.raws
  | .nil, _ => ⟨[], rfl, rfl⟩
  | .cons key value rest, hwf => by
    obtain ⟨r, hvalue, htext⟩ := advance_argument key hwf.1 true blank_space
    obtain ⟨rs, hrest, hraws⟩ := advance_arguments rest hwf.2
    rw [List.singleton_append] at hvalue
    have hwords : (WrittenList.cons key value rest).text.words =
        Text.words (' ' :: (keyText key ++ value.text)) ++ rest.text.words := by
      rw [WrittenList.text]
      exact Text.words_append (isBlank_getLast_argument key value) (isBlank_head_arguments rest)
    refine ⟨r :: rs, ?_, ?_⟩
    · rw [hwords, State.advance_append hvalue, hrest]
      rfl
    · rw [List.map_cons, htext, hraws, WrittenList.raws]

theorem isBlank_getLast_arguments : (args : WrittenList) →
    ∀ c ∈ args.text.getLast?, isBlank c = false
  | .nil => nofun
  | .cons key value rest => by
    intro c hc
    rw [WrittenList.text, List.getLast?_append] at hc
    rcases Option.or_eq_some_iff.mp hc with hc | ⟨-, hc⟩
    · exact isBlank_getLast_arguments rest c hc
    · exact isBlank_getLast_argument key value c hc

theorem isBlank_head_params (params : List Name) :
    ∀ c ∈ (paramsText params).head?, isBlank c = true := by
  cases params with
  | nil => simp [paramsText]
  | cons p ps => simp [paramsText, isBlank]

section BlockParams

private theorem params_ink {ps : List Name} :
    ∀ c ∈ [' '].intercalate (ps.map Name.text), isNameChar c = true ∨ c = ' ' := by
  induction ps with
  | nil => simp
  | cons p ps ih =>
    intro c hc
    cases ps with
    | nil => exact .inl (p.chars c (by simpa using hc))
    | cons q ps =>
      rw [List.map_cons, List.map_cons, List.intercalate_cons_cons, ← List.map_cons] at hc
      rcases List.mem_append.mp hc with hc | hc
      · rcases List.mem_append.mp hc with hc | hc
        · exact .inl (p.chars c hc)
        · exact .inr (List.mem_singleton.mp hc)
      · exact ih c hc

theorem params_ne_nil {p : Name} {ps : List Name} :
    [' '].intercalate ((p :: ps).map Name.text) ≠ [] := by
  cases ps with
  | nil => simp [p.text_ne_nil]
  | cons q ps => simp [List.intercalate_cons_cons]

theorem barText_eq (ps : List Name) :
    barText ps = [' '] ++ ('|' :: [' '].intercalate (ps.map Name.text) ++ ['|']) :=
  rfl

theorem advance_params (ps : List Name) :
    ∃ rs, (State.between true).advance (Text.words (paramsText ps)) = some (rs, .between true) ∧
      rs.map Run.text = paramsRaws ps := by
  cases ps with
  | nil => exact ⟨[], rfl, rfl⟩
  | cons p ps =>
    have hbar : '|' ∉ [' '].intercalate ((p :: ps).map Name.text) := by
      intro h
      rcases params_ink _ h with h | h
      · cases h
      · cases h
    have hhead : Text.startsIn isBlank ([' '].intercalate ((p :: ps).map Name.text)) = false := by
      obtain ⟨c, t, hcons⟩ := List.exists_cons_of_ne_nil p.text_ne_nil
      have hc : isBlank c = false := p.ink c (by simp [hcons])
      cases ps <;> simpa [hcons, List.intercalate_cons_cons, Text.startsIn] using hc
    obtain ⟨r, hrest, htext⟩ := State.advance_between_bars blank_space params_ne_nil hhead hbar
      ⟨[' '], "as".toList⟩
    have has : Text.words (paramsText (p :: ps)) =
        ⟨[' '], "as".toList⟩ :: (barText (p :: ps)).words := by
      have h := Text.words_gap_ink_append blank_space (x := "as".toList) (t := barText (p :: ps))
        (by simp) (by simp [isBlank]) (by simp [barText, isBlank])
      rw [← h]
      simp [paramsText]
    refine ⟨[r], ?_, congrArg (fun raw => [raw]) htext⟩
    rw [has, State.advance_cons (State.next_of_opening?_some (c := .blockParams) rfl), barText_eq,
      hrest]
    rfl

end BlockParams

/-- The printed arguments of a tag or of a call are cut into the texts of the arguments. -/
theorem rawArguments_written {d : Dialect} (hd : d.advancedVariables = true) (nested : Bool)
    (tag : Text) {head : Written} (hhead : head.WellFormed) {args : WrittenList}
    (hargs : args.WellFormed) (params : List Name) :
    rawArguments d nested tag (head.text ++ args.text ++ paramsText params) =
      pure (head.text :: args.raws ++ paramsRaws params) := by
  have hgap : ∀ c ∈ ([] : Text), isBlank c = true := nofun
  obtain ⟨r, hfirst, htext⟩ := advance_argument none hhead false hgap
  obtain ⟨rs, hrest, hraws⟩ := advance_arguments args hargs
  obtain ⟨rs', hparams, hraws'⟩ := advance_params params
  simp only [keyText, List.nil_append] at hfirst htext
  have hwords : Text.words (head.text ++ args.text ++ paramsText params) =
      head.text.words ++ (args.text.words ++ (paramsText params).words) := by
    rw [List.append_assoc, Text.words_append head.isBlank_getLast,
      Text.words_append (isBlank_getLast_arguments args) (isBlank_head_params params)]
    intro c hc
    rcases Option.or_eq_some_iff.mp (List.head?_append ▸ hc) with hc | ⟨-, hc⟩
    · exact isBlank_head_arguments args c hc
    · exact isBlank_head_params params c hc
  have hadvance : (State.between false).advance
      (Text.words (head.text ++ args.text ++ paramsText params)) =
      some (r :: (rs ++ rs'), .between true) := by
    rw [hwords, State.advance_append hfirst, State.advance_append hrest, hparams]
    rfl
  have hne : Text.words (head.text ++ args.text ++ paramsText params) ≠ [] := by
    intro hnil
    rw [hnil] at hadvance
    cases hadvance
  rw [rawArguments_of_words hd hne, ofWords, scan_of_advance_eq_some hadvance]
  simp only [List.map_cons, List.map_append, htext, hraws, hraws']
  rfl

end TemplateTag
