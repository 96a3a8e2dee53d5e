import TemplateTag.Proofs.RawArgument.Between
import TemplateTag.Proofs.Text.Span
/-!
# Blanks inside brackets

A text with blanks inside brackets only is held together by its brackets. But a bracket is only seen
to close at the end of a word, so that such a text is an argument by itself just if it ends with a
closing bracket or is a single word.
-/
namespace TemplateTag

open Runs

namespace Text

def BracketFree (t : Text) : Prop :=
  '[' ∉ t ∧ ']' ∉ t

instance (t : Text) : Decidable t.BracketFree :=
  inferInstanceAs (Decidable (_ ∧ _))

/-- Brackets are paired and not nested, and there is no blank outside them. -/
inductive Sheltered : Text → Prop
  | nil : Sheltered []
  | ink {c : Char} {t : Text} (hink : isBlank c = false) (hc : BracketFree [c]) (h : Sheltered t) :
    Sheltered (c :: t)
  | bracketed {content t : Text} (hcontent : content.BracketFree) (h : Sheltered t) :
    Sheltered ('[' :: content ++ ']' :: t)

/-- The text is a single word, or its last word ends with a closing bracket. -/
def ClosesByWords (t : Text) : Prop :=
  (∀ c ∈ t, isBlank c = false) ∨ t.endsWith ']' = true

instance (t : Text) : Decidable t.ClosesByWords :=
  @instDecidableOr _ _ (List.decidableBAll (isBlank · = false) t) _

/-- The last bracket of the text is an opening one. -/
def OpenAtEnd (t : Text) : Prop :=
  ∃ before after : Text, t = before ++ '[' :: after ∧ after.BracketFree

/-- The last bracket of the text, if there is one, is a closing one. -/
def ClosedAtEnd (t : Text) : Prop :=
  t.BracketFree ∨ ∃ before after : Text, t = before ++ ']' :: after ∧ after.BracketFree

variable {s t : Text} {b : Char} {rest : Text}

theorem bracketFree_append : BracketFree (s ++ t) ↔ s.BracketFree ∧ t.BracketFree := by
  simp only [BracketFree, List.mem_append, not_or]
  exact and_and_and_comm

theorem OpenAtEnd.append_left (h : t.OpenAtEnd) (s : Text) : OpenAtEnd (s ++ t) := by
  obtain ⟨before, after, rfl, hafter⟩ := h
  exact ⟨s ++ before, after, by rw [List.append_assoc], hafter⟩

theorem OpenAtEnd.append_right (h : s.OpenAtEnd) (ht : t.BracketFree) : OpenAtEnd (s ++ t) := by
  obtain ⟨before, after, rfl, hafter⟩ := h
  exact ⟨before, after ++ t, by simp, bracketFree_append.mpr ⟨hafter, ht⟩⟩

theorem Sheltered.append_left (h : t.Sheltered) (hink : ∀ c ∈ s, isBlank c = false)
    (hs : s.BracketFree) : Sheltered (s ++ t) := by
  induction s with
  | nil => exact h
  | cons c s ih =>
    obtain ⟨hc, hs⟩ := bracketFree_append.mp (show BracketFree ([c] ++ s) from hs)
    exact .ink (hink c (by simp)) hc (ih (fun d hd => hink d (by simp [hd])) hs)

/-- A blank is preceded by an open bracket. -/
theorem Sheltered.openAtEnd (h : t.Sheltered) (ht : t = s ++ b :: rest) (hb : isBlank b = true) :
    s.OpenAtEnd := by
  induction h generalizing s with
  | nil => simp at ht
  | @ink c t hink hc h ih =>
    cases s with
    | nil =>
      rw [List.nil_append, List.cons.injEq] at ht
      rw [ht.1, hb] at hink
      cases hink
    | cons d s =>
      rw [List.cons_append, List.cons.injEq] at ht
      exact (ih ht.2).append_left [d]
  | @bracketed content t hcontent h ih =>
    have hmark : ∀ c, isBlank c = false → b ≠ c := by
      intro c hc heq
      rw [← heq, hb] at hc
      cases hc
    cases s with
    | nil =>
      rw [List.cons_append, List.nil_append, List.cons.injEq] at ht
      exact absurd ht.1.symm (hmark '[' (by decide))
    | cons d s =>
      rw [List.cons_append, List.cons_append, List.cons.injEq] at ht
      obtain ⟨rfl, ht⟩ := ht
      -- The blank stands among the content of the first brackets or in the text after them.
      rcases List.append_eq_append_iff.mp ht with ⟨s', rfl, hrest⟩ | ⟨content', rfl, -⟩
      · cases s' with
        | nil =>
          rw [List.nil_append, List.cons.injEq] at hrest
          exact absurd hrest.1.symm (hmark ']' (by decide))
        | cons e s' =>
          rw [List.cons_append, List.cons.injEq] at hrest
          have hopen := (ih hrest.2).append_left ('[' :: content ++ [e])
          simpa using hopen
      · exact ⟨[], s, rfl, (bracketFree_append.mp hcontent).1⟩

theorem Sheltered.closedAtEnd (h : t.Sheltered) : t.ClosedAtEnd := by
  induction h with
  | nil => exact .inl ⟨by simp, by simp⟩
  | @ink c t hink hc h ih =>
    rcases ih with ih | ⟨before, after, rfl, hafter⟩
    · exact .inl (bracketFree_append.mpr ⟨hc, ih⟩)
    · exact .inr ⟨c :: before, after, rfl, hafter⟩
  | @bracketed content t hcontent h ih =>
    apply Or.inr
    rcases ih with ih | ⟨before, after, rfl, hafter⟩
    · exact ⟨'[' :: content, t, rfl, ih⟩
    · exact ⟨'[' :: content ++ ']' :: before, after, by simp, hafter⟩

theorem OpenAtEnd.endsWith_eq_false (h : t.OpenAtEnd) : t.endsWith ']' = false := by
  obtain ⟨before, after, rfl, hafter⟩ := h
  apply Bool.eq_false_iff.mpr
  intro hend
  have hlast := endsWith_iff.mp hend
  rw [List.getLast?_append, List.getLast?_eq_some_getLast (List.cons_ne_nil '[' after),
    Option.some_or, Option.some.injEq] at hlast
  have hmem : ']' ∈ '[' :: after := hlast ▸ List.getLast_mem _
  exact hafter.2 (List.mem_of_ne_of_mem (by decide) hmem)

theorem dropWhile_reverse_bracket {c : Char} (hc : c = '[' ∨ c = ']') (before : Text) {after : Text}
    (hafter : after.BracketFree) :
    (before ++ c :: after).reverse.dropWhile (fun d => d != '[' && d != ']') =
      c :: before.reverse := by
  have hskip : ∀ d ∈ after.reverse, (d != '[' && d != ']') = true := by
    intro d hd
    have hmem := List.mem_reverse.mp hd
    simp only [Bool.and_eq_true, bne_iff_ne]
    exact ⟨fun heq => hafter.1 (heq ▸ hmem), fun heq => hafter.2 (heq ▸ hmem)⟩
  rw [List.reverse_append, List.reverse_cons, List.append_assoc,
    List.dropWhile_append_of_pos hskip]
  rcases hc with rfl | rfl <;> rfl

theorem OpenAtEnd.not_closedAtEnd (h : t.OpenAtEnd) : ¬t.ClosedAtEnd := by
  obtain ⟨before, after, rfl, hafter⟩ := h
  rintro (hfree | ⟨before', after', heq, hafter'⟩)
  · exact hfree.1 (by simp)
  · have hopen := dropWhile_reverse_bracket (.inl rfl) before hafter
    rw [heq, dropWhile_reverse_bracket (.inr rfl) before' hafter', List.cons.injEq] at hopen
    exact absurd hopen.1 (by decide)

theorem Sheltered.head_ink (h : t.Sheltered) : ∀ c ∈ t.head?, isBlank c = false := by
  cases h with
  | nil => simp
  | ink hink hc h => simpa using hink
  | bracketed hcontent h => simp [isBlank]

theorem Sheltered.last_ink (h : t.Sheltered) : ∀ c ∈ t.getLast?, isBlank c = false := by
  intro c hc
  apply Bool.eq_false_iff.mpr
  intro hblank
  obtain ⟨s, rfl⟩ := List.getLast?_eq_some_iff.mp hc
  have hmark {mark : Char} (hmark : isBlank mark = false) : mark ∉ [c] := by
    intro h
    rw [List.mem_singleton.mp h, hblank] at hmark
    cases hmark
  have hopen : OpenAtEnd (s ++ [c]) :=
    (h.openAtEnd rfl hblank).append_right ⟨hmark (by decide), hmark (by decide)⟩
  exact hopen.not_closedAtEnd h.closedAtEnd

end Text

theorem opensBracket_of_openAtEnd {word : Text} (hdouble : '"' ∉ word) (hsingle : '\'' ∉ word)
    (h : word.OpenAtEnd) : opensBracket word = true := by
  have hstart : word.startsIn (fun c => c = '"' || c = '\'') = false := by
    cases word with
    | nil => rfl
    | cons c t =>
      have h1 : c ≠ '"' := fun heq => hdouble (by simp [heq])
      have h2 : c ≠ '\'' := fun heq => hsingle (by simp [heq])
      simp [Text.startsIn, h1, h2]
  obtain ⟨before, after, rfl, hafter⟩ := h
  rw [opensBracket, hstart, Text.dropWhile_reverse_bracket (.inl rfl) before hafter]
  rfl

theorem opensBracket_of_closedAtEnd {word : Text} (h : word.ClosedAtEnd) :
    opensBracket word = false := by
  rcases h with h | ⟨before, after, rfl, hafter⟩
  · exact opensBracket_eq_false h.1
  · rw [opensBracket, Text.dropWhile_reverse_bracket (.inr rfl) before hafter,
      Bool.and_eq_false_iff]
    exact .inr rfl

theorem opening?_of_unquoted {word : Text} (hdouble : '"' ∉ word) (hsingle : '\'' ∉ word)
    (hopen : '(' ∉ word) (started : Bool) :
    opening? started word =
      if opensBracket word then some .bracket
      else if started && word == "as".toList then some .blockParams
      else none := by
  have hstart : word.startsIn (· == '(') = false := by
    cases word with
    | nil => rfl
    | cons c word => simpa [Text.startsIn] using fun heq : c = '(' => hopen (by simp [heq])
  have hrun : lastOpenRun word = 0 :=
    lastOpenRun_eq_zero fun hmem => hopen (List.mem_of_mem_tail hmem)
  rw [opening?, hstart, opensWith_eq_false (by simp) hdouble,
    opensWith_eq_false (by simp [escapedQuote]) hsingle,
    opensValueWith_eq_false (by simp [List.count_eq_zero.mpr hdouble]),
    opensValueWith_eq_false (by simp [List.count_eq_zero.mpr hsingle]), hrun]
  simp

theorem exists_blank_after_word {t : Text} {ws : List Word} {last w : Word}
    (h : t.words = ws ++ [last]) (hw : w ∈ ws) :
    ∃ before b rest, isBlank b = true ∧ t = before ++ w.text ++ b :: rest := by
  obtain ⟨vs, vs', rfl⟩ := List.append_of_mem hw
  have hne : vs' ++ [last] ≠ [] := by simp
  obtain ⟨u, us, hnext⟩ := List.exists_cons_of_ne_nil hne
  have hsplit : t.words = vs ++ [w, u] ++ us := by
    rw [h, List.append_assoc, List.cons_append, hnext]
    simp
  have hlaid := Text.laid_words t
  rw [hsplit] at hlaid
  have hgap : u.gap ≠ [] := by
    apply hlaid.apart u
    cases vs <;> simp
  obtain ⟨b, gap, hb⟩ := List.exists_cons_of_ne_nil hgap
  have hblank : isBlank b = true := (hlaid.proper u (by simp)).gap_blank b (by simp [hb])
  obtain ⟨rest, ht⟩ := exists_eq_flatten_of_words hsplit
  refine ⟨Word.flatten vs ++ w.gap, b, gap ++ u.text ++ rest, hblank, ?_⟩
  rw [ht]
  simp [Word.flatten_cons, hb]

namespace Text

variable {v : Text}

theorem Sheltered.exists_words (h : v.Sheltered) (hblank : ∃ c ∈ v, isBlank c = true) :
    ∃ x ws last, Text.words (' ' :: v) = ⟨[' '], x⟩ :: (ws ++ [last]) ∧ x ⊆ v ∧ x.OpenAtEnd ∧
      (∀ w ∈ ws, w.text.endsWith ']' = false) ∧ last.text.endsWith ']' = v.endsWith ']' := by
  obtain ⟨x, b, rest, rfl, hx, hb⟩ := exists_split_at_blank hblank
  have hopen : OpenAtEnd x := h.openAtEnd rfl hb
  have hne : x ≠ [] := by
    obtain ⟨before, after, rfl, -⟩ := hopen
    simp
  have hlast : ∀ c ∈ (b :: rest).getLast?, isBlank c = false := by
    intro c hc
    apply h.last_ink c
    rw [List.getLast?_append, hc]
    rfl
  have hwords := words_gap_ink_append blank_space hne hx (t := b :: rest) (by simpa using hb)
  have hend := List.getLast?_eq_some_getLast (List.cons_ne_nil b rest)
  obtain ⟨ws, last, hlater⟩ := (List.eq_nil_or_concat (words (b :: rest))).resolve_left
    (words_ne_nil (List.mem_of_getLast? hend) (hlast _ hend))
  rw [List.concat_eq_append] at hlater
  refine ⟨x, ws, last, by rw [← hlater, ← hwords]; rfl, List.subset_append_left _ _, hopen, ?_, ?_⟩
  · intro w hw
    obtain ⟨before, d, behind, hd, hrest⟩ := exists_blank_after_word hlater hw
    have hwhole : x ++ b :: rest = x ++ before ++ w.text ++ d :: behind := by
      rw [hrest]
      simp
    have hopen' : OpenAtEnd (x ++ before ++ w.text) := h.openAtEnd hwhole hd
    have hproper : w.Proper := (laid_words (b :: rest)).proper w (by simp [hlater, hw])
    have hend := hopen'.endsWith_eq_false
    rwa [endsWith, List.getLast?_append, List.getLast?_eq_some_getLast hproper.text_ne_nil,
      Option.some_or, ← List.getLast?_eq_some_getLast, ← endsWith] at hend
  · have hproper : last.Proper := (laid_words (b :: rest)).proper last (by simp [hlater])
    have hflat := flatMap_words hlast
    rw [hlater, List.flatMap_append, List.flatMap_singleton, Word.whole] at hflat
    rw [endsWith, endsWith, ← hflat]
    simp [List.getLast?_append, List.getLast?_eq_some_getLast hproper.text_ne_nil]

end Text

section Advance

variable {v : Text} (h : v.Sheltered) (hdouble : '"' ∉ v) (hsingle : '\'' ∉ v) (hopen : '(' ∉ v)

theorem Text.Sheltered.trimmed (h : v.Sheltered) (hne : v ≠ []) : v.Trimmed :=
  ⟨hne, h.head_ink, h.last_ink⟩

include h hdouble hsingle hopen

theorem exists_inside_bracket (hblank : ∃ c ∈ v, isBlank c = true) :
    ∃ first ws last, Text.words (' ' :: v) = first :: (ws ++ [last]) ∧
      (State.between true).next first = some ([], .inside .bracket first []) ∧
      (∀ w ∈ ws, w.text.endsWith ']' = false) ∧ last.text.endsWith ']' = v.endsWith ']' := by
  obtain ⟨x, ws, last, hwords, hx, hbracket, hws, hlast⟩ := h.exists_words hblank
  have hdouble' : '"' ∉ x := fun hmem => hdouble (hx hmem)
  have hsingle' : '\'' ∉ x := fun hmem => hsingle (hx hmem)
  have hopening : opening? true x = some .bracket := by
    rw [opening?_of_unquoted hdouble' hsingle' (fun hmem => hopen (hx hmem)),
      if_pos (opensBracket_of_openAtEnd hdouble' hsingle' hbracket)]
  exact ⟨⟨[' '], x⟩, ws, last, hwords, State.next_of_opening?_some hopening, hws, hlast⟩

/-- A sheltered text that closes by words is cut off at its end. -/
theorem advance_of_closed (hbracket : '[' ∈ v) (hclosed : v.ClosesByWords) :
    ∃ r : Run, r.isBlockParams = false ∧
      (State.between true).advance (Text.words (' ' :: v)) = some ([r], .between true) := by
  by_cases hblank : ∃ c ∈ v, isBlank c = true
  · obtain ⟨first, ws, last, hwords, hnext, hws, hlast⟩ :=
      exists_inside_bracket h hdouble hsingle hopen hblank
    have hmark : v.endsWith ']' = true := by
      apply hclosed.resolve_left
      intro hink
      obtain ⟨c, hc, hblank⟩ := hblank
      rw [hink c hc] at hblank
      cases hblank
    have hrest := State.advance_mark (c := .bracket) (fun _ => rfl) hws (hlast.trans hmark) first []
    refine ⟨_, ?_, by rw [hwords, State.advance_cons hnext, hrest]; rfl⟩
    rfl
  · have hink : ∀ c ∈ v, isBlank c = false := by simpa using hblank
    have hword : Text.words (' ' :: v) = [⟨[' '], v⟩] :=
      Text.words_gap_ink blank_space (List.ne_nil_of_mem hbracket) hink
    have hopening : opening? true v = none := by
      rw [opening?_of_unquoted hdouble hsingle hopen, opensBracket_of_closedAtEnd h.closedAtEnd]
      simp only [Bool.false_eq_true, if_false, Bool.true_and, beq_iff_eq]
      rw [if_neg]
      rintro rfl
      exact absurd hbracket (by decide)
    refine ⟨⟨⟨[' '], v⟩, [], false⟩, rfl, ?_⟩
    rw [hword, State.advance_singleton (State.next_of_opening?_none hopening)]

/-- In any other its last bracket stays open. -/
theorem advance_of_open (hclosed : ¬v.ClosesByWords) :
    ∃ first rest, (State.between true).advance (Text.words (' ' :: v)) =
      some ([], .inside .bracket first rest) := by
  have hblank : ∃ c ∈ v, isBlank c = true := by
    apply Classical.byContradiction
    intro hink
    exact hclosed (.inl (by simpa using hink))
  have hend : v.endsWith ']' = false :=
    Bool.eq_false_iff.mpr fun hmark => hclosed (.inr hmark)
  obtain ⟨first, ws, last, hwords, hnext, hws, hlast⟩ :=
    exists_inside_bracket h hdouble hsingle hopen hblank
  have hall : ∀ w ∈ ws ++ [last], w.text.endsWith ']' = false := by
    intro w hw
    rcases List.mem_append.mp hw with hw | hw
    · exact hws w hw
    · rw [List.mem_singleton.mp hw, hlast, hend]
  have hrest := State.advance_unmarked (c := .bracket) (fun _ => rfl) hall first []
  exact ⟨first, ws ++ [last], by rw [hwords, State.advance_cons hnext, hrest]; rfl⟩

end Advance

end TemplateTag
