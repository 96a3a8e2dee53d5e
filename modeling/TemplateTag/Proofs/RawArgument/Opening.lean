import TemplateTag.Proofs.RawArgument.Advance
import TemplateTag.Proofs.Text.Search
import TemplateTag.Proofs.Text.Words
/-!
# What words open and close

Which construct a word opens, and what it does to open parentheses, read off the marks that occur in
the word.
-/
namespace TemplateTag

namespace Text

/-- No mark stands in the text that holds words together or sets a name apart. -/
def Unmarked (t : Text) : Prop :=
  ∀ c ∈ "\"'()[]=|".toList, c ∉ t

instance (t : Text) : Decidable t.Unmarked :=
  List.decidableBAll (· ∉ t) _

theorem Unmarked.of_infix {s t : Text} (h : t.Unmarked) (hs : s <:+: t) : s.Unmarked :=
  fun c hc hmem => h c hc (hs.subset hmem)

theorem runAtStart_eq_zero {c : Char} {t : Text} (h : ∀ d ∈ t.head?, d ≠ c) :
    t.runAtStart c = 0 := by
  cases t with
  | nil => rfl
  | cons d t => simp [runAtStart, h d (by simp)]

theorem runAtStart_eq_zero_iff {c : Char} {t : Text} : t.runAtStart c = 0 ↔ t.head? ≠ some c := by
  cases t with
  | nil => simp [runAtStart]
  | cons d t =>
    by_cases hd : d = c
    · simp [runAtStart, hd]
    · simp [runAtStart, hd]

theorem runAtEnd_eq_zero_iff {c : Char} {t : Text} : t.runAtEnd c = 0 ↔ t.getLast? ≠ some c := by
  rw [runAtEnd, runAtStart_eq_zero_iff, List.head?_reverse]

theorem exists_eq_run_append (c : Char) (t : Text) :
    ∃ s, t = List.replicate (t.runAtStart c) c ++ s ∧ s.head? ≠ some c := by
  have hrun : t.takeWhile (· == c) = List.replicate (t.runAtStart c) c := by
    refine List.eq_replicate_iff.mpr ⟨rfl, fun d hd => ?_⟩
    simpa using List.all_eq_true.mp List.all_takeWhile d hd
  refine ⟨t.dropWhile (· == c), ?_, fun hhead => ?_⟩
  · rw [← hrun, List.takeWhile_append_dropWhile]
  · have hstop := List.head?_dropWhile_not (· == c) t
    rw [hhead] at hstop
    simp at hstop

theorem exists_eq_append_run (c : Char) (t : Text) :
    ∃ s, t = s ++ List.replicate (t.runAtEnd c) c ∧ s.getLast? ≠ some c := by
  obtain ⟨s, hs, hhead⟩ := exists_eq_run_append c t.reverse
  refine ⟨s.reverse, ?_, by rwa [List.getLast?_reverse]⟩
  have ht := congrArg List.reverse hs
  rwa [List.reverse_reverse, List.reverse_append, List.reverse_replicate] at ht

theorem runAtStart_replicate_append (c : Char) (k : Nat) (t : Text) :
    runAtStart c (List.replicate k c ++ t) = k + t.runAtStart c := by
  induction k with
  | zero => simp
  | succ k ih =>
    have hcons : runAtStart c (List.replicate (k + 1) c ++ t) =
        runAtStart c (List.replicate k c ++ t) + 1 := by
      simp [runAtStart, List.replicate_succ]
    rw [hcons, ih]
    omega

theorem runAtStart_singleton {c : Char} {t : Text} (h : ∀ d ∈ t.head?, d ≠ c) :
    runAtStart c (c :: t) = 1 := by
  have hrun := runAtStart_replicate_append c 1 t
  rwa [runAtStart_eq_zero h] at hrun

theorem runAtEnd_append_replicate {c : Char} {t : Text} (h : ∀ d ∈ t.getLast?, d ≠ c) (k : Nat) :
    runAtEnd c (t ++ List.replicate k c) = k := by
  rw [runAtEnd, List.reverse_append, List.reverse_replicate, runAtStart_replicate_append,
    runAtStart_eq_zero (by simpa using h), Nat.add_zero]

theorem runAtEnd_eq_zero {c : Char} {t : Text} (h : t.endsWith c = false) : t.runAtEnd c = 0 := by
  rw [runAtEnd_eq_zero_iff, ne_eq, ← endsWith_iff, h]
  exact Bool.false_ne_true

end Text

theorem lastOpenRun_eq_zero {word : Text} (h : '(' ∉ word.tail) : lastOpenRun word = 0 := by
  refine Text.runAtStart_eq_zero fun d hd heq => h ?_
  have hmem := (List.dropWhile_sublist _).subset (List.mem_of_head? hd)
  simpa [heq] using hmem

theorem openedBy_eq_zero {word : Text} (h : '(' ∉ word) : openedBy word = 0 := by
  have hstart : word.runAtStart '(' = 0 :=
    Text.runAtStart_eq_zero fun d hd heq => h (heq ▸ List.mem_of_head? hd)
  rw [openedBy, hstart]
  exact lastOpenRun_eq_zero fun hmem => h (List.mem_of_mem_tail hmem)

theorem openedBy_paren {word : Text} (h : ∀ d ∈ word.head?, d ≠ '(') :
    openedBy ('(' :: word) = 1 := by
  rw [openedBy, Text.runAtStart_singleton h]
  rfl

theorem lastOpenRun_eq_one {c d : Char} {before after : Text} (hd : d ≠ '(')
    (hafter : ∀ e ∈ after, e ≠ '(' ∧ e ≠ ')') :
    lastOpenRun (c :: (before ++ d :: '(' :: after)) = 1 := by
  have hdrop : (after.reverse ++ '(' :: d :: before.reverse).dropWhile
      (fun c => c != '(' && c != ')') = '(' :: d :: before.reverse := by
    rw [List.dropWhile_append_of_pos fun e he => ?_]
    · rfl
    · have := hafter e (by simpa using he)
      simp [this]
  rw [lastOpenRun]
  simp only [List.tail_cons, List.reverse_append, List.reverse_cons, List.append_assoc,
    List.nil_append, List.cons_append] at hdrop ⊢
  rw [hdrop]
  exact Text.runAtStart_singleton (by simpa using hd)

theorem lastOpenRun_of_closed (c : Char) (word : Text) :
    lastOpenRun (c :: (word ++ [')'])) = 0 := by
  rw [lastOpenRun, List.tail_cons, List.reverse_append]
  exact Text.runAtStart_eq_zero (by simp)

theorem opensWith_eq_false {opening word : Text} {quote : Char} (h : quote ∈ opening)
    (hword : quote ∉ word) : opensWith opening quote word = false := by
  rw [opensWith]
  cases hpre : opening.isPrefixOf? word with
  | none => rfl
  | some rest =>
    obtain rfl := Text.isPrefixOf?_eq_some.mp hpre
    exact absurd (List.mem_append_left _ h) hword

theorem opensWith_eq_false_of_count {word : Text} {quote : Char} (h : 2 ≤ word.count quote) :
    opensWith [quote] quote word = false := by
  rw [opensWith]
  cases hpre : [quote].isPrefixOf? word with
  | none => rfl
  | some rest =>
    obtain rfl := Text.isPrefixOf?_eq_some.mp hpre
    have hrest : 0 < rest.count quote := by
      rw [List.singleton_append, List.count_cons_self] at h
      omega
    simpa using List.count_pos_iff.mp hrest

theorem opensValueWith_eq_false {opening word : Text} {quote : Char}
    (hword : word.count quote ≠ 1) : opensValueWith opening quote word = false := by
  simp [opensValueWith, hword]

theorem opensBracket_eq_false {word : Text} (h : '[' ∉ word) : opensBracket word = false := by
  rw [opensBracket, Bool.and_eq_false_iff]
  refine .inr ?_
  cases hdrop : word.reverse.dropWhile (fun c => c != '[' && c != ']') with
  | nil => rfl
  | cons c t =>
    have hmem : c ∈ word.reverse :=
      (List.dropWhile_sublist _).subset (hdrop ▸ List.mem_cons_self ..)
    refine beq_false_of_ne fun heq => h ?_
    simpa [heq] using hmem

theorem Construct.endingWith_eq_stillOpen {mark : Char} {word : Text}
    (h : word.endsWith mark = false) (c : Construct) : endingWith mark c word = .stillOpen c := by
  rw [endingWith, h]
  rfl

/-- A word without quotes and opening brackets opens parentheses or block parameters, or nothing. -/
theorem opening?_of_plain {word : Text} (hdouble : '"' ∉ word) (hsingle : '\'' ∉ word)
    (hbracket : '[' ∉ word) (started : Bool) :
    opening? started word =
      if word.startsIn (· == '(') && !word.contains ')' then
        some (.parentheses (word.runAtStart '('))
      else if lastOpenRun word != 0 then some (.parentheses (lastOpenRun word))
      else if started && word == "as".toList then some .blockParams
      else none := by
  rw [opening?, opensWith_eq_false (by simp) hdouble,
    opensWith_eq_false (by simp [escapedQuote]) hsingle,
    opensValueWith_eq_false (by simp [List.count_eq_zero.mpr hdouble]),
    opensBracket_eq_false hbracket,
    opensValueWith_eq_false (by simp [List.count_eq_zero.mpr hsingle])]
  simp

theorem opening?_of_unenclosed {word : Text} (hopen : '(' ∉ word) (hsingle : '\'' ∉ word)
    (hbracket : '[' ∉ word) (started : Bool) :
    opening? started word =
      if opensWith ['"'] '"' word || opensValueWith ['"'] '"' word then some .doubleQuote
      else if started && word == "as".toList then some .blockParams
      else none := by
  have hstart : word.startsIn (· == '(') = false := by
    cases word with
    | nil => rfl
    | cons c word => simpa [Text.startsIn] using fun heq : c = '(' => hopen (by simp [heq])
  have hrun : lastOpenRun word = 0 :=
    lastOpenRun_eq_zero fun hmem => hopen (List.mem_of_mem_tail hmem)
  have hescaped : opensWith escapedQuote '\'' word = false :=
    opensWith_eq_false (by simp [escapedQuote]) hsingle
  have hvalue : opensValueWith escapedQuote '\'' word = false :=
    opensValueWith_eq_false (by simp [List.count_eq_zero.mpr hsingle])
  rw [opening?, hstart, hescaped, opensBracket_eq_false hbracket, hvalue, hrun]
  cases opensWith ['"'] '"' word <;> simp

theorem opening?_of_unmarked {word : Text} (h : word.Unmarked) (has : word ≠ "as".toList)
    (started : Bool) : opening? started word = none := by
  have hquote : '"' ∉ word := h '"' (by simp)
  rw [opening?_of_unenclosed (h '(' (by simp)) (h '\'' (by simp)) (h '[' (by simp)),
    opensWith_eq_false (by simp) hquote,
    opensValueWith_eq_false (by simp [List.count_eq_zero.mpr hquote])]
  simpa using fun _ => has

theorem Run.text_of_words {r : Run} (hblock : r.isBlockParams = false) {gap t : Text}
    (hgap : ∀ c ∈ gap, isBlank c = true) (hwords : r.words = Text.words (gap ++ t)) (hne : t ≠ [])
    (hhead : ∀ c ∈ t.head?, isBlank c = false) (hlast : ∀ c ∈ t.getLast?, isBlank c = false) :
    r.text = t := by
  have hflat : r.words.flatMap Word.whole = gap ++ t := by
    rw [hwords]
    apply Text.flatMap_words
    intro c hc
    apply hlast c
    have hlast' := List.getLast?_eq_some_getLast hne
    rw [hlast']
    simpa [List.getLast?_append, hlast'] using hc
  have hfirst : r.first.Proper := by
    apply (Text.laid_words (gap ++ t)).proper
    rw [← hwords]
    exact List.mem_cons_self ..
  have hdrop {gap' u : Text} (hgap' : ∀ c ∈ gap', isBlank c = true) (hu : u ≠ [])
      (hink : ∀ c ∈ u.head?, isBlank c = false) : (gap' ++ u).dropWhile isBlank = u := by
    rw [List.dropWhile_append_of_pos hgap']
    obtain ⟨c, v, rfl⟩ := List.exists_cons_of_ne_nil hu
    simp [hink c (by simp)]
  obtain ⟨c, x, hx⟩ := List.exists_cons_of_ne_nil hfirst.text_ne_nil
  have hink := hfirst.text_ink c (by simp [hx])
  have heq := congrArg (List.dropWhile isBlank) hflat
  rw [hdrop hgap hne hhead, words, List.flatMap_cons, Word.whole, List.append_assoc,
    hdrop hfirst.gap_blank (by simp [hx]) (by simpa [hx] using hink)] at heq
  rw [text, hblock]
  exact heq

theorem blank_space : ∀ c ∈ [' '], isBlank c = true := by
  intro c hc
  rw [List.mem_singleton.mp hc]
  rfl

namespace Runs.State

theorem next_of_opening?_none {started : Bool} {w : Word} (h : opening? started w.text = none) :
    (between started).next w = some ([⟨w, [], false⟩], between true) := by
  simp [next, h]

theorem next_of_opening?_some {started : Bool} {w : Word} {c : Construct}
    (h : opening? started w.text = some c) :
    (between started).next w = some ([], inside c w []) := by
  simp [next, h]

/-- The state after a word that leaves `depth` parentheses open and then closes some of them. -/
def closing (depth closed : Nat) (first : Word) (rest : List Word) : List Run × State :=
  if closed = depth then ([⟨first, rest, false⟩], between true)
  else ([], inside (.parentheses (depth - closed)) first rest)

theorem closing_succ (depth closed : Nat) (first : Word) (rest : List Word) :
    closing (depth + 1) (closed + 1) first rest = closing depth closed first rest := by
  rw [closing, closing]
  by_cases h : closed = depth
  · rw [if_pos h, if_pos (by omega)]
  · rw [if_neg h, if_neg (by omega), Nat.add_sub_add_right]

theorem next_parentheses {depth opened closed : Nat} {w : Word} (ho : openedBy w.text = opened)
    (hc : w.text.runAtEnd ')' = closed) (hle : closed ≤ depth + opened) (first : Word)
    (rest : List Word) :
    (inside (.parentheses depth) first rest).next w =
      some (closing (depth + opened) closed first (rest ++ [w])) := by
  simp only [next, Construct.step, ho, hc, if_neg (Nat.not_lt.mpr hle), closing,
    eq_comm (a := closed)]
  split
  · next c hstep =>
    split at hstep
    · cases hstep
    · next hne => cases hstep; rw [if_neg hne]
  · next hstep =>
    split at hstep
    · next heq => rw [if_pos heq]; rfl
    · cases hstep
  · next hstep => split at hstep <;> cases hstep

theorem advance_plain {depth : Nat} (hdepth : 0 < depth) {ws : List Word}
    (hws : ∀ w ∈ ws, '(' ∉ w.text ∧ ')' ∉ w.text) (first : Word) (rest : List Word) :
    (inside (.parentheses depth) first rest).advance ws =
      some ([], inside (.parentheses depth) first (rest ++ ws)) := by
  induction ws generalizing rest with
  | nil => simp [advance]
  | cons w ws ih =>
    have hw := hws w (by simp)
    have hclosed : w.text.runAtEnd ')' = 0 :=
      Text.runAtEnd_eq_zero (Text.endsWith_of_not_mem hw.2)
    have hnext : (inside (.parentheses depth) first rest).next w =
        some (closing (depth + 0) 0 first (rest ++ [w])) :=
      next_parentheses (openedBy_eq_zero hw.1) hclosed (Nat.zero_le _) first rest
    rw [closing, if_neg (by omega)] at hnext
    rw [advance_cons hnext]
    simp only [Nat.add_zero, Nat.sub_zero]
    rw [ih fun v hv => hws v (by simp [hv])]
    simp

section Marks

variable {c : Construct} {mark : Char}
  (hc : ∀ word, c.step word = Construct.endingWith mark c word) {ws : List Word}
  (hws : ∀ w ∈ ws, w.text.endsWith mark = false)

include hc hws

theorem advance_unmarked (first : Word) (rest : List Word) :
    (inside c first rest).advance ws = some ([], inside c first (rest ++ ws)) := by
  induction ws generalizing rest with
  | nil => rw [advance_nil, List.append_nil]
  | cons w ws ih =>
    have hnext : (inside c first rest).next w = some ([], inside c first (rest ++ [w])) := by
      rw [next, hc, Construct.endingWith_eq_stillOpen (hws w (by simp))]
    rw [advance_cons hnext, ih fun v hv => hws v (by simp [hv])]
    simp

theorem advance_mark {last : Word} (hlast : last.text.endsWith mark = true) (first : Word)
    (rest : List Word) : (inside c first rest).advance (ws ++ [last]) =
      some ([⟨first, rest ++ ws ++ [last], c = .blockParams⟩], between true) := by
  have hnext : (inside c first (rest ++ ws)).next last =
      some ([⟨first, rest ++ ws ++ [last], c = .blockParams⟩], between true) := by
    simp [next, hc, Construct.endingWith, hlast]
  rw [advance_append (advance_unmarked hc hws first rest), advance_singleton hnext]
  rfl

end Marks

/-- What is opened by the word in front of a blank goes on up to the next mark. -/
theorem advance_marked {c : Construct} {mark : Char}
    (hc : ∀ word, c.step word = Construct.endingWith mark c word) (hblock : c ≠ .blockParams)
    (hmark : isBlank mark = false) {gap x t : Text} {b : Char} {started : Bool}
    (hopening : opening? started x = some c) (hgap : ∀ d ∈ gap, isBlank d = true) (hne : x ≠ [])
    (hx : ∀ d ∈ x, isBlank d = false) (hb : isBlank b = true) (hfree : mark ∉ b :: t) :
    ∃ r : Run, r.isBlockParams = false ∧
      (between started).advance (Text.words (gap ++ (x ++ (b :: t ++ [mark])))) =
        some ([r], between true) := by
  have hcount : (b :: t ++ [mark]).count mark = 1 := by
    rw [List.count_append, List.count_eq_zero.mpr hfree, List.count_singleton_self]
  obtain ⟨ws, last, hwords, hlast, hmiddle⟩ :=
    Text.words_of_mark_at_end List.getLast?_concat hmark hcount
  have hrest := advance_mark hc (fun w hw => Text.endsWith_of_not_mem (hmiddle w hw)) hlast
    ⟨gap, x⟩ []
  refine ⟨⟨⟨gap, x⟩, [] ++ ws ++ [last], c = .blockParams⟩, by simpa using hblock, ?_⟩
  rw [Text.words_gap_ink_append hgap hne hx (by simpa using hb), hwords,
    advance_cons (next_of_opening?_some hopening), hrest]
  rfl

theorem advance_between_bars {gap content : Text} (hgap : ∀ c ∈ gap, isBlank c = true)
    (hne : content ≠ []) (hhead : content.startsIn isBlank = false) (hfree : '|' ∉ content)
    (first : Word) :
    ∃ r, (inside .blockParams first []).advance (Text.words (gap ++ ('|' :: content ++ ['|']))) =
        some ([r], between true) ∧ r.text = gap ++ ('|' :: content ++ ['|']) := by
  obtain ⟨ws, w, hwords, hlast, hmiddle⟩ :=
    Text.words_between_marks hgap (by decide) hne hhead hfree
  refine ⟨⟨first, [] ++ ws ++ [w], true⟩, ?_, ?_⟩
  · rw [hwords]
    exact advance_mark (fun _ => rfl) hmiddle hlast first []
  · have hflat : (Text.words (gap ++ ('|' :: content ++ ['|']))).flatMap Word.whole =
        gap ++ ('|' :: content ++ ['|']) := by
      apply Text.flatMap_words
      rw [← List.append_assoc, List.getLast?_concat]
      rintro c ⟨⟩
      rfl
    rwa [hwords] at hflat

end Runs.State

theorem closers_ink (closed : Nat) : ∀ c ∈ List.replicate closed ')', isBlank c = false := by
  intro c hc
  rw [List.eq_of_mem_replicate hc]
  rfl

/-- A text that leaves open parentheses as they are, so that parentheses right after it close those
that were open before it. -/
def KeepsDepth (t : Text) : Prop :=
  ∀ depth closed first rest, 0 < depth → closed ≤ depth →
    (Runs.State.inside (.parentheses depth) first rest).advance
      (Text.words (t ++ List.replicate closed ')')) =
    some (Runs.State.closing depth closed first
      (rest ++ Text.words (t ++ List.replicate closed ')')))

theorem keepsDepth_of_plain {t : Text} (hne : t.words ≠ [])
    (hlast : ∀ c ∈ t.getLast?, isBlank c = false) (hopen : '(' ∉ t) (hclose : ')' ∉ t) :
    KeepsDepth t := by
  intro depth closed first rest hdepth hle
  obtain ⟨ws, w, hwords⟩ := (List.eq_nil_or_concat t.words).resolve_left hne
  rw [List.concat_eq_append] at hwords
  have hplain : ∀ v ∈ t.words, '(' ∉ v.text ∧ ')' ∉ v.text := fun v hv =>
    ⟨fun h => hopen (Text.mem_of_mem_words hv h), fun h => hclose (Text.mem_of_mem_words hv h)⟩
  have hw := hplain w (by simp [hwords])
  rw [Text.words_append_ink hwords hlast (closers_ink closed),
    Runs.State.advance_append (Runs.State.advance_plain hdepth
      (fun v hv => hplain v (by simp [hwords, hv])) first rest)]
  have hopened : openedBy (w.text ++ List.replicate closed ')') = 0 := by
    refine openedBy_eq_zero fun h => ?_
    rcases List.mem_append.mp h with h | h
    · exact hw.1 h
    · cases List.eq_of_mem_replicate h
  have hclosed : Text.runAtEnd ')' (w.text ++ List.replicate closed ')') = closed :=
    Text.runAtEnd_append_replicate
      (fun d hd (heq : d = ')') => hw.2 (heq ▸ List.mem_of_getLast? hd)) closed
  have hnext := Runs.State.next_parentheses (w := ⟨w.gap, w.text ++ List.replicate closed ')'⟩)
    hopened hclosed (Nat.le_add_right_of_le hle) first (rest ++ ws)
  rw [Runs.State.advance_singleton hnext]
  simp

theorem KeepsDepth.append {t u : Text} (ht : KeepsDepth t) (hu : KeepsDepth u)
    (hlast : ∀ c ∈ t.getLast?, isBlank c = false) (hne : u ≠ [])
    (hhead : ∀ c ∈ u.head?, isBlank c = true) : KeepsDepth (t ++ u) := by
  intro depth closed first rest hdepth hle
  have hhead' : ∀ c ∈ (u ++ List.replicate closed ')').head?, isBlank c = true := by
    obtain ⟨c, v, rfl⟩ := List.exists_cons_of_ne_nil hne
    simpa using hhead
  have hwhole := ht depth 0 first rest hdepth (Nat.zero_le _)
  rw [List.replicate_zero, List.append_nil, Runs.State.closing, if_neg (by omega)] at hwhole
  rw [List.append_assoc, Text.words_append hlast hhead', Runs.State.advance_append hwhole,
    Nat.sub_zero, hu depth closed first (rest ++ t.words) hdepth hle]
  simp

end TemplateTag
