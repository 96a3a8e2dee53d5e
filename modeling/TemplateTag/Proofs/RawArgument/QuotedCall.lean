import TemplateTag.Proofs.RawArgument.Quoted
import TemplateTag.Proofs.RawArgument.Shape
import TemplateTag.Proofs.Text.Span
/-!
# Calls with texts in double quotes

Inside a call the quotes of a text are not looked at. The parentheses between them are counted word
by word like any others, and the call is cut off at its end only if that comes out even.
-/
namespace TemplateTag

open Runs

/-- The depth after some words of a call, relative to that of the call. There is none if the words
close the call. -/
def countedDepth? : Nat → List Word → Option Nat
  | depth, [] => some depth
  | depth, w :: ws =>
    if w.text.runAtEnd ')' ≤ depth + openedBy w.text then
      countedDepth? (depth + openedBy w.text - w.text.runAtEnd ')') ws
    else none

theorem countedDepth?_words_cons {b : Char} (hb : isBlank b = true) (depth : Nat) (t : Text) :
    countedDepth? depth (Text.words (b :: t)) = countedDepth? depth t.words := by
  rw [Text.words_cons_blank hb]
  cases t.words <;> rfl

section Counting

variable {depth : Nat} {ws : List Word}

theorem advance_of_countedDepth?_eq_some {depth' : Nat}
    (h : countedDepth? depth ws = some depth') (first : Word) (rest : List Word) :
    (State.inside (.parentheses (depth + 1)) first rest).advance ws =
      some ([], .inside (.parentheses (depth' + 1)) first (rest ++ ws)) := by
  induction ws generalizing depth rest with
  | nil =>
    rw [countedDepth?, Option.some.injEq] at h
    rw [h, State.advance_nil, List.append_nil]
  | cons w ws ih =>
    rw [countedDepth?] at h
    split at h
    · next hle =>
      have hnext : (State.inside (.parentheses (depth + 1)) first rest).next w = _ :=
        State.next_parentheses rfl rfl (by omega) first rest
      rw [State.closing, if_neg (by omega)] at hnext
      have hdepth : depth + 1 + openedBy w.text - w.text.runAtEnd ')' =
          depth + openedBy w.text - w.text.runAtEnd ')' + 1 := by omega
      rw [hdepth] at hnext
      rw [State.advance_cons hnext, ih h]
      simp
    · cases h

theorem exists_of_countedDepth?_eq_none (h : countedDepth? depth ws = none) :
    ∃ before w after depth', ws = before ++ w :: after ∧
      countedDepth? depth before = some depth' ∧
      depth' + openedBy w.text < w.text.runAtEnd ')' := by
  induction ws generalizing depth with
  | nil => cases h
  | cons w ws ih =>
    rw [countedDepth?] at h
    split at h
    · next hle =>
      obtain ⟨before, v, after, depth', rfl, hbefore, hv⟩ := ih h
      exact ⟨w :: before, v, after, depth', rfl, by rw [countedDepth?, if_pos hle, hbefore], hv⟩
    · next hlt => exact ⟨[], w, ws, depth, rfl, rfl, by omega⟩

end Counting

/-- A call with a text in double quotes as its first argument. -/
def quotedCall (h x : Name) (t : Text) : Text :=
  '(' :: [' '].intercalate [h.text, t.doubleQuoted, x.text] ++ [')']

section Call

variable (h x : Name) (t : Text)

theorem quotedCall_trimmed : (quotedCall h x t).Trimmed where
  ne_nil := List.cons_ne_nil _ _
  head_ink := by simp [quotedCall, isBlank]
  last_ink := by
    rw [quotedCall, List.getLast?_concat]
    simp [isBlank]

theorem isCall_quotedCall : isCall (quotedCall h x t) = true := by
  apply isCall_parenthesized
  simp [List.intercalate_cons_cons]

theorem callBody_quotedCall :
    Settings.callBody (quotedCall h x t) = [' '].intercalate [h.text, t.doubleQuoted, x.text] :=
  Settings.callBody_parenthesized _

theorem words_quotedCall :
    Text.words (' ' :: quotedCall h x t) =
      ⟨[' '], '(' :: h.text⟩ ::
        (Text.words (' ' :: t.doubleQuoted) ++ [⟨[' '], x.text ++ [')']⟩]) := by
  have hhead : ∀ c ∈ '(' :: h.text, isBlank c = false := List.forall_mem_cons.mpr ⟨rfl, h.ink⟩
  have hlast : ∀ c ∈ x.text ++ [')'], isBlank c = false :=
    List.forall_mem_append.mpr ⟨x.ink, List.forall_mem_singleton.mpr rfl⟩
  have htext : ' ' :: quotedCall h x t = [' '] ++ ('(' :: h.text ++
      (' ' :: [' '].intercalate [t.doubleQuoted, x.text ++ [')']])) := by
    simp [quotedCall, List.intercalate_cons_cons]
  rw [htext, Text.words_gap_ink_append blank_space (List.cons_ne_nil _ _) hhead
    (by simp [isBlank]), words_append_ink (trimmed_doubleQuoted t) (by simp) hlast]

theorem next_callHead (n : Name) :
    (State.between true).next ⟨[' '], '(' :: n.text⟩ =
      some ([], .inside (.parentheses 1) ⟨[' '], '(' :: n.text⟩ []) := by
  have hclosed : ')' ∉ n.text := n.not_mem (by decide)
  have hrun : Text.runAtStart '(' ('(' :: n.text) = 1 := by
    apply Text.runAtStart_singleton
    rintro c hc rfl
    exact n.not_mem (by decide) (List.mem_of_head? hc)
  apply State.next_of_opening?_some
  simp [opening?, Text.startsIn, hclosed, hrun]

/-- If the words of the text do not close the call, the word after them closes one parenthesis. -/
theorem advance_quotedCall {depth : Nat}
    (hdepth : countedDepth? 0 t.doubleQuoted.words = some depth) :
    (State.between true).advance (Text.words (' ' :: quotedCall h x t)) =
      some (State.closing depth 0 ⟨[' '], '(' :: h.text⟩
        (Text.words (' ' :: t.doubleQuoted) ++ [⟨[' '], x.text ++ [')']⟩])) := by
  rw [← countedDepth?_words_cons (b := ' ') rfl] at hdepth
  have hopened : openedBy (x.text ++ [')']) = 0 := by
    apply openedBy_eq_zero
    simp [x.not_mem (show isNameChar '(' = false by decide)]
  have hclosed : Text.runAtEnd ')' (x.text ++ List.replicate 1 ')') = 1 := by
    apply Text.runAtEnd_append_replicate
    rintro c hc rfl
    exact x.not_mem (by decide) (List.mem_of_getLast? hc)
  have hnext : (State.inside (.parentheses (depth + 1)) ⟨[' '], '(' :: h.text⟩
      (Text.words (' ' :: t.doubleQuoted))).next ⟨[' '], x.text ++ [')']⟩ = _ :=
    State.next_parentheses hopened hclosed (by omega) _ _
  rw [Nat.add_zero, State.closing_succ] at hnext
  have hwords := advance_of_countedDepth?_eq_some hdepth ⟨[' '], '(' :: h.text⟩ []
  rw [List.nil_append] at hwords
  rw [words_quotedCall, State.advance_cons (next_callHead h), State.advance_append hwords,
    State.advance_singleton hnext]
  rfl

theorem isCall_shortened {before after : List Word} {w : Word}
    (hwords : Text.words (' ' :: t.doubleQuoted) = before ++ w :: after)
    (hend : w.text.endsWith ')' = true) :
    let raw := Run.text ⟨⟨[' '], '(' :: h.text⟩, before ++ [w], false⟩
    isCall raw = true ∧ raw ≠ quotedCall h x t := by
  intro raw
  have hraw : raw = '(' :: h.text ++ Word.flatten (before ++ [w]) := rfl
  obtain ⟨content, hcontent⟩ := List.getLast?_eq_some_iff.mp (Text.endsWith_iff.mp hend)
  constructor
  · have hsplit : raw = '(' :: (h.text ++ Word.flatten before ++ w.gap ++ content) ++ [')'] := by
      rw [hraw, Word.flatten_append]
      simp [Word.flatten_cons, hcontent]
    rw [hsplit]
    apply isCall_parenthesized
    simp [h.text_ne_nil]
  · intro heq
    have hlast : ∀ c ∈ (' ' :: quotedCall h x t).getLast?, isBlank c = false := by
      rw [List.getLast?_cons_of_ne_nil (quotedCall_trimmed h x t).ne_nil]
      exact (quotedCall_trimmed h x t).last_ink
    have hsplit : ' ' :: quotedCall h x t =
        ' ' :: (raw ++ Word.flatten (after ++ [⟨[' '], x.text ++ [')']⟩])) := by
      rw [hraw, ← Text.flatMap_words hlast, words_quotedCall, hwords]
      simp [Word.flatten, Word.whole]
    rw [heq, List.cons.injEq, List.self_eq_append_right] at hsplit
    simp [Word.flatten_append, Word.flatten_cons] at hsplit

variable {d : Dialect} (hd : d.advancedVariables = true)

include hd

section Cut

variable (f y : Name) (tag : Text)

theorem rawArguments_quotedCall (hdepth : countedDepth? 0 t.doubleQuoted.words = some 0)
    (nested : Bool) :
    rawArguments d nested tag ([' '].intercalate [f.text, quotedCall h x t, y.text]) =
      pure [f.text, quotedCall h x t, y.text] := by
  have hadvance := advance_quotedCall h x t hdepth
  rw [State.closing, if_pos rfl] at hadvance
  exact rawArguments_between_of_closed f.plainWord (quotedCall_trimmed h x t) y.plainWord hd nested
    tag rfl hadvance

theorem rawArguments_quotedCall_unclosed {depth : Nat}
    (hdepth : countedDepth? 0 t.doubleQuoted.words = some (depth + 1)) :
    (rawArguments d false tag
      ([' '].intercalate [f.text, quotedCall h x t, y.text])).report.diagnostics =
        [.unbalanced tag] := by
  have hadvance := advance_quotedCall h x t hdepth
  rw [State.closing, if_neg (by omega)] at hadvance
  rw [rawArguments_between_of_open f.plainWord (quotedCall_trimmed h x t) y.plainWord hd false tag
    hadvance (y.step (by simp))]
  rfl

theorem rawArguments_quotedCall_closed (hdepth : countedDepth? 0 t.doubleQuoted.words = none) :
    let reading := rawArguments d false tag ([' '].intercalate [f.text, quotedCall h x t, y.text])
    reading.report.diagnostics = [.unbalanced tag] ∨
      ∃ raw more, reading.value = f.text :: raw :: more ∧ isCall raw = true ∧
        raw ≠ quotedCall h x t := by
  intro reading
  rw [← countedDepth?_words_cons (b := ' ') rfl] at hdepth
  obtain ⟨before, w, after, depth, hwords, hbefore, hlt⟩ := exists_of_countedDepth?_eq_none hdepth
  let behind : List Word := after ++ [⟨[' '], x.text ++ [')']⟩, ⟨[' '], y.text⟩]
  have hall : Text.words ([' '].intercalate [f.text, quotedCall h x t, y.text]) =
      (⟨[], f.text⟩ :: ⟨[' '], '(' :: h.text⟩ :: before) ++ w :: behind := by
    rw [words_between f.plainWord (quotedCall_trimmed h x t) y.plainWord, words_quotedCall, hwords]
    simp [behind]
  have hopened : (State.between false).advance
      (⟨[], f.text⟩ :: ⟨[' '], '(' :: h.text⟩ :: before) =
        some ([⟨⟨[], f.text⟩, [], false⟩],
          .inside (.parentheses (depth + 1)) ⟨[' '], '(' :: h.text⟩ before) := by
    have hname := State.next_of_opening?_none (w := ⟨[], f.text⟩)
      (f.plainWord.opening?_eq_none false)
    rw [State.advance_cons hname, State.advance_cons (next_callHead h),
      advance_of_countedDepth?_eq_some hbefore]
    rfl
  have hreading : reading = do
      (ofWords (⟨[], f.text⟩ :: ⟨[' '], '(' :: h.text⟩ :: before ++ w :: behind)).ending.check
        false tag
      return (ofWords (⟨[], f.text⟩ :: ⟨[' '], '(' :: h.text⟩ :: before ++
        w :: behind)).runs.map Run.text := by
    rw [← hall]
    exact rawArguments_of_words hd (by rw [hall]; exact List.cons_ne_nil _ _) false tag
  -- The word closes more than the call, or just the call.
  rcases Nat.lt_or_eq_of_le (Nat.succ_le_of_lt hlt) with hmore | hclosed
  · have hover : (Construct.parentheses (depth + 1)).step w.text = .overclosed :=
      Construct.step_eq_overclosed.mpr ⟨depth + 1, rfl, by omega⟩
    have hruns : ofWords _ = _ := scan_of_advance_overclosed hopened hover behind
    rw [hruns] at hreading
    exact .inl (by rw [hreading]; rfl)
  · have hnext : (State.inside (.parentheses (depth + 1)) ⟨[' '], '(' :: h.text⟩ before).next w =
        _ := State.next_parentheses rfl rfl (by omega) _ _
    rw [State.closing, if_pos (by omega)] at hnext
    have hruns : ofWords _ = _ := scan_of_advance hopened (w :: behind)
    rw [scan_of_next hnext] at hruns
    have hend : w.text.endsWith ')' = true := by
      rw [← Bool.not_eq_false]
      intro hend
      have hzero := Text.runAtEnd_eq_zero hend
      omega
    refine .inr ⟨_, (scan (.between true) behind).runs.map Run.text, ?_,
      isCall_shortened h x t hwords hend⟩
    rw [hreading, Reported.value_bind, Reported.value_pure, hruns]
    simp [Run.text_single]

end Cut

end Call

end TemplateTag
