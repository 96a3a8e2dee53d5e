import Mathlib.Data.List.TakeWhile
import TemplateTag.Proofs.RawArgument.Between
/-!
# Texts in double quotes

A text in double quotes is an argument by itself if it has blanks: its first word opens the quote
then, and its last word closes it. A text without blanks is a single word that opens no quote, and
so its parentheses and escaped quotes are looked at as in any other word.
-/
namespace TemplateTag

open Runs

def isParenthesis (c : Char) : Bool :=
  c = '(' || c = ')'

namespace Text

/-- The text with double quotes around it. -/
def doubleQuoted (t : Text) : Text :=
  '"' :: t ++ ['"']

/-- The last parenthesis of the text, if there is one, is a closing one. -/
def EndsClosed (t : Text) : Prop :=
  (t.filter isParenthesis).getLast? ≠ some '('

/-- In double quotes the text is an argument by itself. -/
def StandsAlone (t : Text) : Prop :=
  (∃ c ∈ t, isBlank c = true) ∨
    t.EndsClosed ∧ ¬(['=', '\\', '\''] <:+: t ∧ t.count '\'' = 1)

end Text

theorem lastOpenRun_eq_zero_iff {word : Text} :
    lastOpenRun word = 0 ↔ Text.EndsClosed word.tail := by
  have hlast : (word.tail.reverse.dropWhile fun c => c != '(' && c != ')').head? =
      (word.tail.filter isParenthesis).getLast? := by
    rw [← List.find?_not_eq_head?_dropWhile, ← List.head?_reverse, ← List.filter_reverse,
      List.head?_filter]
    congr 1
    funext c
    simp only [isParenthesis, bne, Bool.not_and, Bool.not_not]
    rfl
  rw [lastOpenRun, Text.runAtStart_eq_zero_iff, hlast, Text.EndsClosed]

theorem lastOpenRun_doubleQuoted {t : Text} :
    lastOpenRun t.doubleQuoted = 0 ↔ t.EndsClosed := by
  rw [lastOpenRun_eq_zero_iff, Text.EndsClosed, Text.EndsClosed]
  simp [Text.doubleQuoted, isParenthesis]

section Word

variable {t : Text} (ht : '"' ∉ t)

theorem infix_doubleQuoted {p : Text} (hp : p ≠ []) (hquote : '"' ∉ p) :
    p <:+: t.doubleQuoted ↔ p <:+: t := by
  constructor
  · rintro ⟨before, after, h⟩
    have hbefore : before ≠ [] := by
      rintro rfl
      obtain ⟨c, p', rfl⟩ := List.exists_cons_of_ne_nil hp
      rw [Text.doubleQuoted, List.nil_append, List.cons_append, List.cons_append,
        List.cons.injEq] at h
      exact hquote (by simp [h.1])
    have hafter : after ≠ [] := by
      rintro rfl
      have hlast := congrArg List.getLast? h
      rw [List.append_nil, Text.doubleQuoted, List.getLast?_concat, List.getLast?_append,
        List.getLast?_eq_some_getLast hp, Option.some_or, Option.some.injEq] at hlast
      exact hquote (hlast ▸ List.getLast_mem hp)
    obtain ⟨c, before, rfl⟩ := List.exists_cons_of_ne_nil hbefore
    obtain ⟨after, d, rfl⟩ := (List.eq_nil_or_concat after).resolve_left hafter
    rw [List.concat_eq_append, ← List.append_assoc, Text.doubleQuoted] at h
    have hinner := (List.append_inj' h rfl).1
    rw [List.cons_append, List.cons_append, List.cons.injEq] at hinner
    exact ⟨before, after, hinner.2⟩
  · rintro ⟨before, after, rfl⟩
    exact ⟨'"' :: before, after ++ ['"'], by simp [Text.doubleQuoted]⟩

theorem count_doubleQuoted {c : Char} (hc : c ≠ '"') : t.doubleQuoted.count c = t.count c := by
  simp [Text.doubleQuoted, List.count_append, hc.symm]

theorem words_doubleQuoted_of_ink (hink : ∀ c ∈ t, isBlank c = false) :
    Text.words (' ' :: t.doubleQuoted) = [⟨[' '], t.doubleQuoted⟩] := by
  have hquoted : ∀ c ∈ t.doubleQuoted, isBlank c = false :=
    List.forall_mem_append.mpr ⟨List.forall_mem_cons.mpr ⟨rfl, hink⟩,
      List.forall_mem_singleton.mpr rfl⟩
  exact Text.words_gap_ink blank_space (List.cons_ne_nil _ _) hquoted

theorem opensValueWith_doubleQuoted :
    opensValueWith escapedQuote '\'' t.doubleQuoted = true ↔
      ['=', '\\', '\''] <:+: t ∧ t.count '\'' = 1 := by
  rw [opensValueWith, Bool.and_eq_true, Text.hasInfix_iff, escapedQuote,
    infix_doubleQuoted (by simp) (by simp), count_doubleQuoted (by decide), beq_iff_eq]

include ht

/-- A word in double quotes does not open them, but it can open something else. -/
theorem opening?_doubleQuoted (started : Bool) :
    opening? started t.doubleQuoted =
      if opensValueWith escapedQuote '\'' t.doubleQuoted then some .escapedQuote
      else if lastOpenRun t.doubleQuoted = 0 then none
      else some (.parentheses (lastOpenRun t.doubleQuoted)) := by
  have hcount : t.doubleQuoted.count '"' = 2 := by
    simp [Text.doubleQuoted, List.count_append, List.count_eq_zero.mpr ht]
  have hescaped : opensWith escapedQuote '\'' t.doubleQuoted = false := by
    have hpre : escapedQuote.isPrefixOf? t.doubleQuoted = none := rfl
    rw [opensWith, hpre]
  have hbracket : opensBracket t.doubleQuoted = false := by
    simp [opensBracket, Text.doubleQuoted, Text.startsIn]
  have hstart : t.doubleQuoted.startsIn (· == '(') = false := rfl
  have has : (t.doubleQuoted == "as".toList) = false := by
    simp [Text.doubleQuoted]
  rw [opening?, hstart, opensWith_eq_false_of_count (Nat.le_of_eq hcount.symm), hescaped,
    opensValueWith_eq_false (by omega), hbracket, has]
  simp

theorem advance_doubleQuoted_of_blank (hblank : ∃ c ∈ t, isBlank c = true) :
    ∃ r : Run, r.isBlockParams = false ∧
      (State.between true).advance (Text.words (' ' :: t.doubleQuoted)) =
        some ([r], .between true) := by
  obtain ⟨x, b, y, rfl, hx, hb⟩ := Text.exists_split_at_blank hblank
  have hquote : '"' ∉ x ∧ '"' ∉ b :: y := by simpa using ht
  have htext : ' ' :: Text.doubleQuoted (x ++ b :: y) =
      [' '] ++ ('"' :: x ++ (b :: y ++ ['"'])) := by
    simp [Text.doubleQuoted]
  have hfirst : ∀ c ∈ '"' :: x, isBlank c = false := List.forall_mem_cons.mpr ⟨rfl, hx⟩
  have hopening : opening? true ('"' :: x) = some .doubleQuote := by
    have hmarked : ['"'].isPrefixOf? ('"' :: x) = some x := Text.isPrefixOf?_eq_some.mpr rfl
    simp [opening?, Text.startsIn, opensWith, hmarked, hquote.1]
  rw [htext]
  exact State.advance_marked (c := .doubleQuote) (fun _ => rfl) (by decide) (by decide) hopening
    blank_space (List.cons_ne_nil _ _) hfirst hb hquote.2

theorem advance_doubleQuoted_alone (h : t.StandsAlone) :
    ∃ r : Run, r.isBlockParams = false ∧
      (State.between true).advance (Text.words (' ' :: t.doubleQuoted)) =
        some ([r], .between true) := by
  by_cases hblank : ∃ c ∈ t, isBlank c = true
  · exact advance_doubleQuoted_of_blank ht hblank
  · obtain ⟨hparens, hescaped⟩ := h.resolve_left hblank
    have hopening : opening? true t.doubleQuoted = none := by
      rw [opening?_doubleQuoted ht, if_neg (mt opensValueWith_doubleQuoted.mp hescaped),
        if_pos (lastOpenRun_doubleQuoted.mpr hparens)]
    refine ⟨⟨⟨[' '], t.doubleQuoted⟩, [], false⟩, rfl, ?_⟩
    rw [words_doubleQuoted_of_ink (by simpa using hblank),
      State.advance_singleton (State.next_of_opening?_none hopening)]

theorem advance_doubleQuoted_open (h : ¬t.StandsAlone) :
    ∃ c first, c ≠ .parentheses 0 ∧
      (State.between true).advance (Text.words (' ' :: t.doubleQuoted)) =
        some ([], .inside c first []) := by
  have hink : ∀ c ∈ t, isBlank c = false := by
    intro c hc
    apply Bool.eq_false_iff.mpr
    intro hblank
    exact h (.inl ⟨c, hc, hblank⟩)
  have hopening : ∃ c, c ≠ .parentheses 0 ∧ opening? true t.doubleQuoted = some c := by
    rw [opening?_doubleQuoted ht]
    by_cases hescaped : opensValueWith escapedQuote '\'' t.doubleQuoted = true
    · exact ⟨.escapedQuote, nofun, if_pos hescaped⟩
    · have hrun : lastOpenRun t.doubleQuoted ≠ 0 := by
        intro hrun
        apply h
        exact .inr ⟨lastOpenRun_doubleQuoted.mp hrun,
          mt opensValueWith_doubleQuoted.mpr hescaped⟩
      rw [if_neg hescaped, if_neg hrun]
      refine ⟨_, ?_, rfl⟩
      simpa using hrun
  obtain ⟨c, hc, hopening⟩ := hopening
  refine ⟨c, ⟨[' '], t.doubleQuoted⟩, hc, ?_⟩
  rw [words_doubleQuoted_of_ink hink,
    State.advance_singleton (State.next_of_opening?_some hopening)]

end Word

section Call

variable (h x : Name) {t : Text} (ht : '"' ∉ t) {d : Dialect} (hd : d.advancedVariables = true)
  (nested : Bool) (tag : Text)

theorem trimmed_doubleQuoted (t : Text) : t.doubleQuoted.Trimmed where
  ne_nil := List.cons_ne_nil _ _
  head_ink := by simp [Text.doubleQuoted, isBlank]
  last_ink := by
    rw [Text.doubleQuoted, List.getLast?_concat]
    simp [isBlank]

include ht hd

theorem rawArguments_doubleQuoted (halone : t.StandsAlone) :
    rawArguments d nested tag ([' '].intercalate [h.text, t.doubleQuoted, x.text]) =
      pure [h.text, t.doubleQuoted, x.text] := by
  obtain ⟨r, hr, hadvance⟩ := advance_doubleQuoted_alone ht halone
  exact rawArguments_between_of_closed h.plainWord (trimmed_doubleQuoted t) x.plainWord hd nested
    tag hr hadvance

theorem rawArguments_value_doubleQuoted (halone : ¬t.StandsAlone) :
    (rawArguments d nested tag ([' '].intercalate [h.text, t.doubleQuoted, x.text])).value =
      [h.text, [' '].intercalate [t.doubleQuoted, x.text]] := by
  obtain ⟨c, first, hc, hadvance⟩ := advance_doubleQuoted_open ht halone
  rw [rawArguments_between_of_open h.plainWord (trimmed_doubleQuoted t) x.plainWord hd nested tag
    hadvance (x.step hc)]
  rfl

end Call

end TemplateTag
