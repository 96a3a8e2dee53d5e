import TemplateTag.Proofs.Argument.Literal
import TemplateTag.Proofs.RawArgument.Quoted
/-!
# Escaped double quotes

What is read of a text in double quotes is the text without the backslashes that escape a quote, and
which ones do is told by their neighbours in the text (`unescape_eq`). A text in which no quote stands
behind a backslash is got back if a backslash is put in front of each of its quotes
(`unescape_escapeQuotes`).
-/
namespace TemplateTag

namespace Text

/-- At the index there is a backslash, right behind it a double quote and right before it no other
backslash. -/
def EscapesAt (s : Text) (i : Nat) : Prop :=
  s[i]? = some '\\' ∧ s[i + 1]? = some '"' ∧ (i = 0 ∨ s[i - 1]? ≠ some '\\')

instance (s : Text) (i : Nat) : Decidable (s.EscapesAt i) :=
  inferInstanceAs (Decidable (_ ∧ _ ∧ _))

/-- The text without the backslashes that escape a quote. -/
def withoutEscapes (s : Text) : Text :=
  (s.zipIdx.filter fun (_, i) => ¬s.EscapesAt i).map Prod.fst

/-- The text with a backslash in front of each double quote. -/
def escapeQuotes (t : Text) : Text :=
  t.flatMap fun c => if c = '"' then ['\\', '"'] else [c]

section Positions

variable {front t : Text} {c : Char}

theorem escapesAt_length : EscapesAt (front ++ c :: t) front.length ↔
    c = '\\' ∧ t.head? = some '"' ∧ front.getLast? ≠ some '\\' := by
  have hhere : (front ++ c :: t)[front.length]? = some c := by simp
  have hnext : (front ++ c :: t)[front.length + 1]? = t.head? := by
    rw [List.getElem?_append_right (by omega), List.head?_eq_getElem?]
    simp
  have hprevious : (front.length = 0 ∨ (front ++ c :: t)[front.length - 1]? ≠ some '\\') ↔
      front.getLast? ≠ some '\\' := by
    by_cases hfront : front = []
    · simp [hfront]
    · have hpos : 0 < front.length := List.length_pos_iff.mpr hfront
      rw [List.getElem?_append_left (by omega), List.getLast?_eq_getElem?,
        or_iff_right (Nat.ne_of_gt hpos)]
  rw [EscapesAt, hhere, hnext, hprevious, Option.some.injEq]

/-- The characters behind the front of a text that do not escape a quote. -/
def keptBehind (front t : Text) : Text :=
  ((t.zipIdx front.length).filter fun (_, i) => ¬EscapesAt (front ++ t) i).map Prod.fst

theorem keptBehind_cons : keptBehind front (c :: t) =
    if c = '\\' ∧ t.head? = some '"' ∧ front.getLast? ≠ some '\\' then keptBehind (front ++ [c]) t
    else c :: keptBehind (front ++ [c]) t := by
  have hrest : keptBehind (front ++ [c]) t =
      ((t.zipIdx (front.length + 1)).filter fun (_, i) => ¬EscapesAt (front ++ c :: t) i).map
        Prod.fst := by
    rw [keptBehind, List.length_append, List.length_singleton, List.append_assoc]
    rfl
  rw [hrest, keptBehind, List.zipIdx_cons, List.filter_cons]
  by_cases h : EscapesAt (front ++ c :: t) front.length
  · rw [if_pos (escapesAt_length.mp h)]
    simp [h]
  · rw [if_neg (mt escapesAt_length.mpr h)]
    simp [h]

end Positions

end Text

theorem unescape_eq_keptBehind (front : Text) {escaped : Bool}
    (hescaped : escaped = true ↔ front.getLast? = some '\\') (t : Text) :
    unescape escaped t = Text.keptBehind front t := by
  fun_induction unescape escaped t generalizing front with
  | case1 escaped => rfl
  | case2 t ih =>
    have hkept : front.getLast? = some '\\' := hescaped.mp rfl
    rw [Text.keptBehind_cons, if_neg (fun h => h.2.2 hkept), Text.keptBehind_cons,
      if_neg (fun h => absurd h.1 (by decide)), ih (front ++ ['\\'] ++ ['"']) (by simp)]
  | case3 t ih =>
    have hdropped : front.getLast? ≠ some '\\' := fun h => Bool.false_ne_true (hescaped.mpr h)
    rw [Text.keptBehind_cons, if_pos ⟨rfl, rfl, hdropped⟩, Text.keptBehind_cons,
      if_neg (fun h => absurd h.1 (by decide)), ih (front ++ ['\\'] ++ ['"']) (by simp)]
  | case4 escaped c t hkept hdropped ih =>
    rw [Text.keptBehind_cons, if_neg, ih (front ++ [c]) (by simp)]
    rintro ⟨rfl, hhead, hfront⟩
    obtain ⟨rest, rfl⟩ := List.head?_eq_some_iff.mp hhead
    cases escaped with
    | true => exact hkept rest rfl rfl rfl
    | false => exact hdropped rest rfl rfl rfl

/-- What is read of a text with escaped quotes is told by positions in the text alone. -/
theorem unescape_eq (s : Text) : unescape false s = s.withoutEscapes :=
  unescape_eq_keptBehind [] (by simp) s

theorem literal?_quoted (s : Text) : literal? s.doubleQuoted = some (.string, unescape false s) := by
  have hbetween : s.doubleQuoted.between? ['"'] ['"'] = some s := Text.between?_eq_some.mpr rfl
  have hnumeral : Numeral.ofText? s.doubleQuoted = none :=
    Numeral.ofText?_of_head (by decide) (by decide) (by decide) (by decide) _
  rw [literal?, hnumeral, hbetween]

section Inverse

variable {t : Text}

theorem escapeQuotes_quote : Text.escapeQuotes ('"' :: t) = '\\' :: '"' :: t.escapeQuotes := rfl

theorem escapeQuotes_other {c : Char} (hc : c ≠ '"') :
    Text.escapeQuotes (c :: t) = c :: t.escapeQuotes := by
  rw [Text.escapeQuotes, List.flatMap_cons, if_neg hc]
  rfl

theorem head?_escapeQuotes_ne (t : Text) : t.escapeQuotes.head? ≠ some '"' := by
  cases t with
  | nil => exact nofun
  | cons c t =>
    rw [Text.escapeQuotes, List.flatMap_cons]
    split
    · exact nofun
    · next hc => simpa using hc

theorem unescape_escapeQuotes_of_flag {escaped : Bool} (ht : ¬['\\', '"'] <:+: t)
    (hescaped : escaped = true → t.head? ≠ some '"') : unescape escaped t.escapeQuotes = t := by
  induction t generalizing escaped with
  | nil => cases escaped <;> rfl
  | cons c t ih =>
    have hrest : ¬['\\', '"'] <:+: t := fun h => ht (h.trans (List.suffix_cons c t).isInfix)
    by_cases hc : c = '"'
    · subst hc
      have hflag : escaped = false := Bool.eq_false_iff.mpr fun h => hescaped h rfl
      have hback : unescape false (Text.escapeQuotes t) = t := ih hrest nofun
      rw [hflag, escapeQuotes_quote, unescape, hback]
    · have hflag : (c == '\\') = true → t.head? ≠ some '"' := by
        intro hbackslash hhead
        obtain rfl := eq_of_beq hbackslash
        obtain ⟨rest, rfl⟩ := List.head?_eq_some_iff.mp hhead
        exact ht ⟨[], rest, rfl⟩
      have hnext (rest : Text) : Text.escapeQuotes t ≠ '"' :: rest := by
        intro h
        exact head?_escapeQuotes_ne t (by rw [h]; rfl)
      rw [escapeQuotes_other hc, unescape, ih hrest hflag]
      · exact fun rest _ _ => hnext rest
      · exact fun rest _ _ => hnext rest

theorem unescape_escapeQuotes (ht : ¬['\\', '"'] <:+: t) : unescape false t.escapeQuotes = t :=
  unescape_escapeQuotes_of_flag ht nofun

end Inverse

end TemplateTag
