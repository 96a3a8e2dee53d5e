import Mathlib.Data.List.TakeWhile
import TemplateTag.Proofs.Text.Brackets
import TemplateTag.Proofs.Text.Search
import TemplateTag.VariableName
/-!
# What counts as outside brackets

The content of brackets is protected as long as it stays on one line. If it has several lines, its
bracket is not seen to open, and only what an opening bracket on the last line leads in is protected
(`any_exposed_bracketed`).
-/
namespace TemplateTag

/-- The character of the glyph if it is outside brackets. -/
def Glyph.exposed? : Glyph → Option Char
  | plain c => some c
  | bracketed _ => none

namespace VariableName

/-- The part of a content that counts as outside its brackets: if it has several lines, all of it up
to the first opening bracket on the last one. -/
def uncovered : Text → Text
  | [] => []
  | c :: t =>
    if t.contains '\n' then c :: uncovered t
    else if c = '\n' then t.takeWhile (· != '[')
    else []

variable {s t content : Text}

theorem uncovered_of_not_mem (h : '\n' ∉ t) : uncovered t = [] := by
  cases t with
  | nil => rfl
  | cons c t =>
    simp only [List.mem_cons, not_or] at h
    simp [uncovered, h.2, Ne.symm h.1]

theorem filterMap_exposed?_plain (t : Text) : (t.map Glyph.plain).filterMap Glyph.exposed? = t := by
  induction t with
  | nil => rfl
  | cons c t ih => rw [List.map_cons, List.filterMap_cons, ih]; rfl

theorem exposed_eq (name : Text) :
    exposed name = (Glyph.ofText Glyph.closesOnLine name).filterMap Glyph.exposed? := rfl

theorem exposed_append (h : '[' ∉ s) (t : Text) : exposed (s ++ t) = s ++ exposed t := by
  rw [exposed_eq, Glyph.ofText_append _ h, List.filterMap_append, filterMap_exposed?_plain]
  rfl

theorem exposed_unopened (h : Glyph.closesOnLine t = false) :
    exposed ('[' :: t) = '[' :: exposed t := by
  rw [exposed_eq, Glyph.ofText, Glyph.scan, if_neg (by simp [h])]
  rfl

theorem closesOnLine_cons_iff {c : Char} : Glyph.closesOnLine (c :: t) = true ↔
    c ≠ '\n' ∧ ∃ content rest, t = content ++ ']' :: rest ∧ ']' ∉ content ∧ '\n' ∉ content := by
  rw [Glyph.closesOnLine, Bool.and_eq_true, bne_iff_ne, beq_iff_eq, List.find?_eq_some_iff_append]
  simp only [decide_true, Bool.true_or, true_and, Bool.not_eq_true', Bool.or_eq_false_iff,
    decide_eq_false_iff_not]
  grind

theorem exposed_bracketed (hne : content ≠ []) (hclosing : ']' ∉ content) (hline : '\n' ∉ content)
    (t : Text) : exposed ('[' :: (content ++ ']' :: t)) = exposed t := by
  obtain ⟨c, content, rfl⟩ := List.exists_cons_of_ne_nil hne
  simp only [List.mem_cons, not_or] at hclosing hline
  have hopens : Glyph.closesOnLine (c :: (content ++ ']' :: t)) = true :=
    closesOnLine_cons_iff.mpr ⟨Ne.symm hline.1, content, t, rfl, hclosing.2, hline.2⟩
  rw [exposed_eq, List.cons_append, Glyph.ofText_opened hclosing.2 hopens]
  rfl

theorem closesOnLine_of_break (hbreak : '\n' ∈ s) (hclosing : ']' ∉ s) (t : Text) :
    Glyph.closesOnLine (s ++ t) = false := by
  obtain ⟨c, s, rfl⟩ := List.exists_cons_of_ne_nil (List.ne_nil_of_mem hbreak)
  rw [Bool.eq_false_iff, List.cons_append, ne_eq, closesOnLine_cons_iff]
  rintro ⟨hc, content, rest, ht, -, hline⟩
  obtain ⟨between, rfl, -⟩ :=
    Text.exists_append_of_not_mem (fun hmem => hclosing (List.mem_cons_of_mem c hmem)) ht
  have hmem : '\n' ∈ s := by simpa [Ne.symm hc] using hbreak
  exact hline (List.mem_append_left between hmem)

section Protection

-- A content may end with an opening bracket. The closing one is then the first character of a new
-- content, and what that shelters depends on the text behind.
variable (hbehind : (exposed ('[' :: ']' :: t)).any needsProtection = (exposed t).any needsProtection)

include hbehind

/-- On the last line of a content, an opening bracket shelters what is behind it. -/
private theorem any_exposed_lastLine {line : Text} (hclosing : ']' ∉ line) (hline : '\n' ∉ line) :
    (exposed (line ++ ']' :: t)).any needsProtection =
      ((line.takeWhile (· != '[')).any needsProtection || (exposed t).any needsProtection) := by
  by_cases hopen : '[' ∈ line
  · obtain ⟨u, v, rfl, hu⟩ := List.eq_append_cons_of_mem hopen
    have hv : ']' ∉ v ∧ '\n' ∉ v := by simp_all
    have hfront : (u ++ '[' :: v).takeWhile (· != '[') = u := by
      rw [List.takeWhile_append_of_pos, List.takeWhile_cons_of_neg (by simp), List.append_nil]
      exact fun c hc => bne_iff_ne.mpr (ne_of_mem_of_not_mem hc hu)
    rw [hfront, List.append_assoc, exposed_append hu, List.any_append, List.cons_append]
    cases v with
    | nil => rw [← hbehind]; rfl
    | cons c v => rw [exposed_bracketed (List.cons_ne_nil c v) hv.1 hv.2]
  · have hall : line.takeWhile (· != '[') = line :=
      List.takeWhile_eq_self_iff.mpr fun c hc => bne_iff_ne.mpr (ne_of_mem_of_not_mem hc hopen)
    have hclose : exposed (']' :: t) = ']' :: exposed t := exposed_append (s := [']']) (by decide) t
    rw [hall, exposed_append hopen, List.any_append, hclose, List.any_cons]
    rfl

private theorem any_exposed_lines (hclosing : ']' ∉ content) (hbreak : '\n' ∈ content) :
    (exposed (content ++ ']' :: t)).any needsProtection =
      ((uncovered content).any needsProtection || (exposed t).any needsProtection) := by
  induction content with
  | nil => cases hbreak
  | cons c content ih =>
    rw [List.mem_cons, not_or] at hclosing
    by_cases hlater : '\n' ∈ content
    · have hshown : exposed (c :: (content ++ ']' :: t)) = c :: exposed (content ++ ']' :: t) := by
        by_cases hc : c = '['
        · rw [hc, exposed_unopened (closesOnLine_of_break hlater hclosing.2 _)]
        · exact exposed_append (s := [c]) (by simpa using Ne.symm hc) _
      rw [List.cons_append, hshown, List.any_cons, ih hclosing.2 hlater, uncovered,
        if_pos (by simpa using hlater), List.any_cons, Bool.or_assoc]
    · obtain rfl : '\n' = c := by simpa [hlater] using hbreak
      have hshown : exposed ('\n' :: (content ++ ']' :: t)) = '\n' :: exposed (content ++ ']' :: t) :=
        exposed_append (s := ['\n']) (by decide) _
      rw [List.cons_append, hshown, List.any_cons, any_exposed_lastLine hbehind hclosing.2 hlater,
        uncovered, if_neg (by simpa using hlater), if_pos rfl]
      rfl

theorem any_exposed_bracketed (hne : content ≠ []) (hclosing : ']' ∉ content) :
    (exposed ('[' :: (content ++ ']' :: t))).any needsProtection =
      ((uncovered content).any needsProtection || (exposed t).any needsProtection) := by
  by_cases hbreak : '\n' ∈ content
  · rw [exposed_unopened (closesOnLine_of_break hbreak hclosing _), List.any_cons,
      any_exposed_lines hbehind hclosing hbreak]
    rfl
  · rw [exposed_bracketed hne hclosing hbreak, uncovered_of_not_mem hbreak]
    rfl

end Protection

end VariableName

end TemplateTag
