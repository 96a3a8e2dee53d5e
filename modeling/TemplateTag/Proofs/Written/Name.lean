import TemplateTag.Proofs.Argument.Literal
import TemplateTag.Proofs.Argument.Path
import TemplateTag.Proofs.Text.Fields
import TemplateTag.Proofs.VariableName.Path
/-!
# Plain names

A name of ASCII letters, digits, underscores and hyphens is no literal, has no fault, and is read as
the path of that one name.
-/
namespace TemplateTag

/-- Can the character stand in a plain name? -/
def isNameChar (c : Char) : Bool :=
  c.isAlphanum || c = '_' || c = '-'

/-- The names with a meaning of their own. -/
def reservedNames : List Text :=
  "as".toList :: "this".toList :: keywords

structure Name where
  text : Text
  starts : text.startsIn Char.isAlpha = true
  chars : ∀ c ∈ text, isNameChar c = true
  free : text ∉ reservedNames

theorem toNat_lt_of_isNameChar {c : Char} (h : isNameChar c = true) : c.toNat < 123 := by
  rw [isNameChar, Char.isAlphanum] at h
  delta Char.isAlpha Char.isUpper Char.isLower at h
  simp only [Char.isDigit, Bool.or_eq_true, Bool.and_eq_true, decide_eq_true_eq] at h
  rcases h with (((⟨-, h⟩ | ⟨-, h⟩) | ⟨-, h⟩) | rfl) | rfl
  · have h' : c.toNat ≤ 90 := h
    omega
  · have h' : c.toNat ≤ 122 := h
    omega
  · have h' : c.toNat ≤ 57 := h
    omega
  · decide
  · decide

/-- What holds of all characters of names can be checked code point by code point. -/
theorem of_isNameChar {p : Char → Bool}
    (hp : ∀ n < 123, isNameChar (Char.ofNat n) = true → p (Char.ofNat n) = true) {c : Char}
    (hc : isNameChar c = true) : p c = true := by
  have h := hp c.toNat (toNat_lt_of_isNameChar hc)
  rw [Char.ofNat_toNat] at h
  exact h hc

namespace Name

def ofLetter (c : Char) (h : c.isAlpha = true) : Name where
  text := [c]
  starts := h
  chars := by simp [isNameChar, Char.isAlphanum, h]
  free := by simp [reservedNames, keywords]

variable (n : Name)

theorem exists_cons : ∃ c t, n.text = c :: t ∧ c.isAlpha = true := by
  have h := n.starts
  cases htext : n.text with
  | nil => rw [htext] at h; cases h
  | cons c t => rw [htext] at h; exact ⟨c, t, rfl, h⟩

theorem text_ne_nil : n.text ≠ [] := by
  obtain ⟨c, t, htext, -⟩ := n.exists_cons
  rw [htext]
  exact List.cons_ne_nil c t

theorem not_mem {c : Char} (hc : isNameChar c = false) : c ∉ n.text := by
  intro h
  rw [n.chars c h] at hc
  cases hc

theorem ink : ∀ c ∈ n.text, isBlank c = false := by
  intro c hc
  have h := of_isNameChar (p := fun c => !isBlank c) (by decide) (n.chars c hc)
  simpa using h

theorem ne_of_mem_reservedNames {t : Text} (ht : t ∈ reservedNames) : n.text ≠ t := by
  intro h
  exact n.free (h ▸ ht)

end Name

namespace VariableName

theorem check_name (n : Name) (tag : Text) : check n.text tag = pure () := by
  have hplain : (Step.plain n.text).WellFormed := by
    refine ⟨n.text_ne_nil, fun c hc => ?_⟩
    have h := of_isNameChar (p := fun c => c ∉ "./[]".toList && !needsProtection c) (by decide)
      (n.chars c hc)
    simpa only [Bool.and_eq_true, decide_eq_true_eq, Bool.not_eq_true'] using h
  have hfault := fault?_path_eq_none_iff (.up 0) hplain (List.forall_mem_nil _)
  rw [Step.join_singleton] at hfault
  have hnone : fault? n.text = none := hfault.mpr ⟨by simp, rfl⟩
  rw [check, hnone]

end VariableName

theorem literal?_name (n : Name) : literal? n.text = none := by
  obtain ⟨c, t, htext, hc⟩ := n.exists_cons
  have hchar : isNameChar c = true := n.chars c (by simp [htext])
  have hletter := of_isNameChar (p := fun c => !c.isAlpha || (!isDecimalDigit c && c != '+' &&
    c != '-' && c != '.' && c != '"' && c != '\\')) (by decide) hchar
  simp only [hc, Bool.not_true, Bool.false_or, Bool.and_eq_true, bne_iff_ne, Bool.not_eq_true']
    at hletter
  obtain ⟨⟨⟨⟨⟨hdigit, hplus⟩, hminus⟩, hpoint⟩, hquote⟩, hbackslash⟩ := hletter
  have hkeyword : c :: t ∉ keywords := by
    rw [← htext]
    exact fun h => n.free (by simp [reservedNames, h])
  rw [htext]
  exact literal?_eq_none (Numeral.ofText?_of_head hplus hminus hpoint hdigit t) hquote hbackslash
    hkeyword

theorem pathParts_name (n : Name) : pathParts n.text = (0, n.text) := by
  have hpoint : '.' ∉ n.text := n.not_mem (by decide)
  have hparent : n.text ≠ "..".toList := fun h => hpoint (by simp [h])
  rw [pathParts, Text.trim_of_ink n.ink, if_neg hparent, splitParents]
  intro rest heq
  exact hpoint (by simp [heq])

theorem stepOfText_name (advanced : Bool) (n : Name) :
    Step.ofText advanced n.text = [.plain n.text] := by
  have hbracket : ']' ∉ n.text := n.not_mem (by decide)
  have hseparator : ∀ c ∈ n.text, Step.isSeparator c = false := by
    intro c hc
    have h := of_isNameChar (p := fun c => !Step.isSeparator c) (by decide) (n.chars c hc)
    simpa using h
  rw [Step.ofText, if_neg (by simp [hbracket]), Text.fields_of_forall n.text_ne_nil hseparator]
  rfl

theorem pathArgument_name {d : Dialect} (hd : d.stringParams = false) (head : Bool) (n : Name) :
    pathArgument d head 0 n.text = .ofName n.text := by
  have hpoint : '.' ∉ n.text := n.not_mem (by decide)
  have hthis : Step.isThis d (.plain n.text) = false := by
    have hne : n.text ≠ "this".toList := n.ne_of_mem_reservedNames (by simp [reservedNames])
    simpa [Step.isThis] using fun _ => hne
  have hmark : n.text.hasInfix ['.', '/'] = false := by
    rw [Bool.eq_false_iff]
    intro h
    exact hpoint ((Text.hasInfix_iff.mp h).subset (by simp))
  simp [pathArgument, dropHereMarks_of_not_mem (by simp) hpoint, stepOfText_name, hthis, hmark, hd,
    Step.name, Argument.ofName]

theorem readCheckedValue_name {d : Dialect} (hd : d.stringParams = false) (tag : Text)
    (position : Position) (n : Name) :
    readCheckedValue d tag position n.text = pure (.ofName n.text) := by
  have hread : readValue d position n.text = pure (.ofName n.text) := by
    rw [readValue, literal?_name]
    simp only [readPath_eq, pathParts_name, pathArgument_name hd]
    rfl
  rw [readCheckedValue, VariableName.check_name, hread]
  split <;> rfl

end TemplateTag
