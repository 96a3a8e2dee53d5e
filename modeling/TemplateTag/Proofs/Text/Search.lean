import TemplateTag.Text.Basic
/-!
# Searching a text

What it means that a text starts with a mark, lies between two marks, or contains a pattern.
-/
namespace TemplateTag.Text

theorem isPrefixOf?_eq_some {p t rest : Text} :
    p.isPrefixOf? t = some rest ↔ t = p ++ rest := by
  induction p generalizing t with
  | nil =>
    change some t = some rest ↔ t = [] ++ rest
    simp
  | cons c p ih =>
    cases t with
    | nil =>
      change none = some rest ↔ [] = c :: p ++ rest
      simp
    | cons d t =>
      change (if c == d then p.isPrefixOf? t else none) = some rest ↔ d :: t = c :: p ++ rest
      split
      · next h => simp [ih, eq_of_beq h]
      · next h => simpa [eq_comm] using fun heq => absurd heq (by simpa using h)

theorem between?_eq_some {t opening closing content : Text} :
    t.between? opening closing = some content ↔ t = opening ++ content ++ closing := by
  rw [between?]
  cases h : opening.isPrefixOf? t with
  | none =>
    refine ⟨nofun, fun ht => ?_⟩
    have := isPrefixOf?_eq_some.mpr (ht.trans (List.append_assoc ..))
    rw [h] at this
    cases this
  | some rest =>
    obtain rfl := isPrefixOf?_eq_some.mp h
    simp only [Option.bind_eq_bind, Option.bind_some, List.append_assoc, List.append_cancel_left_eq]
    split
    · next hs =>
      obtain ⟨x, rfl⟩ := List.isSuffixOf_iff_suffix.mp hs
      simp
    · next hs =>
      refine ⟨nofun, fun hr => absurd ?_ hs⟩
      exact List.isSuffixOf_iff_suffix.mpr ⟨content, hr.symm⟩

theorem between?_of_head_ne {c mark : Char} (h : c ≠ mark) (t opening closing : Text) :
    between? (c :: t) (mark :: opening) closing = none := by
  rw [Option.eq_none_iff_forall_ne_some]
  intro content hcontent
  have ht := between?_eq_some.mp hcontent
  rw [List.cons_append, List.cons_append, List.cons.injEq] at ht
  exact h ht.1

theorem filledBetween?_eq_some {t opening closing content : Text} :
    t.filledBetween? opening closing = some content ↔
      t = opening ++ content ++ closing ∧ content ≠ [] := by
  rw [filledBetween?, Option.filter_eq_some_iff, between?_eq_some]
  simp

theorem anySuffix_iff {test : Text → Bool} {t : Text} :
    t.anySuffix test = true ↔ ∃ s, s <:+ t ∧ test s = true := by
  induction t with
  | nil => simp [anySuffix]
  | cons c t ih =>
    simp only [anySuffix, Bool.or_eq_true, ih, List.suffix_cons_iff]
    constructor
    · rintro (h | ⟨s, hs, h⟩)
      · exact ⟨_, .inl rfl, h⟩
      · exact ⟨s, .inr hs, h⟩
    · rintro ⟨s, rfl | hs, h⟩
      · exact .inl h
      · exact .inr ⟨s, hs, h⟩

theorem hasInfix_iff {t p : Text} : t.hasInfix p = true ↔ p <:+: t := by
  simp only [hasInfix, anySuffix_iff, List.isPrefixOf_iff_prefix]
  constructor
  · rintro ⟨_, ⟨a, rfl⟩, ⟨b, rfl⟩⟩
    exact ⟨a, b, by simp⟩
  · rintro ⟨a, b, rfl⟩
    exact ⟨p ++ b, ⟨a, by simp⟩, ⟨b, rfl⟩⟩

theorem span_append {p : Char → Bool} {s t : Text} (hs : ∀ c ∈ s, p c = true)
    (ht : ∀ c ∈ t.head?, p c = false) : (s ++ t).takeWhile p = s ∧ (s ++ t).dropWhile p = t := by
  rw [List.takeWhile_append_of_pos hs, List.dropWhile_append_of_pos hs]
  cases t with
  | nil => simp
  | cons c t => simp [ht c rfl]

theorem endsWith_iff {t : Text} {c : Char} : t.endsWith c = true ↔ t.getLast? = some c := by
  rw [endsWith, beq_iff_eq]

theorem endsWith_of_not_mem {t : Text} {c : Char} (h : c ∉ t) : t.endsWith c = false := by
  rw [Bool.eq_false_iff]
  intro hend
  exact h (List.mem_of_getLast? (endsWith_iff.mp hend))

theorem exists_append_of_not_mem {c : Char} {s t u v : Text} (hs : c ∉ s)
    (h : s ++ t = u ++ c :: v) : ∃ between, u = s ++ between ∧ t = between ++ c :: v := by
  rcases List.append_eq_append_iff.mp h with ⟨between, hu, ht⟩ | ⟨between, rfl, hv⟩
  · exact ⟨between, hu, ht⟩
  · cases between with
    | nil => exact ⟨[], by simp, hv.symm⟩
    | cons d between =>
      obtain ⟨rfl, -⟩ := List.cons.inj hv
      simp at hs

end TemplateTag.Text
