import TemplateTag.Text.Basic
/-!
# Balanced parentheses

A text is balanced if each of its parentheses has a partner. Reading it from left to right,
`depthAfter?` keeps count of the parentheses that are open (`depthAfter?_eq_some`).
-/
namespace TemplateTag.Text

def ParenFree (t : Text) : Prop :=
  '(' ∉ t ∧ ')' ∉ t

instance (t : Text) : Decidable t.ParenFree :=
  inferInstanceAs (Decidable (_ ∧ _))

/-- No start of the text has more closing than opening parentheses, and the text as a whole has as
many of the one as of the other. -/
structure Balanced (t : Text) : Prop where
  no_excess : ∀ s, s <+: t → s.count ')' ≤ s.count '('
  count_eq : t.count '(' = t.count ')'

/-- The number of open parentheses after a text that is read when `depth` of them are open. There is
none if the text closes a parenthesis that is not open. -/
def depthAfter? : (depth : Nat) → Text → Option Nat
  | depth, [] => some depth
  | depth, c :: t =>
    if c = '(' then depthAfter? (depth + 1) t
    else if c = ')' then if depth = 0 then none else depthAfter? (depth - 1) t
    else depthAfter? depth t

section Depth

variable {s t : Text} {depth depth' : Nat}

theorem depthAfter?_append :
    depthAfter? depth (s ++ t) = (depthAfter? depth s).bind fun d => depthAfter? d t := by
  induction s generalizing depth with
  | nil => rfl
  | cons c s ih =>
    rw [List.cons_append, depthAfter?, depthAfter?]
    split
    · exact ih
    · split
      · split
        · rfl
        · exact ih
      · exact ih

private theorem forall_start_cons {p : Text → Prop} {c : Char} :
    (∀ s, s <+: c :: t → p s) ↔ p [] ∧ ∀ s, s <+: t → p (c :: s) := by
  constructor
  · intro h
    exact ⟨h [] (List.nil_prefix ..), fun s hs => h (c :: s) (List.cons_prefix_cons.mpr ⟨rfl, hs⟩)⟩
  · rintro ⟨hnil, hcons⟩ s hs
    rcases List.prefix_cons_iff.mp hs with rfl | ⟨s, rfl, hs'⟩
    · exact hnil
    · exact hcons s hs'

/-- The count of open parentheses is the difference of the totals, if it never falls below zero. -/
theorem depthAfter?_eq_some : depthAfter? depth t = some depth' ↔
    (∀ s, s <+: t → s.count ')' ≤ depth + s.count '(') ∧
      depth + t.count '(' = depth' + t.count ')' := by
  induction t generalizing depth with
  | nil => simp [depthAfter?]
  | cons c t ih =>
    -- The starts of the longer text are the empty one and those of the rest, with the first
    -- character in front; that character moves the depth from which the rest is read.
    have hnil : List.count ')' ([] : Text) ≤ depth + List.count '(' ([] : Text) := Nat.zero_le _
    rw [depthAfter?, forall_start_cons]
    by_cases hopen : c = '('
    · have hrest := @ih (depth + 1)
      rw [if_pos hopen, hrest, hopen]
      simp only [List.count_cons_self, List.count_cons_of_ne (by decide : '(' ≠ ')'), hnil,
        true_and, Nat.add_right_comm _ 1, ← Nat.add_assoc]
    · rw [if_neg hopen]
      by_cases hclose : c = ')'
      · rw [if_pos hclose, hclose]
        simp only [List.count_cons_self, List.count_cons_of_ne (by decide : ')' ≠ '(')]
        cases depth with
        | zero =>
          have hfirst : ¬∀ s, s <+: t → s.count ')' + 1 ≤ 0 + s.count '(' := fun h =>
            absurd (h [] (List.nil_prefix ..)) (by decide)
          simp only [hfirst, if_true, and_false, false_and, reduceCtorEq]
        | succ depth =>
          have hrest := @ih depth
          rw [if_neg (Nat.succ_ne_zero depth), Nat.add_sub_cancel, hrest]
          grind
      · have hrest := @ih depth
        rw [if_neg hclose, hrest]
        simp only [List.count_cons_of_ne hopen, List.count_cons_of_ne hclose, hnil, true_and]

theorem balanced_iff : t.Balanced ↔ depthAfter? 0 t = some 0 := by
  simp only [depthAfter?_eq_some, Nat.zero_add]
  exact ⟨fun h => ⟨h.no_excess, h.count_eq⟩, fun h => ⟨h.1, h.2⟩⟩

theorem depthAfter?_change {deep deep' : Nat} (h : depthAfter? depth t = some depth')
    (h' : depthAfter? deep t = some deep') : depth + deep' = deep + depth' := by
  obtain ⟨-, heq⟩ := depthAfter?_eq_some.mp h
  obtain ⟨-, heq'⟩ := depthAfter?_eq_some.mp h'
  omega

theorem depthAfter?_of_le {deep : Nat} (h : depthAfter? depth t = some depth) (hle : depth ≤ deep) :
    depthAfter? deep t = some deep := by
  obtain ⟨hstarts, heq⟩ := depthAfter?_eq_some.mp h
  refine depthAfter?_eq_some.mpr ⟨fun s hs => ?_, by omega⟩
  have := hstarts s hs
  omega

theorem Balanced.depthAfter? (h : t.Balanced) (depth : Nat) : depthAfter? depth t = some depth :=
  depthAfter?_of_le (balanced_iff.mp h) (Nat.zero_le depth)

theorem Balanced.mem_closing (h : t.Balanced) (hmem : '(' ∈ t) : ')' ∈ t := by
  have hopen := List.count_pos_iff.mpr hmem
  rw [h.count_eq] at hopen
  exact List.count_pos_iff.mp hopen

theorem ParenFree.balanced (h : t.ParenFree) : t.Balanced := by
  refine ⟨fun s hs => ?_, ?_⟩
  · rw [List.count_eq_zero.mpr fun hmem => h.2 (hs.subset hmem)]
    exact Nat.zero_le _
  · rw [List.count_eq_zero.mpr h.1, List.count_eq_zero.mpr h.2]

theorem ParenFree.append (hs : s.ParenFree) (ht : t.ParenFree) : (s ++ t).ParenFree :=
  ⟨fun h => (List.mem_append.mp h).elim hs.1 ht.1, fun h => (List.mem_append.mp h).elim hs.2 ht.2⟩

theorem Balanced.append (hs : s.Balanced) (ht : t.Balanced) : (s ++ t).Balanced := by
  rw [balanced_iff, depthAfter?_append, hs.depthAfter?, Option.bind_some, ht.depthAfter?]

theorem depthAfter?_opening (depth k : Nat) :
    depthAfter? depth (List.replicate k '(') = some (depth + k) := by
  induction k generalizing depth with
  | zero => rfl
  | succ k ih => rw [List.replicate_succ, depthAfter?, if_pos rfl, ih, Nat.add_right_comm]; rfl

theorem depthAfter?_closing (depth k : Nat) :
    depthAfter? depth (List.replicate k ')') = if k ≤ depth then some (depth - k) else none := by
  induction k generalizing depth with
  | zero => rfl
  | succ k ih =>
    rw [List.replicate_succ, depthAfter?, if_neg (by decide), if_pos rfl]
    cases depth with
    | zero => rfl
    | succ depth =>
      rw [if_neg (Nat.succ_ne_zero depth), Nat.add_sub_cancel, ih]
      simp only [Nat.add_le_add_iff_right, Nat.add_sub_add_right]

theorem depthAfter?_open_ne_zero (ht : t.ParenFree) :
    depthAfter? depth (s ++ '(' :: t) ≠ some 0 := by
  rw [depthAfter?_append]
  cases depthAfter? depth s with
  | none => exact fun h => nomatch h
  | some d =>
    rw [Option.bind_some, depthAfter?, if_pos rfl, ht.balanced.depthAfter?]
    exact fun h => Nat.succ_ne_zero d (Option.some.inj h)

end Depth

instance (t : Text) : Decidable t.Balanced :=
  decidable_of_iff _ balanced_iff.symm

end TemplateTag.Text
