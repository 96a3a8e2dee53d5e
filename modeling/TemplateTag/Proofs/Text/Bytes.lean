import TemplateTag.Text.Basic
/-!
# Positions in bytes

A boundary of a text is a position, counted in bytes, that cuts no character in two. `SeeksTo` is
the search for the next boundary, byte by byte. The longest end of a text that has at most so many
bytes starts where this search stops, and it misses the limit by less than one character.
-/
namespace TemplateTag.Text

theorem byteSize_singleton (c : Char) : byteSize [c] = c.utf8Size := rfl

theorem byteSize_pos {t : Text} (h : t ≠ []) : 0 < byteSize t := by
  obtain ⟨c, t, rfl⟩ := List.exists_cons_of_ne_nil h
  have hc := c.utf8Size_pos
  rw [byteSize]
  omega

theorem byteSize_le_of_suffix {u t : Text} (h : u <:+ t) : byteSize u ≤ byteSize t := by
  obtain ⟨before, rfl⟩ := h
  rw [byteSize_append]
  omega

theorem byteSize_take_lt {t : Text} {m n : Nat} (hlt : m < n) (hn : n ≤ t.length) :
    byteSize (t.take m) < byteSize (t.take n) := by
  have hcut := congrArg byteSize (List.take_append_drop m (t.take n))
  rw [List.take_take, Nat.min_eq_left (Nat.le_of_lt hlt), byteSize_append] at hcut
  have hmore : (t.take n).drop m ≠ [] := by
    rw [← List.length_pos_iff, List.length_drop, List.length_take]
    omega
  have hpos := byteSize_pos hmore
  omega

/-- The position stands between two characters of the text or at one of its ends. -/
def IsBoundary (t : Text) (position : Nat) : Prop :=
  ∃ before after, t = before ++ after ∧ byteSize before = position

theorem isBoundary_take (t : Text) (n : Nat) : t.IsBoundary (byteSize (t.take n)) :=
  ⟨t.take n, t.drop n, (List.take_append_drop n t).symm, rfl⟩

theorem IsBoundary.le {t : Text} {position : Nat} (h : t.IsBoundary position) :
    position ≤ byteSize t := by
  obtain ⟨before, after, rfl, rfl⟩ := h
  rw [byteSize_append]
  omega

/-- A search for a boundary that goes on byte by byte from the first position stops at the second
one. -/
inductive SeeksTo (t : Text) : Nat → Nat → Prop where
  | stop {position : Nat} (h : t.IsBoundary position) : SeeksTo t position position
  | next {position last : Nat} (h : ¬t.IsBoundary position)
    (later : SeeksTo t (position + 1) last) : SeeksTo t position last

theorem seeksTo_of_first {t : Text} {position last : Nat} (hlast : t.IsBoundary last)
    (hle : position ≤ last) (hfirst : ∀ p, position ≤ p → p < last → ¬t.IsBoundary p) :
    t.SeeksTo position last := by
  by_cases heq : position = last
  · subst heq
    exact .stop hlast
  · have hlt : position < last := Nat.lt_of_le_of_ne hle heq
    apply SeeksTo.next (hfirst position (Nat.le_refl _) hlt)
    exact seeksTo_of_first hlast hlt fun p hp => hfirst p (by omega)
termination_by last - position

variable {limit : Nat}

theorem lastBytes_suffix (limit : Nat) (t : Text) : lastBytes limit t <:+ t := by
  induction t with
  | nil => exact List.suffix_rfl
  | cons c t ih =>
    rw [lastBytes]
    split
    · exact List.suffix_rfl
    · exact ih.trans (List.suffix_cons c t)

theorem byteSize_lastBytes_le (limit : Nat) (t : Text) : byteSize (lastBytes limit t) ≤ limit := by
  induction t with
  | nil => exact Nat.zero_le limit
  | cons c t ih =>
    rw [lastBytes]
    split
    · next hfits => exact hfits
    · exact ih

/-- Every end of the text that has at most so many bytes is an end of the longest one. -/
theorem suffix_lastBytes {u t : Text} (h : u <:+ t) (hfits : byteSize u ≤ limit) :
    u <:+ lastBytes limit t := by
  induction t with
  | nil => exact h
  | cons c t ih =>
    rw [lastBytes]
    split
    · exact h
    · next htoo =>
      rcases List.suffix_cons_iff.mp h with rfl | h
      · exact absurd hfits htoo
      · exact ih h

theorem lt_byteSize_of_longer {u t : Text} (h : u <:+ t)
    (hlonger : (lastBytes limit t).length < u.length) : limit < byteSize u := by
  apply Nat.lt_of_not_le
  intro hfits
  have hle := (suffix_lastBytes h hfits).length_le
  omega

theorem lastBytes_eq_self {t : Text} (h : byteSize t ≤ limit) : lastBytes limit t = t :=
  (lastBytes_suffix limit t).eq_of_length_le (suffix_lastBytes List.suffix_rfl h).length_le

theorem le_byteSize_lastBytes {t : Text} (h : limit < byteSize t) :
    limit ≤ byteSize (lastBytes limit t) + 3 := by
  obtain ⟨before, ht⟩ := lastBytes_suffix limit t
  rcases List.eq_nil_or_concat before with rfl | ⟨before, c, rfl⟩
  · have hle := byteSize_lastBytes_le limit t
    rw [List.nil_append] at ht
    rw [ht] at hle
    omega
  · have hc := c.utf8Size_le_four
    have hend : c :: lastBytes limit t <:+ t := ⟨before, by simpa using ht⟩
    have hlonger : limit < byteSize (c :: lastBytes limit t) :=
      lt_byteSize_of_longer hend (Nat.lt_succ_self _)
    rw [byteSize] at hlonger
    omega

/-- The longest end starts at the first boundary from which no more than so many bytes follow. -/
theorem seeksTo_lastBytes {before t : Text} (ht : t = before ++ lastBytes limit t) :
    t.SeeksTo (byteSize t - limit) (byteSize before) := by
  have hsize := congrArg byteSize ht
  have hle := byteSize_lastBytes_le limit t
  rw [byteSize_append] at hsize
  refine seeksTo_of_first ⟨_, _, ht, rfl⟩ (by omega) ?_
  intro p hp hlt hboundary
  obtain ⟨front, rest, hcut, rfl⟩ := hboundary
  have hcutSize := congrArg byteSize hcut
  rw [byteSize_append] at hcutSize
  have hrest : rest <:+ lastBytes limit t :=
    suffix_lastBytes ⟨front, hcut.symm⟩ (by omega)
  have hrestSize := byteSize_le_of_suffix hrest
  omega

end TemplateTag.Text
