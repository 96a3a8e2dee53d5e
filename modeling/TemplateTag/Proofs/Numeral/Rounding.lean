import Mathlib.Algebra.Ring.Nat
import TemplateTag.Numeral.Shortest
/-!
# Rounding and reading back

A decimal is rounded to a magnitude of at most 53 significant bits below the overflow
(`of_nearest?_eq_some`), and such a magnitude is what its exact decimal is rounded to
(`nearest?_exact`). So there always is a shortest decimal, and it reads back as the magnitude
(`nearest?_shortest`).
-/
namespace TemplateTag.Binary64

/-- The magnitude has at most 53 significant bits. -/
def HasPrecision (magnitude : Nat) : Prop :=
  ∃ significand shift, significand < 2 ^ 53 ∧ magnitude = significand * 2 ^ shift

section Quotients

variable {n d k : Nat}

theorem divNearestEven_mul (hd : 0 < d) : divNearestEven (k * d) d = k := by
  simp [divNearestEven, Nat.mul_div_cancel k hd, hd]

theorem divNearestEven_le (h : n < k * d) : divNearestEven n d ≤ k := by
  have hquotient : n / d < k := Nat.div_lt_of_lt_mul (Nat.mul_comm k d ▸ h)
  simp only [divNearestEven]
  split <;> omega

end Quotients

section Precision

variable {m d : Nat}

theorem HasPrecision.dvd (h : HasPrecision m) : 2 ^ (m.log2 + 1 - 53) ∣ m := by
  obtain ⟨k, shift, hk, rfl⟩ := h
  by_cases hzero : k * 2 ^ shift = 0
  · rw [hzero]
    exact Nat.dvd_zero _
  · have hlt : k * 2 ^ shift < 2 ^ (53 + shift) := by
      rw [Nat.pow_add]
      exact Nat.mul_lt_mul_of_pos_right hk (Nat.two_pow_pos shift)
    have hlog : (k * 2 ^ shift).log2 < 53 + shift := (Nat.log2_lt hzero).mpr hlt
    exact Nat.dvd_trans (Nat.pow_dvd_pow 2 (by omega)) (Nat.dvd_mul_left _ k)

theorem round_mul (h : HasPrecision m) (hd : 0 < d) : round (m * d) d = m := by
  have hdvd := h.dvd
  have hround : round (m * d) d = divNearestEven (m * d) (d * 2 ^ (m.log2 + 1 - 53)) *
      2 ^ (m.log2 + 1 - 53) := by
    simp only [round, Nat.pow_eq, Nat.mul_div_cancel m hd]
  rw [hround]
  generalize m.log2 + 1 - 53 = shift at hdvd
  obtain ⟨k, rfl⟩ := hdvd
  have hproduct : 2 ^ shift * k * d = k * (d * 2 ^ shift) := by
    rw [Nat.mul_comm _ k, Nat.mul_assoc, Nat.mul_comm d]
  rw [hproduct, divNearestEven_mul (Nat.mul_pos hd (Nat.two_pow_pos shift)), Nat.mul_comm]

theorem hasPrecision_round (n : Nat) (hd : 0 < d) : HasPrecision (round n d) := by
  have hround : round n d =
      divNearestEven n (d * 2 ^ ((n / d).log2 + 1 - 53)) * 2 ^ ((n / d).log2 + 1 - 53) := rfl
  rw [hround]
  generalize hshift : (n / d).log2 + 1 - 53 = shift
  have hdiv : n / d < 2 ^ 53 * 2 ^ shift := by
    rw [← Nat.pow_add]
    exact Nat.lt_of_lt_of_le Nat.lt_log2_self (Nat.pow_le_pow_right (by decide) (by omega))
  have hlt : n < 2 ^ 53 * (d * 2 ^ shift) := by
    rw [Nat.mul_left_comm, Nat.mul_comm]
    exact (Nat.div_lt_iff_lt_mul hd).mp hdiv
  -- A quotient that is rounded up to a power of two has one significant bit.
  rcases Nat.lt_or_eq_of_le (divNearestEven_le hlt) with hsmall | hcarry
  · exact ⟨_, shift, hsmall, rfl⟩
  · rw [hcarry, ← Nat.pow_add]
    exact ⟨1, 53 + shift, by decide, (Nat.one_mul _).symm⟩

end Precision

section Reading

variable {c m : Nat} {scale : Int}

theorem nearest?_zero (scale : Int) : nearest? 0 scale = some 0 := by
  simp [nearest?]

theorem nearest?_of_size (hc : c ≠ 0) (hlower : ¬(Nat.toDigits 10 c).length + scale < -330)
    (hupper : ¬330 < (Nat.toDigits 10 c).length + scale)
    (hround : round (c * Nat.pow 10 scale.toNat * Nat.pow 2 1074) (Nat.pow 10 (-scale).toNat) = m)
    (hlt : m < overflow) : nearest? c scale = some m := by
  rw [nearest?, if_neg (not_or.mpr ⟨hc, hlower⟩), if_neg hupper]
  simp only [hround, if_pos hlt]

theorem of_nearest?_eq_some (h : nearest? c scale = some m) : HasPrecision m ∧ m < overflow := by
  rw [nearest?] at h
  split at h
  · obtain rfl := Option.some.inj h
    exact ⟨⟨0, 0, by decide, rfl⟩, by decide +kernel⟩
  · split at h
    · cases h
    · simp only at h
      split at h
      · next hlt =>
        obtain rfl := Option.some.inj h
        exact ⟨hasPrecision_round _ (Nat.pow_pos (by decide)), hlt⟩
      · cases h

theorem five_pow_pos : 0 < Nat.pow 5 1074 := by
  decide +kernel

theorem size_exact (hpos : 0 < m) (hlt : m < overflow) :
    let size : Int := (Nat.toDigits 10 (m * Nat.pow 5 1074)).length + -1074
    ¬size < -330 ∧ ¬330 < size := by
  have hlower : 744 < (Nat.toDigits 10 (m * Nat.pow 5 1074)).length := by
    rw [← Nat.not_le, Nat.length_toDigits_le_iff (by decide) (by decide), Nat.not_lt]
    refine Nat.le_trans ?_ (Nat.le_mul_of_pos_left _ hpos)
    decide +kernel
  have hupper : (Nat.toDigits 10 (m * Nat.pow 5 1074)).length ≤ 1404 := by
    rw [Nat.length_toDigits_le_iff (by decide) (by decide)]
    refine Nat.lt_of_lt_of_le (Nat.mul_lt_mul_of_pos_right hlt five_pow_pos) ?_
    decide +kernel
  generalize (Nat.toDigits 10 (m * Nat.pow 5 1074)).length = length at hlower hupper
  omega

theorem nearest?_exact (hpos : 0 < m) (hm : HasPrecision m) (hlt : m < overflow) :
    nearest? (m * Nat.pow 5 1074) (-1074) = some m := by
  have hsize := size_exact hpos hlt
  have hne : m * Nat.pow 5 1074 ≠ 0 := Nat.ne_of_gt (Nat.mul_pos hpos five_pow_pos)
  have hten : Nat.pow 5 1074 * Nat.pow 10 (-1074 : Int).toNat * Nat.pow 2 1074 =
      Nat.pow 10 (-(-1074) : Int).toNat := by
    decide +kernel
  have hproduct (a b c : Nat) : m * a * b * c = m * (a * b * c) := by
    rw [Nat.mul_assoc m, Nat.mul_assoc m]
  refine nearest?_of_size hne hsize.1 hsize.2 ?_ hlt
  rw [hproduct, hten]
  exact round_mul hm (by decide +kernel)

end Reading

section Shortest

variable {m : Nat}

theorem of_readingBack?_eq_some {scale : Int} {k : Nat} (h : readingBack? m scale = some k) :
    nearest? k scale = some m := by
  simp only [readingBack?] at h
  split at h
  · next hbelow =>
    obtain rfl := Option.some.inj h
    exact eq_of_beq (Bool.and_eq_true_iff.mp hbelow).1
  · split at h
    · next habove =>
      obtain rfl := Option.some.inj h
      exact eq_of_beq habove
    · cases h

/-- The shortest decimal reads back as the magnitude. -/
theorem nearest?_shortest {c : Nat} {scale : Int} (h : nearest? c scale = some m) (hpos : 0 < m) :
    nearest? (shortest m).1 (shortest m).2 = some m := by
  rw [shortest]
  cases hfound : scales.findSome? fun scale => (readingBack? m scale).map (·, scale) with
  | none => exact nearest?_exact hpos (of_nearest?_eq_some h).1 (of_nearest?_eq_some h).2
  | some found =>
    obtain ⟨scale', -, hscale⟩ := List.exists_of_findSome?_eq_some hfound
    obtain ⟨k, hk, rfl⟩ := Option.map_eq_some_iff.mp hscale
    exact of_readingBack?_eq_some hk

end Shortest

end TemplateTag.Binary64
