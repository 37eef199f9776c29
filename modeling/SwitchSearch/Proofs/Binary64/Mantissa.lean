import SwitchSearch.Proofs.Binary64.Rounding

/-!
This module contains the rounding of mantissas as the model of floats performs it: shifted to the
right bit by bit, with a round bit and a sticky bit for what is lost. The result is the nearest point
of the grid.
-/

namespace SwitchSearch.Binary64

open Float.Model Float.Model.UnpackedFloat

def Represents : ExtendedMantissa → ℚ → Prop
  | ⟨m, false, false⟩, q => q = m
  | ⟨m, false, true⟩, q => m < q ∧ q < m + 1 / 2
  | ⟨m, true, false⟩, q => q = m + 1 / 2
  | ⟨m, true, true⟩, q => m + 1 / 2 < q ∧ q < m + 1

theorem Represents.floor_eq {em : ExtendedMantissa} {q : ℚ} (h : Represents em q)
    : ⌊q⌋₊ = em.mantissa := by
  rcases em with ⟨m, roundBit, stickyBit⟩
  have hm : (0 : ℚ) ≤ m := by positivity
  cases roundBit
  all_goals
    cases stickyBit
    all_goals
      simp only [Represents] at h
      apply (Nat.floor_eq_iff (by linarith)).mpr
      constructor <;> dsimp only <;> linarith

theorem Represents.roundedMantissa_eq {em : ExtendedMantissa} {q : ℚ} (h : Represents em q)
    : em.roundedMantissa = nearest q := by
  have hfloor := h.floor_eq
  unfold nearest
  rw [hfloor]
  rcases em with ⟨m, roundBit, stickyBit⟩
  cases roundBit with
  | false =>
    cases stickyBit with
    | false =>
      simp only [Represents] at h
      rw [if_pos (by rw [h]; dsimp only; linarith)]
      rfl
    | true =>
      simp only [Represents] at h
      rw [if_pos h.right]
      rfl
  | true =>
    cases stickyBit with
    | false =>
      simp only [Represents] at h
      rw [if_neg (by rw [h]; exact lt_irrefl _), if_pos h]
      rfl
    | true =>
      simp only [Represents] at h
      rw [if_neg (not_lt.mpr h.left.le), if_neg (ne_of_gt h.left)]
      rfl

theorem Represents.shiftRightOne {em : ExtendedMantissa} {q : ℚ} (h : Represents em q)
    : Represents em.shiftRightOne (q / 2) := by
  rcases em with ⟨m, roundBit, stickyBit⟩
  have hsplit : (m : ℚ) = 2 * (m / 2 : ℕ) + (m % 2 : ℕ) := by exact_mod_cast (Nat.div_add_mod m 2).symm
  unfold ExtendedMantissa.shiftRightOne
  cases Nat.mod_two_eq_zero_or_one m with
  | inl heven =>
    rw [heven] at hsplit
    simp only [heven]
    cases roundBit
    all_goals
      cases stickyBit
      all_goals
        simp only [Represents, Nat.cast_zero, add_zero] at h hsplit
        simp only [Represents, bne_self_eq_false, Bool.or_false, Bool.or_true]
        first
          | linarith
          | constructor <;> linarith
  | inr hodd =>
    rw [hodd] at hsplit
    simp only [hodd]
    cases roundBit
    all_goals
      cases stickyBit
      all_goals
        simp only [Represents, Nat.cast_one] at h hsplit
        simp only [Represents, show ((1 : ℕ) != 0) = true from rfl, Bool.or_false, Bool.or_true]
        first
          | linarith
          | constructor <;> linarith

theorem Represents.shiftRight {em : ExtendedMantissa} {q : ℚ} (h : Represents em q) (n : ℕ)
    : Represents (em >>> n) (q / 2 ^ n) := by
  change Represents (n.repeat ExtendedMantissa.shiftRightOne em) _
  induction n with
  | zero => simpa [Nat.repeat] using h
  | succ n ih =>
    rw [Nat.repeat, pow_succ, ← div_div]
    exact ih.shiftRightOne

theorem Represents.ofMantissa (m : ℕ)
    : Represents (ExtendedMantissa.ofMantissaAndAccuracy m .exact) m := by
  simp [ExtendedMantissa.ofMantissaAndAccuracy, Represents]

theorem Represents.roundedMantissa_shiftToExponent {m : ℕ} {accuracy : Accuracy} {q : ℚ}
    (hq : Represents (ExtendedMantissa.ofMantissaAndAccuracy m accuracy) q) {e t : ℤ} (h : e ≤ t)
    : (shiftToExponent m e accuracy t).1.roundedMantissa = nearest (q * 2 ^ e / 2 ^ t) := by
  have hshift := (hq.shiftRight (t - e).toNat).roundedMantissa_eq
  have hvalue : q / 2 ^ (t - e).toNat = q * 2 ^ e / 2 ^ t := by
    rw [← zpow_natCast, Int.toNat_of_nonneg (by omega), zpow_sub₀ (by norm_num)]
    field_simp
  rw [hvalue] at hshift
  exact hshift

theorem shiftToExponent_exponent (m : ℕ) (accuracy : Accuracy) {e t : ℤ} (h : e ≤ t)
    : (shiftToExponent m e accuracy t).2 = t := by
  unfold shiftToExponent
  dsimp only
  omega

theorem mantissa_shiftToExponent (m : ℕ) (e t : ℤ)
    : (shiftToExponent m e .exact t).1.mantissa = m / 2 ^ (t - e).toNat := by
  unfold shiftToExponent
  dsimp only
  generalize (t - e).toNat = n
  change (n.repeat ExtendedMantissa.shiftRightOne _).mantissa = _
  induction n with
  | zero => simp [Nat.repeat, ExtendedMantissa.ofMantissaAndAccuracy]
  | succ n ih =>
    rw [Nat.repeat, pow_succ, ← Nat.div_div_eq_div_mul, ← ih]
    rfl

def IsPoint (sign : Sign) (q : ℚ) : UnpackedFloat → Prop
  | .zero s => s = sign ∧ q = 0
  | .finite s m e _ => s = sign ∧ OnGrid m e ∧ q = m * 2 ^ e
  | _ => False

theorem isPoint_of_carry (sign : Sign) {m : ℕ} {e : ℤ} (hm : m ≤ 2 ^ 53) (he : -1074 ≤ e)
    (hfull : 2 ^ 52 ≤ m ∨ e = -1074)
    : let shifted := shiftToTargetExponent .binary64 m e .exact
      IsPoint sign (m * 2 ^ e)
        (if h : shifted.1.mantissa = 0 then
          .zero sign
        else
          .finite sign shifted.1.mantissa shifted.2 (Nat.pos_of_ne_zero h)) := by
  intro shifted
  cases Nat.lt_or_eq_of_le hm with
  | inl hlt =>
    have htarget : Format.binary64.targetExponent (totalExponent m e) ≤ e := by
      have hlog : m.log2 < 53 := by
        cases Nat.eq_zero_or_pos m with
        | inl hzero =>
          rw [hzero]
          decide
        | inr hpos => exact (Nat.log2_lt (by omega)).mpr hlt
      simp only [Format.targetExponent, totalExponent, Format.mantissaBits, Format.minExponent]
      omega
    have hshifted : shifted = (⟨m, false, false⟩, e) := by
      simp only [shifted, shiftToTargetExponent, shiftToExponent]
      rw [show (Format.binary64.targetExponent (totalExponent m e) - e).toNat = 0 by omega]
      simp only [Nat.cast_zero, add_zero]
      rfl
    rw [hshifted]
    dsimp only
    split
    . next hzero =>
      rw [hzero]
      exact ⟨rfl, by simp⟩
    . exact ⟨rfl, ⟨hlt, he, hfull⟩, rfl⟩
  | inr heq =>
    have htarget : Format.binary64.targetExponent (totalExponent m e) = e + 1 := by
      rw [heq]
      simp only [Format.targetExponent, totalExponent, Nat.log2_two_pow, Format.mantissaBits,
        Format.minExponent]
      omega
    have hmantissa : shifted.1.mantissa = 2 ^ 52 := by
      simp only [shifted, shiftToTargetExponent]
      rw [htarget, mantissa_shiftToExponent, heq, show (e + 1 - e).toNat = 1 by omega]
      norm_num
    have hexponent : shifted.2 = e + 1 := by
      simp only [shifted, shiftToTargetExponent]
      rw [htarget]
      exact shiftToExponent_exponent _ _ (by omega)
    rw [dif_neg (by rw [hmantissa]; norm_num)]
    refine ⟨rfl, ⟨?_, ?_, ?_⟩, ?_⟩
    . rw [hmantissa]
      norm_num
    . omega
    . omega
    . rw [hmantissa, hexponent, heq, zpow_add₀ (by norm_num)]
      push_cast
      ring

theorem gridExponent_eq_targetExponent {m : ℕ} {q : ℚ} (hq : 0 < q) (hfloor : ⌊q⌋₊ = m) {e : ℤ}
    (he : e ≤ gridExponent (q * 2 ^ e))
    : gridExponent (q * 2 ^ e) = Format.binary64.targetExponent (totalExponent m e) := by
  have hlow : (m : ℚ) ≤ q := by
    rw [← hfloor]
    exact Nat.floor_le hq.le
  have hhigh : q < m + 1 := by
    rw [← hfloor]
    exact Nat.lt_floor_add_one q
  have hpow : (0 : ℚ) < 2 ^ e := by positivity
  cases Nat.eq_zero_or_pos m with
  | inl hzero =>
    -- less than one unit is left of the number, so its grid is the finest one
    have hlog : Int.log 2 (q * 2 ^ e) < e := by
      apply (Int.lt_zpow_iff_log_lt (by norm_num) (by positivity)).mp
      rw [hzero, Nat.cast_zero, zero_add] at hhigh
      exact mul_lt_of_lt_one_left hpow hhigh
    unfold gridExponent at he ⊢
    simp only [Format.targetExponent, totalExponent, hzero, Nat.log2_zero, Format.mantissaBits,
      Format.minExponent]
    omega
  | inr hpos =>
    have hlog : Int.log 2 (q * 2 ^ e) = Int.log 2 ((m : ℚ) * 2 ^ e) := by
      apply le_antisymm
      . apply Int.lt_add_one_iff.mp
        apply (Int.lt_zpow_iff_log_lt (by norm_num) (by positivity)).mp
        have hnext : (m : ℚ) + 1 ≤ 2 ^ (m.log2 + 1) := by exact_mod_cast Nat.lt_log2_self
        rw [log_mul_zpow hpos, show (m.log2 : ℤ) + e + 1 = (m.log2 + 1 : ℕ) + e by push_cast; ring]
        rw [Nat.cast_ofNat, zpow_add₀ (by norm_num), zpow_natCast]
        exact mul_lt_mul_of_pos_right (hhigh.trans_le hnext) hpow
      . exact Int.log_mono_right (by positivity) (mul_le_mul_of_nonneg_right hlow hpow.le)
    rw [← gridExponent_mul_zpow hpos]
    unfold gridExponent
    rw [hlog]

theorem isPoint_roundWithAccuracy (sign : Sign) {m : ℕ} {accuracy : Accuracy} {q : ℚ} (hq : 0 < q)
    (h : Represents (ExtendedMantissa.ofMantissaAndAccuracy m accuracy) q) {e : ℤ}
    (he : e ≤ gridExponent (q * 2 ^ e))
    : IsPoint sign (rounded (q * 2 ^ e)) (roundWithAccuracy .binary64 sign m e accuracy) := by
  have hfloor : ⌊q⌋₊ = m := by
    rw [h.floor_eq]
    rcases accuracy with _ | relation
    . rfl
    . cases relation <;> rfl
  have htarget := gridExponent_eq_targetExponent hq hfloor he
  have hmin : -1074 ≤ gridExponent (q * 2 ^ e) := by
    unfold gridExponent
    omega
  have hfull : 2 ^ 52 ≤ nearest (q * 2 ^ e / 2 ^ gridExponent (q * 2 ^ e)) ∨
      gridExponent (q * 2 ^ e) = -1074 := by
    cases Classical.em (gridExponent (q * 2 ^ e) = -1074) with
    | inl heq => exact .inr heq
    | inr hne => exact .inl (le_nearest_div_gridExponent (by positivity) hne)
  have hcarry := isPoint_of_carry sign (nearest_div_gridExponent_le (q * 2 ^ e)) hmin hfull
  have hmantissa := h.roundedMantissa_shiftToExponent he
  have hexponent := shiftToExponent_exponent m accuracy he
  have hfirst : shiftToTargetExponent .binary64 m e accuracy =
      shiftToExponent m e accuracy (gridExponent (q * 2 ^ e)) := by
    rw [htarget]
    rfl
  unfold roundWithAccuracy
  rw [hfirst]
  generalize shiftToExponent m e accuracy (gridExponent (q * 2 ^ e)) = first at *
  rcases first with ⟨em, e₁⟩
  dsimp only at hmantissa hexponent ⊢
  rw [hmantissa, hexponent]
  exact hcarry

theorem isPoint_round (sign : Sign) {m : ℕ} (hm : 0 < m) (e : ℤ)
    : IsPoint sign (rounded (m * 2 ^ e)) (UnpackedFloat.round .binary64 sign m e) := by
  have htarget := gridExponent_mul_zpow hm e
  unfold UnpackedFloat.round decreaseExponent
  dsimp only
  rw [← htarget]
  generalize hk : (e - gridExponent ((m : ℚ) * 2 ^ e)).toNat = k
  have hvalue : ((m <<< k : ℕ) : ℚ) * 2 ^ (e - k) = m * 2 ^ e := by
    rw [Nat.shiftLeft_eq, zpow_sub₀ (by norm_num), zpow_natCast]
    push_cast
    field_simp
  have hpos : 0 < m <<< k := by
    rw [Nat.shiftLeft_eq]
    positivity
  rw [← hvalue]
  apply isPoint_roundWithAccuracy sign (by exact_mod_cast hpos) (.ofMantissa _)
  rw [hvalue]
  omega

end SwitchSearch.Binary64
