import Mathlib

/-!
This module contains the rounding of rationals to the grid of 64 bit floats: to the nearest point,
and of two equally near points to the even one. It is monotone and keeps the points of the grid. The
rounding of mantissas with a round bit and a sticky bit agrees with it.
-/

namespace SwitchSearch.Binary64

open Float.Model Float.Model.UnpackedFloat

def nearest (q : ℚ) : ℕ :=
  if q < ⌊q⌋₊ + 1 / 2 then
    ⌊q⌋₊
  else if q = ⌊q⌋₊ + 1 / 2 then
    ⌊q⌋₊ + ⌊q⌋₊ % 2
  else
    ⌊q⌋₊ + 1

theorem floor_le_nearest (q : ℚ) : ⌊q⌋₊ ≤ nearest q := by
  unfold nearest
  split
  . omega
  . split <;> omega

theorem nearest_le_floor_succ (q : ℚ) : nearest q ≤ ⌊q⌋₊ + 1 := by
  unfold nearest
  split
  . omega
  . split <;> omega

theorem nearest_mono {p q : ℚ} (h : p ≤ q) : nearest p ≤ nearest q := by
  have hfloor : ⌊p⌋₊ ≤ ⌊q⌋₊ := Nat.floor_le_floor h
  cases Nat.lt_or_eq_of_le hfloor with
  | inl hlt =>
    have hp := nearest_le_floor_succ p
    have hq := floor_le_nearest q
    omega
  | inr heq =>
    unfold nearest
    rw [heq]
    split
    . split
      . omega
      . split <;> omega
    . next hp =>
      rw [if_neg (fun hq => hp (lt_of_le_of_lt h hq))]
      split
      . split <;> omega
      . next hp2 =>
        rw [if_neg]
        intro hq
        apply hp2
        rw [← hq]
        apply le_antisymm h
        rw [hq]
        exact not_lt.mp hp

@[simp]
theorem nearest_natCast (n : ℕ) : nearest (n : ℚ) = n := by
  unfold nearest
  rw [Nat.floor_natCast, if_pos]
  linarith

def gridExponent (q : ℚ) : ℤ :=
  max (Int.log 2 q - 52) (-1074)

def rounded (q : ℚ) : ℚ :=
  nearest (q / 2 ^ gridExponent q) * 2 ^ gridExponent q

structure OnGrid (m : ℕ) (e : ℤ) : Prop where
  lt : m < 2 ^ 53
  le : -1074 ≤ e
  full : 2 ^ 52 ≤ m ∨ e = -1074

theorem log_mul_zpow {m : ℕ} (hm : 0 < m) (e : ℤ) : Int.log 2 ((m : ℚ) * 2 ^ e) = m.log2 + e := by
  have hpow : (0 : ℚ) < 2 ^ e := by positivity
  have hpos : (0 : ℚ) < m * 2 ^ e := by positivity
  apply le_antisymm
  . apply Int.lt_add_one_iff.mp
    apply (Int.lt_zpow_iff_log_lt (by norm_num) hpos).mp
    have hlog : (m : ℚ) < 2 ^ (m.log2 + 1) := by exact_mod_cast Nat.lt_log2_self
    rw [show (m.log2 : ℤ) + e + 1 = (m.log2 + 1 : ℕ) + e by push_cast; ring]
    rw [Nat.cast_ofNat, zpow_add₀ (by norm_num), zpow_natCast]
    exact mul_lt_mul_of_pos_right hlog hpow
  . apply (Int.zpow_le_iff_le_log (by norm_num) hpos).mp
    have hlog : (2 : ℚ) ^ m.log2 ≤ m := by exact_mod_cast Nat.log2_self_le (by omega)
    rw [Nat.cast_ofNat, zpow_add₀ (by norm_num), zpow_natCast]
    exact mul_le_mul_of_nonneg_right hlog hpow.le

theorem gridExponent_mul_zpow {m : ℕ} (hm : 0 < m) (e : ℤ)
    : gridExponent ((m : ℚ) * 2 ^ e) = Format.binary64.targetExponent (totalExponent m e) := by
  unfold gridExponent Format.targetExponent totalExponent
  rw [log_mul_zpow hm]
  simp only [Format.mantissaBits, Format.minExponent]
  omega

theorem OnGrid.gridExponent_eq {m : ℕ} {e : ℤ} (h : OnGrid m e) (hm : 0 < m)
    : gridExponent ((m : ℚ) * 2 ^ e) = e := by
  unfold gridExponent
  rw [log_mul_zpow hm]
  have hle := h.le
  have hlt : m.log2 < 53 := (Nat.log2_lt (by omega)).mpr h.lt
  cases h.full with
  | inl hfull =>
    have hge : 52 ≤ m.log2 := (Nat.le_log2 (by omega)).mpr hfull
    omega
  | inr hmin => omega

theorem rounded_zero : rounded 0 = 0 := by
  unfold rounded
  rw [zero_div, show (0 : ℚ) = (0 : ℕ) by norm_num, nearest_natCast]
  simp

theorem OnGrid.rounded_eq {m : ℕ} {e : ℤ} (h : OnGrid m e) : rounded (m * 2 ^ e) = m * 2 ^ e := by
  cases Nat.eq_zero_or_pos m with
  | inl hzero =>
    rw [hzero, Nat.cast_zero, zero_mul]
    exact rounded_zero
  | inr hpos =>
    unfold rounded
    rw [h.gridExponent_eq hpos, mul_div_cancel_right₀ _ (by positivity), nearest_natCast]

theorem div_gridExponent_lt (q : ℚ) : q / 2 ^ gridExponent q < 2 ^ 53 := by
  rw [div_lt_iff₀ (by positivity)]
  have hlog : q < 2 ^ (Int.log 2 q + 1) := by
    exact_mod_cast Int.lt_zpow_succ_log_self (b := 2) (by norm_num) q
  apply lt_of_lt_of_le hlog
  rw [← zpow_natCast, ← zpow_add₀ (by norm_num)]
  apply zpow_le_zpow_right₀ (by norm_num)
  unfold gridExponent
  omega

theorem nearest_div_gridExponent_le (q : ℚ) : nearest (q / 2 ^ gridExponent q) ≤ 2 ^ 53 := by
  have h := nearest_mono (div_gridExponent_lt q).le
  rw [show (2 : ℚ) ^ 53 = ((2 ^ 53 : ℕ) : ℚ) by norm_num, nearest_natCast] at h
  exact h

theorem le_nearest_div_gridExponent {q : ℚ} (hq : 0 < q) (h : gridExponent q ≠ -1074)
    : 2 ^ 52 ≤ nearest (q / 2 ^ gridExponent q) := by
  have hexp : gridExponent q = Int.log 2 q - 52 := by
    unfold gridExponent at h ⊢
    omega
  have hlog : (2 : ℚ) ^ Int.log 2 q ≤ q := by
    exact_mod_cast Int.zpow_log_le_self (b := 2) (by norm_num) hq
  have hdiv : (2 : ℚ) ^ 52 ≤ q / 2 ^ gridExponent q := by
    rw [le_div_iff₀ (by positivity), hexp, ← zpow_natCast, ← zpow_add₀ (by norm_num)]
    apply le_trans _ hlog
    apply zpow_le_zpow_right₀ (by norm_num)
    omega
  have hnear := nearest_mono hdiv
  rw [show (2 : ℚ) ^ 52 = ((2 ^ 52 : ℕ) : ℚ) by norm_num, nearest_natCast] at hnear
  exact hnear

theorem rounded_mono {p q : ℚ} (hp : 0 ≤ p) (h : p ≤ q) : rounded p ≤ rounded q := by
  cases eq_or_lt_of_le hp with
  | inl hzero =>
    rw [← hzero, rounded_zero]
    unfold rounded
    positivity
  | inr hpos =>
    have hlog : Int.log 2 p ≤ Int.log 2 q := Int.log_mono_right hpos h
    have hexp : gridExponent p ≤ gridExponent q := by
      unfold gridExponent
      omega
    unfold rounded
    cases eq_or_lt_of_le hexp with
    | inl heq =>
      rw [heq]
      apply mul_le_mul_of_nonneg_right _ (by positivity)
      exact_mod_cast nearest_mono (div_le_div_of_nonneg_right h (by positivity))
    | inr hlt =>
      -- a power of two lies between the two results
      have hlow : (nearest (p / 2 ^ gridExponent p) : ℚ) ≤ 2 ^ 53 := by
        exact_mod_cast nearest_div_gridExponent_le p
      have hhigh : (2 : ℚ) ^ 52 ≤ nearest (q / 2 ^ gridExponent q) := by
        have hne : gridExponent q ≠ -1074 := by
          unfold gridExponent at hlt ⊢
          omega
        exact_mod_cast le_nearest_div_gridExponent (lt_of_lt_of_le hpos h) hne
      calc (nearest (p / 2 ^ gridExponent p) : ℚ) * 2 ^ gridExponent p
        _ ≤ 2 ^ 53 * 2 ^ gridExponent p := mul_le_mul_of_nonneg_right hlow (by positivity)
        _ = 2 ^ 52 * 2 ^ (gridExponent p + 1) := by
            rw [zpow_add₀ (by norm_num)]
            ring
        _ ≤ 2 ^ 52 * 2 ^ gridExponent q := by
            apply mul_le_mul_of_nonneg_left _ (by positivity)
            exact zpow_le_zpow_right₀ (by norm_num) hlt
        _ ≤ nearest (q / 2 ^ gridExponent q) * 2 ^ gridExponent q :=
            mul_le_mul_of_nonneg_right hhigh (by positivity)

end SwitchSearch.Binary64
