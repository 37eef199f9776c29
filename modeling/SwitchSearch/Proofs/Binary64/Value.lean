import Mathlib
import SwitchSearch.Proofs.Binary64.Mantissa

/-!
This module contains the values of floats: rationals together with the two infinities. Floats that
are numbers compare as their values do, so the comparison of floats is a total preorder on them.
-/

namespace SwitchSearch.Binary64

open Float.Model Float.Model.UnpackedFloat

/-- The unpacked floats that have a packed form of their own. -/
def Canonical : UnpackedFloat → Prop
  | .finite _ m e _ => OnGrid m e ∧ e ≤ 971
  | _ => True

theorem toNat_one_append (m : BitVec 52) : (1#1 ++ m).toNat = 2 ^ 52 + m.toNat := by
  rw [BitVec.toNat_append, ← Nat.shiftLeft_add_eq_or_of_lt m.isLt, Nat.shiftLeft_eq]
  rfl

theorem canonical_unpack (x : Float.Model) : Canonical x.unpack := by
  unfold Float.Model.unpack UnpackedFloat.unpack
  have hmantissa : (@unpackMantissa .binary64 x.toBits.toBitVec).toNat < 2 ^ 52 :=
    BitVec.isLt _
  have hexponent : (@unpackExponent .binary64 x.toBits.toBitVec).toNat < 2 ^ 11 :=
    BitVec.isLt _
  have hbias : (Format.binary64.exponentBias : ℤ) = 1023 := rfl
  dsimp only
  split
  . split <;> trivial
  . next hmax =>
    have hne : (@unpackExponent .binary64 x.toBits.toBitVec).toNat ≠ 2 ^ 11 - 1 := by
      intro heq
      apply hmax
      apply BitVec.eq_of_toNat_eq
      rw [heq]
      rfl
    split
    . next hzero =>
      split
      . trivial
      . -- a subnormal number
        refine ⟨⟨?_, ?_, ?_⟩, ?_⟩
        . omega
        all_goals
          rw [hzero, hbias]
          simp
    . next hzero =>
      have hpos : (@unpackExponent .binary64 x.toBits.toBitVec).toNat ≠ 0 := by
        intro heq
        apply hzero
        apply BitVec.eq_of_toNat_eq
        rw [heq]
        rfl
      have happend := toNat_one_append (@unpackMantissa .binary64 x.toBits.toBitVec)
      refine ⟨⟨?_, ?_, ?_⟩, ?_⟩
      . omega
      . omega
      . omega
      . omega

def rational : UnpackedFloat → ℚ
  | .finite s m e _ => s.apply m * 2 ^ e
  | _ => 0

def extended : UnpackedFloat → WithBot (WithTop ℚ)
  | .infinity .negative => ⊥
  | .infinity .positive => ((⊤ : WithTop ℚ) : WithBot (WithTop ℚ))
  | u => ((rational u : WithTop ℚ) : WithBot (WithTop ℚ))

theorem OnGrid.lt_of_exponent_lt {m₁ m₂ : ℕ} {e₁ e₂ : ℤ} (h₁ : OnGrid m₁ e₁) (h₂ : OnGrid m₂ e₂)
    (h : e₁ < e₂)
    : (m₁ : ℚ) * 2 ^ e₁ < m₂ * 2 ^ e₂ := by
  have hlt : (m₁ : ℚ) < 2 ^ 53 := by exact_mod_cast h₁.lt
  have hle : (2 : ℚ) ^ 52 ≤ m₂ := by
    have hmin := h₁.le
    cases h₂.full with
    | inl hfull => exact_mod_cast hfull
    | inr hmin => omega
  calc (m₁ : ℚ) * 2 ^ e₁
    _ < 2 ^ 53 * 2 ^ e₁ := mul_lt_mul_of_pos_right hlt (by positivity)
    _ = 2 ^ 52 * 2 ^ (e₁ + 1) := by
        rw [zpow_add₀ (by norm_num)]
        ring
    _ ≤ 2 ^ 52 * 2 ^ e₂ := by
        apply mul_le_mul_of_nonneg_left _ (by positivity)
        exact zpow_le_zpow_right₀ (by norm_num) h
    _ ≤ m₂ * 2 ^ e₂ := mul_le_mul_of_nonneg_right hle (by positivity)

theorem OnGrid.compare_eq {m₁ m₂ : ℕ} {e₁ e₂ : ℤ} (h₁ : OnGrid m₁ e₁) (h₂ : OnGrid m₂ e₂)
    : (compare e₁ e₂).then (compare m₁ m₂) = cmp ((m₁ : ℚ) * 2 ^ e₁) (m₂ * 2 ^ e₂) := by
  rcases lt_trichotomy e₁ e₂ with hlt | heq | hgt
  . rw [compare_lt_iff_lt.mpr hlt, (cmp_eq_lt_iff _ _).mpr (h₁.lt_of_exponent_lt h₂ hlt)]
    rfl
  . rw [compare_eq_iff_eq.mpr heq, heq, cmp_mul_pos_right (by positivity)]
    rcases lt_trichotomy m₁ m₂ with hlt | heq | hgt
    . rw [compare_lt_iff_lt.mpr hlt, (cmp_eq_lt_iff _ _).mpr (by exact_mod_cast hlt)]
      rfl
    . rw [compare_eq_iff_eq.mpr heq, (cmp_eq_eq_iff _ _).mpr (by exact_mod_cast heq)]
      rfl
    . rw [compare_gt_iff_gt.mpr hgt, (cmp_eq_gt_iff _ _).mpr (by exact_mod_cast hgt)]
      rfl
  . rw [compare_gt_iff_gt.mpr hgt, (cmp_eq_gt_iff _ _).mpr (h₂.lt_of_exponent_lt h₁ hgt)]
    rfl

theorem rational_pos {m : ℕ} (hm : 0 < m) (e : ℤ) : 0 < rational (.finite .positive m e hm) := by
  have hcast : (0 : ℚ) < m := by exact_mod_cast hm
  simp only [rational, Sign.apply, Int.cast_natCast]
  positivity

theorem rational_neg {m : ℕ} (hm : 0 < m) (e : ℤ) : rational (.finite .negative m e hm) < 0 := by
  have hcast : (0 : ℚ) < m * 2 ^ e := rational_pos hm e
  simp only [rational, Sign.apply, Int.cast_neg, Int.cast_natCast]
  linarith

theorem compare_rational {u v : UnpackedFloat} (hu : Canonical u) (hv : Canonical v)
    (hufin : u.isFinite) (hvfin : v.isFinite)
    : u.compare v = some (cmp (rational u) (rational v)) := by
  cases u with
  | notANumber => simp [UnpackedFloat.isFinite] at hufin
  | infinity s => simp [UnpackedFloat.isFinite] at hufin
  | zero s =>
    cases v with
    | notANumber => simp [UnpackedFloat.isFinite] at hvfin
    | infinity t => simp [UnpackedFloat.isFinite] at hvfin
    | zero t => simp [UnpackedFloat.compare, rational]
    | finite t m e hm =>
      change _ = some (cmp 0 _)
      cases t with
      | negative =>
        rw [(cmp_eq_gt_iff _ _).mpr (rational_neg hm e)]
        rfl
      | positive =>
        rw [(cmp_eq_lt_iff _ _).mpr (rational_pos hm e)]
        rfl
  | finite s m₁ e₁ hm₁ =>
    cases v with
    | notANumber => simp [UnpackedFloat.isFinite] at hvfin
    | infinity t => simp [UnpackedFloat.isFinite] at hvfin
    | zero t =>
      change _ = some (cmp _ 0)
      cases s with
      | negative =>
        rw [(cmp_eq_lt_iff _ _).mpr (rational_neg hm₁ e₁)]
        rfl
      | positive =>
        rw [(cmp_eq_gt_iff _ _).mpr (rational_pos hm₁ e₁)]
        rfl
    | finite t m₂ e₂ hm₂ =>
      cases s with
      | negative =>
        cases t with
        | negative =>
          simp only [UnpackedFloat.compare, rational, Sign.apply, Int.cast_neg, Int.cast_natCast,
            neg_mul, hu.left.compare_eq hv.left, cmp_swap]
          rw [← cmp_sub_zero, ← cmp_sub_zero (-_), neg_sub_neg]
        | positive =>
          rw [(cmp_eq_lt_iff _ _).mpr ((rational_neg hm₁ e₁).trans (rational_pos hm₂ e₂))]
          rfl
      | positive =>
        cases t with
        | negative =>
          rw [(cmp_eq_gt_iff _ _).mpr ((rational_neg hm₂ e₂).trans (rational_pos hm₁ e₁))]
          rfl
        | positive =>
          simp only [UnpackedFloat.compare, rational, Sign.apply, Int.cast_natCast,
            hu.left.compare_eq hv.left]

theorem extended_of_isFinite {u : UnpackedFloat} (h : u.isFinite)
    : extended u = ((rational u : WithTop ℚ) : WithBot (WithTop ℚ)) := by
  cases u with
  | notANumber => simp [UnpackedFloat.isFinite] at h
  | infinity s => simp [UnpackedFloat.isFinite] at h
  | zero s => rfl
  | finite s m e hm => rfl

theorem eq_infinity {u : UnpackedFloat} (hun : u.isNaN = false) (hufin : u.isFinite = false)
    : ∃ s, u = .infinity s := by
  cases u with
  | notANumber => simp [UnpackedFloat.isNaN] at hun
  | infinity s => exact ⟨s, rfl⟩
  | zero s => simp [UnpackedFloat.isFinite] at hufin
  | finite s m e hm => simp [UnpackedFloat.isFinite] at hufin

theorem compare_infinity_right {u : UnpackedFloat} (hufin : u.isFinite) (s : Sign)
    : u.compare (.infinity s) = some (cmp (extended u) (extended (.infinity s))) := by
  rw [extended_of_isFinite hufin]
  cases s with
  | negative =>
    rw [extended, (cmp_eq_gt_iff _ _).mpr (WithBot.bot_lt_coe _)]
    cases u <;> first | rfl | simp [UnpackedFloat.isFinite] at hufin
  | positive =>
    rw [extended, (cmp_eq_lt_iff _ _).mpr (WithBot.coe_lt_coe.mpr (WithTop.coe_lt_top _))]
    cases u <;> first | rfl | simp [UnpackedFloat.isFinite] at hufin

theorem compare_infinity_left {v : UnpackedFloat} (hvfin : v.isFinite) (s : Sign)
    : (UnpackedFloat.infinity s).compare v = some (cmp (extended (.infinity s)) (extended v)) := by
  rw [extended_of_isFinite hvfin]
  cases s with
  | negative =>
    rw [extended, (cmp_eq_lt_iff _ _).mpr (WithBot.bot_lt_coe _)]
    cases v <;> first | rfl | simp [UnpackedFloat.isFinite] at hvfin
  | positive =>
    rw [extended, (cmp_eq_gt_iff _ _).mpr (WithBot.coe_lt_coe.mpr (WithTop.coe_lt_top _))]
    cases v <;> first | rfl | simp [UnpackedFloat.isFinite] at hvfin

theorem compare_extended {u v : UnpackedFloat} (hu : Canonical u) (hv : Canonical v)
    (hun : u.isNaN = false) (hvn : v.isNaN = false)
    : u.compare v = some (cmp (extended u) (extended v)) := by
  cases hufin : u.isFinite with
  | true =>
    cases hvfin : v.isFinite with
    | true =>
      have hmono : StrictMono fun q : ℚ => ((q : WithTop ℚ) : WithBot (WithTop ℚ)) :=
        WithBot.coe_strictMono.comp WithTop.coe_strictMono
      rw [compare_rational hu hv hufin hvfin, extended_of_isFinite hufin, extended_of_isFinite hvfin]
      rw [← hmono.cmp_map_eq]
    | false =>
      rcases eq_infinity hvn hvfin with ⟨t, ht⟩
      rw [ht]
      exact compare_infinity_right hufin t
  | false =>
    rcases eq_infinity hun hufin with ⟨s, hs⟩
    rw [hs]
    cases hvfin : v.isFinite with
    | true => exact compare_infinity_left hvfin s
    | false =>
      rcases eq_infinity hvn hvfin with ⟨t, ht⟩
      rw [ht]
      cases s <;> cases t <;> rfl

def value (x : Float) : WithBot (WithTop ℚ) :=
  extended x.toModel.unpack

theorem compare_of_isNaN {u v : UnpackedFloat} (h : u.isNaN = true ∨ v.isNaN = true)
    : u.compare v = none := by
  cases h with
  | inl hu =>
    cases u <;> first | rfl | simp [UnpackedFloat.isNaN] at hu
  | inr hv =>
    cases v <;> first | (cases u <;> rfl) | simp [UnpackedFloat.isNaN] at hv

theorem compare_toModel (x y : Float)
    : x.toModel.unpack.compare y.toModel.unpack =
      if x.isNaN = false ∧ y.isNaN = false then some (cmp (value x) (value y)) else none := by
  split
  . next h => exact compare_extended (canonical_unpack _) (canonical_unpack _) h.left h.right
  . next h =>
    apply compare_of_isNaN
    change x.isNaN = true ∨ y.isNaN = true
    cases hx : x.isNaN <;> cases hy : y.isNaN <;> simp_all

theorem lt_iff {x y : Float} : x < y ↔ (x.isNaN = false ∧ y.isNaN = false) ∧ value x < value y := by
  change decide ((x.toModel.unpack.compare y.toModel.unpack == some .lt) = true) = true ↔ _
  rw [compare_toModel, decide_eq_true_eq, beq_iff_eq]
  split
  . next h => rw [and_iff_right h, Option.some.injEq, cmp_eq_lt_iff]
  . next h => exact iff_of_false nofun (fun hlt => h hlt.left)

theorem le_iff {x y : Float} : x ≤ y ↔ (x.isNaN = false ∧ y.isNaN = false) ∧ value x ≤ value y := by
  change decide ((x.toModel.unpack.compare y.toModel.unpack).any (·.isLE) = true) = true ↔ _
  rw [compare_toModel, decide_eq_true_eq]
  split
  . next h =>
    rw [and_iff_right h, Option.any_some, Ordering.isLE_iff_ne_gt, cmp_eq_gt_iff, not_lt]
  . next h => exact iff_of_false nofun (fun hle => h hle.left)

theorem beq_iff {x y : Float}
    : (x == y) = true ↔ (x.isNaN = false ∧ y.isNaN = false) ∧ value x = value y := by
  change (x.toModel.unpack.compare y.toModel.unpack == some .eq) = true ↔ _
  rw [compare_toModel, beq_iff_eq]
  split
  . next h => rw [and_iff_right h, Option.some.injEq, cmp_eq_eq_iff]
  . next h => exact iff_of_false nofun (fun heq => h heq.left)

variable {x y z : Float}

theorem isNaN_of_isFinite (hx : x.isFinite = true) : x.isNaN = false := by
  change x.toModel.unpack.isFinite = true at hx
  change x.toModel.unpack.isNaN = false
  cases h : x.toModel.unpack <;> simp_all [UnpackedFloat.isFinite, UnpackedFloat.isNaN]

theorem isFinite_eq_false_iff : x.isFinite = false ↔ x.isInf = true ∨ x.isNaN = true := by
  change x.toModel.unpack.isFinite = false ↔
    x.toModel.unpack.isInf = true ∨ x.toModel.unpack.isNaN = true
  cases x.toModel.unpack <;> simp [UnpackedFloat.isFinite, UnpackedFloat.isInf, UnpackedFloat.isNaN]

protected theorem le_refl (hx : x.isNaN = false) : x ≤ x :=
  le_iff.mpr ⟨⟨hx, hx⟩, le_rfl⟩

protected theorem beq_refl (hx : x.isNaN = false) : (x == x) = true :=
  beq_iff.mpr ⟨⟨hx, hx⟩, rfl⟩

protected theorem lt_irrefl (x : Float) : ¬(x < x) := by
  simp [lt_iff]

protected theorem le_trans (hxy : x ≤ y) (hyz : y ≤ z) : x ≤ z := by
  rw [le_iff] at hxy hyz ⊢
  exact ⟨⟨hxy.left.left, hyz.left.right⟩, hxy.right.trans hyz.right⟩

protected theorem lt_of_lt_of_le (hxy : x < y) (hyz : y ≤ z) : x < z := by
  rw [lt_iff] at hxy ⊢
  rw [le_iff] at hyz
  exact ⟨⟨hxy.left.left, hyz.left.right⟩, hxy.right.trans_le hyz.right⟩

protected theorem le_of_lt (h : x < y) : x ≤ y := by
  rw [lt_iff] at h
  rw [le_iff]
  exact ⟨h.left, h.right.le⟩

protected theorem not_le (hx : x.isNaN = false) (hy : y.isNaN = false) : ¬(x ≤ y) ↔ y < x := by
  rw [le_iff, lt_iff, and_iff_right ⟨hx, hy⟩, and_iff_right ⟨hy, hx⟩, not_le]

protected theorem not_lt (hx : x.isNaN = false) (hy : y.isNaN = false) : ¬(x < y) ↔ y ≤ x := by
  rw [le_iff, lt_iff, and_iff_right ⟨hx, hy⟩, and_iff_right ⟨hy, hx⟩, not_lt]

end SwitchSearch.Binary64
