import SwitchSearch.Proofs.Binary64.Sum

/-!
This module contains the products and quotients of floats: the rational product or quotient, rounded,
and infinite where it leaves the range of floats.
-/

namespace SwitchSearch.Binary64

open Float.Model Float.Model.UnpackedFloat

theorem rational_eq_signed (s : Sign) {m : ℕ} (e : ℤ) (hm : 0 < m)
    : rational (.finite s m e hm) = signed s (m * 2 ^ e) := by
  cases s <;> simp [rational, signed, Sign.apply]

theorem signed_mul (s t : Sign) (p q : ℚ) : signed s p * signed t q = signed (s * t) (p * q) := by
  cases s with
  | negative =>
    cases t with
    | negative => exact neg_mul_neg p q
    | positive => exact neg_mul p q
  | positive =>
    cases t with
    | negative => exact mul_neg p q
    | positive => rfl

theorem signed_div (s t : Sign) (p q : ℚ) : signed s p / signed t q = signed (s / t) (p / q) := by
  cases s with
  | negative =>
    cases t with
    | negative => exact neg_div_neg_eq p q
    | positive => exact neg_div q p
  | positive =>
    cases t with
    | negative => exact div_neg p
    | positive => rfl

theorem yieldsRounded_zero (s : Sign) : YieldsRounded (.zero s) 0 :=
  yieldsRounded_rational (u := .zero s) trivial rfl

theorem OnGrid.add_le_gridExponent {m₁ m₂ : ℕ} {e₁ e₂ : ℤ} (h₁ : OnGrid m₁ e₁) (h₂ : OnGrid m₂ e₂)
    (hm₁ : 0 < m₁) (hm₂ : 0 < m₂)
    : e₁ + e₂ ≤ gridExponent ((m₁ * m₂ : ℕ) * 2 ^ (e₁ + e₂)) := by
  have hpos : 0 < m₁ * m₂ := Nat.mul_pos hm₁ hm₂
  have hlog : 2 ^ 52 ≤ m₁ * m₂ → 52 ≤ (m₁ * m₂).log2 := (Nat.le_log2 (by omega)).mpr
  unfold gridExponent
  rw [log_mul_zpow hpos]
  rcases h₁.full with hfull | hmin
  . have := hlog (hfull.trans (Nat.le_mul_of_pos_right m₁ hm₂))
    omega
  . rcases h₂.full with hfull | hmin₂
    . have := hlog (hfull.trans (Nat.le_mul_of_pos_left m₂ hm₁))
      omega
    . omega

theorem yieldsRounded_mul {u v : UnpackedFloat} (hu : Canonical u) (hv : Canonical v)
    (hufin : u.isFinite) (hvfin : v.isFinite)
    : YieldsRounded (UnpackedFloat.mul .binary64 u v) (rational u * rational v) := by
  cases u with
  | notANumber => simp [UnpackedFloat.isFinite] at hufin
  | infinity s => simp [UnpackedFloat.isFinite] at hufin
  | zero s =>
    rw [show rational (.zero s) = 0 from rfl, zero_mul]
    cases v with
    | notANumber => simp [UnpackedFloat.isFinite] at hvfin
    | infinity t => simp [UnpackedFloat.isFinite] at hvfin
    | zero t => exact yieldsRounded_zero _
    | finite t m e hm => exact yieldsRounded_zero _
  | finite s m₁ e₁ hm₁ =>
    cases v with
    | notANumber => simp [UnpackedFloat.isFinite] at hvfin
    | infinity t => simp [UnpackedFloat.isFinite] at hvfin
    | zero t =>
      rw [show rational (.zero t) = 0 from rfl, mul_zero]
      exact yieldsRounded_zero _
    | finite t m₂ e₂ hm₂ =>
      have hpos : (0 : ℚ) < (m₁ * m₂ : ℕ) := by exact_mod_cast Nat.mul_pos hm₁ hm₂
      have hgrid := hu.left.add_le_gridExponent hv.left hm₁ hm₂
      have hvalue : (m₁ : ℚ) * 2 ^ e₁ * (m₂ * 2 ^ e₂) = (m₁ * m₂ : ℕ) * 2 ^ (e₁ + e₂) := by
        rw [zpow_add₀ (by norm_num)]
        push_cast
        ring
      rw [rational_eq_signed, rational_eq_signed, signed_mul, hvalue]
      exact (isPoint_roundWithAccuracy (s * t) hpos (.ofMantissa _) hgrid).yieldsRounded (by positivity)

theorem represents_div (n : ℕ) {d : ℕ} (hd : 0 < d)
    : Represents (ExtendedMantissa.ofMantissaAndAccuracy (n / d) (accuracyOfFraction (n % d) d))
        ((n : ℚ) / d) := by
  have hpos : (0 : ℚ) < d := by exact_mod_cast hd
  have hsplit : (n : ℚ) / d = (n / d : ℕ) + (n % d : ℕ) / d := by
    have hdiv : (n : ℚ) = d * (n / d : ℕ) + (n % d : ℕ) := by exact_mod_cast (Nat.div_add_mod n d).symm
    rw [eq_comm, ← sub_eq_zero]
    field_simp
    linarith
  have hlt : ((n % d : ℕ) : ℚ) / d < 1 := by
    rw [div_lt_one hpos]
    exact_mod_cast Nat.mod_lt n hd
  have hhalf : ((n % d : ℕ) : ℚ) / d - 1 / 2 = ((2 * (n % d) : ℕ) - d : ℚ) / (2 * d) := by
    push_cast
    field_simp
  rw [hsplit]
  unfold accuracyOfFraction
  split
  . next hzero =>
    rw [hzero, Nat.cast_zero, zero_div, add_zero]
    exact .ofMantissa _
  . next hrest =>
    have hrest : (0 : ℚ) < (n % d : ℕ) / d := div_pos (by exact_mod_cast Nat.pos_of_ne_zero hrest) hpos
    rcases lt_trichotomy (2 * (n % d)) d with hless | heq | hmore
    . rw [compare_lt_iff_lt.mpr hless]
      have hless : ((2 * (n % d) : ℕ) - d : ℚ) < 0 := sub_neg.mpr (by exact_mod_cast hless)
      have := hhalf.trans_lt (div_neg_of_neg_of_pos hless (by positivity))
      constructor <;> linarith
    . rw [compare_eq_iff_eq.mpr heq]
      rw [heq, sub_self, zero_div] at hhalf
      simp only [ExtendedMantissa.ofMantissaAndAccuracy, Represents]
      linarith
    . rw [compare_gt_iff_gt.mpr hmore]
      have hmore : (0 : ℚ) < (2 * (n % d) : ℕ) - d := sub_pos.mpr (by exact_mod_cast hmore)
      have := (div_pos hmore (by positivity : (0 : ℚ) < 2 * d)).trans_eq hhalf.symm
      constructor <;> linarith

theorem divCore_exponent_le {m₁ m₂ : ℕ} (e₁ e₂ : ℤ) (hm₁ : 0 < m₁) (hm₂ : 0 < m₂)
    : (divCore .binary64 m₁ e₁ m₂ e₂).2.1 ≤
      gridExponent ((m₁ : ℚ) * 2 ^ e₁ / (m₂ * 2 ^ e₂)) := by
  have hlow : (2 : ℚ) ^ ((m₁.log2 : ℤ) + e₁) ≤ m₁ * 2 ^ e₁ := by
    have hlog : (2 : ℚ) ^ m₁.log2 ≤ m₁ := by exact_mod_cast Nat.log2_self_le (by omega)
    rw [zpow_add₀ (by norm_num), zpow_natCast]
    exact mul_le_mul_of_nonneg_right hlog (by positivity)
  have hhigh : (m₂ : ℚ) * 2 ^ e₂ ≤ 2 ^ ((m₂.log2 : ℤ) + 1 + e₂) := by
    have hlog : (m₂ : ℚ) ≤ 2 ^ (m₂.log2 + 1) := by exact_mod_cast Nat.lt_log2_self.le
    rw [zpow_add₀ (by norm_num), show (m₂.log2 : ℤ) + 1 = (m₂.log2 + 1 : ℕ) by push_cast; rfl]
    rw [zpow_natCast]
    exact mul_le_mul_of_nonneg_right hlog (by positivity)
  have hlog : (m₁.log2 : ℤ) + e₁ - (m₂.log2 + 1 + e₂) ≤
      Int.log 2 ((m₁ : ℚ) * 2 ^ e₁ / (m₂ * 2 ^ e₂)) := by
    apply (Int.zpow_le_iff_le_log (by norm_num) (by positivity)).mp
    rw [Nat.cast_ofNat, zpow_sub₀ (by norm_num)]
    exact div_le_div₀ (by positivity) hlow (by positivity) hhigh
  unfold gridExponent divCore
  simp only [Format.targetExponent, totalExponent, Format.mantissaBits, Format.minExponent]
  omega

theorem divCore_eq (m₁ m₂ : ℕ) (e₁ e₂ : ℤ)
    : ∃ n e, divCore .binary64 m₁ e₁ m₂ e₂ = (n / m₂, e, accuracyOfFraction (n % m₂) m₂) ∧
        (n : ℚ) / m₂ * 2 ^ e = m₁ * 2 ^ e₁ / (m₂ * 2 ^ e₂) := by
  refine ⟨_, _, rfl, ?_⟩
  generalize Format.binary64.targetExponent _ = t
  have hshift : (((e₁ - e₂ - min (e₁ - e₂) t).toNat : ℕ) : ℤ) = e₁ - e₂ - min (e₁ - e₂) t := by omega
  rw [Nat.shiftLeft_eq, Nat.cast_mul, Nat.cast_pow, Nat.cast_ofNat, ← zpow_natCast, hshift]
  rw [zpow_sub₀ (by norm_num), zpow_sub₀ (by norm_num)]
  field_simp

theorem yieldsRounded_div {u v : UnpackedFloat} (hu : Canonical u) (hv : Canonical v)
    (hufin : u.isFinite) (hvfin : v.isFinite) (hne : rational v ≠ 0)
    : YieldsRounded (UnpackedFloat.div .binary64 u v) (rational u / rational v) := by
  cases v with
  | notANumber => simp [UnpackedFloat.isFinite] at hvfin
  | infinity t => simp [UnpackedFloat.isFinite] at hvfin
  | zero t => exact absurd rfl hne
  | finite t m₂ e₂ hm₂ =>
    cases u with
    | notANumber => simp [UnpackedFloat.isFinite] at hufin
    | infinity s => simp [UnpackedFloat.isFinite] at hufin
    | zero s =>
      rw [show rational (.zero s) = 0 from rfl, zero_div]
      exact yieldsRounded_zero _
    | finite s m₁ e₁ hm₁ =>
      have hgrid := divCore_exponent_le e₁ e₂ hm₁ hm₂
      rcases divCore_eq m₁ m₂ e₁ e₂ with ⟨n, e, hcore, hvalue⟩
      have hquotient : (0 : ℚ) < n / m₂ := by
        have hpos : (0 : ℚ) < n / m₂ * 2 ^ e := by
          rw [hvalue]
          positivity
        exact pos_of_mul_pos_left hpos (by positivity)
      rw [hcore, ← hvalue] at hgrid
      rw [rational_eq_signed, rational_eq_signed, signed_div, ← hvalue]
      unfold UnpackedFloat.div
      dsimp only
      rw [hcore]
      have hpoint := isPoint_roundWithAccuracy (s / t) hquotient (represents_div n hm₂) hgrid
      exact hpoint.yieldsRounded (by positivity)

theorem value_mul {x y : Float} (hx : x.isFinite) (hy : y.isFinite)
    : (x * y).isNaN = false ∧
      value (x * y) =
        clamped (signedRounded (rational x.toModel.unpack * rational y.toModel.unpack)) :=
  yieldsRounded_mul (canonical_unpack _) (canonical_unpack _) hx hy

theorem value_div {x y : Float} (hx : x.isFinite) (hy : y.isFinite)
    (hne : rational y.toModel.unpack ≠ 0)
    : (x / y).isNaN = false ∧
      value (x / y) =
        clamped (signedRounded (rational x.toModel.unpack / rational y.toModel.unpack)) :=
  yieldsRounded_div (canonical_unpack _) (canonical_unpack _) hx hy hne

theorem clamped_zero : clamped (signedRounded 0) = ((0 : ℚ) : WithTop ℚ) := by
  have hlimit := limit_pos
  unfold signedRounded clamped
  rw [if_neg (lt_irrefl 0), rounded_zero, if_neg (by linarith), if_neg (by linarith)]

theorem nonneg_of_value {x : Float} {q : ℚ} (hq : 0 ≤ q) (hx : x.isNaN = false)
    (hvalue : value x = clamped (signedRounded q))
    : 0.0 ≤ x :=
  le_of_rounded ⟨rfl, clamped_zero.symm⟩ ⟨hx, hvalue⟩ hq

theorem mul_nonneg_of_finite {x y : Float} (hx : 0.0 ≤ x) (hxfin : x.isFinite) (hy : 0.0 ≤ y)
    (hyfin : y.isFinite)
    : 0.0 ≤ x * y := by
  have hmul := value_mul hxfin hyfin
  exact nonneg_of_value (mul_nonneg (rational_nonneg hx hxfin) (rational_nonneg hy hyfin))
    hmul.left hmul.right

protected theorem mul_le_mul_left {c x y : Float} (hc : 0.0 ≤ c) (hcfin : c.isFinite) (hx : x.isFinite)
    (hy : y.isFinite) (h : x ≤ y)
    : c * x ≤ c * y := by
  apply le_of_rounded (value_mul hcfin hx) (value_mul hcfin hy)
  exact mul_le_mul_of_nonneg_left (rational_mono hx hy h) (rational_nonneg hc hcfin)

theorem rational_pos_of_pos {y : Float} (hy : 0.0 < y) (hfin : y.isFinite)
    : 0 < rational y.toModel.unpack := by
  have hlt := (lt_iff.mp hy).right
  rw [show value 0.0 = ((0 : ℚ) : WithTop ℚ) from rfl, value_eq_coe hfin] at hlt
  exact WithTop.coe_lt_coe.mp (WithBot.coe_lt_coe.mp hlt)

theorem unpack_div (x y : Float)
    : (x / y).toModel.unpack =
      (Float.Model.pack (x.toModel.unpack.div .binary64 y.toModel.unpack)).unpack :=
  rfl

theorem isNaN_infinite_div {x y : Float} (hx : 0.0 ≤ x) (hxfin : x.isFinite = false) (hy : 0.0 ≤ y)
    (hyfin : y.isFinite = false)
    : (x / y).isNaN = true := by
  change (x / y).toModel.unpack.isNaN = true
  rw [unpack_div, unpack_of_infinite hx hxfin, unpack_of_infinite hy hyfin]
  rfl

theorem value_div_infinite {x y : Float} (hxfin : x.isFinite) (hy : 0.0 ≤ y)
    (hyfin : y.isFinite = false)
    : (x / y).isNaN = false ∧ value (x / y) = ((0 : ℚ) : WithTop ℚ) := by
  have hzero : ∃ s, (x / y).toModel.unpack = .zero s := by
    have hfin : x.toModel.unpack.isFinite = true := hxfin
    rw [unpack_div, unpack_of_infinite hy hyfin]
    cases hx : x.toModel.unpack with
    | notANumber => simp [hx, UnpackedFloat.isFinite] at hfin
    | infinity s => simp [hx, UnpackedFloat.isFinite] at hfin
    | zero s => exact ⟨_, unpack_pack_zero _⟩
    | finite s m e hm => exact ⟨_, unpack_pack_zero _⟩
  rcases hzero with ⟨s, hs⟩
  change (x / y).toModel.unpack.isNaN = false ∧ extended (x / y).toModel.unpack = _
  rw [hs]
  exact ⟨rfl, rfl⟩

theorem value_infinite_div {x y : Float} (hx : 0.0 ≤ x) (hxfin : x.isFinite = false) (hy : 0.0 < y)
    (hyfin : y.isFinite)
    : (x / y).isNaN = false ∧ value (x / y) = (⊤ : WithTop ℚ) := by
  have hsum : (x / y).toModel.unpack = .infinity .positive := by
    have hpos := rational_pos_of_pos hy hyfin
    have hfin : y.toModel.unpack.isFinite = true := hyfin
    rw [unpack_div, unpack_of_infinite hx hxfin]
    cases hv : y.toModel.unpack with
    | notANumber => simp [hv, UnpackedFloat.isFinite] at hfin
    | infinity s => simp [hv, UnpackedFloat.isFinite] at hfin
    | zero s =>
      rw [hv] at hpos
      exact absurd hpos (lt_irrefl 0)
    | finite s m e hm =>
      rw [hv] at hpos
      cases s with
      | positive => exact unpack_pack_infinity _
      | negative => exact absurd hpos (rational_neg hm e).not_gt
  change (x / y).toModel.unpack.isNaN = false ∧ extended (x / y).toModel.unpack = _
  rw [hsum]
  exact ⟨rfl, rfl⟩

theorem value_toFloat (n : UInt32)
    : n.toFloat.isNaN = false ∧ value n.toFloat = clamped (signedRounded n.toNat) := by
  have h := yieldsRounded_normalize n.toNat 0
  rw [zpow_zero, mul_one, Int.cast_natCast] at h
  exact h

theorem toFloat_nonneg (n : UInt32) : 0.0 ≤ n.toFloat :=
  nonneg_of_value (Nat.cast_nonneg n.toNat) (value_toFloat n).left (value_toFloat n).right

theorem toFloat_mono {m n : UInt32} (h : m ≤ n) : m.toFloat ≤ n.toFloat := by
  apply le_of_rounded (value_toFloat m) (value_toFloat n)
  exact_mod_cast UInt32.le_iff_toNat_le.mp h

theorem isFinite_toFloat (n : UInt32) : n.toFloat.isFinite := by
  have hmax : n ≤ 4294967295 := UInt32.le_iff_toNat_le.mpr (Nat.le_of_lt_succ n.toNat_lt)
  exact isFinite_of_le (toFloat_nonneg n) (toFloat_mono hmax) (by decide)

protected theorem div_le_div {x x' y y' : Float} (hx : 0.0 ≤ x) (hxx : x ≤ x') (hxfin : x'.isFinite)
    (hy : 0.0 < y) (hyy : y ≤ y') (hyfin : y.isFinite)
    : 0.0 ≤ x / y' ∧ x / y' ≤ x' / y := by
  have hxfin' := isFinite_of_le hx hxx hxfin
  have hypos := rational_pos_of_pos hy hyfin
  have hx' : 0.0 ≤ x' := Binary64.le_trans hx hxx
  have hquotient := value_div hxfin hyfin hypos.ne'
  have hnonneg := rational_nonneg hx hxfin'
  have hnonneg' := rational_nonneg hx' hxfin
  have hpos : 0.0 < y' := Binary64.lt_of_lt_of_le hy hyy
  cases hyfin' : y'.isFinite with
  | true =>
    have hypos' := rational_pos_of_pos hpos hyfin'
    have hless := value_div hxfin' hyfin' hypos'.ne'
    refine ⟨nonneg_of_value (div_nonneg hnonneg hypos'.le) hless.left hless.right, ?_⟩
    apply le_of_rounded hless hquotient
    exact div_le_div₀ hnonneg' (rational_mono hxfin' hxfin hxx) hypos (rational_mono hyfin hyfin' hyy)
  | false =>
    have hzero := value_div_infinite hxfin' (Binary64.le_of_lt hpos) hyfin'
    have hle := nonneg_of_value (div_nonneg hnonneg' hypos.le) hquotient.left hquotient.right
    constructor
    . refine le_iff.mpr ⟨⟨rfl, hzero.left⟩, ?_⟩
      rw [hzero.right]
      exact le_rfl
    . refine le_iff.mpr ⟨⟨hzero.left, hquotient.left⟩, ?_⟩
      rw [hzero.right]
      exact (le_iff.mp hle).right

theorem div_le_div_of_numeric {x x' y y' : Float} (hx : 0.0 ≤ x) (hxx : x ≤ x') (hy : 0.0 < y)
    (hyy : y ≤ y') (hless : (x / y').isNaN = false) (hmore : (x' / y).isNaN = false)
    : x / y' ≤ x' / y := by
  have hx' : 0.0 ≤ x' := Binary64.le_trans hx hxx
  cases hxfin : x'.isFinite with
  | true =>
    cases hyfin : y.isFinite with
    | true => exact (Binary64.div_le_div hx hxx hxfin hy hyy hyfin).right
    | false =>
      -- the larger divisor is infinite as well, so both quotients are zero
      have hpos : 0.0 < y' := Binary64.lt_of_lt_of_le hy hyy
      have hyfin' : y'.isFinite = false := by
        apply eq_false_of_ne_true
        intro hfinite
        rw [isFinite_of_le (Binary64.le_of_lt hy) hyy hfinite] at hyfin
        contradiction
      have hzero := value_div_infinite (isFinite_of_le hx hxx hxfin) (Binary64.le_of_lt hpos) hyfin'
      have hzero' := value_div_infinite hxfin (Binary64.le_of_lt hy) hyfin
      refine le_iff.mpr ⟨⟨hless, hmore⟩, ?_⟩
      rw [hzero.right, hzero'.right]
  | false =>
    cases hyfin : y.isFinite with
    | true => exact le_of_value_eq_top hless hmore (value_infinite_div hx' hxfin hy hyfin).right
    | false =>
      rw [isNaN_infinite_div hx' hxfin (Binary64.le_of_lt hy) hyfin] at hmore
      contradiction

end SwitchSearch.Binary64
