import SwitchSearch.Proofs.Binary64.Value

/-!
This module contains the sum of floats: the rational sum, rounded, and infinite where it leaves the
range of floats. Adding a cost that is not negative therefore never makes a sum smaller.
-/

namespace SwitchSearch.Binary64

open Float.Model Float.Model.UnpackedFloat

def signedRounded (q : ℚ) : ℚ :=
  if q < 0 then -rounded (-q) else rounded q

def limit : ℚ :=
  2 ^ (1024 : ℤ)

def clamped (q : ℚ) : WithBot (WithTop ℚ) :=
  if limit ≤ q then
    ((⊤ : WithTop ℚ) : WithBot (WithTop ℚ))
  else if q ≤ -limit then
    ⊥
  else
    ((q : WithTop ℚ) : WithBot (WithTop ℚ))

theorem signedRounded_mono {p q : ℚ} (h : p ≤ q) : signedRounded p ≤ signedRounded q := by
  have hnonneg : ∀ r : ℚ, 0 ≤ rounded r := by
    intro r
    unfold rounded
    positivity
  unfold signedRounded
  split
  . next hp =>
    split
    . next hq =>
      apply neg_le_neg
      exact rounded_mono (by linarith) (by linarith)
    . have hpos := hnonneg (-p)
      have hqos := hnonneg q
      linarith
  . next hp =>
    rw [if_neg (by linarith)]
    exact rounded_mono (by linarith) h

theorem clamped_mono {p q : ℚ} (h : p ≤ q) : clamped p ≤ clamped q := by
  unfold clamped
  split
  . rw [if_pos (by linarith)]
  . split
    . exact bot_le
    . split
      . exact WithBot.coe_le_coe.mpr le_top
      . rw [if_neg (by linarith)]
        exact WithBot.coe_le_coe.mpr (WithTop.coe_le_coe.mpr h)

theorem le_of_rounded {x y : Float} {p q : ℚ}
    (hx : x.isNaN = false ∧ value x = clamped (signedRounded p))
    (hy : y.isNaN = false ∧ value y = clamped (signedRounded q)) (h : p ≤ q)
    : x ≤ y := by
  refine le_iff.mpr ⟨⟨hx.left, hy.left⟩, ?_⟩
  rw [hx.right, hy.right]
  exact clamped_mono (signedRounded_mono h)

theorem le_of_value_eq_top {x y : Float} (hx : x.isNaN = false) (hy : y.isNaN = false)
    (htop : value y = (⊤ : WithTop ℚ))
    : x ≤ y := by
  refine le_iff.mpr ⟨⟨hx, hy⟩, ?_⟩
  rw [htop]
  exact le_top

theorem OnGrid.exponent_le_iff {m : ℕ} {e : ℤ} (h : OnGrid m e)
    : e ≤ 971 ↔ (m : ℚ) * 2 ^ e < limit := by
  have hlimit : ∀ a b : ℤ, a + b = 1024 → (2 : ℚ) ^ a * 2 ^ b = limit := by
    intro a b hab
    rw [← zpow_add₀ (by norm_num), hab]
    rfl
  constructor
  . intro he
    have hlt : (m : ℚ) < 2 ^ (53 : ℤ) := by exact_mod_cast h.lt
    calc (m : ℚ) * 2 ^ e
      _ < 2 ^ (53 : ℤ) * 2 ^ e := mul_lt_mul_of_pos_right hlt (by positivity)
      _ ≤ 2 ^ (53 : ℤ) * 2 ^ (971 : ℤ) := by
          apply mul_le_mul_of_nonneg_left _ (by positivity)
          exact zpow_le_zpow_right₀ (by norm_num) he
      _ = limit := hlimit 53 971 (by norm_num)
  . intro hvalue
    apply Int.not_lt.mp
    intro hgt
    have hle : (2 : ℚ) ^ (52 : ℤ) ≤ m := by
      cases h.full with
      | inl hfull => exact_mod_cast hfull
      | inr hmin => omega
    apply hvalue.not_ge
    calc limit
      _ = 2 ^ (52 : ℤ) * 2 ^ (972 : ℤ) := (hlimit 52 972 (by norm_num)).symm
      _ ≤ 2 ^ (52 : ℤ) * 2 ^ e := by
          apply mul_le_mul_of_nonneg_left _ (by positivity)
          exact zpow_le_zpow_right₀ (by norm_num) hgt
      _ ≤ m * 2 ^ e := mul_le_mul_of_nonneg_right hle (by positivity)

theorem ofBitVec_unpackSign {spec : Format} (s : Sign) (e : BitVec spec.exponentBits)
    (m : BitVec spec.mantissaBitsWithoutImplicit)
    : Sign.ofBitVec (unpackSign (packComponents spec s e m)) = s := by
  have h : unpackSign (packComponents spec s e m) = s.toBitVec := by
    ext i hi
    have hzero : i = 0 := by omega
    simp [unpackSign, packComponents, BitVec.getLsbD_append, BitVec.getElem_append, hzero]
  rw [h]
  cases s <;> rfl

theorem unpack_pack_infinity (s : Sign)
    : (Float.Model.pack (.infinity s)).unpack = .infinity s := by
  cases s <;> rfl

theorem unpack_pack_zero (s : Sign) : (Float.Model.pack (.zero s)).unpack = .zero s := by
  cases s <;> rfl

theorem unpack_pack_overflow (s : Sign) {m : ℕ} {e : ℤ} (hm : 0 < m) (he : 971 < e)
    : (Float.Model.pack (.finite s m e hm)).unpack = .infinity s := by
  have hpack : UnpackedFloat.pack .binary64 (.finite s m e hm) = packedInfinity .binary64 s := by
    unfold UnpackedFloat.pack
    dsimp only
    rw [if_pos]
    change 2 ^ 11 ≤ (e + (1023 : ℕ) + (52 : ℕ)).toNat + 1
    omega
  rw [← unpack_pack_infinity s]
  unfold Float.Model.pack
  simp only [hpack]
  rfl

theorem unpack_normal (s : Sign) {e : BitVec 11} (m : BitVec 52) (hzero : e.toNat ≠ 0)
    (hmax : e.toNat ≠ 2 ^ 11 - 1)
    : UnpackedFloat.unpack .binary64 (packComponents .binary64 s e m) =
      .finite s (2 ^ 52 + m.toNat) (e.toNat - 1075) (by omega) := by
  unfold UnpackedFloat.unpack
  simp only [unpackMantissa_packComponents, unpackExponent_packComponents, ofBitVec_unpackSign]
  rw [if_neg, if_neg]
  . simp only [toNat_one_append]
    rfl
  . intro heq
    apply hzero
    rw [heq]
    rfl
  . intro heq
    apply hmax
    rw [heq]
    rfl

theorem unpack_subnormal (s : Sign) {m : BitVec 52} (hm : 0 < m.toNat)
    : UnpackedFloat.unpack .binary64 (packComponents .binary64 s 0#11 m) =
      .finite s m.toNat (-1074) hm := by
  unfold UnpackedFloat.unpack
  simp only [unpackMantissa_packComponents, unpackExponent_packComponents, ofBitVec_unpackSign]
  rw [if_neg (by decide), if_pos trivial, dif_neg]
  . rfl
  . intro heq
    rw [heq] at hm
    exact Nat.lt_irrefl 0 hm

theorem unpack_pack_of_onGrid (s : Sign) {m : ℕ} {e : ℤ} (hm : 0 < m) (h : OnGrid m e)
    (he : e ≤ 971)
    : (Float.Model.pack (.finite s m e hm)).unpack = .finite s m e hm := by
  have hlow := h.le
  have hlt := h.lt
  have hmod := BitVec.toNat_ofNat (w := 52) m
  change UnpackedFloat.unpack .binary64 (UnpackedFloat.pack .binary64 (.finite s m e hm)) = _
  unfold UnpackedFloat.pack
  dsimp only
  rw [show (Format.binary64.exponentBias : ℤ) = 1023 from rfl]
  rw [show Format.binary64.mantissaBits = 53 from rfl]
  rw [if_neg (by omega)]
  split
  . next hlog =>
    have hfull : 2 ^ 52 ≤ m := (Nat.le_log2 (by omega)).mp (by omega)
    have hexponent : (BitVec.ofNat 11 (e + 1023 + (52 : ℕ)).toNat).toNat = (e + 1075).toNat := by
      rw [BitVec.toNat_ofNat, Nat.mod_eq_of_lt (by omega)]
      omega
    rw [unpack_normal s _ (by omega) (by omega)]
    congr 1
    . omega
    . omega
  . next hlog =>
    have hsmall : ¬(2 ^ 52 ≤ m) := by
      intro hfull
      have hge : 52 ≤ m.log2 := (Nat.le_log2 (by omega)).mpr hfull
      have hle : m.log2 < 53 := (Nat.log2_lt (by omega)).mpr hlt
      omega
    have hmin : e = -1074 := h.full.resolve_left hsmall
    rw [unpack_subnormal s (by omega)]
    congr 1
    . omega
    . omega

def signed : Sign → ℚ → ℚ
  | .negative, q => -q
  | .positive, q => q

theorem limit_pos : 0 < limit := by
  unfold limit
  positivity

theorem clamped_signed (s : Sign) {q : ℚ} (hq : 0 ≤ q)
    : clamped (signed s q) =
      if limit ≤ q then
        extended (.infinity s)
      else
        ((signed s q : WithTop ℚ) : WithBot (WithTop ℚ)) := by
  have hlimit := limit_pos
  cases s with
  | negative =>
    rw [show signed .negative q = -q from rfl]
    unfold clamped
    rw [if_neg (by linarith)]
    cases lt_or_ge q limit with
    | inl hlt => rw [if_neg (by linarith), if_neg (by linarith)]
    | inr hge =>
      rw [if_pos (by linarith), if_pos hge]
      rfl
  | positive =>
    rw [show signed .positive q = q from rfl]
    unfold clamped
    cases lt_or_ge q limit with
    | inl hlt => rw [if_neg (by linarith), if_neg (by linarith), if_neg (by linarith)]
    | inr hge =>
      rw [if_pos hge, if_pos hge]
      rfl

theorem extended_unpack_pack {s : Sign} {q : ℚ} {u : UnpackedFloat} (h : IsPoint s q u)
    : (Float.Model.pack u).unpack.isNaN = false ∧
      extended (Float.Model.pack u).unpack = clamped (signed s q) := by
  cases u with
  | notANumber => exact h.elim
  | infinity t => exact h.elim
  | zero t =>
    rw [unpack_pack_zero, h.right, clamped_signed s le_rfl, if_neg (Rat.not_le.mpr limit_pos)]
    cases s <;> simp [signed, extended, rational, UnpackedFloat.isNaN]
  | finite t m e hm =>
    rcases h with ⟨hsign, hgrid, hq⟩
    have hnonneg : (0 : ℚ) ≤ m * 2 ^ e := by positivity
    rw [hsign, hq, clamped_signed s hnonneg]
    split
    . next hle =>
      have hexp : 971 < e := by
        apply Int.not_le.mp
        intro he
        exact (hgrid.exponent_le_iff.mp he).not_ge hle
      rw [unpack_pack_overflow s hm hexp]
      exact ⟨rfl, rfl⟩
    . next hlt =>
      rw [unpack_pack_of_onGrid s hm hgrid (hgrid.exponent_le_iff.mpr (by linarith))]
      refine ⟨rfl, ?_⟩
      cases s <;> simp [extended, rational, Sign.apply, signed]

theorem signedRounded_signed (s : Sign) {q : ℚ} (hq : 0 ≤ q)
    : signedRounded (signed s q) = signed s (rounded q) := by
  unfold signedRounded
  cases s with
  | positive => exact if_neg (by simp only [signed]; linarith)
  | negative =>
    simp only [signed, neg_neg]
    split
    . rfl
    . have hzero : q = 0 := by linarith
      rw [hzero, neg_zero, rounded_zero, neg_zero]

theorem isPoint_of_canonical {u : UnpackedFloat} (hu : Canonical u) (hfin : u.isFinite)
    : ∃ s q, IsPoint s q u ∧ 0 ≤ q ∧ rational u = signed s q ∧ rounded q = q := by
  cases u with
  | notANumber => simp [UnpackedFloat.isFinite] at hfin
  | infinity s => simp [UnpackedFloat.isFinite] at hfin
  | zero s =>
    refine ⟨s, 0, ⟨rfl, rfl⟩, by rfl, ?_, rounded_zero⟩
    cases s <;> simp [rational, signed]
  | finite s m e hm =>
    refine ⟨s, m * 2 ^ e, ⟨rfl, hu.left, rfl⟩, by positivity, ?_, hu.left.rounded_eq⟩
    cases s <;> simp [rational, signed, Sign.apply]

def YieldsRounded (u : UnpackedFloat) (q : ℚ) : Prop :=
  (Float.Model.pack u).unpack.isNaN = false ∧
    extended (Float.Model.pack u).unpack = clamped (signedRounded q)

theorem yieldsRounded_rational {u : UnpackedFloat} (hu : Canonical u) (hfin : u.isFinite)
    : YieldsRounded u (rational u) := by
  rcases isPoint_of_canonical hu hfin with ⟨s, q, hpoint, hq, hvalue, hround⟩
  have h := extended_unpack_pack hpoint
  unfold YieldsRounded
  rw [hvalue, signedRounded_signed s hq, hround]
  exact h

theorem IsPoint.yieldsRounded {s : Sign} {q : ℚ} {u : UnpackedFloat} (hq : 0 ≤ q)
    (h : IsPoint s (rounded q) u)
    : YieldsRounded u (signed s q) := by
  unfold YieldsRounded
  rw [signedRounded_signed s hq]
  exact extended_unpack_pack h

theorem yieldsRounded_normalize (k e : ℤ)
    : YieldsRounded (UnpackedFloat.normalize .binary64 k e .positive) (k * 2 ^ e) := by
  have hround : ∀ (s : Sign) (m : ℕ), 0 < m →
      YieldsRounded (UnpackedFloat.round .binary64 s m e) (signed s (m * 2 ^ e)) :=
    fun s m hm => (isPoint_round s hm e).yieldsRounded (by positivity)
  unfold UnpackedFloat.normalize
  rcases lt_trichotomy k 0 with hneg | hzero | hpos
  . rw [compare_lt_iff_lt.mpr hneg]
    have h := hround .negative (-k).toNat (by omega)
    have hcast : (((-k).toNat : ℕ) : ℚ) = -k := by
      exact_mod_cast Int.toNat_of_nonneg (by omega)
    simpa [signed, hcast] using h
  . rw [compare_eq_iff_eq.mpr hzero, hzero]
    have h := yieldsRounded_rational (u := .zero .positive) trivial rfl
    simpa [rational] using h
  . rw [compare_gt_iff_gt.mpr hpos]
    have h := hround .positive k.toNat (by omega)
    have hcast : ((k.toNat : ℕ) : ℚ) = k := by exact_mod_cast Int.toNat_of_nonneg hpos.le
    simpa [signed, hcast] using h

theorem rational_decreaseExponent (s : Sign) (m : ℕ) {e t : ℤ} (h : t ≤ e)
    : (s.apply ((decreaseExponent m e t).1 : ℕ) : ℚ) * 2 ^ t = s.apply m * 2 ^ e := by
  have hvalue : (((decreaseExponent m e t).1 : ℕ) : ℚ) * 2 ^ t = m * 2 ^ e := by
    unfold decreaseExponent
    dsimp only
    rw [Nat.shiftLeft_eq, Nat.cast_mul, Nat.cast_pow, Nat.cast_ofNat, mul_assoc, ← zpow_natCast]
    rw [← zpow_add₀ (by norm_num)]
    congr 2
    omega
  cases s with
  | negative =>
    simp only [Sign.apply, Int.cast_neg, Int.cast_natCast, neg_mul]
    rw [hvalue]
  | positive =>
    simp only [Sign.apply, Int.cast_natCast]
    exact hvalue

theorem yieldsRounded_add {u v : UnpackedFloat} (hu : Canonical u) (hv : Canonical v)
    (hufin : u.isFinite) (hvfin : v.isFinite)
    : YieldsRounded (UnpackedFloat.add .binary64 u v) (rational u + rational v) := by
  have hleft := yieldsRounded_rational hu hufin
  have hright := yieldsRounded_rational hv hvfin
  cases u with
  | notANumber => simp [UnpackedFloat.isFinite] at hufin
  | infinity s => simp [UnpackedFloat.isFinite] at hufin
  | zero s =>
    cases v with
    | notANumber => simp [UnpackedFloat.isFinite] at hvfin
    | infinity t => simp [UnpackedFloat.isFinite] at hvfin
    | zero t =>
      simp only [UnpackedFloat.add, rational, add_zero]
      split
      . exact hleft
      . exact yieldsRounded_rational (u := .zero .positive) trivial rfl
    | finite t m e hm =>
      rw [show rational (.zero s) = 0 from rfl, zero_add]
      exact hright
  | finite s m₁ e₁ hm₁ =>
    cases v with
    | notANumber => simp [UnpackedFloat.isFinite] at hvfin
    | infinity t => simp [UnpackedFloat.isFinite] at hvfin
    | zero t =>
      rw [show rational (.zero t) = 0 from rfl, add_zero]
      exact hleft
    | finite t m₂ e₂ hm₂ =>
      have h := yieldsRounded_normalize
        (s.apply (decreaseExponent m₁ e₁ (min e₁ e₂)).1 + t.apply (decreaseExponent m₂ e₂ (min e₁ e₂)).1)
        (min e₁ e₂)
      rw [Int.cast_add, add_mul] at h
      rw [rational_decreaseExponent s m₁ (min_le_left e₁ e₂)] at h
      rw [rational_decreaseExponent t m₂ (min_le_right e₁ e₂)] at h
      exact h

theorem value_add {x y : Float} (hx : x.isFinite) (hy : y.isFinite)
    : (x + y).isNaN = false ∧
      value (x + y) =
        clamped (signedRounded (rational x.toModel.unpack + rational y.toModel.unpack)) :=
  yieldsRounded_add (canonical_unpack _) (canonical_unpack _) hx hy

theorem unpack_pack_of_canonical {u : UnpackedFloat} (hu : Canonical u)
    : (Float.Model.pack u).unpack = u := by
  cases u with
  | notANumber => rfl
  | infinity s => exact unpack_pack_infinity s
  | zero s => exact unpack_pack_zero s
  | finite s m e hm => exact unpack_pack_of_onGrid s hm hu.left hu.right

theorem value_of_isFinite {x : Float} (hx : x.isFinite)
    : value x = clamped (signedRounded (rational x.toModel.unpack)) := by
  have h := (yieldsRounded_rational (canonical_unpack x.toModel) hx).right
  rw [unpack_pack_of_canonical (canonical_unpack x.toModel)] at h
  exact h

theorem rational_nonneg {c : Float} (hc : 0.0 ≤ c) (hfin : c.isFinite)
    : 0 ≤ rational c.toModel.unpack := by
  have hle := (le_iff.mp hc).right
  have hzero : value 0.0 = (((0 : ℚ) : WithTop ℚ) : WithBot (WithTop ℚ)) := rfl
  rw [hzero, value, extended_of_isFinite hfin] at hle
  exact WithTop.coe_le_coe.mp (WithBot.coe_le_coe.mp hle)

theorem add_of_infinite {x c : Float} (hx : x.isNaN = false) (hxfin : x.isFinite = false)
    (hc : c.isFinite)
    : (x + c).isNaN = false ∧ value (x + c) = value x := by
  rcases eq_infinity hx hxfin with ⟨s, hs⟩
  have hsum : (x + c).toModel.unpack = .infinity s := by
    change (Float.Model.pack (x.toModel.unpack.add .binary64 c.toModel.unpack)).unpack = _
    have hvfin : c.toModel.unpack.isFinite = true := hc
    rw [hs]
    cases hv : c.toModel.unpack with
    | notANumber => simp [hv, UnpackedFloat.isFinite] at hvfin
    | infinity t => simp [hv, UnpackedFloat.isFinite] at hvfin
    | zero t => exact unpack_pack_infinity s
    | finite t m e hm => exact unpack_pack_infinity s
  constructor
  . change (x + c).toModel.unpack.isNaN = false
    rw [hsum]
    rfl
  . unfold value
    rw [hs, hsum]

theorem add_numeric {x c : Float} (hx : x.isNaN = false) (hc : c.isFinite)
    : (x + c).isNaN = false := by
  cases hxfin : x.isFinite with
  | true => exact (value_add hxfin hc).left
  | false => exact (add_of_infinite hx hxfin hc).left

theorem le_add_of_nonneg {x c : Float} (hx : x.isNaN = false) (hc : 0.0 ≤ c) (hfin : c.isFinite)
    : (x + c).isNaN = false ∧ x ≤ x + c := by
  have hnumeric := add_numeric hx hfin
  refine ⟨hnumeric, ?_⟩
  cases hxfin : x.isFinite with
  | true =>
    apply le_of_rounded ⟨hx, value_of_isFinite hxfin⟩ (value_add hxfin hfin)
    have hnonneg := rational_nonneg hc hfin
    linarith
  | false => exact le_iff.mpr ⟨⟨hx, hnumeric⟩, (add_of_infinite hx hxfin hfin).right.ge⟩

theorem eq_bot_or_eq_top {x : Float} (hx : x.isNaN = false) (hfin : x.isFinite = false)
    : value x = ⊥ ∨ value x = ((⊤ : WithTop ℚ) : WithBot (WithTop ℚ)) := by
  rcases eq_infinity hx hfin with ⟨s, hs⟩
  unfold value
  rw [hs]
  cases s with
  | negative => exact .inl rfl
  | positive => exact .inr rfl

theorem value_eq_coe {x : Float} (hfin : x.isFinite)
    : value x = ((rational x.toModel.unpack : WithTop ℚ) : WithBot (WithTop ℚ)) :=
  extended_of_isFinite hfin

theorem rational_mono {x y : Float} (hx : x.isFinite) (hy : y.isFinite) (h : x ≤ y)
    : rational x.toModel.unpack ≤ rational y.toModel.unpack := by
  have hle := (le_iff.mp h).right
  rw [value_eq_coe hx, value_eq_coe hy] at hle
  exact WithTop.coe_le_coe.mp (WithBot.coe_le_coe.mp hle)

protected theorem add_le_add_right {x y c : Float} (h : x ≤ y) (hc : c.isFinite) : x + c ≤ y + c := by
  rcases le_iff.mp h with ⟨⟨hx, hy⟩, hle⟩
  have hless := add_numeric hx hc
  have hmore := add_numeric hy hc
  cases hxfin : x.isFinite with
  | true =>
    cases hyfin : y.isFinite with
    | true =>
      apply le_of_rounded (value_add hxfin hc) (value_add hyfin hc)
      have hrational := rational_mono hxfin hyfin h
      linarith
    | false =>
      rcases eq_bot_or_eq_top hy hyfin with hbot | htop
      . rw [hbot, le_bot_iff, value_eq_coe hxfin] at hle
        contradiction
      . exact le_of_value_eq_top hless hmore ((add_of_infinite hy hyfin hc).right.trans htop)
  | false =>
    refine le_iff.mpr ⟨⟨hless, hmore⟩, ?_⟩
    rw [(add_of_infinite hx hxfin hc).right]
    rcases eq_bot_or_eq_top hx hxfin with hbot | htop
    . rw [hbot]
      exact bot_le
    . have hyfin : y.isFinite = false := by
        rw [htop] at hle
        apply eq_false_of_ne_true
        intro hyfin
        rw [value_eq_coe hyfin, WithBot.coe_le_coe, top_le_iff] at hle
        contradiction
      rw [(add_of_infinite hy hyfin hc).right]
      exact hle

theorem unpack_of_infinite {x : Float} (hx : 0.0 ≤ x) (hfin : x.isFinite = false)
    : x.toModel.unpack = .infinity .positive := by
  have hle := le_iff.mp hx
  rcases eq_infinity hle.left.right hfin with ⟨s, hs⟩
  cases s with
  | positive => exact hs
  | negative =>
    have hvalue : value x = ⊥ := by
      unfold value
      rw [hs]
      rfl
    rw [hvalue, le_bot_iff] at hle
    exact absurd hle.right (by exact nofun)

theorem add_infinite {x c : Float} (hx : x.isNaN = false) (hc : 0.0 ≤ c) (hfin : c.isFinite = false)
    : (x + c).isNaN = true ∧ value x = ⊥ ∨
      ((x + c).isNaN = false ∧ value x ≠ ⊥) ∧ value (x + c) = (⊤ : WithTop ℚ) := by
  have hsum : (x + c).toModel.unpack =
      (Float.Model.pack (x.toModel.unpack.add .binary64 (.infinity .positive))).unpack := by
    rw [← unpack_of_infinite hc hfin]
    rfl
  change x.toModel.unpack.isNaN = false at hx
  change (x + c).toModel.unpack.isNaN = true ∧ extended x.toModel.unpack = ⊥ ∨
    ((x + c).toModel.unpack.isNaN = false ∧ extended x.toModel.unpack ≠ ⊥) ∧
      extended (x + c).toModel.unpack = _
  cases hu : x.toModel.unpack with
  | notANumber => simp [hu, UnpackedFloat.isNaN] at hx
  | infinity s =>
    rw [hsum, hu]
    cases s with
    | negative => exact .inl ⟨rfl, rfl⟩
    | positive => exact .inr ⟨⟨rfl, WithBot.coe_ne_bot⟩, rfl⟩
  | zero s =>
    rw [hu] at hsum
    rw [hsum.trans (unpack_pack_infinity .positive)]
    exact .inr ⟨⟨rfl, WithBot.coe_ne_bot⟩, rfl⟩
  | finite s m e hm =>
    rw [hu] at hsum
    rw [hsum.trans (unpack_pack_infinity .positive)]
    exact .inr ⟨⟨rfl, WithBot.coe_ne_bot⟩, rfl⟩

theorem isNaN_add_iff {x c : Float} (hx : x.isNaN = false) (hc : 0.0 ≤ c)
    : (x + c).isNaN = true ↔ value x = ⊥ ∧ c.isFinite = false := by
  cases hfin : c.isFinite with
  | true =>
    rw [add_numeric hx hfin]
    simp
  | false =>
    rcases add_infinite hx hc hfin with ⟨hnan, hbot⟩ | ⟨⟨hnumeric, hbot⟩, htop⟩
    . exact iff_of_true hnan ⟨hbot, rfl⟩
    . rw [hnumeric]
      simp [hbot]

theorem isNaN_add_of_isNaN {x c : Float} (hc : c.isNaN = true) : (x + c).isNaN = true := by
  change c.toModel.unpack.isNaN = true at hc
  change (Float.Model.pack (x.toModel.unpack.add .binary64 c.toModel.unpack)).unpack.isNaN = true
  cases hv : c.toModel.unpack with
  | notANumber =>
    have hadd : ∀ u : UnpackedFloat, u.add .binary64 .notANumber = .notANumber := by
      intro u
      cases u <;> simp [UnpackedFloat.add]
    rw [hadd]
    rfl
  | infinity s => simp [hv, UnpackedFloat.isNaN] at hc
  | zero s => simp [hv, UnpackedFloat.isNaN] at hc
  | finite s m e hm => simp [hv, UnpackedFloat.isNaN] at hc

theorem isFinite_of_between {x y z : Float} (hxy : x ≤ y) (hyz : y ≤ z) (hx : x.isFinite)
    (hz : z.isFinite)
    : y.isFinite := by
  apply eq_true_of_ne_false
  intro hfin
  have hlow := le_iff.mp hxy
  have hhigh := le_iff.mp hyz
  rcases eq_bot_or_eq_top hlow.left.right hfin with hbot | htop
  . rw [hbot, le_bot_iff, value_eq_coe hx] at hlow
    exact absurd hlow.right (WithBot.coe_ne_bot)
  . rw [htop, value_eq_coe hz] at hhigh
    exact absurd (WithBot.coe_le_coe.mp hhigh.right) (not_le.mpr (WithTop.coe_lt_top _))

theorem isFinite_of_le {x y : Float} (hx : 0.0 ≤ x) (h : x ≤ y) (hy : y.isFinite) : x.isFinite :=
  isFinite_of_between hx h rfl hy

protected theorem le_add {x c : Float} (hx : x.isNaN = false) (hc : 0.0 ≤ c)
    (hsum : (x + c).isNaN = false)
    : x ≤ x + c := by
  cases hfin : c.isFinite with
  | true => exact (le_add_of_nonneg hx hc hfin).right
  | false =>
    rcases add_infinite hx hc hfin with ⟨hnan, hbot⟩ | ⟨hnumeric, htop⟩
    . rw [hsum] at hnan
      contradiction
    . exact le_of_value_eq_top hx hsum htop

theorem le_add_of_finite {x c : Float} (hx : x.isFinite) (hc : 0.0 ≤ c) : x ≤ x + c := by
  have hnumeric := isNaN_of_isFinite hx
  apply Binary64.le_add hnumeric hc
  apply eq_false_of_ne_true
  intro hnan
  have hbot := ((isNaN_add_iff hnumeric hc).mp hnan).left
  rw [value_eq_coe hx] at hbot
  exact absurd hbot WithBot.coe_ne_bot

protected theorem add_le_add_left {x c d : Float} (hx : x.isNaN = false) (hc : c.isFinite)
    (hd : d.isFinite) (h : c ≤ d)
    : x + c ≤ x + d := by
  cases hfin : x.isFinite with
  | true =>
    apply le_of_rounded (value_add hfin hc) (value_add hfin hd)
    have hrational := rational_mono hc hd h
    linarith
  | false =>
    refine le_iff.mpr ⟨⟨add_numeric hx hc, add_numeric hx hd⟩, ?_⟩
    rw [(add_of_infinite hx hfin hc).right, (add_of_infinite hx hfin hd).right]

protected theorem add_le_add {x y c d : Float} (h : x ≤ y) (hc : 0.0 ≤ c) (hcd : c ≤ d)
    (hless : (x + c).isNaN = false) (hmore : (y + d).isNaN = false)
    : x + c ≤ y + d := by
  have hy := (le_iff.mp h).left.right
  cases hdfin : d.isFinite with
  | true =>
    have hcfin : c.isFinite := isFinite_of_le hc hcd hdfin
    have hleft : x + c ≤ y + c := Binary64.add_le_add_right h hcfin
    exact Binary64.le_trans hleft (Binary64.add_le_add_left hy hcfin hdfin hcd)
  | false =>
    rcases add_infinite hy (Binary64.le_trans hc hcd) hdfin with ⟨hnan, hbot⟩ | ⟨hnumeric, htop⟩
    . rw [hmore] at hnan
      contradiction
    . exact le_of_value_eq_top hless hmore htop

end SwitchSearch.Binary64
