import SwitchSearch.Proofs.Binary64.Product

/-!
This module contains the two zeros of floats: a product with a zero is a zero, and a zero added to any
other float changes no bit of it.
-/

namespace SwitchSearch.Binary64

open Float.Model Float.Model.UnpackedFloat

variable {x c : Float}

theorem beq_zero_iff : (x == 0.0) = true ↔ ∃ s, x.toModel.unpack = .zero s := by
  change (x.toModel.unpack.compare (.zero .positive) == some .eq) = true ↔ _
  cases x.toModel.unpack with
  | notANumber => simp [UnpackedFloat.compare]
  | infinity s => cases s <;> simp [UnpackedFloat.compare]
  | zero s => simp [UnpackedFloat.compare]
  | finite s m e hm => cases s <;> simp [UnpackedFloat.compare]

theorem beq_zero_of_pos (hx : 0.0 < x) : (x == 0.0) = false := by
  apply eq_false_of_ne_true
  intro hzero
  exact (lt_iff.mp hx).right.ne' (beq_iff.mp hzero).right

theorem pack_unpack (x : Float) : Float.Model.pack x.toModel.unpack = x.toModel := by
  rcases x with ⟨⟨bits, hvalid⟩⟩
  unfold Float.Model.pack Float.Model.unpack
  simp only [pack_unpack_of_valid hvalid]

/-- A sum of two zeros is left out, for it may turn the negative zero into the positive one. -/
theorem add_eq_self (hx : (x == 0.0) = false) (hc : (c == 0.0) = true) : x + c = x := by
  rcases beq_zero_iff.mp hc with ⟨t, ht⟩
  have hsum : x.toModel.unpack.add .binary64 (.zero t) = x.toModel.unpack := by
    cases hu : x.toModel.unpack with
    | notANumber => rfl
    | infinity s => rfl
    | zero s =>
      rw [beq_zero_iff.mpr ⟨s, hu⟩] at hx
      contradiction
    | finite s m e hm => rfl
  calc x + c
    _ = .ofModel (.pack (x.toModel.unpack.add .binary64 c.toModel.unpack)) := rfl
    _ = x := by rw [ht, hsum, pack_unpack]

theorem mul_beq_zero (hx : x.isFinite) (hc : (c == 0.0) = true) : (x * c == 0.0) = true := by
  rcases beq_zero_iff.mp hc with ⟨t, ht⟩
  have hfin : x.toModel.unpack.isFinite = true := hx
  have hmul : (x * c).toModel.unpack =
      (Float.Model.pack (x.toModel.unpack.mul .binary64 (.zero t))).unpack := by
    rw [← ht]
    rfl
  rw [beq_zero_iff, hmul]
  cases hu : x.toModel.unpack with
  | notANumber => simp [hu, UnpackedFloat.isFinite] at hfin
  | infinity s => simp [hu, UnpackedFloat.isFinite] at hfin
  | zero s => exact ⟨_, unpack_pack_zero _⟩
  | finite s m e hm => exact ⟨_, unpack_pack_zero _⟩

protected theorem mul_comm (x y : Float) : x * y = y * x := by
  have hsign : ∀ s t : Sign, s * t = t * s := by
    intro s t
    cases s <;> cases t <;> rfl
  have hmul : x.toModel.unpack.mul .binary64 y.toModel.unpack =
      y.toModel.unpack.mul .binary64 x.toModel.unpack := by
    cases x.toModel.unpack <;> cases y.toModel.unpack <;>
      simp only [UnpackedFloat.mul, hsign, Nat.mul_comm, Int.add_comm]
  exact congrArg (fun product => Float.ofModel (.pack product)) hmul

end SwitchSearch.Binary64
