import SwitchSearch.Proofs.DiveQueue.Rank
import SwitchSearch.Proofs.KeyRule.Range

/-!
This module contains the proof that keys are monotone: a node that has the smaller bound, fewer steps left
open and the larger slack does not have the larger key. The times left are sums that start at different
steps, and rounding keeps their order although it does not keep their difference.
-/

namespace SwitchSearch.KeyRule

open Context (isDuration)

variable {rule : KeyRule} {context : Context} {l r node : Node}

structure Dominates (rule : KeyRule) (context : Context) (l r : Node) : Prop where
  bound_le : l.bound ≤ r.bound
  depth_ge : r.depth ≤ l.depth
  slack_ge :
    rule.slackRule.slack context.budgets r.switches ≤ rule.slackRule.slack context.budgets l.switches

theorem divisor_le_of_dominates (hrule : rule.Valid) (h : rule.Dominates context l r)
    : rule.divisor r context ≤ rule.divisor l context := by
  have hmul := Binary64.mul_le_mul_left hrule.weight_nonneg hrule.weight_finite
    (Binary64.isFinite_toFloat _) (Binary64.isFinite_toFloat _) (Binary64.toFloat_mono h.slack_ge)
  have hnonneg := Binary64.mul_nonneg_of_finite hrule.weight_nonneg hrule.weight_finite
    (Binary64.toFloat_nonneg (rule.slackRule.slack context.budgets r.switches))
    (Binary64.isFinite_toFloat _)
  have hbase := Binary64.isNaN_of_isFinite hrule.base_finite
  have hnumeric : ∀ node, (rule.divisor node context).isNaN = false :=
    fun node => (Binary64.le_iff.mp (base_le_divisor hrule)).left.right
  exact Binary64.add_le_add (Binary64.le_refl hbase) hnonneg hmul (hnumeric r) (hnumeric l)

theorem discount_numeric (hkey : (rule.key node context).isNaN = false)
    : (rule.discount node context).isNaN = false := by
  apply eq_false_of_ne_true
  intro hnan
  rw [key_eq, Binary64.isNaN_add_of_isNaN hnan] at hkey
  contradiction

theorem discount_nonneg (hrule : rule.Valid) (h : ∀ x ∈ context.durations, isDuration x = true)
    (hnumeric : (rule.discount node context).isNaN = false)
    : 0.0 ≤ rule.discount node context := by
  rcases discount_cases hrule h with ⟨hnan, hoverflow⟩ | ⟨hnonneg, hoverflow⟩
  . rw [hnumeric] at hnan
    contradiction
  . exact hnonneg

theorem discount_le_of_dominates (hrule : rule.Valid)
    (hdurations : ∀ x ∈ context.durations, isDuration x = true) (h : rule.Dominates context l r)
    (hl : (rule.discount l context).isNaN = false) (hr : (rule.discount r context).isNaN = false)
    : rule.discount l context ≤ rule.discount r context := by
  have htime := timeLeft_anti hdurations h.depth_ge
  have hdivisor := divisor_le_of_dominates hrule h
  exact Binary64.div_le_div_of_numeric (timeLeft_nonneg hdurations) htime (divisor_pos hrule) hdivisor hl hr

theorem bound_le_key (hrule : rule.Valid) (h : ∀ x ∈ context.durations, isDuration x = true)
    (hbound : node.bound.isNaN = false) (hkey : (rule.key node context).isNaN = false)
    : node.bound ≤ rule.key node context := by
  have hnonneg := discount_nonneg hrule h (discount_numeric hkey)
  rw [key_eq] at hkey ⊢
  exact Binary64.le_add hbound hnonneg hkey

theorem key_le_key (hrule : rule.Valid) (hdurations : ∀ x ∈ context.durations, isDuration x = true)
    (h : rule.Dominates context l r) (hl : (rule.key l context).isNaN = false)
    (hr : (rule.key r context).isNaN = false)
    : rule.key l context ≤ rule.key r context := by
  have hless := discount_numeric hl
  have hmore := discount_numeric hr
  have hnonneg := discount_nonneg hrule hdurations hless
  have hdiscount := discount_le_of_dominates hrule hdurations h hless hmore
  rw [key_eq] at hl hr
  rw [key_eq, key_eq]
  exact Binary64.add_le_add h.bound_le hnonneg hdiscount hl hr

/--
The divisors of a rule that the builder makes are positive, and a node that is at least as good as another
one in all that a key depends on does not get the larger key. It is put behind only on equal keys, for its
switches.
-/
theorem key_le_of_dominates {draft : Draft} (hbuild : draft.build = .ok rule)
    (hdurations : ∀ x ∈ context.durations, 0.0 ≤ x ∧ x.isFinite = true) (h : rule.Dominates context l r)
    (hl : (rule.key l context).isNaN = false) (hr : (rule.key r context).isNaN = false)
    : (0.0 < rule.divisor l context ∧ 0.0 < rule.divisor r context) ∧
      rule.key l context ≤ rule.key r context ∧ l.bound ≤ rule.key l context ∧
      (Deferred.rank ⟨rule.key l context, l⟩ ⟨rule.key r context, r⟩ = .lt →
        (rule.key l context == rule.key r context) = true ∧ l.maxSwitches < r.maxSwitches) := by
  have hrule := valid_of_build hbuild
  have hvalid : ∀ x ∈ context.durations, isDuration x = true :=
    fun x hmem => isDuration_iff.mpr (hdurations x hmem)
  have hbound := (Binary64.le_iff.mp h.bound_le).left.left
  have hkey := key_le_key hrule hvalid h hl hr
  refine ⟨⟨divisor_pos hrule, divisor_pos hrule⟩, hkey, bound_le_key hrule hvalid hbound hl, ?_⟩
  exact Deferred.rank_eq_lt_of_key_le (l := ⟨rule.key l context, l⟩) (r := ⟨rule.key r context, r⟩) hkey

def threeSteps : Context :=
  .initial [0.5, 1.0, 2.0] [4]

def openNode : Node :=
  .below none { channel := none, depth := 1, bound := 2.0, switches := [3] }

def closedNode : Node :=
  .below none { channel := none, depth := 4, bound := 1.0, switches := [1] }

theorem dominates_threeSteps : Dominates {} threeSteps closedNode openNode := by
  constructor <;> decide

theorem key_le_of_dominates_threeSteps
    : ({} : Draft).build = .ok {} ∧ Dominates {} threeSteps closedNode openNode ∧
      (key {} closedNode threeSteps).isNaN = false ∧ (key {} openNode threeSteps).isNaN = false ∧
      key {} closedNode threeSteps ≤ key {} openNode threeSteps ∧
      closedNode.bound ≤ key {} closedNode threeSteps := by
  have hdurations : ∀ x ∈ threeSteps.durations, 0.0 ≤ x ∧ x.isFinite = true := by decide
  have hclosed : (key {} closedNode threeSteps).isNaN = false := by decide +kernel
  have hopen : (key {} openNode threeSteps).isNaN = false := by decide +kernel
  have hbuild : ({} : Draft).build = .ok {} := rfl
  have hkeys := key_le_of_dominates hbuild hdurations dominates_threeSteps hclosed hopen
  exact ⟨hbuild, dominates_threeSteps, hclosed, hopen, hkeys.right.left, hkeys.right.right.left⟩

end SwitchSearch.KeyRule
