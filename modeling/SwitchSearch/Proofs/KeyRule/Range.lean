import SwitchSearch.DiveQueue.Admission
import SwitchSearch.KeyRule
import SwitchSearch.Proofs.Binary64.Product

/-!
This module contains the range of keys: when the constants and the durations of the steps are finite,
a key is still not a number if the time left and its divisor both overflow, and infinite if only the
discount does. A bound on the total time rules this out.
-/

namespace SwitchSearch

open Context (isDuration)

def Context.totalTime (context : Context) : Float :=
  context.durations.foldl (· + ·) (-0.0)

namespace KeyRule

def divisor (rule : KeyRule) (node : Node) (context : Context) : Float :=
  rule.base + rule.weight * (rule.slackRule.slack context.budgets node.switches).toFloat

def discount (rule : KeyRule) (node : Node) (context : Context) : Float :=
  timeLeft node context / rule.divisor node context

structure Valid (rule : KeyRule) : Prop where
  base_pos : 0.0 < rule.base
  base_finite : rule.base.isFinite = true
  weight_nonneg : 0.0 ≤ rule.weight
  weight_finite : rule.weight.isFinite = true

/-- Even the shortest divisor keeps the discount of the total time finite. -/
def Moderate (rule : KeyRule) (context : Context) : Prop :=
  (context.totalTime / rule.base).isFinite = true

variable {rule : KeyRule} {context : Context} {node : Node}

theorem key_eq (rule : KeyRule) (node : Node) (context : Context)
    : rule.key node context = node.bound + rule.discount node context :=
  rfl

theorem checkBase_eq_ok_iff {base : Float}
    : Draft.checkBase base = .ok () ↔ 0.0 < base ∧ base.isFinite = true := by
  unfold Draft.checkBase
  split <;> simp_all

theorem checkWeight_eq_ok_iff {weight : Float}
    : Draft.checkWeight weight = .ok () ↔ 0.0 ≤ weight ∧ weight.isFinite = true := by
  unfold Draft.checkWeight
  split <;> simp_all

theorem forM_option_eq_ok_iff {α ε : Type} {check : α → Except ε Unit} {item : Option α}
    : item.forM check = .ok () ↔ ∀ x, item = some x → check x = .ok () := by
  cases item <;> simp [Option.forM, pure, Except.pure]

theorem valid_of_build {draft : Draft} (h : draft.build = .ok rule) : rule.Valid := by
  unfold Draft.build at h
  cases hbase : draft.base.forM Draft.checkBase with
  | error error =>
    rw [hbase] at h
    contradiction
  | ok =>
    rw [hbase] at h
    cases hweight : draft.weight.forM Draft.checkWeight with
    | error error =>
      rw [hweight] at h
      contradiction
    | ok =>
      rw [hweight] at h
      rw [forM_option_eq_ok_iff] at hbase hweight
      cases h
      have hbase : 0.0 < draft.base.getD 3.0 ∧ (draft.base.getD 3.0).isFinite = true := by
        cases hset : draft.base with
        | none => decide
        | some base => exact checkBase_eq_ok_iff.mp (hbase base hset)
      have hweight : 0.0 ≤ draft.weight.getD 2.0 ∧ (draft.weight.getD 2.0).isFinite = true := by
        cases hset : draft.weight with
        | none => decide
        | some weight => exact checkWeight_eq_ok_iff.mp (hweight weight hset)
      exact ⟨hbase.left, hbase.right, hweight.left, hweight.right⟩

theorem isDuration_iff {x : Float} : isDuration x = true ↔ 0.0 ≤ x ∧ x.isFinite = true := by
  simp [isDuration]

theorem le_foldl_add {durations : List Float} (h : ∀ x ∈ durations, isDuration x = true) {start : Float}
    (hstart : start.isNaN = false)
    : start ≤ durations.foldl (· + ·) start := by
  induction durations generalizing start with
  | nil => exact Binary64.le_refl hstart
  | cons x durations ih =>
    rw [List.forall_mem_cons, isDuration_iff] at h
    have hnext := Binary64.le_add_of_nonneg hstart h.left.left h.left.right
    exact Binary64.le_trans hnext.right (ih h.right hnext.left)

theorem foldl_add_mono {durations : List Float} (h : ∀ x ∈ durations, isDuration x = true)
    {less more : Float} (hle : less ≤ more)
    : durations.foldl (· + ·) less ≤ durations.foldl (· + ·) more := by
  induction durations generalizing less more with
  | nil => exact hle
  | cons x durations ih =>
    rw [List.forall_mem_cons, isDuration_iff] at h
    exact ih h.right (Binary64.add_le_add_right hle h.left.right)

theorem timeLeft_nonneg (h : ∀ x ∈ context.durations, isDuration x = true)
    : 0.0 ≤ timeLeft node context := by
  unfold timeLeft
  split
  . have hdrop : ∀ x ∈ context.durations.drop node.depth, isDuration x = true :=
      fun x hmem => h x (List.mem_of_mem_drop hmem)
    exact Binary64.le_trans (by decide) (le_foldl_add hdrop (by decide))
  . decide

theorem timeLeft_anti (h : ∀ x ∈ context.durations, isDuration x = true) {l r : Node}
    (hdepth : r.depth ≤ l.depth)
    : timeLeft l context ≤ timeLeft r context := by
  have hdrop : ∀ depth, ∀ x ∈ context.durations.drop depth, isDuration x = true :=
    fun depth x hmem => h x (List.mem_of_mem_drop hmem)
  have htake : ∀ x ∈ (context.durations.drop r.depth).take (l.depth - r.depth), isDuration x = true :=
    fun x hmem => hdrop r.depth x (List.mem_of_mem_take hmem)
  unfold timeLeft
  split
  . next hwithin =>
    rw [if_pos (Nat.le_trans hdepth hwithin)]
    -- the sum over the last steps starts from the sum over those before them, not from zero
    have hsplit : context.durations.drop r.depth =
        (context.durations.drop r.depth).take (l.depth - r.depth) ++ context.durations.drop l.depth := by
      rw [← Nat.add_sub_of_le hdepth, Nat.add_sub_cancel_left, ← List.drop_drop, List.take_append_drop]
    have hstart : -0.0 ≤ _ := le_foldl_add htake (by decide)
    rw [hsplit, List.foldl_append]
    exact foldl_add_mono (hdrop l.depth) hstart
  . split
    . have hstart : -0.0 ≤ _ := le_foldl_add (hdrop r.depth) (by decide)
      exact Binary64.le_trans (by decide) hstart
    . decide

theorem timeLeft_le_totalTime (h : ∀ x ∈ context.durations, isDuration x = true)
    : timeLeft node context ≤ context.totalTime :=
  timeLeft_anti h (r := { node with depth := 0 }) (Nat.zero_le node.depth)

theorem base_le_divisor (hrule : rule.Valid) : rule.base ≤ rule.divisor node context :=
  Binary64.le_add_of_finite hrule.base_finite <|
    Binary64.mul_nonneg_of_finite hrule.weight_nonneg hrule.weight_finite (Binary64.toFloat_nonneg _)
      (Binary64.isFinite_toFloat _)

theorem divisor_pos (hrule : rule.Valid) : 0.0 < rule.divisor node context :=
  Binary64.lt_of_lt_of_le hrule.base_pos (base_le_divisor hrule)

theorem discount_cases (hrule : rule.Valid) (h : ∀ x ∈ context.durations, isDuration x = true)
    : (rule.discount node context).isNaN = true ∧ (timeLeft node context).isFinite = false ∧
        (rule.divisor node context).isFinite = false ∨
      0.0 ≤ rule.discount node context ∧ ¬((timeLeft node context).isFinite = false ∧
        (rule.divisor node context).isFinite = false) := by
  have htime : 0.0 ≤ timeLeft node context := timeLeft_nonneg h
  have hdivisor : 0.0 < rule.divisor node context := divisor_pos hrule
  unfold discount
  cases htfin : (timeLeft node context).isFinite with
  | false =>
    cases hdfin : (rule.divisor node context).isFinite with
    | false =>
      have hnan := Binary64.isNaN_infinite_div htime htfin (Binary64.le_of_lt hdivisor) hdfin
      exact .inl ⟨hnan, rfl, rfl⟩
    | true =>
      have hinfinite := Binary64.value_infinite_div htime htfin hdivisor hdfin
      exact .inr ⟨Binary64.le_of_value_eq_top rfl hinfinite.left hinfinite.right, by simp⟩
  | true =>
    cases hdfin : (rule.divisor node context).isFinite with
    | false =>
      have hzero := Binary64.value_div_infinite htfin (Binary64.le_of_lt hdivisor) hdfin
      refine .inr ⟨Binary64.le_iff.mpr ⟨⟨rfl, hzero.left⟩, ?_⟩, by simp⟩
      rw [hzero.right]
      exact le_rfl
    | true =>
      have hself := Binary64.le_refl (Binary64.isNaN_of_isFinite htfin)
      have hsame := Binary64.le_refl (Binary64.isNaN_of_isFinite hdfin)
      have hdiv := Binary64.div_le_div htime hself htfin hdivisor hsame hdfin
      exact .inr ⟨hdiv.left, by simp⟩

theorem isNaN_key_iff (hrule : rule.Valid) (h : ∀ x ∈ context.durations, isDuration x = true)
    (hbound : node.bound.isNaN = false)
    : (rule.key node context).isNaN = true ↔
      (timeLeft node context).isFinite = false ∧ (rule.divisor node context).isFinite = false ∨
      (node.bound == -infinity) = true ∧ (rule.discount node context).isFinite = false := by
  have hbot : (node.bound == -infinity) = true ↔ Binary64.value node.bound = ⊥ := by
    rw [Binary64.beq_iff, and_iff_right ⟨hbound, rfl⟩]
    rfl
  rw [key_eq, hbot]
  rcases discount_cases hrule h with ⟨hnan, hoverflow⟩ | ⟨hnonneg, hoverflow⟩
  . exact iff_of_true (Binary64.isNaN_add_of_isNaN hnan) (.inl hoverflow)
  . rw [or_iff_right hoverflow]
    exact Binary64.isNaN_add_iff hbound hnonneg

theorem discount_of_moderate (hrule : rule.Valid) (h : ∀ x ∈ context.durations, isDuration x = true)
    (hmoderate : rule.Moderate context)
    : (rule.discount node context).isFinite = true ∧ 0.0 ≤ rule.discount node context ∧
      rule.discount node context ≤ context.totalTime / rule.base := by
  have htotal : context.totalTime.isFinite = true := by
    apply eq_true_of_ne_false
    intro hinfinite
    have hstart : -0.0 ≤ context.totalTime := le_foldl_add h (by decide)
    have hnonneg : 0.0 ≤ context.totalTime := Binary64.le_trans (by decide) hstart
    have hquotient := Binary64.value_infinite_div hnonneg hinfinite hrule.base_pos hrule.base_finite
    unfold Moderate at hmoderate
    rw [Binary64.value_eq_coe hmoderate, WithBot.coe_inj] at hquotient
    exact absurd hquotient.right WithTop.coe_ne_top
  have htime : 0.0 ≤ timeLeft node context := timeLeft_nonneg h
  have hbase : rule.base ≤ rule.divisor node context := base_le_divisor hrule
  have hdiv := Binary64.div_le_div htime (timeLeft_le_totalTime h) htotal hrule.base_pos hbase
    hrule.base_finite
  exact ⟨Binary64.isFinite_of_le hdiv.left hdiv.right hmoderate, hdiv⟩

theorem key_of_moderate (hrule : rule.Valid) (h : ∀ x ∈ context.durations, isDuration x = true)
    (hmoderate : rule.Moderate context) (hbound : node.bound.isNaN = false)
    : (rule.key node context).isNaN = false ∧
      (node.bound.isFinite = true → (node.bound + context.totalTime / rule.base).isFinite = true →
        (rule.key node context).isFinite = true) := by
  obtain ⟨hfinite : (rule.discount node context).isFinite = true, hnonneg, hle⟩ :=
    discount_of_moderate hrule h hmoderate
  constructor
  . exact Binary64.add_numeric hbound hfinite
  . intro hbfin hsum
    have hlow := Binary64.le_add_of_finite hbfin hnonneg
    have hhigh := Binary64.add_le_add_left hbound hfinite hmoderate hle
    exact Binary64.isFinite_of_between hlow hhigh hbfin hsum

end KeyRule

end SwitchSearch
