import SwitchSearch.Problem.Costs
import SwitchSearch.Proofs.Binary64.Sum
import SwitchSearch.Proofs.Node.Counters

/-!
This module contains switching problems as tasks of their own, without any tree: all sequences of
channels that stay within the budgets, and what each of them costs.
-/

namespace SwitchSearch.CostTable

structure WellFormed (table : CostTable) : Prop where
  horizon_lt : table.durations.length < 2 ^ 33
  durations_valid : ∀ duration ∈ table.durations, 0.0 ≤ duration ∧ duration.isFinite = true
  budgets_length : table.budgets.length = table.channels
  costs_length : table.costs.length = table.durations.length
  rows_length : ∀ row ∈ table.costs, row.length = table.channels
  costs_valid : ∀ row ∈ table.costs, ∀ cost ∈ row, 0.0 ≤ cost ∧ cost.isFinite = true
  start_finite : table.start.isFinite = true
  enforced : table.enforced = true

def price (table : CostTable) (step channel : Nat) : Float :=
  (table.costs[step]?.getD [])[channel]?.getD 0.0

def cost (table : CostTable) (sequence : List Nat) : Float :=
  sequence.zipIdx.foldl (fun sum (channel, step) => sum + table.price step channel) table.start

/-- A sequence of channels in which none is switched on more often than its budget allows. -/
structure Fits (table : CostTable) (sequence : List Nat) : Prop where
  channels_lt : ∀ channel ∈ sequence, channel < table.channels
  switchOns_le : ∀ channel budget, table.budgets[channel]? = some budget →
    switchOns channel sequence ≤ budget.toNat

structure Feasible (table : CostTable) (sequence : List Nat) : Prop extends Fits table sequence where
  length_eq : sequence.length = table.durations.length

variable {table : CostTable} {sequence : List Nat}

theorem cost_concat (table : CostTable) (sequence : List Nat) (channel : Nat)
    : table.cost (sequence ++ [channel]) =
      table.cost sequence + table.price sequence.length channel := by
  simp [cost, List.zipIdx_append, List.foldl_append]

theorem WellFormed.price_valid (h : table.WellFormed) (step channel : Nat)
    : 0.0 ≤ table.price step channel ∧ (table.price step channel).isFinite = true := by
  unfold price
  cases hrow : table.costs[step]? with
  | none =>
    rw [Option.getD_none, List.getElem?_nil]
    decide
  | some row =>
    rw [Option.getD_some]
    cases hcost : row[channel]? with
    | none => decide
    | some cost =>
      exact h.costs_valid row (List.mem_of_getElem? hrow) cost (List.mem_of_getElem? hcost)

theorem WellFormed.cost_numeric (h : table.WellFormed) (sequence : List Nat)
    : (table.cost sequence).isNaN = false := by
  induction sequence using List.reverseRecOn with
  | nil => exact Binary64.isNaN_of_isFinite h.start_finite
  | append_singleton sequence channel ih =>
    have hprice := h.price_valid sequence.length channel
    rw [cost_concat]
    exact (Binary64.le_add_of_nonneg ih hprice.left hprice.right).left

theorem WellFormed.cost_le_concat (h : table.WellFormed) (sequence : List Nat) (channel : Nat)
    : table.cost sequence ≤ table.cost (sequence ++ [channel]) := by
  have hprice := h.price_valid sequence.length channel
  rw [cost_concat]
  exact (Binary64.le_add_of_nonneg (h.cost_numeric sequence) hprice.left hprice.right).right

theorem Fits.nil : table.Fits [] :=
  ⟨nofun, fun _ _ _ => Nat.zero_le _⟩

theorem Fits.of_concat {channel : Nat} (h : table.Fits (sequence ++ [channel])) : table.Fits sequence := by
  constructor
  . intro other hmem
    exact h.channels_lt other (List.mem_append_left _ hmem)
  . intro other budget hbudget
    have hle := h.switchOns_le other budget hbudget
    rw [switchOns_concat] at hle
    split at hle <;> omega

end SwitchSearch.CostTable
