import SwitchSearch.DiveQueue.Lemmas
import SwitchSearch.Proofs.Agenda.Operations

/-!
This module contains the proof that a dive queue neither loses nor duplicates a node on its way through
the tiers, also when the keys are not numbers and so do not order the deferred nodes.
-/

namespace SwitchSearch.DiveQueue

structure Refines (queue : DiveQueue) (ledger : Ledger) : Prop where
  contents : (queue.nodes ++ ledger.popped).Perm ledger.pushed
  size_eq : queue.size = queue.nodes.length
  isEmpty_iff : Agenda.isEmpty queue = true ↔ queue.size = 0
  top_keeps : (Agenda.perform queue .top).2 = queue
  top_pop_of_empty : queue.size = 0 → queue.top = .error .empty ∧ queue.pop = (.error .empty, queue)
  top_pop_of_held : queue.size ≠ 0 → ∃ node rest,
    queue.top = .ok node ∧ queue.pop = (.ok node, rest) ∧ queue.nodes.Perm (node :: rest.nodes)

variable {queue : DiveQueue}

theorem pop_of_nodes_eq_nil (h : queue.nodes = []) : queue.pop = (.error .empty, queue) := by
  cases hpop : queue.pop.1 with
  | ok node =>
    have hperm := nodes_pop_of_ok hpop
    rw [h] at hperm
    exact absurd hperm.symm.eq_nil (List.cons_ne_nil _ _)
  | error error =>
    rcases pop_of_error hpop with ⟨hempty, herror, hkept⟩
    rw [herror] at hpop
    exact Prod.ext hpop hkept

theorem exists_pop_of_nodes_ne_nil (h : queue.nodes ≠ [])
    : ∃ node rest, queue.pop = (.ok node, rest) ∧ queue.nodes.Perm (node :: rest.nodes) := by
  cases hpop : queue.pop.1 with
  | ok node => exact ⟨node, queue.pop.2, Prod.ext hpop rfl, nodes_pop_of_ok hpop⟩
  | error error => exact absurd (pop_of_error hpop).left h

/-- Whatever the rule, the queue is a collection of nodes at every point of every sequence. -/
theorem refines_ledger (rule : KeyRule) (operations : List Operation)
    : Refines (Agenda.after (new rule) operations) (Agenda.ledger (new rule) operations) := by
  have hcontents : ((Agenda.after (new rule) operations).nodes ++
      (Agenda.ledger (new rule) operations).popped).Perm
        (Agenda.ledger (new rule) operations).pushed :=
    Agenda.nodes_after_perm (new rule) (nodes_new rule) operations
  generalize Agenda.after (new rule) operations = queue at hcontents ⊢
  have hsize : queue.size = 0 ↔ queue.nodes = [] := by
    rw [size_eq_length_nodes, List.length_eq_zero_iff]
  refine {
    contents := hcontents
    size_eq := size_eq_length_nodes queue
    isEmpty_iff := beq_iff_eq
    top_keeps := rfl
    top_pop_of_empty := ?_
    top_pop_of_held := ?_
  }
  . intro hzero
    have hpop := pop_of_nodes_eq_nil (hsize.mp hzero)
    refine ⟨?_, hpop⟩
    rw [← pop_fst_eq_top, hpop]
  . intro hheld
    rcases exists_pop_of_nodes_ne_nil (mt hsize.mpr hheld) with ⟨node, rest, hpop, hperm⟩
    refine ⟨node, rest, ?_, hpop, hperm⟩
    rw [← pop_fst_eq_top, hpop]

end SwitchSearch.DiveQueue
