import SwitchSearch.Proofs.CostTable.Tree
import SwitchSearch.Proofs.DiveQueue.Admission
import SwitchSearch.Proofs.Search.Completion
import SwitchSearch.Proofs.Search.Exactness

/-!
This module contains the proof that a search on a dive queue solves switching problems: it finds a
cheapest one of all sequences that stay within the budgets, whatever the rule of the queue.
-/

namespace SwitchSearch.CostTable

variable {table : CostTable} {node : Node}

theorem nanFree (h : table.WellFormed) : table.problem.NaNFree := by
  intro node hreaches
  rw [(traces_of_reaches h hreaches).bound_eq]
  exact h.cost_numeric node.sequence

theorem le_of_isChild (h : table.WellFormed) (hnode : table.Traces node) {child : Node}
    (hchild : table.problem.IsChild node child)
    : node.bound ≤ child.bound := by
  rcases (isChild_iff h hnode).mp hchild with ⟨hopen, hwithin, channel, hchannel, hextend⟩
  rw [bound_of_extend hnode hextend, (Node.sequence_of_extend hextend).left, hnode.bound_eq]
  exact h.cost_le_concat node.sequence channel

theorem admissible (h : table.WellFormed) : table.problem.Admissible := by
  intro node path leaf hreaches hdescent hleaf
  have hstart : table.Traces node ∧ node.bound ≤ node.bound :=
    ⟨traces_of_reaches h hreaches, Binary64.le_refl (nanFree h node hreaches)⟩
  have hstep : ∀ parent child, table.Traces parent ∧ node.bound ≤ parent.bound →
      table.problem.IsChild parent child → table.Traces child ∧ node.bound ≤ child.bound := by
    intro parent child hparent hchild
    have hle := le_of_isChild h hparent.left hchild
    exact ⟨hparent.left.step h hchild, Binary64.le_trans hparent.right hle⟩
  have hend := (hdescent.induct hstep hstart).right
  have hnumeric := (Binary64.le_iff.mp hend).left
  exact (Binary64.not_lt hnumeric.right hnumeric.left).mpr hend

theorem deepens (h : table.WellFormed) : table.problem.Deepens := by
  intro parent child hreaches hchild
  have hparent := traces_of_reaches h hreaches
  rcases (isChild_iff h hparent).mp hchild with ⟨hopen, hwithin, channel, hchannel, hextend⟩
  rw [(hparent.step h hchild).depth_eq, (Node.sequence_of_extend hextend).left, hparent.depth_eq]
  rw [List.length_append, List.length_singleton]
  exact Nat.lt_succ_self _

theorem push_eq_ok (h : table.WellFormed) (queue : DiveQueue) (upperBound : Float) {batch : List Node}
    (hbatch : ∀ node ∈ batch, table.problem.Reaches node)
    : (Agenda.push queue (table.problem.context upperBound) batch).1 = .ok () := by
  apply DiveQueue.push_eq_ok_iff.mpr
  right
  rw [Context.checkBatch_eq_ok_iff]
  constructor
  . intro duration hmem
    have hvalid := h.durations_valid duration hmem
    simp [Context.isDuration, hvalid]
  . intro node hmem
    have hnode := traces_of_reaches h (hbatch node hmem)
    rw [Context.checkNode_eq_ok_iff]
    refine ⟨nanFree h node (hbatch node hmem), ?_, hnode.depth_le⟩
    rw [hnode.length_eq]
    exact h.budgets_length.symm

theorem faultless (h : table.WellFormed) : table.problem.Faultless DiveQueue := by
  constructor
  . intro queue upperBound
    apply push_eq_ok h
    intro node hmem
    rw [List.mem_singleton.mp hmem]
    exact Problem.reaches_root
  . intro node hreaches hopen
    have hdepth := Problem.isLeaf_eq_false_iff.mp hopen
    rcases exists_branch h (traces_of_reaches h hreaches) hdepth with ⟨children, hbranch, hmem⟩
    refine ⟨children, hbranch, ?_⟩
    intro queue upperBound
    apply push_eq_ok h
    intro child hchild
    exact hreaches.child ⟨hopen, children, hbranch, hchild⟩

/--
A new search on a dive queue comes to its end without an error. Its result is the least cost of all
feasible sequences, and its best sequence is a feasible one that has this cost.
-/
theorem minimum_of_new_search (h : table.WellFormed) (rule : KeyRule)
    : ∃ rounds final,
      (∀ fuel, rounds ≤ fuel →
        ({ agenda := .new rule } : Search DiveQueue).run table.problem .never fuel =
          some (.completed true final.bestValue, final)) ∧
      IsMinimum (fun cost => ∃ sequence, table.Feasible sequence ∧ table.cost sequence = cost)
        final.bestValue ∧
      (final.bestValue = none ↔
        ∀ sequence, table.Feasible sequence → (table.cost sequence == infinity) = true) ∧
      (∀ value, final.bestValue = some value → ∃ sequence, final.bestSequence = some sequence ∧
        table.Feasible sequence ∧ table.cost sequence = value) := by
  rcases Search.exists_exact_run (deepens h) (faultless h)
    ({ agenda := .new rule } : Search DiveQueue) with ⟨rounds, final, hrun⟩
  have hproves := ((Search.Reached.new (DiveQueue.new rule)).sound (nanFree h).screens).run
    (nanFree h).screens (hrun rounds (Nat.le_refl _))
  have hclosed := (hproves.closed final.bestValue rfl).right
  have hminimum := hproves.isMinimum hclosed (nanFree h) (admissible h)
  have hcosts : table.problem.LeafCost =
      fun cost => ∃ sequence, table.Feasible sequence ∧ table.cost sequence = cost :=
    funext fun _ => propext (leafCost_iff h)
  rw [hcosts] at hminimum
  refine ⟨rounds, final, hrun, hminimum, ?_, ?_⟩
  . rw [hminimum.eq_none_iff]
    constructor
    . intro hall sequence hfeasible
      exact (not_lt_infinity_iff (h.cost_numeric sequence)).mp (hall _ ⟨sequence, hfeasible, rfl⟩)
    . intro hall cost hcost
      rcases hcost with ⟨sequence, hfeasible, hcost⟩
      rw [← hcost]
      exact (not_lt_infinity_iff (h.cost_numeric sequence)).mpr (hall sequence hfeasible)
  . intro value hvalue
    rcases Option.map_eq_some_iff.mp hvalue with ⟨leaf, hbest, hbound⟩
    have hreaches := hproves.reaches leaf hbest
    rcases feasible_of_isLeaf h hreaches (hproves.isLeaf leaf hbest) with ⟨hfeasible, hcost⟩
    refine ⟨leaf.sequence, ?_, hfeasible, hcost.trans hbound⟩
    unfold Search.bestSequence
    rw [hbest, Option.map_some]

def twoSteps : CostTable where
  durations := [1.0, 1.0]
  budgets := [1, 0]
  channels := 2
  start := 0.0
  costs := [[1.0, 2.0], [3.0, 0.5]]
  enforced := true

theorem wellFormed_twoSteps : twoSteps.WellFormed := by
  constructor <;> decide

theorem minimum_of_new_search_twoSteps
    : ∃ final, ({ agenda := .new {} } : Search DiveQueue).run twoSteps.problem .never 9 =
        some (.completed true (some 2.5), final) ∧
      final.bestSequence = some [1, 1] ∧ twoSteps.Feasible [1, 1] ∧ ¬twoSteps.Feasible [0, 1] ∧
      IsMinimum (fun cost => ∃ sequence, twoSteps.Feasible sequence ∧ twoSteps.cost sequence = cost)
        (some 2.5) := by
  rcases minimum_of_new_search wellFormed_twoSteps {} with
    ⟨rounds, final, hrun, hminimum, hnone, hsome⟩
  have hresult : (({ agenda := .new {} } : Search DiveQueue).run twoSteps.problem .never 9).map
      (fun (_, last) => (last.bestValue, last.bestSequence)) = some (some 2.5, some [1, 1]) := by
    decide +kernel
  rcases Option.map_eq_some_iff.mp hresult with ⟨⟨outcome, last⟩, hlast, hbest⟩
  have hsame := Search.finish_of_le hlast (Nat.le_add_right 9 rounds)
  have hagain := hrun (9 + rounds) (Nat.le_add_left rounds 9)
  unfold Search.run at hagain
  rw [hagain, Option.some.injEq, Prod.mk.injEq] at hsame
  rw [← hsame.left, ← hsame.right] at hlast
  rw [← hsame.right, Prod.mk.injEq] at hbest
  rcases hsome 2.5 hbest.left with ⟨sequence, hsequence, hfeasible, hcost⟩
  rw [hbest.right, Option.some.injEq] at hsequence
  rw [← hsequence] at hfeasible
  rw [hbest.left] at hlast hminimum
  refine ⟨final, hlast, hbest.right, hfeasible, ?_, hminimum⟩
  intro hother
  exact absurd (hother.switchOns_le 1 0 rfl) (by decide)

end SwitchSearch.CostTable
