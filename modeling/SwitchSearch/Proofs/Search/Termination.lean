import Mathlib
import SwitchSearch.Proofs.Problem.Descent
import SwitchSearch.Proofs.Search.Round

/-!
This module contains the proof that searches end: each round takes a node from those that the trees
below the held nodes have in total.
-/

namespace SwitchSearch

namespace Problem

variable {problem : Problem}

def Deepens (problem : Problem) : Prop :=
  ∀ parent child, problem.Reaches parent → problem.IsChild parent child → parent.depth < child.depth

def occurrences (problem : Problem) : (steps : Nat) → Node → Nat
  | 0, _ => 1
  | steps + 1, node =>
    if problem.isLeaf node then
      1
    else
      match problem.branch node with
      | .error _ => 1
      | .ok children => 1 + (children.map (problem.occurrences steps)).sum

def treeSize (problem : Problem) (node : Node) : Nat :=
  problem.occurrences (problem.horizon - node.depth) node

theorem occurrences_of_isLeaf {node : Node} (h : problem.isLeaf node = true) (steps : Nat)
    : problem.occurrences steps node = 1 := by
  cases steps with
  | zero => rfl
  | succ steps => simp [occurrences, h]

theorem occurrences_succ {node : Node} {children : List Node} (hopen : problem.isLeaf node = false)
    (hbranch : problem.branch node = .ok children) (steps : Nat)
    : problem.occurrences (steps + 1) node =
      1 + (children.map (problem.occurrences steps)).sum := by
  simp [occurrences, hopen, hbranch]

theorem occurrences_congr (hdeepens : problem.Deepens) {steps others : Nat} {node : Node}
    (hreaches : problem.Reaches node) (hsteps : problem.horizon - node.depth ≤ steps)
    (hothers : problem.horizon - node.depth ≤ others)
    : problem.occurrences steps node = problem.occurrences others node := by
  -- each level uses up a step, and a node that leaves no step open is a leaf
  induction steps generalizing others node with
  | zero =>
    have hleaf : problem.isLeaf node = true := by
      simp only [isLeaf, decide_eq_true_eq]
      omega
    rw [occurrences_of_isLeaf hleaf, occurrences_of_isLeaf hleaf]
  | succ steps ih =>
    cases hleaf : problem.isLeaf node with
    | true => rw [occurrences_of_isLeaf hleaf, occurrences_of_isLeaf hleaf]
    | false =>
      have hopen := isLeaf_eq_false_iff.mp hleaf
      cases others with
      | zero => omega
      | succ others =>
        cases hbranch : problem.branch node with
        | error error => simp [occurrences, hleaf, hbranch]
        | ok children =>
          rw [occurrences_succ hleaf hbranch, occurrences_succ hleaf hbranch]
          congr 2
          apply List.map_congr_left
          intro child hmem
          have hchild : problem.IsChild node child := ⟨hleaf, children, hbranch, hmem⟩
          have hdeeper := hdeepens node child hreaches hchild
          exact ih (hreaches.child hchild) (by omega) (by omega)

theorem treeSize_pos (node : Node) : 0 < problem.treeSize node := by
  unfold treeSize occurrences
  split
  . exact Nat.one_pos
  . split
    . exact Nat.one_pos
    . split <;> omega

theorem treeSize_of_branch (hdeepens : problem.Deepens) {node : Node} {children : List Node}
    (hreaches : problem.Reaches node) (hopen : problem.isLeaf node = false)
    (hbranch : problem.branch node = .ok children)
    : problem.treeSize node = 1 + (children.map problem.treeSize).sum := by
  have hdepth := isLeaf_eq_false_iff.mp hopen
  have hsteps : problem.horizon - node.depth = problem.horizon - node.depth - 1 + 1 := by omega
  unfold treeSize
  rw [hsteps, occurrences_succ hopen hbranch]
  congr 2
  apply List.map_congr_left
  intro child hmem
  have hchild : problem.IsChild node child := ⟨hopen, children, hbranch, hmem⟩
  have hdeeper := hdeepens node child hreaches hchild
  exact occurrences_congr hdeepens (hreaches.child hchild) (by omega) (by omega)

end Problem

namespace Search

variable {α : Type} [Agenda α] {problem : Problem} {stop : StopRule} {search : Search α}

theorem finish_of_le {progress : Progress α} {result : Outcome × Search α} {fuel more : Nat}
    (h : finish problem stop fuel progress = some result) (hle : fuel ≤ more)
    : finish problem stop more progress = some result := by
  induction fuel generalizing progress more with
  | zero =>
    cases progress with
    | running search => simp [finish] at h
    | ended outcome search =>
      unfold finish at h ⊢
      exact h
  | succ fuel ih =>
    cases progress with
    | running search =>
      cases more with
      | zero => omega
      | succ more =>
        unfold finish at h ⊢
        exact ih h (by omega)
    | ended outcome search =>
      unfold finish at h ⊢
      exact h

variable [LawfulAgenda α]

def potential (problem : Problem) (search : Search α) : Nat :=
  ((LawfulAgenda.nodes search.agenda).map problem.treeSize).sum

theorem potential_of_pop {node : Node} {agenda : α} (hpop : Agenda.pop search.agenda = (.ok node, agenda))
    : search.potential problem =
      problem.treeSize node + ((LawfulAgenda.nodes agenda).map problem.treeSize).sum := by
  unfold potential
  rw [((perm_nodes_of_pop hpop).map _).sum_nat, List.map_cons, List.sum_cons]

theorem Round.potential_lt {next : Search α} (h : Round problem stop search (.running next))
    (hdeepens : problem.Deepens) (hheld : search.Holds problem.Reaches)
    : next.potential problem < search.potential problem := by
  cases h with
  | discarded node agenda hgo hpop hcut =>
    have hpos := problem.treeSize_pos node
    rw [potential_of_pop hpop]
    exact Nat.lt_add_of_pos_left hpos
  | recorded node agenda hgo hpop hcut hleaf =>
    have hpos := problem.treeSize_pos node
    rw [potential_of_pop hpop]
    exact Nat.lt_add_of_pos_left hpos
  | expanded node agenda rest children hgo hpop hcut hleaf hbranch hpush =>
    have hperm := perm_nodes_of_push hpush
    rw [potential_of_pop hpop, Problem.treeSize_of_branch hdeepens (hheld.taken hpop) hleaf hbranch]
    change ((LawfulAgenda.nodes rest).map problem.treeSize).sum < _
    rw [(hperm.map _).sum_nat, List.map_append, List.sum_append_nat]
    omega

theorem exists_finish (hdeepens : problem.Deepens) (stop : StopRule) {progress : Progress α} {fuel : Nat}
    (h : ∀ search, progress = .running search →
      search.Holds problem.Reaches ∧ search.potential problem < fuel)
    : ∃ outcome final, finish problem stop fuel progress = some (outcome, final) := by
  induction fuel generalizing progress with
  | zero =>
    cases progress with
    | running search => exact absurd (h search rfl).right (Nat.not_lt_zero _)
    | ended outcome final => exact ⟨outcome, final, rfl⟩
  | succ fuel ih =>
    cases progress with
    | running search =>
      rcases h search rfl with ⟨hheld, hbound⟩
      apply ih
      intro next hnext
      have hround := round_of_step hnext
      have hless := hround.potential_lt hdeepens hheld
      exact ⟨hheld.round hround, by omega⟩
    | ended outcome final => exact ⟨outcome, final, rfl⟩

theorem exists_run (hdeepens : problem.Deepens) (stop : StopRule) (search : Search α)
    : ∃ rounds outcome final, ∀ fuel, rounds ≤ fuel →
      search.run problem stop fuel = some (outcome, final) := by
  have hfuel : ∃ fuel, ∀ started, search.start problem = .running started →
      started.Holds problem.Reaches ∧ started.potential problem < fuel := by
    cases hstart : search.start problem with
    | running started =>
      refine ⟨started.potential problem + 1, ?_⟩
      intro other heq
      cases heq
      exact ⟨holds_start hstart, Nat.lt_succ_self _⟩
    | ended outcome final => exact ⟨0, nofun⟩
  rcases hfuel with ⟨rounds, hrounds⟩
  rcases exists_finish hdeepens stop hrounds with ⟨outcome, final, hfinish⟩
  exact ⟨rounds, outcome, final, fun fuel hle => finish_of_le hfinish hle⟩

end Search

end SwitchSearch
