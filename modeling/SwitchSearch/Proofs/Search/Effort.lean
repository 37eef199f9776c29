import SwitchSearch.Proofs.CostTable.Optimum
import SwitchSearch.Proofs.Problem.Occurrences

/-!
This module contains the proof that a run takes no more nodes than its tree has, and no more rounds than
that either. The tree counts a node once for each place at which it lies.
-/

namespace SwitchSearch

namespace Problem

variable {problem : Problem} {node : Node}

theorem Extends.deepens (h : problem.Extends) : problem.Deepens := by
  intro parent child hreaches hchild
  rcases h parent child hchild with ⟨channel, bound, hextend⟩
  rw [Node.depth_of_extend hextend]
  exact Nat.lt_succ_self parent.depth

def nodeAt (problem : Problem) (node : Node) : (place : List Nat) → Option Node
  | [] => some node
  | index :: place => (problem.offspring node)[index]?.bind (problem.nodeAt · place)

def Unfolds (problem : Problem) (node : Node) (place : List Nat) (other : Node) : Prop :=
  problem.nodeAt node place = some other

theorem unfolds_iff {place : List Nat} {other : Node}
    : problem.Unfolds node place other ↔
      place = [] ∧ other = node ∨ Among problem.Unfolds 0 (problem.offspring node) place other := by
  unfold Unfolds Among
  cases place with
  | nil => simp [nodeAt, eq_comm]
  | cons index place =>
    simp only [nodeAt, Option.bind_eq_some_iff, Nat.zero_add]
    simp

theorem treeSize_of_offspring (hdeepens : problem.Deepens) (hreaches : problem.Reaches node)
    : problem.treeSize node = 1 + ((problem.offspring node).map problem.treeSize).sum := by
  cases hopen : problem.isLeaf node with
  | true =>
    unfold offspring
    rw [if_pos hopen]
    exact occurrences_of_isLeaf hopen _
  | false =>
    cases hbranch : problem.branch node with
    | ok children =>
      rw [treeSize_of_branch hdeepens hreaches hopen hbranch, offspring_of_branch hopen hbranch]
    | error error =>
      have hdepth := isLeaf_eq_false_iff.mp hopen
      have hsteps : problem.horizon - node.depth = problem.horizon - node.depth - 1 + 1 := by omega
      unfold treeSize
      rw [hsteps]
      simp [occurrences, offspring, hopen, hbranch]

theorem exists_lists_among {forest : List Node}
    (h : ∀ tree ∈ forest, ∃ occurrences, Lists occurrences (problem.Unfolds tree) ∧
      occurrences.length = problem.treeSize tree) (offset : Nat)
    : ∃ occurrences, Lists occurrences (Among problem.Unfolds offset forest) ∧
        occurrences.length = (forest.map problem.treeSize).sum := by
  induction forest generalizing offset with
  | nil => exact ⟨[], lists_among_nil, rfl⟩
  | cons tree forest ih =>
    rw [List.forall_mem_cons] at h
    rcases h.left with ⟨own, hown, hsize⟩
    rcases ih h.right (offset + 1) with ⟨occurrences, hlists, hsum⟩
    refine ⟨_, hown.cons hlists, ?_⟩
    rw [List.length_append, List.length_map, hsize, hsum, List.map_cons, List.sum_cons]

theorem exists_occurrences (hdeepens : problem.Deepens) (hreaches : problem.Reaches node)
    : ∃ occurrences, Lists occurrences (problem.Unfolds node) ∧
        occurrences.length = problem.treeSize node := by
  -- the children are deeper, and a node at the horizon has none
  induction hsteps : problem.horizon - node.depth using Nat.strong_induction_on generalizing node with
  | _ steps ih =>
    have hchildren : ∀ child ∈ problem.offspring node, ∃ occurrences,
        Lists occurrences (problem.Unfolds child) ∧ occurrences.length = problem.treeSize child := by
      intro child hmem
      have hchild := isChild_of_mem_offspring hmem
      have hopen := isLeaf_eq_false_iff.mp hchild.left
      have hdeeper := hdeepens node child hreaches hchild
      exact ih _ (by omega) (hreaches.child hchild) rfl
    rcases exists_lists_among hchildren 0 with ⟨occurrences, hlists, hsum⟩
    refine ⟨_, hlists.root fun place other => unfolds_iff, ?_⟩
    rw [List.length_cons, hsum, treeSize_of_offspring hdeepens hreaches, Nat.add_comm]

end Problem

namespace Search

variable {α : Type} [Agenda α] [LawfulAgenda α] {problem : Problem} {stop : StopRule}
  {first search final : Search α}

structure Within (problem : Problem) (limit : Nat) (search : Search α) : Prop where
  held : search.Holds problem.Reaches
  spent : search.explored + search.potential problem ≤ limit

theorem Within.step {limit : Nat} (hdeepens : problem.Deepens) (h : Within problem limit search)
    : (search.step problem stop).Meets (Within problem limit) (fun _ final => final.explored ≤ limit) := by
  have hspent := h.spent
  have hround := round_step problem stop search
  generalize search.step problem stop = progress at hround ⊢
  cases progress with
  | running next =>
    have hless := hround.potential_lt hdeepens h.held
    have hcount : next.explored = search.explored + 1 := by cases hround <;> rfl
    refine ⟨h.held.round hround, ?_⟩
    omega
  | ended outcome final =>
    -- a node that is taken in the last round was still held before
    have htaken : ∀ node agenda, Agenda.pop search.agenda = (.ok node, agenda) →
        search.explored + 1 ≤ limit := by
      intro node agenda hpop
      have hpos := problem.treeSize_pos node
      rw [potential_of_pop hpop] at hspent
      omega
    have hheld : search.explored ≤ limit := by omega
    cases hround with
    | exhausted hempty => exact hheld
    | stopped hsome hstop => exact hheld
    | crashed node agenda error hgo hpop hcut hleaf hbranch => exact htaken node agenda hpop
    | refused node agenda rest children error hgo hpop hcut hleaf hbranch hpush =>
      exact htaken node agenda hpop

theorem Within.start (problem : Problem) (first : Search α)
    : (first.start problem).Meets (Within problem (problem.treeSize problem.root))
        (fun _ final => final.explored ≤ problem.treeSize problem.root) := by
  apply meets_start
  . exact fun error rest hpush => Nat.zero_le _
  . intro rest hpush
    have hroot := perm_nodes_of_push hpush
    rw [LawfulAgenda.nodes_clear, List.append_nil] at hroot
    constructor
    . intro node hmem
      rw [(mem_nodes_of_start hpush).mp hmem]
      exact Problem.reaches_root
    . change 0 + ((LawfulAgenda.nodes rest).map problem.treeSize).sum ≤ _
      rw [(hroot.map _).sum_nat, List.map_singleton, List.sum_singleton, Nat.zero_add]

theorem exists_run_within (hdeepens : problem.Deepens) (stop : StopRule) (first : Search α)
    : ∃ outcome final,
        (∀ fuel, problem.treeSize problem.root < fuel →
          first.run problem stop fuel = some (outcome, final)) ∧
        final.explored ≤ problem.treeSize problem.root := by
  have hwithin := Within.start problem first
  have hfuel : ∀ started, first.start problem = .running started → started.Holds problem.Reaches ∧
      started.potential problem < problem.treeSize problem.root + 1 := by
    intro started hstart
    rw [hstart] at hwithin
    have hspent := hwithin.spent
    exact ⟨hwithin.held, by omega⟩
  rcases exists_finish hdeepens stop hfuel with ⟨outcome, final, hfinish⟩
  refine ⟨outcome, final, fun fuel hlt => finish_of_le hfinish hlt, ?_⟩
  exact meets_of_finish (fun search hsearch => hsearch.step hdeepens) hwithin hfinish

/--
If the nodes of a tree lie deeper than those they come from, then they are finitely many, and a run takes
at most that number of nodes and of rounds, whatever its agenda and its stop rule. This is so if all nodes
are made by extending others.
-/
theorem explored_le_of_deepens
    : (∀ problem : Problem, problem.Extends → problem.Deepens) ∧
      ∀ problem : Problem, problem.Deepens →
        ∃ occurrences, Problem.Lists occurrences (problem.Unfolds problem.root) ∧
          ∀ (α : Type) [Agenda α] [LawfulAgenda α] (stop : StopRule) (search : Search α),
            ∃ outcome final,
              (∀ fuel, occurrences.length < fuel →
                search.run problem stop fuel = some (outcome, final)) ∧
              final.explored ≤ occurrences.length := by
  refine ⟨fun problem hextends => hextends.deepens, ?_⟩
  intro problem hdeepens
  rcases Problem.exists_occurrences hdeepens Problem.reaches_root with ⟨occurrences, hlists, hsize⟩
  refine ⟨occurrences, hlists, ?_⟩
  intro α _ _ stop search
  rw [hsize]
  exact exists_run_within hdeepens stop search

theorem explored_le_of_deepens_twoSteps
    : CostTable.twoSteps.problem.Extends ∧ CostTable.twoSteps.problem.Deepens ∧
      ∃ occurrences outcome final, Problem.Lists occurrences
          (CostTable.twoSteps.problem.Unfolds CostTable.twoSteps.problem.root) ∧
        (∀ fuel, occurrences.length < fuel →
          ({ agenda := .new {} } : Search DiveQueue).run CostTable.twoSteps.problem .never fuel =
            some (outcome, final)) ∧
        final.bestValue = some 2.5 ∧ final.explored = 6 ∧ 6 ≤ occurrences.length := by
  have hextends := CostTable.twoSteps.problem_extends
  have hdeepens := explored_le_of_deepens.left CostTable.twoSteps.problem hextends
  rcases explored_le_of_deepens.right CostTable.twoSteps.problem hdeepens with
    ⟨occurrences, hlists, hruns⟩
  rcases hruns DiveQueue .never { agenda := .new {} } with ⟨outcome, final, hrun, hexplored⟩
  have hresult : (({ agenda := .new {} } : Search DiveQueue).run CostTable.twoSteps.problem .never 9).map
      (fun (_, last) => (last.bestValue, last.explored)) = some (some 2.5, 6) := by
    decide +kernel
  rcases Option.map_eq_some_iff.mp hresult with ⟨⟨ended, last⟩, hlast, hbest⟩
  have hsame := finish_of_le hlast (Nat.le_add_right 9 (occurrences.length + 1))
  have hagain := hrun (9 + (occurrences.length + 1)) (by omega)
  unfold run at hagain
  rw [hagain, Option.some.injEq, Prod.mk.injEq] at hsame
  rw [← hsame.right, Prod.mk.injEq] at hbest
  refine ⟨hextends, hdeepens, occurrences, outcome, final, hlists, hrun, hbest.left, hbest.right, ?_⟩
  rw [← hbest.right]
  exact hexplored

end Search

end SwitchSearch
