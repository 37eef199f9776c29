import SwitchSearch.Proofs.CostTable.Sequences
import SwitchSearch.Proofs.Problem.Descent

/-!
This module contains the tree of a table of costs: its nodes are the nodes of the sequences that fit,
and their bounds are what these sequences cost.
-/

namespace SwitchSearch

theorem exists_mapM {α β ε : Type} {f : α → Except ε β} {items : List α}
    (h : ∀ item ∈ items, ∃ result, f item = .ok result)
    : ∃ results, items.mapM f = .ok results ∧
      ∀ result, result ∈ results ↔ ∃ item ∈ items, f item = .ok result := by
  induction items with
  | nil => exact ⟨[], rfl, by simp⟩
  | cons item items ih =>
    rw [List.forall_mem_cons] at h
    rcases h.left with ⟨first, hfirst⟩
    rcases ih h.right with ⟨results, hresults, hmem⟩
    refine ⟨first :: results, ?_, ?_⟩
    . rw [List.mapM_cons, hfirst, hresults]
      rfl
    . intro result
      simp only [List.mem_cons, hmem, exists_eq_or_imp, hfirst, Except.ok.injEq]
      rw [eq_comm]

theorem exists_of_mem_mapM {α β ε : Type} {f : α → Except ε β} {items : List α} {results : List β}
    (h : items.mapM f = .ok results) {result : β} (hmem : result ∈ results)
    : ∃ item ∈ items, f item = .ok result := by
  induction items generalizing results with
  | nil =>
    cases h
    contradiction
  | cons item items ih =>
    rw [List.mapM_cons] at h
    cases hfirst : f item with
    | error error =>
      rw [hfirst] at h
      contradiction
    | ok first =>
      cases hrest : items.mapM f with
      | error error =>
        rw [hfirst, hrest] at h
        contradiction
      | ok rest =>
        rw [hfirst, hrest] at h
        cases h
        cases List.mem_cons.mp hmem with
        | inl heq =>
          rw [heq]
          exact ⟨item, List.mem_cons_self, hfirst⟩
        | inr htail =>
          rcases ih hrest htail with ⟨other, hother, hresult⟩
          exact ⟨other, List.mem_cons_of_mem item hother, hresult⟩

namespace CostTable

variable {table : CostTable} {node child : Node}

structure Traces (table : CostTable) (node : Node) : Prop
    extends Node.Counts table.channels node where
  fits : table.Fits node.sequence
  depth_le : node.depth ≤ table.durations.length
  bound_eq : node.bound = table.cost node.sequence

theorem traces_root (table : CostTable) : table.Traces table.problem.root :=
  { Node.root_counts table.channels table.start with
    fits := Fits.nil
    depth_le := Nat.zero_le _
    bound_eq := rfl }

theorem withinBudgets_iff (h : table.WellFormed) (hcounts : node.Counts table.channels)
    : withinBudgets table.budgets node = true ↔
      ∀ channel budget, table.budgets[channel]? = some budget →
        switchOns channel node.sequence ≤ budget.toNat := by
  have hlength : table.budgets.length = node.switches.length := by
    rw [h.budgets_length, hcounts.length_eq]
  unfold withinBudgets
  rw [List.all_eq_true]
  constructor
  . intro hall channel budget hbudget
    have hlt : channel < node.switches.length := by
      rw [← hlength]
      exact (List.getElem?_eq_some_iff.mp hbudget).choose
    have hcount := List.getElem?_eq_getElem hlt
    have hpair : (node.switches.zip table.budgets)[channel]? = some (node.switches[channel], budget) :=
      List.getElem?_zip_eq_some.mpr ⟨hcount, hbudget⟩
    have hle := hall _ (List.mem_of_getElem? hpair)
    rw [← hcounts.toNat_switches hcount]
    exact UInt32.le_iff_toNat_le.mp (of_decide_eq_true hle)
  . intro hall pair hmem
    rcases List.mem_iff_getElem?.mp hmem with ⟨channel, hpair⟩
    rcases List.getElem?_zip_eq_some.mp hpair with ⟨hcount, hbudget⟩
    have hle := hall channel pair.2 hbudget
    rw [← hcounts.toNat_switches hcount] at hle
    exact decide_eq_true (UInt32.le_iff_toNat_le.mpr hle)

theorem Traces.extend (h : table.WellFormed) (hnode : table.Traces node)
    (hopen : node.depth < table.durations.length) {channel : Nat} (hchannel : channel < table.channels)
    : ∃ child, node.extend channel (node.bound + table.price node.depth channel) = .ok child ∧
      child.Counts table.channels := by
  have hhorizon := h.horizon_lt
  exact hnode.toCounts.extend hchannel (by omega) _

theorem bound_of_extend (hnode : table.Traces node) {channel : Nat}
    (hchild : node.extend channel (node.bound + table.price node.depth channel) = .ok child)
    : child.bound = table.cost child.sequence := by
  rcases Node.sequence_of_extend hchild with ⟨hsequence, hbound⟩
  rw [hbound, hsequence, cost_concat, hnode.bound_eq, hnode.depth_eq]

theorem zipIdx_row (h : table.WellFormed) {step : Nat} (hstep : step < table.durations.length)
    : (table.costs[step]?.getD []).zipIdx =
      (List.range table.channels).map fun channel => (table.price step channel, channel) := by
  have hlt : step < table.costs.length := h.costs_length ▸ hstep
  have hlength := h.rows_length table.costs[step] (List.getElem_mem hlt)
  unfold price
  rw [List.getElem?_eq_getElem hlt, Option.getD_some]
  apply List.ext_getElem
  . simpa using hlength
  . intro channel hleft hright
    have hchannel : channel < table.costs[step].length := by simpa using hleft
    simp [hchannel]

theorem exists_branch (h : table.WellFormed) (hnode : table.Traces node)
    (hopen : node.depth < table.durations.length)
    : ∃ nodes, table.branch node = .ok nodes ∧
      ∀ child, child ∈ nodes ↔ withinBudgets table.budgets child = true ∧
        ∃ channel < table.channels,
          node.extend channel (node.bound + table.price node.depth channel) = .ok child := by
  have hall : ∀ channel ∈ List.range table.channels, ∃ child,
      node.extend channel (node.bound + table.price node.depth channel) = .ok child := by
    intro channel hmem
    rcases hnode.extend h hopen (List.mem_range.mp hmem) with ⟨child, hchild, hcounts⟩
    exact ⟨child, hchild⟩
  rcases exists_mapM hall with ⟨nodes, hnodes, hmem⟩
  have hchildren : children (table.costs[node.depth]?.getD []) node = .ok nodes := by
    unfold children
    rw [zipIdx_row h hopen, List.mapM_map]
    exact hnodes
  unfold branch
  rw [hchildren]
  dsimp only
  rw [if_pos h.enforced]
  refine ⟨_, rfl, ?_⟩
  intro child
  rw [List.mem_filter, hmem, and_comm]
  simp only [List.mem_range]

theorem isChild_iff (h : table.WellFormed) (hnode : table.Traces node)
    : table.problem.IsChild node child ↔ node.depth < table.durations.length ∧
      withinBudgets table.budgets child = true ∧ ∃ channel < table.channels,
        node.extend channel (node.bound + table.price node.depth channel) = .ok child := by
  constructor
  . intro hchild
    have hopen := Problem.isLeaf_eq_false_iff.mp hchild.left
    rcases exists_branch h hnode hopen with ⟨nodes, hnodes, hiff⟩
    exact ⟨hopen, (hiff child).mp (hchild.mem hnodes)⟩
  . intro hchild
    rcases exists_branch h hnode hchild.left with ⟨nodes, hnodes, hiff⟩
    exact ⟨Problem.isLeaf_eq_false_iff.mpr hchild.left, nodes, hnodes, (hiff child).mpr hchild.right⟩

theorem problem_extends (table : CostTable) : table.problem.Extends := by
  rintro parent child ⟨hopen, children, hbranch, hmem⟩
  change table.branch parent = .ok children at hbranch
  unfold branch at hbranch
  split at hbranch
  . contradiction
  . next nodes hnodes =>
    have hnode : child ∈ nodes := by
      cases hbranch
      split at hmem
      . exact List.mem_of_mem_filter hmem
      . exact hmem
    rcases exists_of_mem_mapM hnodes hnode with ⟨⟨cost, channel⟩, hpair, hextend⟩
    exact ⟨channel, _, hextend⟩

theorem Traces.step (h : table.WellFormed) (hnode : table.Traces node)
    (hchild : table.problem.IsChild node child)
    : table.Traces child := by
  rcases (isChild_iff h hnode).mp hchild with ⟨hopen, hwithin, channel, hchannel, hextend⟩
  rcases hnode.extend h hopen hchannel with ⟨other, hother, hcounts⟩
  rw [hextend] at hother
  cases hother
  have hsequence := (Node.sequence_of_extend hextend).left
  refine { hcounts with fits := ?_, depth_le := ?_, bound_eq := bound_of_extend hnode hextend }
  . exact ⟨hcounts.channels_lt, (withinBudgets_iff h hcounts).mp hwithin⟩
  . rw [hcounts.depth_eq, hsequence, List.length_append, ← hnode.depth_eq]
    exact hopen

theorem traces_of_reaches (h : table.WellFormed) (hreaches : table.problem.Reaches node)
    : table.Traces node :=
  hreaches.induct (traces_root table) fun _ _ hparent hchild => hparent.step h hchild

theorem exists_reaches (h : table.WellFormed) {sequence : List Nat} (hfits : table.Fits sequence)
    (hlength : sequence.length ≤ table.durations.length)
    : ∃ node, table.problem.Reaches node ∧ node.sequence = sequence := by
  -- all that comes before the last channel fits as well, and so has a node with this one as a child
  induction sequence using List.reverseRecOn with
  | nil => exact ⟨_, Problem.reaches_root, rfl⟩
  | append_singleton sequence channel ih =>
    rw [List.length_append, List.length_singleton] at hlength
    rcases ih hfits.of_concat (by omega) with ⟨node, hreaches, hsequence⟩
    have hnode := traces_of_reaches h hreaches
    have hopen : node.depth < table.durations.length := by
      rw [hnode.depth_eq, hsequence]
      exact hlength
    have hchannel := hfits.channels_lt channel (List.mem_append_right _ (List.mem_singleton_self _))
    rcases hnode.extend h hopen hchannel with ⟨child, hextend, hcounts⟩
    have hnext := (Node.sequence_of_extend hextend).left
    rw [hsequence] at hnext
    have hwithin : withinBudgets table.budgets child = true := by
      rw [withinBudgets_iff h hcounts, hnext]
      exact hfits.switchOns_le
    have hchild := (isChild_iff h hnode).mpr ⟨hopen, hwithin, channel, hchannel, hextend⟩
    exact ⟨child, hreaches.child hchild, hnext⟩

theorem feasible_of_isLeaf (h : table.WellFormed) (hreaches : table.problem.Reaches node)
    (hleaf : table.problem.isLeaf node = true)
    : table.Feasible node.sequence ∧ table.cost node.sequence = node.bound := by
  have hnode := traces_of_reaches h hreaches
  have hdepth := Nat.le_antisymm hnode.depth_le (Problem.isLeaf_iff.mp hleaf)
  refine ⟨{ hnode.fits with length_eq := ?_ }, hnode.bound_eq.symm⟩
  rw [← hnode.depth_eq]
  exact hdepth

theorem leafCost_iff (h : table.WellFormed) {cost : Float}
    : table.problem.LeafCost cost ↔ ∃ sequence, table.Feasible sequence ∧ table.cost sequence = cost := by
  constructor
  . intro hcost
    rcases hcost with ⟨path, leaf, hpath, hcost⟩
    rcases feasible_of_isLeaf h ⟨path, hpath.descent⟩ hpath.isLeaf with ⟨hfeasible, hsum⟩
    exact ⟨leaf.sequence, hfeasible, hsum.trans hcost⟩
  . intro hcost
    rcases hcost with ⟨sequence, hfeasible, hcost⟩
    rcases exists_reaches h hfeasible.toFits (Nat.le_of_eq hfeasible.length_eq) with
      ⟨leaf, ⟨path, hdescent⟩, hsequence⟩
    have hleaf := traces_of_reaches h ⟨path, hdescent⟩
    refine ⟨path, leaf, ⟨hdescent, Problem.isLeaf_iff.mpr ?_⟩, ?_⟩
    . rw [hleaf.depth_eq, hsequence, hfeasible.length_eq]
      exact Nat.le_refl _
    . rw [hleaf.bound_eq, hsequence, hcost]

end CostTable

end SwitchSearch
