import SwitchSearch.Proofs.DiveQueue.Choice
import SwitchSearch.Proofs.DiveQueue.Departure

/-!
This module contains the place that a push gives to each node: in which tier the nodes of the batch end up,
and what becomes of the nodes that the queue has held before.
-/

namespace SwitchSearch.DiveQueue

variable {queue : DiveQueue} {context : Context} {batch : List Node} {best : Node} {position : Nat}

def IsBestAt (context : Context) (batch : List Node) (position : Nat) : Prop :=
  ∃ node, batch[position]? = some node ∧ node.isCut context.upperBound = false ∧
    ∀ other ∈ batch, other.isCut context.upperBound = false → ¬other.Beats node

def IsFirstBestAt (context : Context) (batch : List Node) (position : Nat) : Prop :=
  IsBestAt context batch position ∧ ∀ earlier < position, ¬IsBestAt context batch earlier

structure Placed (queue : DiveQueue) (context : Context) (batch : List Node) (target : Option Nat)
    (next : DiveQueue) : Prop where
  rule_eq : next.rule = queue.rule
  target_eq_some_iff : ∀ position, target = some position ↔ IsFirstBestAt context batch position
  dive_eq : next.dive = target.bind (batch[·]?)
  dive_eq_none_iff : next.dive = none ↔ ∀ node ∈ batch, context.upperBound ≤ node.bound
  pruned_eq : next.pruned.reverse = queue.pruned.reverse ++ cutNodes context batch
  deferred_perm : next.deferred.toList.Perm (queue.deferred.toList ++
    (queue.dive.toList ++ liveNodes context (target.elim batch batch.eraseIdx)).map
      (entry queue.rule context))

theorem mem_liveNodes_iff {node : Node}
    : node ∈ liveNodes context batch ↔ node ∈ batch ∧ node.isCut context.upperBound = false := by
  simp [liveNodes]

theorem liveNodes_eq_nil_iff
    : liveNodes context batch = [] ↔ ∀ node ∈ batch, context.upperBound ≤ node.bound := by
  unfold liveNodes
  rw [List.filter_eq_nil_iff]
  simp only [Bool.not_eq_true', Bool.not_eq_false, Node.isCut_iff]

theorem IsFirstBestAt.unique {other : Nat} (h : IsFirstBestAt context batch position)
    (hother : IsFirstBestAt context batch other)
    : position = other := by
  rcases Nat.lt_trichotomy position other with hlt | heq | hgt
  . exact absurd h.left (hother.right position hlt)
  . exact heq
  . exact absurd hother.left (h.right other hgt)

theorem exists_position (hnan : ∀ node ∈ batch, node.bound.isNaN = false)
    (h : best.IsFirstBest (liveNodes context batch))
    : ∃ position, batch[position]? = some best ∧ IsFirstBestAt context batch position := by
  have hbest := mem_liveNodes_iff.mp h.mem
  have hnumeric := hnan best hbest.left
  rcases h with ⟨before, after, hlive, hbefore, hafter⟩
  rcases Node.split_of_filter hlive with ⟨front, rest, hbatch, hkept, hfront, hrest⟩
  have hget : batch[front.length]? = some best := by
    rw [hbatch, List.getElem?_append_right (Nat.le_refl _), Nat.sub_self]
    rfl
  refine ⟨front.length, hget, ⟨best, hget, hbest.right, ?_⟩, ?_⟩
  . intro other hmem hcut
    have hother := mem_liveNodes_iff.mpr ⟨hmem, hcut⟩
    rw [hlive, List.mem_append, List.mem_cons] at hother
    rw [Node.beats_iff (hnan other hmem) hnumeric]
    rcases hother with hother | heq | hother
    . have hless := hbefore other hother
      rw [Node.beats_iff hnumeric (hnan other hmem)] at hless
      exact lt_asymm hless
    . rw [heq]
      exact lt_irrefl _
    . have hless := hafter other hother
      rwa [Node.beats_iff (hnan other hmem) hnumeric] at hless
  . -- a node further in front that is not cut is beaten by the best one
    rintro earlier hlt ⟨other, hother, hcut, hunbeaten⟩
    rw [hbatch, List.getElem?_append_left hlt] at hother
    have hmem : other ∈ before := by
      rw [← hfront]
      exact List.mem_filter.mpr ⟨List.mem_of_getElem? hother, by simp [hcut]⟩
    exact hunbeaten best hbest.left hbest.right (hbefore other hmem)

theorem liveNodes_perm_of_getElem? (h : batch[position]? = some best)
    (hcut : best.isCut context.upperBound = false)
    : (liveNodes context batch).Perm (best :: liveNodes context (batch.eraseIdx position)) := by
  rcases List.getElem?_eq_some_iff.mp h with ⟨hlt, hget⟩
  have hperm := (List.getElem_cons_eraseIdx_perm hlt).symm
  rw [hget] at hperm
  have hlive := hperm.filter (!·.isCut context.upperBound)
  rwa [List.filter_cons_of_pos (by simp [hcut])] at hlive

theorem exists_target (hnan : ∀ node ∈ batch, node.bound.isNaN = false)
    : ∃ target : Option Nat, (∀ position, target = some position ↔ IsFirstBestAt context batch position) ∧
        (pickDive (liveNodes context batch)).map (·.1) = target.bind (batch[·]?) ∧
        (((pickDive (liveNodes context batch)).map (·.2)).getD []).Perm
          (liveNodes context (target.elim batch batch.eraseIdx)) := by
  cases hpick : pickDive (liveNodes context batch) with
  | none =>
    have hnil := pickDive_eq_none_iff.mp hpick
    refine ⟨none, ?_, rfl, ?_⟩
    . intro position
      refine iff_of_false nofun ?_
      rintro ⟨⟨node, hget, hcut, hbest⟩, hfirst⟩
      have hmem := mem_liveNodes_iff.mpr ⟨List.mem_of_getElem? hget, hcut⟩
      rw [hnil] at hmem
      exact absurd hmem List.not_mem_nil
    . rw [Option.elim_none, hnil]
      exact .nil
  | some pick =>
    rcases pick with ⟨best, rest⟩
    have hfirst := isFirstBest_of_pickDive
      (fun node hmem => hnan node (mem_liveNodes_iff.mp hmem).left) hpick
    rcases exists_position hnan hfirst with ⟨position, hget, hposition⟩
    refine ⟨some position, ?_, hget.symm, ?_⟩
    . intro other
      constructor
      . intro heq
        rw [← Option.some.inj heq]
        exact hposition
      . exact fun hother => congrArg some (hposition.unique hother)
    . have hcut := (mem_liveNodes_iff.mp hfirst.mem).right
      exact ((perm_of_pickDive hpick).symm.trans (liveNodes_perm_of_getElem? hget hcut)).cons_inv

/--
A push that is accepted dives into the first of the best nodes that are not cut, if there is one. It
prunes the nodes that are cut, and it defers all the others and the node of the dive so far, whatever the
bound of that one, under the keys that they have now. The other nodes of the queue stay as they are.
-/
theorem placed_of_push (queue : DiveQueue) (context : Context) (batch : List Node) (hne : batch ≠ [])
    (hcheck : context.checkBatch batch = .ok ())
    : ∃ target next, queue.push context batch = (.ok (), next) ∧
        Placed queue context batch target next := by
  have hnan : ∀ node ∈ batch, node.bound.isNaN = false := by
    intro node hmem
    exact (Context.checkNode_eq_ok_iff.mp ((Context.checkBatch_eq_ok_iff.mp hcheck).right node hmem)).left
  have hpush : queue.push context batch = (.ok (), queue.taking context batch) := by
    have hpushed := pushed_push queue context batch
    generalize queue.push context batch = result at hpushed ⊢
    cases hpushed with
    | nothing hnil => exact absurd hnil hne
    | refused error hnonempty hrefused =>
      rw [hcheck] at hrefused
      contradiction
    | taken hnonempty hpasses => rfl
  rcases @exists_target context batch hnan with ⟨target, htarget, hdive, hrest⟩
  refine ⟨target, _, hpush, ?_⟩
  constructor
  . rfl
  . exact htarget
  . exact hdive
  . rw [← liveNodes_eq_nil_iff, ← pickDive_eq_none_iff]
    exact Option.map_eq_none_iff
  . unfold taking
    rw [List.reverse_append, List.reverse_reverse]
  . refine (Heap.toList_foldl_push_perm _ _).trans (List.perm_append_comm.trans ?_)
    exact ((hrest.append_left _).map _).append_left _

def tightContext : Context where
  upperBound := 0.4
  durations := [1.0, 2.0]
  budgets := [1, 1]

def tiedBatch : List Node :=
  [(0.2, 1), (0.9, 0), (0.2, 0), (0.2, 0)].map fun (bound, count) =>
    Node.below none { channel := none, depth := 0, bound, switches := [count, 0] }

theorem placed_of_push_tiedBatch
    : tiedBatch ≠ [] ∧ tightContext.checkBatch tiedBatch = .ok () ∧ ∃ target next,
        (reached {} twoPushes).push tightContext tiedBatch = (.ok (), next) ∧
        Placed (reached {} twoPushes) tightContext tiedBatch target next ∧
        next.dive.map (fun node => (node.bound, node.maxSwitches)) = some (0.2, 0) ∧
        next.pruned.map (·.bound) = [0.9, 5.0] ∧ next.deferred.size = 6 := by
  have hne : tiedBatch ≠ [] := List.cons_ne_nil _ _
  have hcheck : tightContext.checkBatch tiedBatch = .ok () := rfl
  rcases placed_of_push (reached {} twoPushes) tightContext tiedBatch hne hcheck with
    ⟨target, next, hpush, hplaced⟩
  have hnext : ((reached {} twoPushes).push tightContext tiedBatch).2 = next := congrArg Prod.snd hpush
  refine ⟨hne, hcheck, target, next, hpush, hplaced, ?_, ?_, ?_⟩
  . rw [← hnext]
    rfl
  . rw [← hnext]
    rfl
  . rw [← hnext]
    decide +kernel

end SwitchSearch.DiveQueue
