import SwitchSearch.Agenda.Lawful
import SwitchSearch.DiveQueue.Basic
import SwitchSearch.Heap.Lemmas

/-!
This module contains the laws of the three tiers as one collection of nodes. They hold for every
rule, so keys may be NaN: keys decide the order in which nodes leave, and nothing else.
-/

namespace SwitchSearch.DiveQueue

def nodes (queue : DiveQueue) : List Node :=
  queue.pruned ++ queue.dive.toList ++ queue.deferred.toList.map (·.node)

@[simp]
theorem nodes_new (rule : KeyRule) : (new rule).nodes = [] := rfl

theorem size_eq_length_nodes (queue : DiveQueue) : queue.size = queue.nodes.length := by
  simp [size, nodes, Nat.add_assoc]

theorem nodes_dive_perm {queue : DiveQueue} (h : queue.dive = none) (node : Node) :
    ({ queue with dive := some node } : DiveQueue).nodes.Perm (node :: queue.nodes) := by
  simp only [nodes, h, Option.toList_none, Option.toList_some, List.append_nil]
  simp

theorem nodes_perm_of_dive {queue : DiveQueue} {node : Node} (h : queue.dive = some node) :
    queue.nodes.Perm (node :: ({ queue with dive := none } : DiveQueue).nodes) := by
  simp only [nodes, h, Option.toList_none, Option.toList_some, List.append_nil]
  simp

theorem nodes_postpone_perm (queue : DiveQueue) (context : Context) (node : Node) :
    (queue.postpone context node).nodes.Perm (node :: queue.nodes) := by
  have h := (Heap.toList_push_perm queue.deferred
    { key := queue.rule.key node context, node }).map (·.node)
  simp only [nodes, postpone]
  exact (h.append_left _).trans List.perm_middle

theorem nodes_foldl_postpone_perm (context : Context) (batch : List Node) (queue : DiveQueue) :
    (batch.foldl (·.postpone context ·) queue).nodes.Perm (batch ++ queue.nodes) := by
  induction batch generalizing queue with
  | nil => exact .refl _
  | cons node batch ih =>
    refine (ih _).trans ?_
    exact ((nodes_postpone_perm queue context node).append_left batch).trans List.perm_middle

@[simp]
theorem dive_foldl_postpone (context : Context) (batch : List Node) (queue : DiveQueue) :
    (batch.foldl (·.postpone context ·) queue).dive = queue.dive := by
  induction batch generalizing queue with
  | nil => rfl
  | cons node batch ih => exact ih _

theorem nodes_demote_perm (queue : DiveQueue) (context : Context) :
    (queue.demote context).nodes.Perm queue.nodes := by
  unfold demote
  split
  . exact .refl _
  next node h => exact (nodes_postpone_perm _ _ _).trans (nodes_perm_of_dive h).symm

@[simp]
theorem dive_demote (queue : DiveQueue) (context : Context) :
    (queue.demote context).dive = none := by
  unfold demote
  split
  . next h => exact h
  . rfl

theorem pickDive_eq_none_iff {batch : List Node} : pickDive batch = none ↔ batch = [] := by
  cases batch with
  | nil => simp [pickDive]
  | cons node batch =>
    simp only [pickDive, reduceCtorEq, iff_false]
    split <;> try split
    all_goals simp

theorem perm_of_pickDive {batch rest : List Node} {best : Node}
    (h : pickDive batch = some (best, rest)) : batch.Perm (best :: rest) := by
  induction batch generalizing best rest with
  | nil => simp [pickDive] at h
  | cons node batch ih =>
    unfold pickDive at h
    split at h
    next hnone =>
      cases h
      rw [pickDive_eq_none_iff.1 hnone]
    next other others hsome =>
      split at h
      . cases h
        exact ((ih hsome).cons _).trans (.swap _ _ _)
      . cases h
        exact .refl _

theorem nodes_spread_perm {queue : DiveQueue} (h : queue.dive = none) (context : Context)
    (batch : List Node) : (queue.spread context batch).nodes.Perm (batch ++ queue.nodes) := by
  have parts := List.filter_append_perm (·.isCut context.upperBound) batch
  refine .trans ?_ (parts.append_right _)
  unfold spread
  dsimp only
  split
  next hnone =>
    rw [pickDive_eq_none_iff.1 hnone]
    simpa [nodes] using (List.reverse_perm _).append_right _
  next best rest hsome =>
    refine (nodes_dive_perm (by simp [h]) best).trans ?_
    refine ((nodes_foldl_postpone_perm context rest _).cons best).trans ?_
    rw [← List.cons_append]
    refine ((perm_of_pickDive hsome).symm.append_right _).trans ?_
    have cut : ∀ pruned : List Node,
        ({ queue with pruned := pruned.reverse ++ queue.pruned } : DiveQueue).nodes.Perm
          (pruned ++ queue.nodes) := fun pruned => by
      simpa [nodes] using (List.reverse_perm pruned).append_right _
    refine ((cut _).append_left _).trans ?_
    rw [← List.append_assoc]
    exact List.perm_append_comm.append_right _

@[simp]
theorem push_nil (queue : DiveQueue) (context : Context) : queue.push context [] = (.ok (), queue) :=
  rfl

theorem push_cons (queue : DiveQueue) (context : Context) (node : Node) (batch : List Node) :
    queue.push context (node :: batch) =
      match context.checkBatch (node :: batch) with
      | .error e => (.error e, queue)
      | .ok () => (.ok (), (queue.demote context).spread context (node :: batch)) :=
  rfl

theorem nodes_push_of_ok {queue : DiveQueue} {context : Context} {batch : List Node}
    (h : (queue.push context batch).1 = .ok ()) :
    (queue.push context batch).2.nodes.Perm (batch ++ queue.nodes) := by
  cases batch with
  | nil => exact .refl _
  | cons node batch =>
    rw [push_cons] at h ⊢
    split at h
    . simp at h
    . exact (nodes_spread_perm (dive_demote _ _) _ _).trans
        ((nodes_demote_perm queue context).append_left _)

theorem push_of_error {queue : DiveQueue} {context : Context} {batch : List Node} {e : QueueError}
    (h : (queue.push context batch).1 = .error e) : (queue.push context batch).2 = queue := by
  cases batch with
  | nil => rfl
  | cons node batch =>
    rw [push_cons] at h ⊢
    split at h
    . rfl
    . simp at h

theorem pop_fst_eq_top (queue : DiveQueue) : queue.pop.1 = queue.top := by
  unfold pop top
  split
  . rfl
  . split
    . rfl
    . rw [Heap.top?_eq_map_pop?]
      cases queue.deferred.pop? <;> rfl

theorem nodes_pop_of_ok {queue : DiveQueue} {node : Node} (h : queue.pop.1 = .ok node) :
    queue.nodes.Perm (node :: queue.pop.2.nodes) := by
  unfold pop at h ⊢
  split at h
  next hpruned =>
    cases h
    simp [nodes, hpruned]
  next hpruned =>
    split at h
    next hdive =>
      cases h
      exact nodes_perm_of_dive hdive
    next hdive =>
      split at h
      next hdeferred =>
        cases h
        simpa [nodes, hpruned, hdive] using (Heap.toList_perm_of_pop? hdeferred).map (·.node)
      next => simp at h

theorem pop_of_error {queue : DiveQueue} {e : QueueError} (h : queue.pop.1 = .error e) :
    queue.nodes = [] ∧ e = .empty ∧ queue.pop.2 = queue := by
  unfold pop at h ⊢
  split at h
  . simp at h
  next hpruned =>
    split at h
    . simp at h
    next hdive =>
      split at h
      . simp at h
      next hdeferred =>
        cases h
        simp [nodes, hpruned, hdive, (Heap.pop?_eq_none_iff _).1 hdeferred]

instance : LawfulAgenda DiveQueue where
  nodes := nodes
  size_eq := size_eq_length_nodes
  nodes_clear queue := nodes_new queue.rule
  nodes_push_of_ok _ _ _ h := nodes_push_of_ok h
  nodes_push_of_error _ _ _ _ h := .of_eq (congrArg nodes (push_of_error h))
  top_eq_error_iff queue := by
    constructor
    . rintro ⟨e, h⟩
      exact (pop_of_error ((pop_fst_eq_top queue).trans h)).1
    . intro h
      cases htop : queue.top with
      | error e => exact ⟨e, htop⟩
      | ok node =>
        have := nodes_pop_of_ok ((pop_fst_eq_top queue).trans htop)
        simp [h] at this
  pop_eq_top := pop_fst_eq_top
  nodes_pop_of_ok _ _ h := nodes_pop_of_ok h
  nodes_pop_of_error _ _ h := .of_eq (congrArg nodes (pop_of_error h).2.2)

end SwitchSearch.DiveQueue
