import SwitchSearch.Proofs.DiveQueue.Conservation
import SwitchSearch.Proofs.DiveQueue.Drain
import SwitchSearch.Proofs.DiveQueue.Transitions

/-!
This module contains the proof that the rule of a queue decides in which order its deferred nodes leave
and nothing else: two queues under different rules stay in step, whatever both are asked to do.
-/

namespace SwitchSearch

def Answer.error? : Answer → Option QueueError
  | .pushed (.error error) | .popped (.error error) | .shown (.error error) => some error
  | _ => none

namespace DiveQueue

variable {left right : DiveQueue}

/-- The queues differ in their rules and in their deferred nodes at most, and not in how many these are. -/
structure InStep (left right : DiveQueue) : Prop where
  pruned : left.pruned = right.pruned
  dive : left.dive = right.dive
  deferred : left.deferred.size = right.deferred.size

def AsksDeferred (queue : DiveQueue) (operation : Operation) : Prop :=
  queue.pruned = [] ∧ queue.dive = none ∧ (operation = .pop ∨ operation = .top)

structure AnswerAlike (left right : DiveQueue) (operation : Operation) : Prop where
  error_eq : (Agenda.perform left operation).1.error? = (Agenda.perform right operation).1.error?
  answer_eq : (Agenda.perform left operation).1 = (Agenda.perform right operation).1 ∨
    left.AsksDeferred operation ∧ right.AsksDeferred operation

theorem InStep.size_eq (h : InStep left right) : left.size = right.size := by
  unfold size
  rw [h.pruned, h.dive, h.deferred]

theorem InStep.taking (h : InStep left right) (context : Context) (batch : List Node)
    : InStep (left.taking context batch) (right.taking context batch) where
  pruned := by
    unfold DiveQueue.taking
    rw [h.pruned]
  dive := rfl
  deferred := by
    -- the keys under which nodes are deferred differ, but the nodes are those of the dive and the batch
    unfold DiveQueue.taking deferredNodes
    rw [Heap.size_foldl_push, Heap.size_foldl_push, List.length_map, List.length_map, h.dive, h.deferred]

theorem InStep.push (h : InStep left right) (context : Context) (batch : List Node)
    : (left.push context batch).1 = (right.push context batch).1 ∧
      InStep (left.push context batch).2 (right.push context batch).2 := by
  cases batch with
  | nil => exact ⟨rfl, h⟩
  | cons node batch =>
    rw [push_cons, push_cons, spread_demote_eq, spread_demote_eq]
    split
    . exact ⟨rfl, h⟩
    . exact ⟨rfl, h.taking context (node :: batch)⟩

theorem InStep.pop (h : InStep left right)
    : InStep left.pop.2 right.pop.2 ∧
      (left.pop.1 = right.pop.1 ∨ left.pruned = [] ∧ left.dive = none ∧
        ∃ first second, left.pop.1 = .ok first ∧ right.pop.1 = .ok second) := by
  have hpopped := popped_pop left
  generalize left.pop = result at hpopped ⊢
  cases hpopped with
  | pruned node pruned hpruned =>
    rw [pop_of_pruned (h.pruned.symm.trans hpruned)]
    exact ⟨{ h with pruned := rfl }, .inl rfl⟩
  | dive node hpruned hdive =>
    rw [pop_of_dive (h.pruned.symm.trans hpruned) (h.dive.symm.trans hdive)]
    exact ⟨{ h with dive := rfl }, .inl rfl⟩
  | deferred entry deferred hpruned hdive hpop =>
    have hsize := h.deferred
    rw [Heap.size_of_pop? hpop] at hsize
    cases hother : right.deferred.pop? with
    | none =>
      rw [Heap.pop?_eq_none_iff_size.mp hother] at hsize
      contradiction
    | some popped =>
      rw [Heap.size_of_pop? hother, Nat.add_right_cancel_iff] at hsize
      rw [pop_of_deferred (h.pruned.symm.trans hpruned) (h.dive.symm.trans hdive) hother]
      exact ⟨{ h with deferred := hsize }, .inr ⟨hpruned, hdive, _, _, rfl, rfl⟩⟩
  | empty hpruned hdive hpop =>
    have hsize := h.size_eq
    unfold size at hsize
    rw [hpruned, hdive, Heap.pop?_eq_none_iff_size.mp hpop] at hsize
    have hnodes : right.nodes = [] := by
      rw [← List.length_eq_zero_iff, ← size_eq_length_nodes]
      exact hsize.symm
    rw [pop_of_nodes_eq_nil hnodes]
    exact ⟨h, .inl rfl⟩

theorem InStep.answerAlike_pop (h : InStep left right)
    : AnswerAlike left right .pop ∧ AnswerAlike left right .top := by
  have hanswers := h.pop.right
  have hpopped : ∀ queue : DiveQueue, (Agenda.perform queue .pop).1 = .popped queue.pop.1 := fun _ => rfl
  have hshown : ∀ queue : DiveQueue, (Agenda.perform queue .top).1 = .shown queue.pop.1 := by
    intro queue
    rw [pop_fst_eq_top]
    rfl
  rcases hanswers with hsame | ⟨hpruned, hdive, first, second, hfirst, hsecond⟩
  . refine ⟨⟨?_, .inl ?_⟩, ⟨?_, .inl ?_⟩⟩ <;> simp only [hpopped, hshown, hsame]
  . have hother := h.pruned.symm.trans hpruned
    have hended := h.dive.symm.trans hdive
    refine ⟨⟨?_, .inr ⟨⟨hpruned, hdive, .inl rfl⟩, hother, hended, .inl rfl⟩⟩,
      ⟨?_, .inr ⟨⟨hpruned, hdive, .inr rfl⟩, hother, hended, .inr rfl⟩⟩⟩
    . rw [hpopped, hpopped, hfirst, hsecond]
      rfl
    . rw [hshown, hshown, hfirst, hsecond]
      rfl

theorem InStep.perform (h : InStep left right) (operation : Operation)
    : AnswerAlike left right operation ∧
      InStep (Agenda.perform left operation).2 (Agenda.perform right operation).2 := by
  cases operation with
  | push context batch =>
    rcases h.push context batch with ⟨hresult, hnext⟩
    have hanswer : (Agenda.perform left (.push context batch)).1 =
        (Agenda.perform right (.push context batch)).1 := congrArg Answer.pushed hresult
    exact ⟨⟨congrArg Answer.error? hanswer, .inl hanswer⟩, hnext⟩
  | pop => exact ⟨h.answerAlike_pop.left, h.pop.left⟩
  | top => exact ⟨h.answerAlike_pop.right, h⟩
  | clear => exact ⟨⟨rfl, .inl rfl⟩, rfl, rfl, rfl⟩

theorem inStep_reached (first second : KeyRule) (operations : List Operation)
    : InStep (reached first operations) (reached second operations) := by
  induction operations using List.reverseRecOn with
  | nil => exact ⟨rfl, rfl, rfl⟩
  | append_singleton operations last ih =>
    rw [reached_concat, reached_concat]
    exact (ih.perform last).right

/--
Under whatever rules, the same operations leave two queues with the same pruned nodes, the same dive and
as many deferred nodes. The next operation fails on both for the same reason or on neither, and gets the
same answer from both unless it is a deferred node that each of them has to answer with.
-/
theorem answerAlike_reached (first second : KeyRule) (operations : List Operation)
    : (reached first operations).size = (reached second operations).size ∧
      InStep (reached first operations) (reached second operations) ∧
      ∀ next, AnswerAlike (reached first operations) (reached second operations) next := by
  have hstep := inStep_reached first second operations
  exact ⟨hstep.size_eq, hstep, fun next => (hstep.perform next).left⟩

example :
    let batch := [(1.0, 1), (2.0, 0), (5.0, 1)].map fun (bound, depth) =>
      Node.below none { channel := some 0, depth, bound, switches := [0] }
    let operations :=
      [.push { upperBound := infinity, durations := [30.0], budgets := [0] } batch, .pop]
    (reached {} operations).top.toOption.any (·.bound == 5.0) ∧
      (reached { base := 30.0 } operations).top.toOption.any (·.bound == 2.0) := by
  decide +kernel

end DiveQueue

end SwitchSearch
