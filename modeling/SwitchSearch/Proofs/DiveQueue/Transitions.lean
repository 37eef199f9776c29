import SwitchSearch.DiveQueue.Lemmas
import SwitchSearch.Proofs.Agenda.Operations

/-!
This module contains all that a push and a pop can do to the three tiers of a queue: which nodes they
prune, defer and dive into, and which keys the deferred nodes get.
-/

namespace SwitchSearch.DiveQueue

def entry (rule : KeyRule) (context : Context) (node : Node) : Deferred :=
  { key := rule.key node context, node }

def cutNodes (context : Context) (batch : List Node) : List Node :=
  batch.filter (·.isCut context.upperBound)

def liveNodes (context : Context) (batch : List Node) : List Node :=
  batch.filter (!·.isCut context.upperBound)

def deferredNodes (queue : DiveQueue) (context : Context) (batch : List Node) : List Node :=
  queue.dive.toList ++ ((pickDive (liveNodes context batch)).map (·.2)).getD []

def taking (queue : DiveQueue) (context : Context) (batch : List Node) : DiveQueue where
  rule := queue.rule
  pruned := (cutNodes context batch).reverse ++ queue.pruned
  dive := (pickDive (liveNodes context batch)).map (·.1)
  deferred := ((queue.deferredNodes context batch).map (entry queue.rule context)).foldl Heap.push
    queue.deferred

theorem foldl_postpone (context : Context) (batch : List Node) (queue : DiveQueue)
    : batch.foldl (·.postpone context ·) queue =
      { queue with
        deferred := (batch.map (entry queue.rule context)).foldl Heap.push queue.deferred } := by
  induction batch generalizing queue with
  | nil => rfl
  | cons node batch ih =>
    rw [List.foldl_cons, ih]
    rfl

theorem demote_eq (queue : DiveQueue) (context : Context)
    : queue.demote context =
      { queue with
        dive := none
        deferred := (queue.dive.toList.map (entry queue.rule context)).foldl Heap.push
          queue.deferred } := by
  unfold demote
  split
  . next hnone =>
    rcases queue with ⟨rule, pruned, dive, deferred⟩
    dsimp only at hnone
    rw [hnone]
    rfl
  . next node hsome =>
    rw [hsome]
    rfl

theorem spread_eq (queue : DiveQueue) (context : Context) (batch : List Node) (hdive : queue.dive = none)
    : queue.spread context batch = queue.taking context batch := by
  unfold spread taking deferredNodes cutNodes liveNodes
  rw [hdive]
  dsimp only
  split
  . next hnone =>
    rw [hnone]
    rfl
  . next best rest hsome =>
    rw [hsome, foldl_postpone]
    rfl

theorem spread_demote_eq (queue : DiveQueue) (context : Context) (batch : List Node)
    : (queue.demote context).spread context batch = queue.taking context batch := by
  rw [spread_eq _ _ _ (dive_demote _ _), demote_eq]
  unfold taking deferredNodes
  simp only [Option.toList_none, List.nil_append, List.map_append, List.foldl_append]

inductive Pushed (queue : DiveQueue) (context : Context) (batch : List Node)
    : Except QueueError Unit × DiveQueue → Prop where
  | nothing (hnil : batch = [])
    : Pushed queue context batch (.ok (), queue)
  | refused (error : QueueError) (hne : batch ≠ []) (hcheck : context.checkBatch batch = .error error)
    : Pushed queue context batch (.error error, queue)
  | taken (hne : batch ≠ []) (hcheck : context.checkBatch batch = .ok ())
    : Pushed queue context batch (.ok (), queue.taking context batch)

theorem pushed_push (queue : DiveQueue) (context : Context) (batch : List Node)
    : Pushed queue context batch (queue.push context batch) := by
  cases batch with
  | nil => exact .nothing rfl
  | cons node batch =>
    rw [push_cons]
    split
    . next error hcheck => exact .refused error (List.cons_ne_nil _ _) hcheck
    . next hcheck =>
      rw [spread_demote_eq]
      exact .taken (List.cons_ne_nil _ _) hcheck

inductive Popped (queue : DiveQueue) : Except QueueError Node × DiveQueue → Prop where
  | pruned (node : Node) (pruned : List Node) (hpruned : queue.pruned = node :: pruned)
    : Popped queue (.ok node, { queue with pruned })
  | dive (node : Node) (hpruned : queue.pruned = []) (hdive : queue.dive = some node)
    : Popped queue (.ok node, { queue with dive := none })
  | deferred (entry : Deferred) (deferred : Heap Deferred Deferred.rank) (hpruned : queue.pruned = [])
      (hdive : queue.dive = none) (hpop : queue.deferred.pop? = some (entry, deferred))
    : Popped queue (.ok entry.node, { queue with deferred })
  | empty (hpruned : queue.pruned = []) (hdive : queue.dive = none) (hpop : queue.deferred.pop? = none)
    : Popped queue (.error .empty, queue)

theorem popped_pop (queue : DiveQueue) : Popped queue queue.pop := by
  unfold pop
  split
  . next node pruned hpruned => exact .pruned node pruned hpruned
  . next hpruned =>
    split
    . next node hdive => exact .dive node hpruned hdive
    . next hdive =>
      split
      . next entry deferred hpop => exact .deferred entry deferred hpruned hdive hpop
      . next hpop => exact .empty hpruned hdive hpop

theorem rule_perform (queue : DiveQueue) (operation : Operation)
    : (Agenda.perform queue operation).2.rule = queue.rule := by
  cases operation with
  | push context batch =>
    change (queue.push context batch).2.rule = queue.rule
    have hpushed := pushed_push queue context batch
    generalize queue.push context batch = result at hpushed ⊢
    cases hpushed <;> rfl
  | pop =>
    change queue.pop.2.rule = queue.rule
    have hpopped := popped_pop queue
    generalize queue.pop = result at hpopped ⊢
    cases hpopped <;> rfl
  | top => rfl
  | clear => rfl

def reached (rule : KeyRule) (operations : List Operation) : DiveQueue :=
  Agenda.after (new rule) operations

theorem reached_concat (rule : KeyRule) (operations : List Operation) (last : Operation)
    : reached rule (operations ++ [last]) = (Agenda.perform (reached rule operations) last).2 :=
  Agenda.after_concat (new rule) operations last

theorem rule_reached (rule : KeyRule) (operations : List Operation)
    : (reached rule operations).rule = rule := by
  induction operations using List.reverseRecOn with
  | nil => rfl
  | append_singleton operations last ih => rw [reached_concat, rule_perform, ih]

end SwitchSearch.DiveQueue
