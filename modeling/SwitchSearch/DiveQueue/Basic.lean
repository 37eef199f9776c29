import SwitchSearch.Agenda.Basic
import SwitchSearch.DiveQueue.Admission
import SwitchSearch.DiveQueue.Deferred
import SwitchSearch.Heap.Basic
import SwitchSearch.KeyRule

/-!
This module contains a queue of nodes between depth first and best first. A search that uses it dives:
after a node come its children, the most promising one first, so that good solutions turn up early.
When a dive has come to its end, the search goes on with the best of the nodes deferred on the way.
-/

namespace SwitchSearch

structure DiveQueue where
  rule : KeyRule
  /-- The nodes that were no better than the best solution when they came, newest first. -/
  pruned : List Node := []
  dive : Option Node := none
  deferred : Heap Deferred Deferred.rank := .empty

namespace DiveQueue

def new (rule : KeyRule) : DiveQueue :=
  { rule }

def size (queue : DiveQueue) : Nat :=
  queue.pruned.length + queue.dive.toList.length + queue.deferred.size

def top (queue : DiveQueue) : Except QueueError Node :=
  match queue.pruned with
  | node :: _ => .ok node
  | [] =>
    match queue.dive with
    | some node => .ok node
    | none =>
      match queue.deferred.top? with
      | some entry => .ok entry.node
      | none => .error .empty

def pop (queue : DiveQueue) : Except QueueError Node × DiveQueue :=
  match queue.pruned with
  | node :: pruned => (.ok node, { queue with pruned })
  | [] =>
    match queue.dive with
    | some node => (.ok node, { queue with dive := none })
    | none =>
      match queue.deferred.pop? with
      | some (entry, deferred) => (.ok entry.node, { queue with deferred })
      | none => (.error .empty, queue)

def postpone (queue : DiveQueue) (context : Context) (node : Node) : DiveQueue :=
  { queue with deferred := queue.deferred.push { key := queue.rule.key node context, node } }

def demote (queue : DiveQueue) (context : Context) : DiveQueue :=
  match queue.dive with
  | none => queue
  | some node => { queue with dive := none }.postpone context node

def pickDive : List Node → Option (Node × List Node)
  | [] => none
  | node :: nodes =>
    match pickDive nodes with
    | none => some (node, [])
    | some (best, rest) =>
      -- strictly, so that the first of equal nodes stays
      if best.divesBefore node then some (best, node :: rest) else some (node, nodes)

/--
Spreads nodes over the tiers: those that cannot improve on the best solution are pruned, the best of
the others becomes the dive, and the rest is deferred.
-/
def spread (queue : DiveQueue) (context : Context) (batch : List Node) : DiveQueue :=
  let cut := batch.filter (·.isCut context.upperBound)
  let live := batch.filter (!·.isCut context.upperBound)
  let queue := { queue with pruned := cut.reverse ++ queue.pruned }
  match pickDive live with
  | none => queue
  | some (best, rest) => { rest.foldl (·.postpone context ·) queue with dive := some best }

def push (queue : DiveQueue) (context : Context) (batch : List Node) :
    Except QueueError Unit × DiveQueue :=
  if batch.isEmpty then
    (.ok (), queue)
  else
    match context.checkBatch batch with
    | .error e => (.error e, queue)
    | .ok () => (.ok (), (queue.demote context).spread context batch)

def clear (queue : DiveQueue) : DiveQueue :=
  new queue.rule

instance : Agenda DiveQueue where
  size := size
  top := top
  pop := pop
  push := push
  clear := clear

end DiveQueue

end SwitchSearch
