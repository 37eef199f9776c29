import SwitchSearch.DiveQueue.Lemmas
import SwitchSearch.Proofs.DiveQueue.Rank

/-!
This module contains the order in which the nodes of a queue leave it: tier by tier, and the deferred
nodes by their keys.
-/

namespace SwitchSearch.DiveQueue

variable {queue : DiveQueue}

theorem pop_of_pruned {node : Node} {pruned : List Node} (h : queue.pruned = node :: pruned)
    : queue.pop = (.ok node, { queue with pruned }) := by
  unfold pop
  rw [h]

theorem pop_of_dive {node : Node} (hpruned : queue.pruned = []) (hdive : queue.dive = some node)
    : queue.pop = (.ok node, { queue with dive := none }) := by
  unfold pop
  rw [hpruned, hdive]

theorem pop_of_deferred {entry : Deferred} {deferred : Heap Deferred Deferred.rank}
    (hpruned : queue.pruned = []) (hdive : queue.dive = none)
    (hpop : queue.deferred.pop? = some (entry, deferred))
    : queue.pop = (.ok entry.node, { queue with deferred }) := by
  unfold pop
  rw [hpruned, hdive, hpop]

theorem drain_go_succ {node : Node} {rest : DiveQueue} (h : queue.pop = (.ok node, rest)) (count : Nat)
    : Agenda.drain.go (count + 1) queue =
      (node :: (Agenda.drain.go count rest).1, (Agenda.drain.go count rest).2) := by
  have hpop : Agenda.pop queue = (.ok node, rest) := h
  rw [Agenda.drain.go, hpop]

def Numeric (queue : DiveQueue) : Prop :=
  ∀ entry ∈ queue.deferred.toList, entry.key.isNaN = false

theorem numeric_of_toList_eq_nil (h : queue.deferred.toList = []) : queue.Numeric := by
  unfold Numeric
  rw [h]
  exact List.forall_mem_nil _

/--
After `count` pops the queue is empty. They have yielded the given nodes first, and then the deferred
nodes, by their keys if these are numbers and in heap order.
-/
def Serves (queue : DiveQueue) (count : Nat) (first : List Node) : Prop :=
  ∃ (entries : List Deferred) (rest : DiveQueue),
    Agenda.drain.go count queue = (first ++ entries.map (·.node), rest) ∧ rest.nodes = [] ∧
    entries.Perm queue.deferred.toList ∧
    (queue.Numeric → queue.deferred.IsOrdered →
      entries.Pairwise fun earlier later => Deferred.rank later earlier ≠ .gt)

theorem serves_cons {node : Node} {rest : DiveQueue} {count : Nat} {first : List Node}
    (hpop : queue.pop = (.ok node, rest)) (hdeferred : rest.deferred = queue.deferred)
    (h : rest.Serves count first)
    : queue.Serves (count + 1) (node :: first) := by
  rcases h with ⟨entries, last, hgo, hempty, hperm, hsorted⟩
  unfold Numeric at hsorted
  rw [hdeferred] at hperm hsorted
  refine ⟨entries, last, ?_, hempty, hperm, hsorted⟩
  rw [drain_go_succ hpop, hgo]
  rfl

theorem serves_deferred (hpruned : queue.pruned = []) (hdive : queue.dive = none)
    : queue.Serves queue.deferred.size [] := by
  generalize hsize : queue.deferred.size = size
  induction size generalizing queue with
  | zero =>
    have hnil : queue.deferred.toList = [] := by
      rw [← List.length_eq_zero_iff, Heap.length_toList, hsize]
    refine ⟨[], queue, rfl, ?_, ?_, fun _ _ => .nil⟩
    . simp [nodes, hpruned, hdive, hnil]
    . rw [hnil]
  | succ size ih =>
    cases hpop : queue.deferred.pop? with
    | none =>
      rw [Heap.pop?_eq_none_iff_size, hsize] at hpop
      contradiction
    | some popped =>
      rcases popped with ⟨entry, deferred⟩
      have hperm := Heap.toList_perm_of_pop? hpop
      have hsmaller : deferred.size = size := by
        have hlength := Heap.size_of_pop? hpop
        omega
      rcases @ih { queue with deferred } hpruned hdive hsmaller with
        ⟨entries, rest, hgo, hempty, hentries, hsorted⟩
      refine ⟨entry :: entries, rest, ?_, hempty, (hentries.cons entry).trans hperm.symm, ?_⟩
      . rw [drain_go_succ (pop_of_deferred hpruned hdive hpop), hgo]
        rfl
      . intro hnumeric hordered
        rcases hordered.pop? Deferred.totalOn_rank hnumeric hpop with ⟨hrest, hgreatest⟩
        have hkeys : ∀ other ∈ deferred.toList, other.key.isNaN = false := by
          intro other hmem
          exact hnumeric other (hperm.mem_iff.mpr (List.mem_cons_of_mem entry hmem))
        apply List.pairwise_cons.mpr ⟨?_, hsorted hkeys hrest⟩
        intro later hmem
        exact hgreatest later (hentries.mem_iff.mp hmem)

theorem serves_dive (hpruned : queue.pruned = [])
    : queue.Serves (queue.dive.toList.length + queue.deferred.size) queue.dive.toList := by
  cases hdive : queue.dive with
  | none =>
    rw [Option.toList_none, List.length_nil, Nat.zero_add]
    exact serves_deferred hpruned hdive
  | some node =>
    have hended : ({ queue with dive := none } : DiveQueue).Serves queue.deferred.size [] :=
      serves_deferred hpruned rfl
    rw [Option.toList_some, List.length_singleton, Nat.add_comm]
    exact serves_cons (pop_of_dive hpruned hdive) rfl hended

theorem serves_pruned (queue : DiveQueue)
    : queue.Serves queue.size (queue.pruned ++ queue.dive.toList) := by
  unfold size
  generalize hpruned : queue.pruned = pruned
  induction pruned generalizing queue with
  | nil =>
    rw [List.length_nil, Nat.zero_add]
    exact serves_dive hpruned
  | cons node pruned ih =>
    have hrest := ih { queue with pruned } rfl
    have hcount : (node :: pruned).length + queue.dive.toList.length + queue.deferred.size =
        pruned.length + queue.dive.toList.length + queue.deferred.size + 1 := by
      rw [List.length_cons]
      omega
    rw [hcount]
    exact serves_cons (pop_of_pruned hpruned) rfl hrest

end SwitchSearch.DiveQueue
