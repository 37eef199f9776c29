import SwitchSearch.Proofs.DiveQueue.Conservation
import SwitchSearch.Proofs.DiveQueue.Drain
import SwitchSearch.Proofs.DiveQueue.Transitions

/-!
This module contains the order in which a queue is drained after any operations: tier by tier, and the
deferred nodes by their keys, provided that these were numbers all the time that there were any.
-/

namespace SwitchSearch.DiveQueue

variable {queue : DiveQueue} {rule : KeyRule} {operations : List Operation} {deferral : Deferred}

theorem isOrdered_perform (operation : Operation) (hnumeric : queue.Numeric)
    (hnext : (Agenda.perform queue operation).2.Numeric) (h : queue.deferred.IsOrdered)
    : (Agenda.perform queue operation).2.deferred.IsOrdered := by
  cases operation with
  | push context batch =>
    change (queue.push context batch).2.Numeric at hnext
    change (queue.push context batch).2.deferred.IsOrdered
    have hpushed := pushed_push queue context batch
    generalize queue.push context batch = result at hpushed hnext ⊢
    cases hpushed with
    | nothing hnil => exact h
    | refused error hne hcheck => exact h
    | taken hne hcheck => exact h.foldl_push Deferred.totalOn_rank _ hnext
  | pop =>
    change queue.pop.2.deferred.IsOrdered
    have hpopped := popped_pop queue
    generalize queue.pop = result at hpopped ⊢
    cases hpopped with
    | pruned node pruned hpruned => exact h
    | dive node hpruned hdive => exact h
    | deferred entry deferred hpruned hdive hpop =>
      exact (h.pop? Deferred.totalOn_rank hnumeric hpop).left
    | empty hpruned hdive hpop => exact h
  | top => exact h
  | clear => exact Heap.isOrdered_of_toList_eq_nil rfl

/--
No key has been NaN since the queue last had no deferred node. It is not enough that none is now, since
a key that is NaN may leave a disorder behind.
-/
inductive NumericSinceEmpty (rule : KeyRule) : List Operation → Prop where
  | empty {operations : List Operation} (hnil : (reached rule operations).deferred.toList = [])
    : NumericSinceEmpty rule operations
  | more {operations : List Operation} {last : Operation} (hsince : NumericSinceEmpty rule operations)
      (hnumeric : (reached rule (operations ++ [last])).Numeric)
      : NumericSinceEmpty rule (operations ++ [last])

/-- The time of both steps overflows, and so does the divisor of a node that has not switched yet. -/
def overfull : Context where
  upperBound := 100.0
  durations := [Float.ofBits 0x7fe0000000000000, Float.ofBits 0x7fe0000000000000]
  budgets := [4000000000]

def steep : KeyRule :=
  { weight := Float.ofBits 0x7e70000000000000 }

def strayBatch : List Node :=
  [(0, 1.0, 1), (1, 0.5, 0), (1, 2.0, 0), (1, 5.0, 3), (1, 1.0, 3), (1, 3.0, 0), (1, 4.0, 2)].map
    fun (depth, bound, count) => Node.below none { channel := none, depth, bound, switches := [count] }

def strays : List Operation :=
  [.push overfull strayBatch, .pop, .pop, .pop]

/-- When the key that is NaN has left, the key 2 is filed below the key 3. -/
theorem not_isOrdered_strays
    : ({ weight := some (Float.ofBits 0x7e70000000000000) } : KeyRule.Draft).build = .ok steep ∧
      ((new steep).push overfull strayBatch).1 = .ok () ∧ (reached steep strays).Numeric ∧
      ¬(reached steep strays).deferred.IsOrdered ∧
      (reached steep strays).deferred.toList.map (·.key) = [3.0, 2.0, 4.0, 5.0] ∧
      (Agenda.drain (reached steep strays)).1.map (·.bound) = [3.0, 2.0, 4.0, 5.0] := by
  have hkeys : (reached steep strays).deferred.toList.map (·.key) = [3.0, 2.0, 4.0, 5.0] := by
    decide +kernel
  have hnumeric : ∀ key ∈ [3.0, 2.0, 4.0, 5.0], Float.isNaN key = false := by decide
  refine ⟨rfl, rfl, ?_, ?_, hkeys, by decide +kernel⟩
  . intro entry hmem
    apply hnumeric
    rw [← hkeys]
    exact List.mem_map_of_mem hmem
  . intro hordered
    exact hordered 1 0 (by decide +kernel) (by decide +kernel) (.inl rfl) (by decide +kernel)

namespace NumericSinceEmpty

theorem of_always (h : ∀ earlier, earlier <+: operations → (reached rule earlier).Numeric)
    : NumericSinceEmpty rule operations := by
  induction operations using List.reverseRecOn with
  | nil => exact .empty rfl
  | append_singleton operations last ih =>
    refine .more (ih ?_) (h _ (List.prefix_refl _))
    exact fun earlier hinitial => h earlier (hinitial.trans (List.prefix_append _ _))

theorem numeric (h : NumericSinceEmpty rule operations) : (reached rule operations).Numeric := by
  cases h with
  | empty hnil => exact numeric_of_toList_eq_nil hnil
  | more hsince hnumeric => exact hnumeric

theorem isOrdered (h : NumericSinceEmpty rule operations)
    : (reached rule operations).deferred.IsOrdered := by
  induction h with
  | empty hnil => exact Heap.isOrdered_of_toList_eq_nil hnil
  | more hsince hnumeric ih =>
    rw [reached_concat] at hnumeric ⊢
    exact isOrdered_perform _ hsince.numeric hnumeric ih

end NumericSinceEmpty

/--
The node was deferred by one of the operations, a push, under the key that it had in the context of
that push, and it has been deferred ever since.
-/
def DeferredBy (rule : KeyRule) (operations : List Operation) (deferral : Deferred) : Prop :=
  ∃ earlier context batch later,
    operations = earlier ++ .push context batch :: later ∧
    ((reached rule earlier).push context batch).1 = .ok () ∧
    deferral.node ∈ (reached rule earlier).deferredNodes context batch ∧
    deferral.key = rule.key deferral.node context ∧
    ∀ part, part <+: later →
      deferral ∈ (reached rule (earlier ++ .push context batch :: part)).deferred.toList

theorem DeferredBy.concat {last : Operation} (h : DeferredBy rule operations deferral)
    (hmem : deferral ∈ (reached rule (operations ++ [last])).deferred.toList)
    : DeferredBy rule (operations ++ [last]) deferral := by
  rcases h with ⟨earlier, context, batch, later, hsplit, hpush, hnode, hkey, hstays⟩
  have hassoc : operations ++ [last] = earlier ++ .push context batch :: (later ++ [last]) := by
    rw [hsplit, List.append_assoc, List.cons_append]
  refine ⟨earlier, context, batch, later ++ [last], hassoc, hpush, hnode, hkey, ?_⟩
  intro part hpart
  cases List.prefix_concat_iff.mp hpart with
  | inl hall =>
    rw [hall, ← hassoc]
    exact hmem
  | inr hbefore => exact hstays part hbefore

theorem mem_deferred_perform {operation : Operation}
    (h : deferral ∈ (Agenda.perform queue operation).2.deferred.toList)
    : deferral ∈ queue.deferred.toList ∨ ∃ context batch, operation = .push context batch ∧
      batch ≠ [] ∧ (queue.push context batch).1 = .ok () ∧
      deferral.node ∈ queue.deferredNodes context batch ∧
      deferral.key = queue.rule.key deferral.node context := by
  cases operation with
  | push context batch =>
    change deferral ∈ (queue.push context batch).2.deferred.toList at h
    have hpushed := pushed_push queue context batch
    generalize hresult : queue.push context batch = result at hpushed h
    cases hpushed with
    | nothing hnil => exact .inl h
    | refused error hne hcheck => exact .inl h
    | taken hne hcheck =>
      rw [taking, (Heap.toList_foldl_push_perm _ _).mem_iff, List.mem_append] at h
      cases h with
      | inl hnew =>
        rcases List.mem_map.mp hnew with ⟨node, hnode, hentry⟩
        rw [← hentry]
        exact .inr ⟨context, batch, rfl, hne, congrArg Prod.fst hresult, hnode, rfl⟩
      | inr hold => exact .inl hold
  | pop =>
    change deferral ∈ queue.pop.2.deferred.toList at h
    have hpopped := popped_pop queue
    generalize queue.pop = result at hpopped h
    cases hpopped with
    | pruned node pruned hpruned => exact .inl h
    | dive node hpruned hdive => exact .inl h
    | deferred entry deferred hpruned hdive hpop =>
      exact .inl ((Heap.toList_perm_of_pop? hpop).mem_iff.mpr (List.mem_cons_of_mem entry h))
    | empty hpruned hdive hpop => exact .inl h
  | top => exact .inl h
  | clear => exact absurd h List.not_mem_nil

theorem deferredBy_of_mem (h : deferral ∈ (reached rule operations).deferred.toList)
    : DeferredBy rule operations deferral := by
  -- what is deferred now has been deferred before the last operation, or is deferred by it
  induction operations using List.reverseRecOn with
  | nil => exact absurd h List.not_mem_nil
  | append_singleton operations last ih =>
    have hmem := h
    rw [reached_concat] at h
    rcases mem_deferred_perform h with hold | ⟨context, batch, hlast, hne, hpush, hnode, hkey⟩
    . exact (ih hold).concat hmem
    . rw [rule_reached] at hkey
      rw [hlast] at hmem ⊢
      refine ⟨operations, context, batch, [], rfl, hpush, hnode, hkey, ?_⟩
      intro part hpart
      rw [List.prefix_nil.mp hpart]
      exact hmem

theorem pruned_perform {ledger : Ledger} (h : queue.pruned.reverse.Sublist ledger.pushed)
    (operation : Operation)
    : (Agenda.perform queue operation).2.pruned.reverse.Sublist
        (ledger.record operation (Agenda.perform queue operation).1).pushed := by
  cases operation with
  | push context batch =>
    unfold Agenda.perform
    change (queue.push context batch).2.pruned.reverse.Sublist
      (ledger.record _ (.pushed (queue.push context batch).1)).pushed
    have hpushed := pushed_push queue context batch
    generalize queue.push context batch = result at hpushed ⊢
    cases hpushed with
    | nothing hnil => exact h.trans (List.sublist_append_left _ _)
    | refused error hne hcheck => exact h
    | taken hne hcheck =>
      rw [taking, List.reverse_append, List.reverse_reverse]
      exact h.append List.filter_sublist
  | pop =>
    change queue.pop.2.pruned.reverse.Sublist (ledger.record _ (.popped queue.pop.1)).pushed
    have hpopped := popped_pop queue
    generalize queue.pop = result at hpopped ⊢
    cases hpopped with
    | pruned node pruned hpruned =>
      rw [hpruned, List.reverse_cons] at h
      exact (List.sublist_append_left _ _).trans h
    | dive node hpruned hdive => exact h
    | deferred entry deferred hpruned hdive hpop => exact h
    | empty hpruned hdive hpop => exact h
  | top => exact h
  | clear => exact .slnil

theorem pruned_reached (rule : KeyRule) (operations : List Operation)
    : (reached rule operations).pruned.reverse.Sublist
        (Agenda.ledger (new rule) operations).pushed := by
  induction operations using List.reverseRecOn with
  | nil => exact .slnil
  | append_singleton operations last ih =>
    rw [reached_concat, Agenda.ledger_concat]
    exact pruned_perform ih last

def Precedes (first second : Deferred) : Prop :=
  first.key ≤ second.key ∧
    ((first.key == second.key) = true → second.node.maxSwitches ≤ first.node.maxSwitches)

theorem precedes_of_rank {first second : Deferred} (hfirst : first.key.isNaN = false)
    (hsecond : second.key.isNaN = false) (h : Deferred.rank second first ≠ .gt)
    : Precedes first second := by
  rw [Deferred.rank_ne_gt_iff hsecond hfirst] at h
  unfold Precedes
  rw [Binary64.le_iff, Binary64.beq_iff]
  rcases h with hlt | ⟨heq, hswitches⟩
  . exact ⟨⟨⟨hfirst, hsecond⟩, hlt.le⟩, fun hkeys => absurd hkeys.right hlt.ne⟩
  . exact ⟨⟨⟨hfirst, hsecond⟩, heq.le⟩, fun _ => hswitches⟩

/--
When a queue is drained, the pruned nodes come first, the newest before the others, then the dive, and
then the deferred nodes. If no key has been NaN since there was no deferred node, these are in heap order,
and they leave by the keys under which they were deferred.
-/
theorem drain_reached (rule : KeyRule) (operations : List Operation)
    : (reached rule operations).pruned.reverse.Sublist
        (Agenda.ledger (new rule) operations).pushed ∧
      ∃ (entries : List Deferred) (rest : DiveQueue),
        Agenda.drain (reached rule operations) =
          ((reached rule operations).pruned ++ (reached rule operations).dive.toList ++
            entries.map (·.node), rest) ∧
        rest.pop = (.error .empty, rest) ∧
        entries.Perm (reached rule operations).deferred.toList ∧
        (∀ deferral ∈ entries, DeferredBy rule operations deferral) ∧
        (NumericSinceEmpty rule operations →
          (reached rule operations).deferred.IsOrdered ∧
          entries.Pairwise (fun earlier later => Deferred.rank later earlier ≠ .gt) ∧
          entries.Pairwise Precedes) := by
  rcases serves_pruned (reached rule operations) with ⟨entries, rest, hdrain, hempty, hperm, hsorted⟩
  refine ⟨pruned_reached rule operations, entries, rest, hdrain, pop_of_nodes_eq_nil hempty, hperm, ?_, ?_⟩
  . intro deferral hmem
    exact deferredBy_of_mem (hperm.mem_iff.mp hmem)
  . intro hsince
    have hnumeric := hsince.numeric
    have hranked := hsorted hnumeric hsince.isOrdered
    refine ⟨hsince.isOrdered, hranked, ?_⟩
    apply hranked.imp_of_mem
    intro earlier later hearlier hlater hrank
    exact precedes_of_rank (hnumeric _ (hperm.mem_iff.mp hearlier))
      (hnumeric _ (hperm.mem_iff.mp hlater)) hrank

def twoPushes : List Operation :=
  let node (bound : Float) := Node.root 2 bound
  let context : Context := .initial [1.0, 2.0] [1, 1]
  [.push context ([3.0, 1.0, 2.0].map node),
    .push { context with upperBound := 4.0 } ([5.0, 0.5].map node)]

theorem numericSinceEmpty_twoPushes : NumericSinceEmpty {} twoPushes := by
  have hall : ∀ count ≤ 2, ∀ entry ∈ (reached {} (twoPushes.take count)).deferred.toList,
      entry.key.isNaN = false := by
    decide +kernel
  apply NumericSinceEmpty.of_always
  intro earlier hinitial
  rw [List.prefix_iff_eq_take.mp hinitial]
  exact hall earlier.length hinitial.length_le

theorem drain_reached_twoPushes
    : NumericSinceEmpty {} twoPushes ∧ (reached {} twoPushes).deferred.IsOrdered ∧
      ∃ (entries : List Deferred) (rest : DiveQueue),
        Agenda.drain (reached {} twoPushes) =
          (Node.root 2 5.0 :: Node.root 2 0.5 :: entries.map (·.node), rest) ∧
        entries.length = 3 ∧ entries.Pairwise Precedes := by
  rcases drain_reached {} twoPushes with
    ⟨hpruned, entries, rest, hdrain, hfail, hperm, hdeferred, hsorted⟩
  rcases hsorted numericSinceEmpty_twoPushes with ⟨hordered, hranked, hprecedes⟩
  refine ⟨numericSinceEmpty_twoPushes, hordered, entries, rest, ?_, ?_, hprecedes⟩
  . have hfirst : (reached {} twoPushes).pruned = [Node.root 2 5.0] := by rfl
    have hdive : (reached {} twoPushes).dive = some (Node.root 2 0.5) := by rfl
    rw [hdrain, hfirst, hdive]
    rfl
  . rw [hperm.length_eq]
    decide +kernel

end SwitchSearch.DiveQueue
