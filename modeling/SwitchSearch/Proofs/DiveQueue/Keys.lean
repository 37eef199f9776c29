import SwitchSearch.Proofs.DiveQueue.Admission
import SwitchSearch.Proofs.DiveQueue.Departure
import SwitchSearch.Proofs.KeyRule.Range

/-!
This module contains the keys of the nodes that a queue defers. The test of the queue looks at each
duration and at each bound, but not at their sums, so it keeps NaN out of the bounds of a queue and not
out of its keys. It takes a bound on the total time as well to keep the deferred nodes in order.
-/

namespace SwitchSearch.DiveQueue

variable {queue : DiveQueue} {rule : KeyRule} {operations : List Operation} {context : Context}
  {batch : List Node} {node : Node}

theorem numeric_perform (h : ∀ node ∈ queue.nodes, node.bound.isNaN = false) (operation : Operation)
    : ∀ node ∈ (Agenda.perform queue operation).2.nodes, node.bound.isNaN = false := by
  intro node hmem
  cases operation with
  | push context batch =>
    change node ∈ (queue.push context batch).2.nodes at hmem
    cases hpush : (queue.push context batch).1 with
    | ok =>
      rw [(nodes_push_of_ok hpush).mem_iff, List.mem_append] at hmem
      cases hmem with
      | inl hnew => exact numeric_of_push hpush hnew
      | inr hold => exact h node hold
    | error error =>
      rw [push_of_error hpush] at hmem
      exact h node hmem
  | pop =>
    change node ∈ queue.pop.2.nodes at hmem
    cases hpop : queue.pop.1 with
    | ok taken => exact h node ((nodes_pop_of_ok hpop).mem_iff.mpr (List.mem_cons_of_mem taken hmem))
    | error error =>
      rw [(pop_of_error hpop).right.right] at hmem
      exact h node hmem
  | top => exact h node hmem
  | clear => exact absurd hmem List.not_mem_nil

theorem numeric_reached (rule : KeyRule) (operations : List Operation)
    : ∀ node ∈ (reached rule operations).nodes, node.bound.isNaN = false := by
  induction operations using List.reverseRecOn with
  | nil => exact nofun
  | append_singleton operations last ih =>
    rw [reached_concat]
    exact numeric_perform ih last

theorem rest_subset_of_pickDive {best : Node} {rest : List Node}
    (h : pickDive batch = some (best, rest))
    : rest ⊆ batch :=
  fun _ hmem => (perm_of_pickDive h).mem_iff.mpr (List.mem_cons_of_mem best hmem)

theorem mem_of_mem_deferredNodes (h : node ∈ queue.deferredNodes context batch)
    : queue.dive = some node ∨ node ∈ batch := by
  unfold deferredNodes at h
  rw [List.mem_append, Option.mem_toList] at h
  refine h.imp_right ?_
  intro hrest
  cases hpick : pickDive (liveNodes context batch) with
  | none =>
    rw [hpick] at hrest
    exact absurd hrest List.not_mem_nil
  | some picked =>
    rw [hpick] at hrest
    exact List.mem_of_mem_filter (rest_subset_of_pickDive hpick hrest)

theorem numeric_of_deferred (hpush : ((reached rule operations).push context batch).1 = .ok ())
    (hmem : node ∈ (reached rule operations).deferredNodes context batch)
    : node.bound.isNaN = false := by
  cases mem_of_mem_deferredNodes hmem with
  | inl hdive =>
    apply numeric_reached rule operations
    simp [nodes, hdive]
  | inr hbatch => exact numeric_of_push hpush hbatch

def AlwaysModerate (rule : KeyRule) (operations : List Operation) : Prop :=
  ∀ earlier context batch later, operations = earlier ++ .push context batch :: later → batch ≠ [] →
    ((reached rule earlier).push context batch).1 = .ok () → rule.Moderate context

theorem AlwaysModerate.of_concat {last : Operation} (h : AlwaysModerate rule (operations ++ [last]))
    : AlwaysModerate rule operations := by
  intro earlier context batch later hsplit
  apply h earlier context batch (later ++ [last])
  rw [hsplit, List.append_assoc, List.cons_append]

theorem key_of_push (hrule : rule.Valid) (hne : batch ≠ [])
    (hpush : ((reached rule operations).push context batch).1 = .ok ())
    (hmem : node ∈ (reached rule operations).deferredNodes context batch)
    (hmoderate : rule.Moderate context)
    : (rule.key node context).isNaN = false ∧
      (node.bound.isFinite = true → (node.bound + context.totalTime / rule.base).isFinite = true →
        (rule.key node context).isFinite = true) :=
  KeyRule.key_of_moderate hrule (accepts_of_push hne hpush).left hmoderate
    (numeric_of_deferred hpush hmem)

theorem AlwaysModerate.numeric (hrule : rule.Valid) (h : AlwaysModerate rule operations)
    : (reached rule operations).Numeric := by
  induction operations using List.reverseRecOn with
  | nil => exact nofun
  | append_singleton operations last ih =>
    intro deferral hmem
    rw [reached_concat] at hmem
    rcases mem_deferred_perform hmem with hold | ⟨context, batch, hlast, hne, hpush, hnode, hkey⟩
    . exact ih h.of_concat deferral hold
    . rw [hlast] at h
      rw [hkey, rule_reached]
      exact (key_of_push hrule hne hpush hnode (h operations context batch [] rfl hne hpush)).left

/--
The key of a node that an accepted push defers is not a number exactly when two infinities meet on the
way to it. In a moderate context it is a number, and a finite one if it would be under the largest
discount. As long as all contexts are moderate, the deferred nodes are totally preordered.
-/
theorem keys_of_pushes {draft : KeyRule.Draft} (hbuild : draft.build = .ok rule)
    : (∀ operations context batch node, batch ≠ [] →
        ((reached rule operations).push context batch).1 = .ok () →
        node ∈ (reached rule operations).deferredNodes context batch →
        ((rule.key node context).isNaN = true ↔
          (KeyRule.timeLeft node context).isFinite = false ∧
            (rule.divisor node context).isFinite = false ∨
          (node.bound == -infinity) = true ∧ (rule.discount node context).isFinite = false) ∧
        (rule.Moderate context → (rule.key node context).isNaN = false ∧
          (node.bound.isFinite = true → (node.bound + context.totalTime / rule.base).isFinite = true →
            (rule.key node context).isFinite = true))) ∧
      ∀ operations, AlwaysModerate rule operations →
        Heap.TotalOn Deferred.rank (· ∈ (reached rule operations).deferred.toList) := by
  have hrule := KeyRule.valid_of_build hbuild
  constructor
  . intro operations context batch node hne hpush hmem
    refine ⟨?_, key_of_push hrule hne hpush hmem⟩
    exact KeyRule.isNaN_key_iff hrule (accepts_of_push hne hpush).left (numeric_of_deferred hpush hmem)
  . intro operations hmoderate
    exact Deferred.totalOn_rank.mono (hmoderate.numeric hrule)

theorem alwaysModerate_twoPushes : AlwaysModerate {} twoPushes := by
  intro earlier context batch later hsplit hne hpush
  have hmem : Operation.push context batch ∈ twoPushes := by
    rw [hsplit]
    exact List.mem_append_right _ List.mem_cons_self
  have hdurations : context.durations = [1.0, 2.0] := by
    simp only [twoPushes, List.mem_cons, Operation.push.injEq, List.not_mem_nil, or_false] at hmem
    rcases hmem with ⟨hcontext, hbatch⟩ | ⟨hcontext, hbatch⟩ <;> rw [hcontext] <;> rfl
  unfold KeyRule.Moderate Context.totalTime
  rw [hdurations]
  decide

theorem keys_of_pushes_twoPushes
    : ({} : KeyRule.Draft).build = .ok {} ∧ AlwaysModerate {} twoPushes ∧
      (∀ node ∈ (new {}).deferredNodes (.initial [1.0, 2.0] [1, 1]) ([3.0, 1.0, 2.0].map (Node.root 2 ·)),
        (KeyRule.key {} node (.initial [1.0, 2.0] [1, 1])).isFinite = true) ∧
      (reached {} twoPushes).deferred.size = 3 ∧
      Heap.TotalOn Deferred.rank (· ∈ (reached {} twoPushes).deferred.toList) := by
  have hkeys := keys_of_pushes (show ({} : KeyRule.Draft).build = .ok {} from rfl)
  refine ⟨rfl, alwaysModerate_twoPushes, ?_, by decide +kernel, hkeys.right _ alwaysModerate_twoPushes⟩
  intro node hmem
  have hbound : node ∈ [3.0, 1.0, 2.0].map (Node.root 2 ·) :=
    (mem_of_mem_deferredNodes hmem).resolve_left nofun
  have hfinite : ∀ node ∈ [3.0, 1.0, 2.0].map (Node.root 2 ·), node.bound.isFinite = true ∧
      (node.bound + (Context.initial [1.0, 2.0] [1, 1]).totalTime / 3.0).isFinite = true := by
    decide
  have htime : KeyRule.Moderate {} (Context.initial [1.0, 2.0] [1, 1]) := by
    unfold KeyRule.Moderate
    decide
  have hmoderate := (hkeys.left [] _ _ node (List.cons_ne_nil _ _) rfl hmem).right htime
  exact hmoderate.right (hfinite node hbound).left (hfinite node hbound).right

def mixedBatch : List Node :=
  [(0, 0.0), (0, 2.0), (2, 1.0), (2, 0.5)].map fun (depth, bound) =>
    Node.below none { channel := none, depth, bound, switches := [0] }

/-- All that the test looks at is finite, and still a key is NaN and breaks the order of the others. -/
theorem not_totalOn_overfull
    : ({ weight := some (Float.ofBits 0x7e70000000000000) } : KeyRule.Draft).build = .ok steep ∧
      ((new steep).push overfull mixedBatch).1 = .ok () ∧
      (∃ node ∈ (new steep).deferredNodes overfull mixedBatch,
        node.bound.isFinite = true ∧ (steep.key node overfull).isNaN = true) ∧
      ¬Heap.TotalOn Deferred.rank (· ∈ ((new steep).push overfull mixedBatch).2.deferred.toList) := by
  refine ⟨rfl, rfl, by decide +kernel, ?_⟩
  intro htotal
  have hbroken : ∃ x ∈ ((new steep).push overfull mixedBatch).2.deferred.toList,
      ∃ y ∈ ((new steep).push overfull mixedBatch).2.deferred.toList,
      ∃ z ∈ ((new steep).push overfull mixedBatch).2.deferred.toList,
      Deferred.rank x y ≠ .gt ∧ Deferred.rank y z ≠ .gt ∧ Deferred.rank x z = .gt := by
    decide +kernel
  rcases hbroken with ⟨x, hx, y, hy, z, hz, hxy, hyz, hxz⟩
  exact htotal.trans x y z hx hy hz hxy hyz hxz

end SwitchSearch.DiveQueue
