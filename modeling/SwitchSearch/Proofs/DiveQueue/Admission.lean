import SwitchSearch.DiveQueue.Lemmas

/-!
This module contains what it takes for a batch of nodes to pass the test of the queue.
-/

namespace SwitchSearch

theorem forM_eq_ok_iff {α ε : Type} {check : α → Except ε Unit} {items : List α}
    : items.forM check = .ok () ↔ ∀ item ∈ items, check item = .ok () := by
  induction items with
  | nil => exact iff_of_true rfl nofun
  | cons item items ih =>
    rw [List.forM_eq_forM, List.forM_cons, List.forall_mem_cons, ← ih]
    cases check item <;> simp [bind, Except.bind]

namespace Context

variable {context : Context}

theorem checkDurations_eq_ok_iff
    : context.checkDurations = .ok () ↔ ∀ duration ∈ context.durations, isDuration duration = true := by
  rw [← List.zipIdx_map_fst 0 context.durations, List.forall_mem_map]
  unfold checkDurations
  split
  . next hnone => simpa using hnone
  . next duration step hsome =>
    have hbad := List.find?_some hsome
    have hmem := List.mem_of_find?_eq_some hsome
    simp only [reduceCtorEq, false_iff]
    intro hall
    simp [hall _ hmem] at hbad

theorem checkNode_eq_ok_iff {node : Node}
    : context.checkNode node = .ok () ↔
      node.bound.isNaN = false ∧ node.switches.length = context.channels ∧
        node.depth ≤ context.horizon := by
  unfold checkNode
  grind

theorem checkBatch_eq_ok_iff {batch : List Node}
    : context.checkBatch batch = .ok () ↔
      (∀ duration ∈ context.durations, isDuration duration = true) ∧
        ∀ node ∈ batch, context.checkNode node = .ok () := by
  rw [← checkDurations_eq_ok_iff, ← forM_eq_ok_iff]
  unfold checkBatch
  cases context.checkDurations <;> simp [bind, Except.bind]

end Context

namespace DiveQueue

theorem push_eq_ok_iff {queue : DiveQueue} {context : Context} {batch : List Node}
    : (queue.push context batch).1 = .ok () ↔ batch = [] ∨ context.checkBatch batch = .ok () := by
  cases batch with
  | nil => exact iff_of_true rfl (.inl rfl)
  | cons node batch =>
    rw [push_cons]
    split
    . next error herror => simp [herror]
    . next hok => simp [hok]

theorem accepts_of_push {queue : DiveQueue} {context : Context} {batch : List Node} (hne : batch ≠ [])
    (hpush : (queue.push context batch).1 = .ok ())
    : (∀ duration ∈ context.durations, Context.isDuration duration = true) ∧
      ∀ node ∈ batch, context.checkNode node = .ok () :=
  Context.checkBatch_eq_ok_iff.mp ((push_eq_ok_iff.mp hpush).resolve_left hne)

theorem numeric_of_push {queue : DiveQueue} {context : Context} {batch : List Node} {node : Node}
    (hpush : (queue.push context batch).1 = .ok ()) (hmem : node ∈ batch)
    : node.bound.isNaN = false := by
  have haccepts := accepts_of_push (List.ne_nil_of_mem hmem) hpush
  exact (Context.checkNode_eq_ok_iff.mp (haccepts.right node hmem)).left

end DiveQueue

end SwitchSearch
