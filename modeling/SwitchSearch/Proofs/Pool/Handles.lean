import SwitchSearch.Pool

/-!
This module contains what the operations of a pool do to the queue behind each of its handles.
-/

namespace SwitchSearch.Pool

variable {α β : Type} {pool : Pool α}

def group? (pool : Pool α) (handle : Nat) : Option Nat :=
  pool.handles[handle]?.map (·.val)

theorem queue?_eq_bind (handle : Nat)
    : pool.queue? handle = (pool.group? handle).bind (pool.queues[·]?) := by
  unfold queue? group?
  cases pool.handles[handle]? <;> simp

theorem queue?_eq_none_iff {handle : Nat} : pool.queue? handle = none ↔ pool.handles.size ≤ handle := by
  unfold queue?
  rw [Option.map_eq_none_iff, Array.getElem?_eq_none_iff]

theorem group?_ne_groups (handle : Nat) : pool.group? handle ≠ some pool.groups := by
  intro hsome
  rcases Option.map_eq_some_iff.mp hsome with ⟨group, hgroup, heq⟩
  exact Nat.ne_of_lt group.isLt heq

theorem getElem?_view (handle : Nat) : pool.view[handle]? = pool.queue? handle := by
  unfold view queue?
  rw [List.getElem?_map, Array.getElem?_toList]

theorem group?_share (handle other : Nat)
    : (pool.share handle).group? other =
      pool.group? (if other = pool.handles.size then handle else other) := by
  unfold group? share
  cases hgroup : pool.handles[handle]? with
  | none =>
    dsimp only
    split
    . next hlast => simp [hlast, hgroup]
    . rfl
  | some group =>
    dsimp only
    rw [Array.getElem?_push]
    split
    . rw [hgroup]
    . rfl

theorem queue?_share (handle other : Nat)
    : (pool.share handle).queue? other =
      pool.queue? (if other = pool.handles.size then handle else other) := by
  have hqueues : ∀ group : Nat, (pool.share handle).queues[group]? = pool.queues[group]? := by
    unfold share
    cases pool.handles[handle]? <;> exact fun group => rfl
  simp only [queue?_eq_bind, group?_share, hqueues]

theorem group?_fresh (queue : α) (other : Nat)
    : (pool.fresh queue).group? other =
      if other = pool.handles.size then some pool.groups else pool.group? other := by
  unfold group? fresh
  dsimp only
  rw [Array.getElem?_push, Array.size_map]
  split
  . rfl
  . rw [Array.getElem?_map, Option.map_map]
    rfl

theorem queue?_fresh (queue : α) (other : Nat)
    : (pool.fresh queue).queue? other =
      if other = pool.handles.size then some queue else pool.queue? other := by
  unfold queue? fresh
  dsimp only
  rw [Array.getElem?_push, Array.size_map]
  split
  . simp
  . simp [Function.comp_def]

theorem run_fst (handle : Nat) (operation : α → β × α)
    : (pool.run handle operation).1 = (pool.queue? handle).map fun queue => (operation queue).1 := by
  unfold run queue?
  cases pool.handles[handle]? <;> rfl

theorem group?_run (handle other : Nat) (operation : α → β × α)
    : (pool.run handle operation).2.group? other = pool.group? other := by
  unfold run
  cases pool.handles[handle]? <;> rfl

theorem queue?_run (handle other : Nat) (operation : α → β × α)
    : (pool.run handle operation).2.queue? other =
      if pool.group? handle = pool.group? other then
        (pool.queue? other).map fun queue => (operation queue).2
      else
        pool.queue? other := by
  unfold run queue? group?
  cases pool.handles[handle]? with
  | none => cases pool.handles[other]? <;> rfl
  | some group =>
    cases pool.handles[other]? with
    | none => rfl
    | some otherGroup =>
      by_cases hsame : otherGroup = group
      . simp [hsame]
      . have hne : group.val ≠ otherGroup.val := Fin.val_ne_of_ne (Ne.symm hsame)
        simp [hne]

end SwitchSearch.Pool
