import SwitchSearch.Heap.Basic

/-!
This module contains the laws of a heap as a collection. They hold for every comparison: pushing adds
one element, and popping takes off the top and nothing else.
-/

namespace SwitchSearch.Heap

variable {α : Type u} {n : Nat} {cmp : α → α → Ordering}

theorem siftUp_perm (v : Vector α n) (i : Nat) (h : i < n) : (siftUp cmp v i h).Perm v := by
  fun_induction siftUp cmp v i h with
  | case1 => exact .refl _
  | case2 v i h hi hgt ih => exact ih.trans (Vector.swap_perm _ _)
  | case3 => exact .refl _

theorem sink_perm (v : Vector α n) (i : Nat) (h : i < n) : (sink cmp v i h).1.Perm v := by
  fun_induction sink cmp v i h with
  | case1 v i h both hgt ih => exact ih.trans (Vector.swap_perm _ _)
  | case2 v i h both hgt ih => exact ih.trans (Vector.swap_perm _ _)
  | case3 v i h both one => exact Vector.swap_perm h one
  | case4 => exact .refl _

theorem settle_perm (v : Vector α n) (h : 0 < n) : (settle cmp v h).Perm v :=
  (siftUp_perm _ _ _).trans (sink_perm _ _ _)

@[simp]
theorem length_toList (heap : Heap α cmp) : heap.toList.length = heap.size :=
  Array.length_toList

theorem toList_push_perm (heap : Heap α cmp) (x : α) :
    (heap.push x).toList.Perm (x :: heap.toList) := by
  have h : (heap.push x).toList.Perm (heap.items.push x).toList := (siftUp_perm _ _ _).toList
  rw [Array.toList_push] at h
  exact h.trans (List.perm_append_singleton x heap.toList)

theorem toList_foldl_push_perm (items : List α) (heap : Heap α cmp) :
    (items.foldl push heap).toList.Perm (items ++ heap.toList) := by
  induction items generalizing heap with
  | nil => exact .refl _
  | cons item items ih =>
    refine (ih (heap.push item)).trans ?_
    exact ((toList_push_perm heap item).append_left items).trans List.perm_middle

theorem size_foldl_push (items : List α) (heap : Heap α cmp) :
    (items.foldl push heap).size = items.length + heap.size := by
  rw [← length_toList, (toList_foldl_push_perm items heap).length_eq, List.length_append, length_toList]

theorem replaceTop_perm (cmp : α → α → Ordering) (items : Array α) (x : α) :
    (x :: items.toList).Perm ((replaceTop cmp items x).1 :: (replaceTop cmp items x).2.toList) := by
  unfold replaceTop
  split
  next h =>
    have settled : (settle cmp (items.toVector.set 0 x h) h).toArray.toList.Perm
        (items.toVector.set 0 x h).toArray.toList := (settle_perm _ h).toList
    refine .trans ?_ (settled.symm.cons _)
    obtain ⟨list⟩ := items
    cases list with
    | nil => simp at h
    | cons y ys => simpa using List.Perm.swap y x ys
  next => exact .refl _

theorem pop?_eq_none_iff (heap : Heap α cmp) : heap.pop? = none ↔ heap.toList = [] := by
  simp [pop?, toList]

theorem pop?_eq_none_iff_size {heap : Heap α cmp} : heap.pop? = none ↔ heap.size = 0 := by
  rw [pop?_eq_none_iff, ← List.length_eq_zero_iff, length_toList]

theorem pop?_push_mk (items : Array α) (x : α) :
    ({ items := items.push x } : Heap α cmp).pop? = some (replaceTop cmp items x) := by
  simp [pop?]

theorem toList_perm_of_pop? {heap rest : Heap α cmp} {x : α} (h : heap.pop? = some (x, rest)) :
    heap.toList.Perm (x :: rest.toList) := by
  obtain ⟨items⟩ := heap
  obtain ⟨last, hlast, -⟩ := Option.map_eq_some_iff.1 h
  obtain ⟨items, rfl⟩ := Array.back?_eq_some_iff.1 hlast
  rw [pop?_push_mk] at h
  have perm := replaceTop_perm cmp items last
  rw [Option.some.inj h] at perm
  exact .trans (by simp [toList]) perm

theorem size_of_pop? {heap rest : Heap α cmp} {x : α} (h : heap.pop? = some (x, rest)) :
    heap.size = rest.size + 1 := by
  rw [← length_toList, (toList_perm_of_pop? h).length_eq, List.length_cons, length_toList]

theorem top?_eq_map_pop? (heap : Heap α cmp) : heap.top? = heap.pop?.map Prod.fst := by
  obtain ⟨items⟩ := heap
  cases hlast : items.back? with
  | none => simp_all [pop?, top?]
  | some last =>
    obtain ⟨items, rfl⟩ := Array.back?_eq_some_iff.1 hlast
    rw [pop?_push_mk, Option.map_some, top?, replaceTop]
    split
    next h => simp [Array.getElem_push_lt h]
    next h => simp_all

end SwitchSearch.Heap
