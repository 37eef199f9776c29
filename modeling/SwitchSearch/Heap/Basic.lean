/-!
This module contains a binary heap with a fixed way of sifting, so that the order in which equal
elements leave it is determined. An element that compares greater is nearer the root. `cmp` need not
be an order: whatever it says, both operations only move elements around.
-/

namespace SwitchSearch

/--
A heap of elements that are compared by `cmp`. The children of position `i` are at `2 * i + 1` and
`2 * i + 2`.
-/
structure Heap (α : Type u) (cmp : α → α → Ordering) where
  items : Array α

namespace Heap

variable {α : Type u} {n : Nat}

def siftUp (cmp : α → α → Ordering) (v : Vector α n) (i : Nat) (h : i < n) : Vector α n :=
  if hi : i = 0 then
    v
  else
    if cmp v[i] v[(i - 1) / 2] = .gt then
      siftUp cmp (v.swap i ((i - 1) / 2)) ((i - 1) / 2) (by omega)
    else
      v
termination_by i

/--
Moves the element at `i` down to a leaf, whatever it is compared to: at each step the greater child
goes up, and of two equal children the second one. Also yields the leaf that is reached.
-/
def sink (cmp : α → α → Ordering) (v : Vector α n) (i : Nat) (h : i < n) : Vector α n × Fin n :=
  if both : 2 * i + 2 < n then
    if cmp v[2 * i + 1] v[2 * i + 2] = .gt then
      sink cmp (v.swap i (2 * i + 1)) (2 * i + 1) (by omega)
    else
      sink cmp (v.swap i (2 * i + 2)) (2 * i + 2) both
  else if one : 2 * i + 1 < n then
    (v.swap i (2 * i + 1), ⟨2 * i + 1, one⟩)
  else
    (v, ⟨i, h⟩)
termination_by n - i

def settle (cmp : α → α → Ordering) (v : Vector α n) (h : 0 < n) : Vector α n :=
  let (sunk, leaf) := sink cmp v 0 h
  siftUp cmp sunk leaf leaf.isLt

variable {cmp : α → α → Ordering}

def empty : Heap α cmp where
  items := #[]

def size (heap : Heap α cmp) : Nat :=
  heap.items.size

def toList (heap : Heap α cmp) : List α :=
  heap.items.toList

def top? (heap : Heap α cmp) : Option α :=
  heap.items[0]?

def push (heap : Heap α cmp) (x : α) : Heap α cmp where
  items := (siftUp cmp (heap.items.push x).toVector heap.items.size (by simp)).toArray

def replaceTop (cmp : α → α → Ordering) (items : Array α) (x : α) : α × Heap α cmp :=
  if h : 0 < items.size then
    (items[0], { items := (settle cmp (items.toVector.set 0 x h) h).toArray })
  else
    (x, { items })

def pop? (heap : Heap α cmp) : Option (α × Heap α cmp) :=
  heap.items.back?.map (replaceTop cmp heap.items.pop)

end Heap

end SwitchSearch
