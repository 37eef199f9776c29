import SwitchSearch.Heap.Lemmas

/-!
This module contains the proof that a heap is ordered: no element compares greater than its parent, so
that the elements leave from the greatest to the least. It needs a comparison that is a total preorder
on the elements of the heap, but not beyond.
-/

namespace SwitchSearch.Heap

variable {α : Type u} {n : Nat} {cmp : α → α → Ordering} {domain : α → Prop}

structure TotalOn (cmp : α → α → Ordering) (domain : α → Prop) : Prop where
  swap : ∀ x y, domain x → domain y → cmp y x = (cmp x y).swap
  trans : ∀ x y z, domain x → domain y → domain z → cmp x y ≠ .gt → cmp y z ≠ .gt → cmp x z ≠ .gt

theorem TotalOn.of_eq_gt (h : TotalOn cmp domain) {x y : α} (hx : domain x) (hy : domain y)
    (hgt : cmp x y = .gt)
    : cmp y x ≠ .gt := by
  rw [h.swap x y hx hy, hgt]
  exact nofun

theorem TotalOn.refl (h : TotalOn cmp domain) {x : α} (hx : domain x) : cmp x x ≠ .gt := by
  intro hgt
  exact h.of_eq_gt hx hx hgt hgt

theorem TotalOn.mono {smaller : α → Prop} (h : TotalOn cmp domain) (hsub : ∀ x, smaller x → domain x)
    : TotalOn cmp smaller where
  swap := fun x y hx hy => h.swap x y (hsub x hx) (hsub y hy)
  trans := fun x y z hx hy hz => h.trans x y z (hsub x hx) (hsub y hy) (hsub z hz)

def IsChild (i j : Nat) : Prop :=
  i = 2 * j + 1 ∨ i = 2 * j + 2

def Ordered (cmp : α → α → Ordering) (v : Vector α n) : Prop :=
  ∀ i j, (hi : i < n) → (hj : j < n) → IsChild i j → cmp v[i] v[j] ≠ .gt

structure OrderedAround (cmp : α → α → Ordering) (v : Vector α n) (hole : Nat) : Prop where
  apart : ∀ i j, (hi : i < n) → (hj : j < n) → IsChild i j → i ≠ hole → j ≠ hole →
    cmp v[i] v[j] ≠ .gt
  across : ∀ i j, (hi : i < n) → (hj : j < n) → IsChild i hole → IsChild hole j →
    cmp v[i] v[j] ≠ .gt

structure OrderedBelow (cmp : α → α → Ordering) (v : Vector α n) (hole : Nat) : Prop
    extends OrderedAround cmp v hole where
  below : ∀ i, (hi : i < n) → (hhole : hole < n) → IsChild i hole → cmp v[i] v[hole] ≠ .gt

theorem OrderedBelow.ordered {v : Vector α n} {hole : Nat} (h : OrderedBelow cmp v hole)
    (habove : ∀ j, (hhole : hole < n) → (hj : j < n) → IsChild hole j → cmp v[hole] v[j] ≠ .gt)
    : Ordered cmp v := by
  intro i j hi hj hchild
  by_cases hhole : i = hole
  . subst hhole
    exact habove j hi hj hchild
  . by_cases hparent : j = hole
    . subst hparent
      exact h.below i hi hj hchild
    . exact h.apart i j hi hj hchild hhole hparent

theorem OrderedBelow.raise {v : Vector α n} {hole parent : Nat} (htotal : TotalOn cmp domain)
    (hdomain : ∀ i, (hi : i < n) → domain v[i]) (h : OrderedBelow cmp v hole) (hhole : hole < n)
    (hparent : parent < n) (hchild : IsChild hole parent) (hgt : cmp v[hole] v[parent] = .gt)
    : OrderedBelow cmp (v.swap hole parent) parent := by
  have hless := htotal.of_eq_gt (hdomain hole hhole) (hdomain parent hparent) hgt
  constructor
  . constructor
    . intro i j hi hj hpair hinot hjnot
      have hihole : i ≠ hole := by
        unfold IsChild at *
        omega
      rw [Vector.getElem_swap_of_ne hihole hinot]
      by_cases hjhole : j = hole
      . subst hjhole
        rw [Vector.getElem_swap_left]
        exact h.across i parent hi hparent hpair hchild
      . rw [Vector.getElem_swap_of_ne hjhole hjnot]
        exact h.apart i j hi hj hpair hihole hjhole
    . intro i j hi hj hpair hgrand
      have hbetween : j < parent ∧ parent < hole := by
        unfold IsChild at *
        omega
      have hup := h.apart parent j hparent hj hgrand (by omega) (by omega)
      -- a child of the new hole either was its parent or was below its parent
      rw [Vector.getElem_swap_of_ne (k := j) (by omega) (by omega)]
      by_cases hihole : i = hole
      . subst hihole
        rw [Vector.getElem_swap_left]
        exact hup
      . have hinot : i ≠ parent := by
          unfold IsChild at *
          omega
        rw [Vector.getElem_swap_of_ne hihole hinot]
        have hbelow := h.apart i parent hi hparent hpair hihole (by omega)
        exact htotal.trans _ _ _ (hdomain i hi) (hdomain parent hparent) (hdomain j hj) hbelow hup
  . intro i hi hparent hpair
    rw [Vector.getElem_swap_right]
    by_cases hihole : i = hole
    . subst hihole
      rw [Vector.getElem_swap_left]
      exact hless
    . have hinot : i ≠ parent ∧ parent ≠ hole := by
        unfold IsChild at *
        omega
      rw [Vector.getElem_swap_of_ne hihole hinot.left]
      have hbelow := h.apart i parent hi hparent hpair hihole hinot.right
      exact htotal.trans _ _ _ (hdomain i hi) (hdomain parent hparent) (hdomain hole hhole) hbelow hless

theorem domain_swap {v : Vector α n} (hdomain : ∀ i, (hi : i < n) → domain v[i]) {i j : Nat} (hi : i < n)
    (hj : j < n)
    : ∀ k, (hk : k < n) → domain (v.swap i j)[k] := by
  intro k hk
  rw [Vector.getElem_swap]
  split
  . exact hdomain j hj
  . split
    . exact hdomain i hi
    . exact hdomain k hk

theorem ordered_siftUp (htotal : TotalOn cmp domain) {v : Vector α n}
    (hdomain : ∀ i, (hi : i < n) → domain v[i]) {i : Nat} (hi : i < n) (h : OrderedBelow cmp v i)
    : Ordered cmp (siftUp cmp v i hi) := by
  -- the element at the hole is above its children, so only the pair with its parent is open
  fun_induction siftUp cmp v i hi with
  | case1 v hi =>
    apply h.ordered
    intro j hhole hj hchild
    unfold IsChild at hchild
    omega
  | case2 v i hi hne hgt ih =>
    have hchild : IsChild i ((i - 1) / 2) := by
      unfold IsChild
      omega
    exact ih (domain_swap hdomain _ _) (h.raise htotal hdomain hi _ hchild hgt)
  | case3 v i hi hne hgt =>
    apply h.ordered
    intro j hhole hj hchild
    have hparent : j = (i - 1) / 2 := by
      unfold IsChild at hchild
      omega
    subst hparent
    exact hgt

theorem OrderedAround.lower {v : Vector α n} {hole child : Nat} (h : OrderedAround cmp v hole)
    (hhole : hole < n) (hchild : child < n) (hpair : IsChild child hole)
    (hgreatest : ∀ i, (hi : i < n) → IsChild i hole → cmp v[i] v[child] ≠ .gt)
    : OrderedAround cmp (v.swap hole child) child := by
  constructor
  . intro i j hi hj hother hinot hjnot
    by_cases hihole : i = hole
    . subst hihole
      have hjhole : j ≠ i := by
        unfold IsChild at *
        omega
      rw [Vector.getElem_swap_left, Vector.getElem_swap_of_ne hjhole hjnot]
      exact h.across child j hchild hj hpair hother
    . rw [Vector.getElem_swap_of_ne hihole hinot]
      by_cases hjhole : j = hole
      . subst hjhole
        rw [Vector.getElem_swap_left]
        exact hgreatest i hi hother
      . rw [Vector.getElem_swap_of_ne hjhole hjnot]
        exact h.apart i j hi hj hother hihole hjhole
  . intro i j hi hj hbelow habove
    have hplaces : j = hole ∧ i ≠ hole ∧ i ≠ child ∧ child ≠ hole := by
      unfold IsChild at *
      omega
    rcases hplaces with ⟨hjhole, hihole, hinot, hne⟩
    subst hjhole
    rw [Vector.getElem_swap_left, Vector.getElem_swap_of_ne hihole hinot]
    exact h.apart i child hi hchild hbelow hihole hne

theorem OrderedAround.of_leaf {v : Vector α n} {leaf : Nat} (h : OrderedAround cmp v leaf)
    (hleaf : n ≤ 2 * leaf + 1)
    : OrderedBelow cmp v leaf := by
  refine { h with below := ?_ }
  intro i hi hhole hpair
  unfold IsChild at hpair
  omega

theorem orderedBelow_sink (htotal : TotalOn cmp domain) {v : Vector α n}
    (hdomain : ∀ i, (hi : i < n) → domain v[i]) {i : Nat} (hi : i < n) (h : OrderedAround cmp v i)
    : OrderedBelow cmp (sink cmp v i hi).1 (sink cmp v i hi).2 := by
  -- the sinking element is never compared, so all pairs that it belongs to are open down to the leaf
  fun_induction sink cmp v i hi with
  | case1 v i hi both hgt ih =>
    apply ih (domain_swap hdomain _ _)
    apply h.lower hi (by omega) (.inl rfl)
    intro j hj hpair
    cases hpair with
    | inl hleft =>
      subst hleft
      exact htotal.refl (hdomain _ hj)
    | inr hright =>
      subst hright
      exact htotal.of_eq_gt (hdomain _ _) (hdomain _ hj) hgt
  | case2 v i hi both hgt ih =>
    apply ih (domain_swap hdomain _ _)
    apply h.lower hi both (.inr rfl)
    intro j hj hpair
    cases hpair with
    | inl hleft =>
      subst hleft
      exact hgt
    | inr hright =>
      subst hright
      exact htotal.refl (hdomain _ hj)
  | case3 v i hi both one =>
    apply OrderedAround.of_leaf
    . apply h.lower hi one (.inl rfl)
      intro j hj hpair
      cases hpair with
      | inl hleft =>
        subst hleft
        exact htotal.refl (hdomain _ hj)
      | inr hright => omega
    . dsimp only
      omega
  | case4 v i hi both one =>
    apply h.of_leaf
    omega

theorem domain_of_perm {v w : Vector α n} (hperm : w.Perm v)
    (hdomain : ∀ i, (hi : i < n) → domain v[i])
    : ∀ i, (hi : i < n) → domain w[i] := by
  intro i hi
  have hmem : w[i] ∈ v := hperm.mem_iff.mp (Vector.getElem_mem hi)
  rcases Vector.getElem_of_mem hmem with ⟨j, hj, heq⟩
  rw [← heq]
  exact hdomain j hj

theorem ordered_settle (htotal : TotalOn cmp domain) {v : Vector α n}
    (hdomain : ∀ i, (hi : i < n) → domain v[i]) (hn : 0 < n) (h : OrderedAround cmp v 0)
    : Ordered cmp (settle cmp v hn) := by
  have hsunk := domain_of_perm (@sink_perm _ _ cmp v 0 hn) hdomain
  exact ordered_siftUp htotal hsunk _ (orderedBelow_sink htotal hdomain hn h)

theorem Ordered.le_root (htotal : TotalOn cmp domain) {v : Vector α n}
    (hdomain : ∀ i, (hi : i < n) → domain v[i]) (h : Ordered cmp v) (hn : 0 < n) {i : Nat} (hi : i < n)
    : cmp v[i] v[0] ≠ .gt := by
  induction i using Nat.strongRecOn with
  | ind i ih =>
    cases i with
    | zero => exact htotal.refl (hdomain 0 hi)
    | succ i =>
      have hpair : IsChild (i + 1) (i / 2) := by
        unfold IsChild
        omega
      have hup := ih (i / 2) (by omega) (by omega)
      have hdown := h (i + 1) (i / 2) hi (by omega) hpair
      exact htotal.trans _ _ _ (hdomain _ _) (hdomain _ _) (hdomain _ _) hdown hup

def IsOrdered (heap : Heap α cmp) : Prop :=
  ∀ i j, (hi : i < heap.items.size) → (hj : j < heap.items.size) → IsChild i j →
    cmp heap.items[i] heap.items[j] ≠ .gt

variable {heap rest : Heap α cmp} {x : α}

theorem isOrdered_of_toList_eq_nil (h : heap.toList = []) : heap.IsOrdered := by
  intro i j hi hj hpair
  rw [← size, ← length_toList, h] at hi
  contradiction

theorem Ordered.isOrdered {v : Vector α n} (h : Ordered cmp v)
    : ({ items := v.toArray } : Heap α cmp).IsOrdered := by
  have hsize : ({ items := v.toArray } : Heap α cmp).items.size = n := v.size_toArray
  intro i j hi hj hpair
  exact h i j (by omega) (by omega) hpair

theorem IsOrdered.push (htotal : TotalOn cmp domain) (hdomain : ∀ y ∈ (heap.push x).toList, domain y)
    (h : heap.IsOrdered)
    : (heap.push x).IsOrdered := by
  have hperm : (heap.push x).toList.Perm (heap.items.push x).toList := (siftUp_perm _ _ _).toList
  have hsize : (heap.items.push x).size = heap.items.size + 1 := Array.size_push x
  apply Ordered.isOrdered
  apply ordered_siftUp htotal
  . intro i hi
    exact hdomain _ (hperm.mem_iff.mpr (Array.getElem_mem_toList hi))
  . constructor
    . constructor
      . intro i j hi hj hpair hinot hjnot
        have hiold : i < heap.items.size := by omega
        have hjold : j < heap.items.size := by omega
        have hold := h i j hiold hjold hpair
        rw [← Array.getElem_push_lt (x := x) hiold, ← Array.getElem_push_lt (x := x) hjold] at hold
        exact hold
      . intro i j hi hj hpair habove
        unfold IsChild at hpair
        omega
    . intro i hi hhole hpair
      unfold IsChild at hpair
      omega

theorem IsOrdered.foldl_push (htotal : TotalOn cmp domain) (items : List α)
    (hdomain : ∀ y ∈ (items.foldl Heap.push heap).toList, domain y) (h : heap.IsOrdered)
    : (items.foldl Heap.push heap).IsOrdered := by
  induction items generalizing heap with
  | nil => exact h
  | cons item items ih =>
    apply ih hdomain
    apply h.push htotal
    intro y hmem
    exact hdomain y ((toList_foldl_push_perm items _).mem_iff.mpr (List.mem_append_right _ hmem))

theorem IsOrdered.le_top (htotal : TotalOn cmp domain) (hdomain : ∀ y ∈ heap.toList, domain y)
    (h : heap.IsOrdered) (hsome : 0 < heap.items.size) {y : α} (hmem : y ∈ heap.toList)
    : cmp y heap.items[0] ≠ .gt := by
  rcases List.getElem_of_mem hmem with ⟨i, hi, heq⟩
  have hi : i < heap.items.size := by rwa [length_toList] at hi
  have hle := Ordered.le_root (v := heap.items.toVector) htotal
    (fun j hj => hdomain _ (Array.getElem_mem_toList hj)) h hsome hi
  rw [← heq]
  exact hle

theorem isOrdered_replaceTop (htotal : TotalOn cmp domain) {items : Array α} {last : α}
    (hdomain : ∀ y ∈ (items.push last).toList, domain y)
    (h : ({ items := items.push last } : Heap α cmp).IsOrdered)
    : (replaceTop cmp items last).2.IsOrdered := by
  have hsize : ({ items := items.push last } : Heap α cmp).items.size = items.size + 1 :=
    Array.size_push last
  unfold replaceTop
  split
  . next hsome =>
    apply Ordered.isOrdered
    apply ordered_settle htotal
    . intro i hi
      apply hdomain
      rw [Vector.getElem_set, Array.mem_toList_iff, Array.mem_push]
      split
      . exact .inr rfl
      . exact .inl (Array.getElem_mem hi)
    . constructor
      . intro i j hi hj hpair hinot hjnot
        have hold := h i j (by omega) (by omega) hpair
        rw [Array.getElem_push_lt hi, Array.getElem_push_lt hj] at hold
        rw [Vector.getElem_set_ne _ _ (Ne.symm hinot), Vector.getElem_set_ne _ _ (Ne.symm hjnot)]
        exact hold
      . intro i j hi hj hpair habove
        unfold IsChild at habove
        omega
  . next hnone =>
    intro i j hi hj hpair
    exact absurd (Nat.zero_lt_of_lt hi) hnone

theorem IsOrdered.pop? (htotal : TotalOn cmp domain) (hdomain : ∀ y ∈ heap.toList, domain y)
    (h : heap.IsOrdered) (hpop : heap.pop? = some (x, rest))
    : rest.IsOrdered ∧ ∀ y ∈ rest.toList, cmp y x ≠ .gt := by
  have hperm := toList_perm_of_pop? hpop
  constructor
  . rcases heap with ⟨items⟩
    rcases Option.map_eq_some_iff.mp hpop with ⟨last, hlast, hreplace⟩
    rcases Array.back?_eq_some_iff.mp hlast with ⟨front, hitems⟩
    dsimp only at hitems hreplace
    subst hitems
    rw [Array.pop_push] at hreplace
    have hordered := isOrdered_replaceTop htotal hdomain h
    rw [hreplace] at hordered
    exact hordered
  . intro y hmem
    have htop : heap.items[0]? = some x := by
      have heq := top?_eq_map_pop? heap
      rw [hpop] at heq
      exact heq
    rcases Array.getElem?_eq_some_iff.mp htop with ⟨hsome, hx⟩
    rw [← hx]
    exact h.le_top htotal hdomain hsome (hperm.mem_iff.mpr (List.mem_cons_of_mem x hmem))

end SwitchSearch.Heap
