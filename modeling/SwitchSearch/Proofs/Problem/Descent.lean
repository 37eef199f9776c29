import SwitchSearch.Problem.Basic

/-!
This module contains the tree of a problem: its nodes are those met on the way down from the root,
where only nodes that leave a step open have children.
-/

namespace SwitchSearch.Problem

variable {problem : Problem}

def IsChild (problem : Problem) (parent child : Node) : Prop :=
  problem.isLeaf parent = false ∧ ∃ children, problem.branch parent = .ok children ∧ child ∈ children

def offspring (problem : Problem) (node : Node) : List Node :=
  if problem.isLeaf node then
    []
  else
    match problem.branch node with
    | .ok children => children
    | .error _ => []

def Extends (problem : Problem) : Prop :=
  ∀ parent child, problem.IsChild parent child →
    ∃ channel bound, parent.extend channel bound = .ok child

inductive Descent (problem : Problem) : Node → List Node → Node → Prop where
  | here (node : Node) : Descent problem node [node] node
  | down {parent child last : Node} {path : List Node} (hchild : problem.IsChild parent child)
      (hrest : Descent problem child path last)
      : Descent problem parent (parent :: path) last

def Reaches (problem : Problem) (node : Node) : Prop :=
  ∃ path, problem.Descent problem.root path node

structure LeafPath (problem : Problem) (path : List Node) (leaf : Node) : Prop where
  descent : problem.Descent problem.root path leaf
  isLeaf : problem.isLeaf leaf = true

def LeafCost (problem : Problem) (cost : Float) : Prop :=
  ∃ path leaf, problem.LeafPath path leaf ∧ leaf.bound = cost

/-- No bound exceeds the cost of a leaf further down. -/
def Admissible (problem : Problem) : Prop :=
  ∀ node path leaf, problem.Reaches node → problem.Descent node path leaf →
    problem.isLeaf leaf = true → ¬(leaf.bound < node.bound)

def NaNFree (problem : Problem) : Prop :=
  ∀ node, problem.Reaches node → node.bound.isNaN = false

theorem isLeaf_iff {node : Node} : problem.isLeaf node = true ↔ problem.horizon ≤ node.depth := by
  simp [isLeaf]

theorem isLeaf_eq_false_iff {node : Node}
    : problem.isLeaf node = false ↔ node.depth < problem.horizon := by
  simp [isLeaf]

theorem offspring_of_branch {node : Node} {children : List Node} (hopen : problem.isLeaf node = false)
    (hbranch : problem.branch node = .ok children)
    : problem.offspring node = children := by
  simp [offspring, hopen, hbranch]

theorem isChild_of_mem_offspring {parent child : Node} (h : child ∈ problem.offspring parent)
    : problem.IsChild parent child := by
  unfold offspring at h
  split at h
  . contradiction
  . next hopen =>
    split at h
    . next children hbranch => exact ⟨eq_false_of_ne_true hopen, children, hbranch, h⟩
    . contradiction

theorem Descent.first_mem {first last : Node} {path : List Node} (h : problem.Descent first path last)
    : first ∈ path := by
  cases h with
  | here => exact List.mem_singleton_self _
  | down => exact List.mem_cons_self

theorem Descent.concat {first last child : Node} {path : List Node}
    (h : problem.Descent first path last) (hchild : problem.IsChild last child)
    : problem.Descent first (path ++ [child]) child := by
  induction h with
  | here => exact .down hchild (.here child)
  | down hfirst hrest ih => exact .down hfirst (ih hchild)

theorem Descent.drop {first last node : Node} {path : List Node}
    (h : problem.Descent first path last) (hmem : node ∈ path)
    : ∃ rest, problem.Descent node rest last ∧ rest ⊆ path := by
  induction h with
  | here first =>
    rw [List.mem_singleton.mp hmem]
    exact ⟨_, .here first, List.Subset.refl _⟩
  | down hchild hrest ih =>
    cases List.mem_cons.mp hmem with
    | inl heq =>
      rw [heq]
      exact ⟨_, .down hchild hrest, List.Subset.refl _⟩
    | inr htail =>
      rcases ih htail with ⟨rest, hdescent, hsub⟩
      exact ⟨rest, hdescent, List.subset_cons_of_subset _ hsub⟩

theorem Descent.take {first last node : Node} {path : List Node}
    (h : problem.Descent first path last) (hmem : node ∈ path)
    : ∃ start, problem.Descent first start node := by
  induction h with
  | here first =>
    rw [List.mem_singleton.mp hmem]
    exact ⟨_, .here first⟩
  | @down parent _ _ _ hchild hrest ih =>
    cases List.mem_cons.mp hmem with
    | inl heq =>
      rw [heq]
      exact ⟨_, .here parent⟩
    | inr htail =>
      rcases ih htail with ⟨start, hdescent⟩
      exact ⟨_, .down hchild hdescent⟩

theorem Descent.reaches {last node : Node} {path : List Node}
    (h : problem.Descent problem.root path last) (hmem : node ∈ path)
    : problem.Reaches node :=
  h.take hmem

theorem reaches_root : problem.Reaches problem.root :=
  ⟨_, .here _⟩

theorem Reaches.child {parent child : Node} (h : problem.Reaches parent)
    (hchild : problem.IsChild parent child)
    : problem.Reaches child := by
  rcases h with ⟨path, hdescent⟩
  exact ⟨_, hdescent.concat hchild⟩

theorem Descent.induct {inv : Node → Prop}
    (hstep : ∀ parent child, inv parent → problem.IsChild parent child → inv child)
    {first last : Node} {path : List Node} (h : problem.Descent first path last) (hfirst : inv first)
    : inv last := by
  induction h with
  | here => exact hfirst
  | down hchild hrest ih => exact ih (hstep _ _ hfirst hchild)

theorem Reaches.induct {inv : Node → Prop} (hroot : inv problem.root)
    (hstep : ∀ parent child, inv parent → problem.IsChild parent child → inv child) {node : Node}
    (h : problem.Reaches node)
    : inv node := by
  rcases h with ⟨path, hdescent⟩
  exact hdescent.induct hstep hroot

theorem nanFree_of_map {bounds : Node → List Float} {child : Node → Float → Node}
    (hroot : problem.root.bound.isNaN = false)
    (hbranch : ∀ node, problem.branch node = .ok ((bounds node).map (child node)))
    (hchild : ∀ node bound, (child node bound).bound = bound)
    (hbounds : ∀ node, ∀ bound ∈ bounds node, bound.isNaN = false)
    : problem.NaNFree := by
  intro node h
  apply h.induct hroot
  rintro parent other - ⟨hopen, children, hchildren, hmem⟩
  rw [hbranch] at hchildren
  cases hchildren
  rcases List.mem_map.mp hmem with ⟨bound, hbound, heq⟩
  rw [← heq, hchild]
  exact hbounds parent bound hbound

theorem Reaches.trans {first last : Node} {path : List Node} (h : problem.Reaches first)
    (hdescent : problem.Descent first path last)
    : problem.Reaches last :=
  hdescent.induct (fun _ _ hparent hchild => hparent.child hchild) h

theorem Descent.exists_child {first last : Node} {path : List Node}
    (h : problem.Descent first path last) (hfirst : problem.isLeaf first = false)
    (hlast : problem.isLeaf last = true)
    : ∃ child, problem.IsChild first child ∧ child ∈ path := by
  cases h with
  | here =>
    rw [hfirst] at hlast
    contradiction
  | down hchild hrest => exact ⟨_, hchild, List.mem_cons_of_mem _ hrest.first_mem⟩

theorem IsChild.mem {parent child : Node} {children : List Node} (h : problem.IsChild parent child)
    (hbranch : problem.branch parent = .ok children)
    : child ∈ children := by
  rcases h.right with ⟨others, hothers, hmem⟩
  rw [hbranch] at hothers
  cases hothers
  exact hmem

end SwitchSearch.Problem
