import Mathlib.Data.List.Nodup
import Mathlib.Data.List.Perm.Subperm
import SwitchSearch.Proofs.Binary64.Value
import SwitchSearch.Proofs.Problem.Descent

/-!
This module contains the places of a tree at which nodes lie. A tree may have the same node at several
places, and a search branches it once for each of them. What is not below a given cost is left out, with
all that lies below it, so that the rest may be finite where the tree is not.
-/

namespace SwitchSearch.Problem

variable {problem : Problem} {cost : Float} {node other : Node} {forest rest : List Node}
  {below others : List Node}

/--
The second node lies at the given place below the first one: the place says on each level which child to
take. No bound on the way down, those of both nodes included, is at or above the cost.
-/
inductive Occurs (problem : Problem) (cost : Float) : Node → List Nat → Node → Prop where
  | here {node : Node} (hlive : node.bound < cost)
    : Occurs problem cost node [] node
  | down {parent child node : Node} {index : Nat} {place : List Nat} {children : List Node}
      (hlive : parent.bound < cost) (hopen : problem.isLeaf parent = false)
      (hbranch : problem.branch parent = .ok children) (hindex : children[index]? = some child)
      (hrest : Occurs problem cost child place node)
      : Occurs problem cost parent (index :: place) node

/-- All nodes that lie below some nodes, leaves apart, from top to bottom and from left to right. -/
inductive Spans (problem : Problem) (cost : Float) : List Node → List Node → Prop where
  | nil : Spans problem cost [] []
  | cut {node : Node} {rest others : List Node} (hcut : cost ≤ node.bound)
      (hrest : Spans problem cost rest others)
      : Spans problem cost (node :: rest) others
  | leaf {node : Node} {rest others : List Node} (hleaf : problem.isLeaf node = true)
      (hrest : Spans problem cost rest others)
      : Spans problem cost (node :: rest) others
  | inner {node : Node} {children rest below others : List Node} (hlive : node.bound < cost)
      (hopen : problem.isLeaf node = false) (hbranch : problem.branch node = .ok children)
      (hbelow : Spans problem cost children below) (hrest : Spans problem cost rest others)
      : Spans problem cost (node :: rest) (node :: below ++ others)

namespace Spans

theorem append (h : Spans problem cost forest below) (hrest : Spans problem cost rest others)
    : Spans problem cost (forest ++ rest) (below ++ others) := by
  induction h with
  | nil => exact hrest
  | cut hcut hnext ih => exact .cut hcut ih
  | leaf hleaf hnext ih => exact .leaf hleaf ih
  | inner hlive hopen hbranch hbelow hnext ihbelow ih =>
    rw [List.append_assoc]
    exact .inner hlive hopen hbranch hbelow ih

theorem split (forest : List Node) {all : List Node} (h : Spans problem cost (forest ++ rest) all)
    : ∃ below others, Spans problem cost forest below ∧ Spans problem cost rest others ∧
        all = below ++ others := by
  induction forest generalizing all with
  | nil => exact ⟨[], all, .nil, h, rfl⟩
  | cons node forest ih =>
    cases h with
    | cut hcut hnext =>
      rcases ih hnext with ⟨below, others, hbelow, hothers, heq⟩
      exact ⟨below, others, .cut hcut hbelow, hothers, heq⟩
    | leaf hleaf hnext =>
      rcases ih hnext with ⟨below, others, hbelow, hothers, heq⟩
      exact ⟨below, others, .leaf hleaf hbelow, hothers, heq⟩
    | @inner _ _ _ own _ hlive hopen hbranch hown hnext =>
      rcases ih hnext with ⟨below, others, hbelow, hothers, heq⟩
      refine ⟨node :: own ++ below, others, .inner hlive hopen hbranch hown hbelow, hothers, ?_⟩
      rw [heq, List.append_assoc]

theorem perm {shuffled : List Node} (h : Spans problem cost forest below) (hperm : forest.Perm shuffled)
    : ∃ others, Spans problem cost shuffled others ∧ below.Perm others := by
  induction hperm generalizing below with
  | nil => exact ⟨below, h, .refl _⟩
  | @cons node forest shuffled hperm ih =>
    rcases split [node] h with ⟨own, rest, hown, hrest, heq⟩
    rcases ih hrest with ⟨others, hothers, hothersPerm⟩
    refine ⟨own ++ others, hown.append hothers, ?_⟩
    rw [heq]
    exact hothersPerm.append_left own
  | swap first second forest =>
    rcases split [second] h with ⟨upper, tail, hupper, htail, heq⟩
    rcases split [first] htail with ⟨lower, rest, hlower, hrest, htaileq⟩
    refine ⟨lower ++ (upper ++ rest), hlower.append (hupper.append hrest), ?_⟩
    rw [heq, htaileq, ← List.append_assoc, ← List.append_assoc]
    exact List.perm_append_comm.append_right rest
  | trans hperm hnext ih ihnext =>
    rcases ih h with ⟨middle, hmiddle, hmiddlePerm⟩
    rcases ihnext hmiddle with ⟨others, hothers, hothersPerm⟩
    exact ⟨others, hothers, hmiddlePerm.trans hothersPerm⟩

end Spans

structure Lists (occurrences : List (List Nat × Node)) (property : List Nat → Node → Prop) : Prop where
  nodup : (occurrences.map Prod.fst).Nodup
  mem_iff : ∀ place node, (place, node) ∈ occurrences ↔ property place node

def Inner (problem : Problem) (cost : Float) (node : Node) (place : List Nat) (other : Node) : Prop :=
  problem.Occurs cost node place other ∧ problem.isLeaf other = false

def Among (property : Node → List Nat → Node → Prop) (offset : Nat) (forest : List Node)
    (place : List Nat) (other : Node) : Prop :=
  ∃ index tree below, place = (offset + index) :: below ∧ forest[index]? = some tree ∧
    property tree below other

theorem Lists.perm {first second : List (List Nat × Node)} {property : List Nat → Node → Prop}
    (hfirst : Lists first property) (hsecond : Lists second property)
    : first.Perm second := by
  rw [List.perm_ext_iff_of_nodup (.of_map _ hfirst.nodup) (.of_map _ hsecond.nodup)]
  intro pair
  exact (hfirst.mem_iff pair.1 pair.2).trans (hsecond.mem_iff pair.1 pair.2).symm

theorem Lists.congr {occurrences : List (List Nat × Node)} {property same : List Nat → Node → Prop}
    (h : Lists occurrences property) (hsame : ∀ place node, property place node ↔ same place node)
    : Lists occurrences same :=
  ⟨h.nodup, fun place node => (h.mem_iff place node).trans (hsame place node)⟩

theorem Occurs.live {place : List Nat} (h : problem.Occurs cost node place other)
    : node.bound < cost := by
  cases h <;> assumption

theorem Occurs.mono {upper : Float} {place : List Nat} (h : problem.Occurs cost node place other)
    (hle : cost ≤ upper)
    : problem.Occurs upper node place other := by
  induction h with
  | here hlive => exact .here (Binary64.lt_of_lt_of_le hlive hle)
  | down hlive hopen hbranch hindex hrest ih =>
    exact .down (Binary64.lt_of_lt_of_le hlive hle) hopen hbranch hindex ih

theorem inner_congr {same : Float} (hsame : (cost == same) = true) {place : List Nat}
    : problem.Inner cost node place other ↔ problem.Inner same node place other := by
  rw [Binary64.beq_iff] at hsame
  have hle := Binary64.le_iff.mpr ⟨hsame.left, hsame.right.le⟩
  have hge := Binary64.le_iff.mpr ⟨hsame.left.symm, hsame.right.ge⟩
  exact and_congr_left fun _ => ⟨fun h => h.mono hle, fun h => h.mono hge⟩

theorem lists_nil {property : List Nat → Node → Prop} (h : ∀ place other, ¬property place other)
    : Lists [] property :=
  ⟨.nil, fun place other => iff_of_false List.not_mem_nil (h place other)⟩

theorem lists_of_cut (hcut : cost ≤ node.bound) : Lists [] (problem.Inner cost node) := by
  apply lists_nil
  intro place other hinner
  rw [Binary64.le_iff] at hcut
  have hlive := Binary64.lt_iff.mp hinner.left.live
  exact hlive.right.not_ge hcut.right

theorem lists_of_isLeaf (hleaf : problem.isLeaf node = true) : Lists [] (problem.Inner cost node) := by
  apply lists_nil
  rintro place other ⟨hoccurs, hopen⟩
  cases hoccurs with
  | here =>
    rw [hopen] at hleaf
    contradiction
  | down hlive hinner =>
    rw [hinner] at hleaf
    contradiction

theorem lists_among_nil {property : Node → List Nat → Node → Prop} {offset : Nat}
    : Lists [] (Among property offset []) := by
  apply lists_nil
  rintro place other ⟨index, tree, path, hplace, hindex, hrest⟩
  contradiction

theorem Lists.root {property : Node → List Nat → Node → Prop} {children : List Node}
    {occurrences : List (List Nat × Node)} (h : Lists occurrences (Among property 0 children))
    (hnode : ∀ place other, property node place other ↔
      place = [] ∧ other = node ∨ Among property 0 children place other)
    : Lists (([], node) :: occurrences) (property node) := by
  constructor
  . rw [List.map_cons, List.nodup_cons]
    refine ⟨?_, h.nodup⟩
    intro hmem
    rcases List.mem_map.mp hmem with ⟨⟨place, other⟩, hpair, hplace⟩
    rcases (h.mem_iff place other).mp hpair with ⟨index, tree, below, heq, hrest⟩
    rw [heq] at hplace
    contradiction
  . intro place other
    rw [List.mem_cons, h.mem_iff, hnode, Prod.mk.injEq]

theorem lists_of_inner {children : List Node} {occurrences : List (List Nat × Node)}
    (hlive : node.bound < cost) (hopen : problem.isLeaf node = false)
    (hbranch : problem.branch node = .ok children)
    (h : Lists occurrences (Among (problem.Inner cost) 0 children))
    : Lists (([], node) :: occurrences) (problem.Inner cost node) := by
  apply Lists.root h
  intro place other
  constructor
  . rintro ⟨hoccurs, hother⟩
    cases hoccurs with
    | here => exact .inl ⟨rfl, rfl⟩
    | down hparent hnode hchildren hindex hrest =>
      rw [hbranch] at hchildren
      cases hchildren
      exact .inr ⟨_, _, _, by rw [Nat.zero_add], hindex, hrest, hother⟩
  . rintro (⟨hplace, heq⟩ | ⟨index, tree, below, heq, hindex, hinner⟩)
    . rw [hplace, heq]
      exact ⟨.here hlive, hopen⟩
    . rw [Nat.zero_add] at heq
      rw [heq]
      exact ⟨.down hlive hopen hbranch hindex hinner.left, hinner.right⟩

theorem Lists.cons {property : Node → List Nat → Node → Prop} {offset : Nat}
    {own occurrences : List (List Nat × Node)} (hown : Lists own (property node))
    (h : Lists occurrences (Among property (offset + 1) rest))
    : Lists (own.map (fun pair => (offset :: pair.1, pair.2)) ++ occurrences)
        (Among property offset (node :: rest)) := by
  have hplaces : (own.map (fun pair => (offset :: pair.1, pair.2))).map Prod.fst =
      (own.map Prod.fst).map (offset :: ·) := by
    rw [List.map_map, List.map_map]
    rfl
  constructor
  . rw [List.map_append, hplaces, List.nodup_append]
    refine ⟨hown.nodup.map (List.cons_injective), h.nodup, ?_⟩
    -- the places of the rest start with a greater number
    intro place hplace later hlater heq
    rcases List.mem_map.mp hplace with ⟨below, hbelow, hcons⟩
    rcases List.mem_map.mp hlater with ⟨⟨other, last⟩, hpair, hfst⟩
    rcases (h.mem_iff other last).mp hpair with ⟨index, tree, path, hpath, hrest⟩
    dsimp only at hcons hfst
    rw [← hcons, ← hfst, hpath, List.cons.injEq] at heq
    omega
  . intro place other
    rw [List.mem_append, h.mem_iff, List.mem_map]
    constructor
    . rintro (⟨⟨below, last⟩, hpair, heq⟩ | ⟨index, tree, below, heq, hindex, hinner⟩)
      . cases heq
        exact ⟨0, node, below, rfl, rfl, (hown.mem_iff below last).mp hpair⟩
      . refine ⟨index + 1, tree, below, ?_, hindex, hinner⟩
        rw [heq, Nat.add_right_comm, Nat.add_assoc]
    . rintro ⟨index, tree, below, heq, hindex, hinner⟩
      cases index with
      | zero =>
        cases hindex
        exact .inl ⟨(below, other), (hown.mem_iff below other).mpr hinner, by rw [heq]; rfl⟩
      | succ index =>
        refine .inr ⟨index, tree, below, ?_, hindex, hinner⟩
        rw [heq, Nat.add_right_comm, Nat.add_assoc]

theorem Spans.exists_lists_among (h : Spans problem cost forest below) (offset : Nat)
    : ∃ occurrences, Lists occurrences (Among (problem.Inner cost) offset forest) ∧
        occurrences.map Prod.snd = below := by
  have hkeeps : ∀ (offset : Nat) (own : List (List Nat × Node)),
      (own.map (fun pair => (offset :: pair.1, pair.2))).map Prod.snd = own.map Prod.snd := by
    intro offset own
    rw [List.map_map]
    rfl
  induction h generalizing offset with
  | nil => exact ⟨[], lists_among_nil, rfl⟩
  | cut hcut hrest ih =>
    rcases ih (offset + 1) with ⟨occurrences, hlists, hnodes⟩
    exact ⟨_, (lists_of_cut hcut).cons hlists, hnodes⟩
  | leaf hleaf hrest ih =>
    rcases ih (offset + 1) with ⟨occurrences, hlists, hnodes⟩
    exact ⟨_, (lists_of_isLeaf hleaf).cons hlists, hnodes⟩
  | inner hlive hopen hbranch hbelow hrest ihbelow ih =>
    rcases ihbelow 0 with ⟨own, hown, hownNodes⟩
    rcases ih (offset + 1) with ⟨occurrences, hlists, hnodes⟩
    refine ⟨_, (lists_of_inner hlive hopen hbranch hown).cons hlists, ?_⟩
    rw [List.map_append, hkeeps, List.map_cons, hownNodes, hnodes]

theorem Spans.exists_lists (h : Spans problem cost [node] below)
    : ∃ occurrences, Lists occurrences (problem.Inner cost node) ∧ occurrences.map Prod.snd = below := by
  cases h with
  | cut hcut hrest =>
    cases hrest
    exact ⟨[], lists_of_cut hcut, rfl⟩
  | leaf hleaf hrest =>
    cases hrest
    exact ⟨[], lists_of_isLeaf hleaf, rfl⟩
  | inner hlive hopen hbranch hbelow hrest =>
    cases hrest
    rcases hbelow.exists_lists_among 0 with ⟨occurrences, hlists, hnodes⟩
    refine ⟨_, lists_of_inner hlive hopen hbranch hlists, ?_⟩
    rw [List.map_cons, hnodes, List.append_nil]

end SwitchSearch.Problem
