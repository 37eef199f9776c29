import SwitchSearch.Proofs.DiveQueue.Rank
import SwitchSearch.Proofs.Node.Preference

/-!
This module contains the two orders of nodes side by side: the one in which deferred nodes leave a queue
and the one in which nodes are dived into. Both are orders as long as they compare numbers, and both let
the switches decide between equal ones, but in opposite directions.
-/

namespace SwitchSearch

abbrev NumericDeferred := { entry : Deferred // entry.key.isNaN = false }

abbrev NumericNode := { node : Node // node.bound.isNaN = false }

theorem Heap.TotalOn.transCmp {α : Type u} {cmp : α → α → Ordering} {domain : α → Prop}
    (h : TotalOn cmp domain)
    : Std.TransCmp fun x y : { x // domain x } => cmp x y where
  eq_swap := by
    intro x y
    exact h.swap y x y.property x.property
  isLE_trans := by
    intro x y z hxy hyz
    rw [Ordering.isLE_iff_ne_gt] at hxy hyz ⊢
    exact h.trans x y z x.property y.property z.property hxy hyz

theorem equivalence_of_transCmp {α : Type u} (cmp : α → α → Ordering) [Std.TransCmp cmp]
    : Equivalence (cmp · · = .eq) where
  refl := fun _ => Std.ReflCmp.compare_self
  symm := Std.OrientedCmp.eq_symm
  trans := Std.TransCmp.eq_trans

namespace Node

theorem divesBefore_iff_merit (l r : NumericNode)
    : l.val.divesBefore r.val = true ↔ l.val.merit < r.val.merit := by
  rw [divesBefore_iff, beats_iff l.property r.property]

theorem isStrictWeakOrder_divesBefore
    : IsStrictWeakOrder NumericNode fun l r => l.val.divesBefore r.val = true where
  irrefl := by
    intro node
    rw [divesBefore_iff_merit]
    exact lt_irrefl _
  trans := by
    intro x y z
    simp only [divesBefore_iff_merit]
    exact lt_trans
  incomp_trans := by
    intro x y z
    -- that neither of two nodes is preferred says that their merits are `≤` both ways
    simp only [divesBefore_iff_merit, not_lt]
    intro hxy hyz
    exact ⟨hyz.left.trans hxy.left, hxy.right.trans hyz.right⟩

theorem divesBefore_of_beq {l r : Node} (h : (l.bound == r.bound) = true)
    : l.divesBefore r = true ↔ l.maxSwitches < r.maxSwitches := by
  simp [divesBefore, bne, h]

end Node

namespace Deferred

theorem rank_of_beq {l r : Deferred} (h : (l.key == r.key) = true)
    : rank l r = compare l.node.maxSwitches r.node.maxSwitches := by
  rcases Binary64.beq_iff.mp h with ⟨⟨hl, hr⟩, heq⟩
  unfold rank
  rw [compareKeys_eq_cmp hr hl, (cmp_eq_eq_iff _ _).mpr heq.symm]
  rfl

/--
Whatever the keys are, the comparison of deferred nodes is reversed when they change places. Those with
numbers for keys are totally preordered, and nodes with numbers for bounds are weakly ordered by the
preference for diving. Where keys and bounds are equal, a node is preferred for diving exactly if it
leaves the queue after the other one.
-/
theorem rank_and_divesBefore
    : (∀ l r : Deferred, rank r l = (rank l r).swap) ∧
      Std.TransCmp (fun l r : NumericDeferred => rank l r) ∧
      Equivalence (fun l r : NumericDeferred => rank l r = .eq) ∧
      (∀ l l' r r' : NumericDeferred, rank l l' = .eq → rank r r' = .eq → rank l r = rank l' r') ∧
      IsStrictWeakOrder NumericNode (fun l r => l.val.divesBefore r.val = true) ∧
      ∀ l r : Deferred, (l.key == r.key) = true → (l.node.bound == r.node.bound) = true →
        (l.node.divesBefore r.node = true ↔ rank l r = .lt) := by
  have htrans : Std.TransCmp fun l r : NumericDeferred => rank l r := totalOn_rank.transCmp
  refine ⟨rank_swap, htrans, equivalence_of_transCmp _, ?_, Node.isStrictWeakOrder_divesBefore, ?_⟩
  . intro l l' r r' hl hr
    calc rank l r
      _ = rank l' r := htrans.congr_left hl
      _ = rank l' r' := htrans.congr_right hr
  . intro l r hkey hbound
    rw [Node.divesBefore_of_beq hbound, rank_of_beq hkey, Std.compare_eq_lt]

def tied (key : Float) (switches : List UInt32) : Deferred where
  key := key
  node := .below none { channel := none, depth := 0, bound := 1.0, switches }

theorem rank_and_divesBefore_tied
    : ((tied 0.0 [1, 0]).key == (tied (-0.0) [2]).key) = true ∧
      ((tied 0.0 [1, 0]).node.bound == (tied (-0.0) [2]).node.bound) = true ∧
      (tied 0.0 [1, 0]).node.divesBefore (tied (-0.0) [2]).node = true ∧
      rank (tied 0.0 [1, 0]) (tied (-0.0) [2]) = .lt := by
  have hdives : (tied 0.0 [1, 0]).node.divesBefore (tied (-0.0) [2]).node = true := by decide
  rcases rank_and_divesBefore with ⟨hswap, htrans, hequivalence, hcongr, hweak, hties⟩
  exact ⟨rfl, rfl, hdives, (hties _ _ rfl rfl).mp hdives⟩

example :
    let nan := 0.0 / 0.0
    rank (tied 2.0 []) (tied nan []) = .eq ∧ rank (tied nan []) (tied 1.0 []) = .eq ∧
      rank (tied 2.0 []) (tied 1.0 []) = .lt := by
  decide

end Deferred

end SwitchSearch
