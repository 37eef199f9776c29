import Mathlib.Data.Prod.Lex
import SwitchSearch.Node
import SwitchSearch.Proofs.Binary64.Value

/-!
This module contains the tests on the bounds of nodes: which nodes are cut, and which one of several
nodes is to be preferred.
-/

namespace SwitchSearch

namespace Node

theorem isCut_iff {node : Node} {upperBound : Float}
    : node.isCut upperBound = true ↔ upperBound ≤ node.bound :=
  decide_eq_true_iff

theorem isCut_eq_false_iff {node : Node} {upperBound : Float} (hnode : node.bound.isNaN = false)
    (hbound : upperBound.isNaN = false)
    : node.isCut upperBound = false ↔ node.bound < upperBound := by
  rw [← Binary64.not_le hbound hnode, ← isCut_iff, Bool.not_eq_true]

def Beats (l r : Node) : Prop :=
  l.bound < r.bound ∨ (l.bound == r.bound) = true ∧ l.maxSwitches < r.maxSwitches

def IsFirstBest (best : Node) (nodes : List Node) : Prop :=
  ∃ before after, nodes = before ++ best :: after ∧
    (∀ other ∈ before, best.Beats other) ∧ ∀ other ∈ after, ¬other.Beats best

variable {l r : Node}

theorem divesBefore_iff : l.divesBefore r = true ↔ l.Beats r := by
  unfold divesBefore Beats bne
  cases heq : l.bound == r.bound with
  | false => simp
  | true =>
    have hlt : ¬(l.bound < r.bound) := by
      rw [Binary64.lt_iff, (Binary64.beq_iff.mp heq).right]
      exact fun h => h.right.false
    simp [hlt]

def merit (node : Node) : WithBot (WithTop ℚ) ×ₗ ℕ :=
  toLex (Binary64.value node.bound, node.maxSwitches.toNat)

theorem beats_iff (hl : l.bound.isNaN = false) (hr : r.bound.isNaN = false)
    : l.Beats r ↔ l.merit < r.merit := by
  unfold Beats merit
  rw [Prod.Lex.toLex_lt_toLex, UInt32.lt_iff_toNat_lt, Binary64.lt_iff, Binary64.beq_iff]
  simp only [hl, hr, and_self, true_and]

theorem IsFirstBest.mem {best : Node} {nodes : List Node} (h : best.IsFirstBest nodes)
    : best ∈ nodes := by
  rcases h with ⟨before, after, hsplit, hbefore, hafter⟩
  rw [hsplit]
  exact List.mem_append_right _ List.mem_cons_self

theorem split_of_filter {p : Node → Bool} {nodes before after : List Node} {best : Node}
    (h : nodes.filter p = before ++ best :: after)
    : ∃ front rest, nodes = front ++ best :: rest ∧ p best = true ∧ front.filter p = before ∧
        rest.filter p = after := by
  rcases List.filter_eq_append_iff.mp h with ⟨front, back, hnodes, hfront, hback⟩
  rcases List.filter_eq_cons_iff.mp hback with ⟨lost, rest, hlost, hnone, hbest, hrest⟩
  refine ⟨front ++ lost, rest, ?_, hbest, ?_, hrest⟩
  . rw [hnodes, hlost, List.append_assoc]
  . rw [List.filter_append, hfront, List.filter_eq_nil_iff.mpr hnone, List.append_nil]

theorem IsFirstBest.of_filter {p : Node → Bool} {best : Node} {nodes : List Node}
    (h : best.IsFirstBest (nodes.filter p))
    (hothers : ∀ other ∈ nodes, p other = false → best.Beats other ∧ ¬other.Beats best)
    : best.IsFirstBest nodes := by
  rcases h with ⟨before, after, hsplit, hbefore, hafter⟩
  rcases split_of_filter hsplit with ⟨front, rest, hnodes, hbest, hfront, hrest⟩
  refine ⟨front, rest, hnodes, ?_, ?_⟩
  . intro other hmem
    cases hother : p other with
    | false =>
      apply (hothers other _ hother).left
      rw [hnodes]
      exact List.mem_append_left _ hmem
    | true =>
      apply hbefore
      rw [← hfront]
      exact List.mem_filter.mpr ⟨hmem, hother⟩
  . intro other hmem
    cases hother : p other with
    | false =>
      apply (hothers other _ hother).right
      rw [hnodes]
      exact List.mem_append_right _ (List.mem_cons_of_mem _ hmem)
    | true =>
      apply hafter
      rw [← hrest]
      exact List.mem_filter.mpr ⟨hmem, hother⟩

end Node

end SwitchSearch
