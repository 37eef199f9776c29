import SwitchSearch.DiveQueue.Deferred
import SwitchSearch.Proofs.Binary64.Value
import SwitchSearch.Proofs.Heap.Order

/-!
This module contains the proof that deferred nodes are totally preordered as long as their keys are
numbers.
-/

namespace SwitchSearch.Deferred

theorem compareKeys_swap (x y : Float) : compareKeys y x = (compareKeys x y).swap := by
  have hasymm : x < y → ¬(y < x) := by
    intro hlt hgt
    rw [Binary64.lt_iff] at hlt hgt
    exact lt_asymm hlt.right hgt.right
  unfold compareKeys
  by_cases hlt : x < y
  . rw [if_neg (hasymm hlt), if_pos hlt, if_pos hlt]
    rfl
  . rw [if_neg hlt, if_neg hlt]
    split <;> rfl

theorem rank_swap (l r : Deferred) : rank r l = (rank l r).swap := by
  unfold rank
  rw [Ordering.swap_then, ← compareKeys_swap, ← Std.OrientedCmp.eq_swap]

theorem compareKeys_eq_cmp {x y : Float} (hx : x.isNaN = false) (hy : y.isNaN = false)
    : compareKeys x y = cmp (Binary64.value x) (Binary64.value y) := by
  unfold compareKeys cmp cmpUsing
  simp only [Binary64.lt_iff, hx, hy, and_self, true_and]

theorem rank_ne_gt_iff {l r : Deferred} (hl : l.key.isNaN = false) (hr : r.key.isNaN = false)
    : rank l r ≠ .gt ↔ Binary64.value r.key < Binary64.value l.key ∨
        Binary64.value r.key = Binary64.value l.key ∧ l.node.maxSwitches ≤ r.node.maxSwitches := by
  unfold rank
  rw [compareKeys_eq_cmp hr hl]
  rcases lt_trichotomy (Binary64.value r.key) (Binary64.value l.key) with hlt | heq | hgt
  . rw [(cmp_eq_lt_iff _ _).mpr hlt]
    exact iff_of_true nofun (.inl hlt)
  . rw [(cmp_eq_eq_iff _ _).mpr heq, or_iff_right (not_lt_of_ge heq.ge), and_iff_right heq]
    change compare l.node.maxSwitches r.node.maxSwitches ≠ .gt ↔ _
    exact Ordering.isLE_iff_ne_gt.symm.trans Std.isLE_compare
  . rw [(cmp_eq_gt_iff _ _).mpr hgt, or_iff_right (lt_asymm hgt)]
    exact iff_of_false (fun hne => hne rfl) (fun heq => hgt.ne' heq.left)

theorem rank_eq_lt_of_key_le {l r : Deferred} (h : l.key ≤ r.key) (hrank : rank l r = .lt)
    : (l.key == r.key) = true ∧ l.node.maxSwitches < r.node.maxSwitches := by
  rcases Binary64.le_iff.mp h with ⟨⟨hl, hr⟩, hle⟩
  unfold rank at hrank
  rw [compareKeys_eq_cmp hr hl, Ordering.then_eq_lt] at hrank
  rcases hrank with hlt | ⟨heq, hswitches⟩
  . exact absurd ((cmp_eq_lt_iff _ _).mp hlt) (not_lt_of_ge hle)
  . have hsame := ((cmp_eq_eq_iff _ _).mp heq).symm
    exact ⟨Binary64.beq_iff.mpr ⟨⟨hl, hr⟩, hsame⟩, Std.compare_eq_lt.mp hswitches⟩

theorem totalOn_rank : Heap.TotalOn rank (fun entry => entry.key.isNaN = false) := by
  constructor
  . intro l r hl hr
    exact rank_swap l r
  . intro x y z hx hy hz hxy hyz
    rw [rank_ne_gt_iff hx hy] at hxy
    rw [rank_ne_gt_iff hy hz] at hyz
    rw [rank_ne_gt_iff hx hz]
    rcases hxy with hxy | ⟨hxy, hxswitches⟩
    . rcases hyz with hyz | ⟨hyz, hyswitches⟩
      . exact .inl (hyz.trans hxy)
      . exact .inl (hyz.trans_lt hxy)
    . rcases hyz with hyz | ⟨hyz, hyswitches⟩
      . exact .inl (hyz.trans_eq hxy)
      . exact .inr ⟨hyz.trans hxy, UInt32.le_trans hxswitches hyswitches⟩

end SwitchSearch.Deferred
