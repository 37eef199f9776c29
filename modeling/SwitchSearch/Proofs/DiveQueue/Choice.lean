import SwitchSearch.Proofs.DiveQueue.Admission
import SwitchSearch.Proofs.DiveQueue.Transitions
import SwitchSearch.Proofs.Node.Preference

/-!
This module contains the choice of the node to dive into: it is the first among the best nodes of a
batch, be they live or not.
-/

namespace SwitchSearch.DiveQueue

theorem isFirstBest_of_pickDive {nodes rest : List Node} {best : Node}
    (hnan : ∀ node ∈ nodes, node.bound.isNaN = false) (h : pickDive nodes = some (best, rest))
    : best.IsFirstBest nodes := by
  induction nodes generalizing best rest with
  | nil => simp [pickDive] at h
  | cons node nodes ih =>
    rw [List.forall_mem_cons] at hnan
    unfold pickDive at h
    split at h
    . next hnone =>
      cases h
      rw [pickDive_eq_none_iff.mp hnone]
      exact ⟨[], [], rfl, List.forall_mem_nil _, List.forall_mem_nil _⟩
    . next other others hsome =>
      have hfirst := ih hnan.right hsome
      have hother := hnan.right other hfirst.mem
      rcases hfirst with ⟨before, after, hsplit, hbefore, hafter⟩
      split at h
      . next hwins =>
        cases h
        refine ⟨node :: before, after, congrArg _ hsplit, ?_, hafter⟩
        exact List.forall_mem_cons.mpr ⟨Node.divesBefore_iff.mp hwins, hbefore⟩
      . next hloses =>
        cases h
        rw [Node.divesBefore_iff, Node.beats_iff hother hnan.left, not_lt] at hloses
        refine ⟨[], nodes, rfl, List.forall_mem_nil _, ?_⟩
        intro third hmem
        have hthird := hnan.right third hmem
        -- no node beats `other`, the best one of the rest, and neither does `other` beat `node`
        have hle : other.merit ≤ third.merit := by
          rw [hsplit, List.mem_append, List.mem_cons] at hmem
          rcases hmem with hmem | heq | hmem
          . exact ((Node.beats_iff hother hthird).mp (hbefore third hmem)).le
          . rw [heq]
          . have hnot := hafter third hmem
            rwa [Node.beats_iff hthird hother, not_lt] at hnot
        rw [Node.beats_iff hthird hnan.left, not_lt]
        exact hloses.trans hle

theorem exists_pickDive {context : Context} {batch : List Node}
    (hnan : ∀ node ∈ batch, node.bound.isNaN = false)
    (hlive : ∃ node ∈ batch, node.bound < context.upperBound)
    : ∃ best rest, pickDive (liveNodes context batch) = some (best, rest) ∧
      best.IsFirstBest batch ∧ best.bound < context.upperBound := by
  rcases hlive with ⟨node, hmem, hlt⟩
  have hbound := (Binary64.lt_iff.mp hlt).left.right
  have hmemLive : ∀ other, other ∈ liveNodes context batch ↔
      other ∈ batch ∧ other.isCut context.upperBound = false := by
    intro other
    simp [liveNodes]
  cases hpick : pickDive (liveNodes context batch) with
  | none =>
    have hnode := (hmemLive node).mpr ⟨hmem, (Node.isCut_eq_false_iff (hnan node hmem) hbound).mpr hlt⟩
    rw [pickDive_eq_none_iff.mp hpick] at hnode
    exact absurd hnode List.not_mem_nil
  | some pick =>
    rcases pick with ⟨best, rest⟩
    have hnanLive : ∀ other ∈ liveNodes context batch, other.bound.isNaN = false :=
      fun other hother => hnan other ((hmemLive other).mp hother).left
    have hfirst := isFirstBest_of_pickDive hnanLive hpick
    have hbest := (hmemLive best).mp hfirst.mem
    have hnumeric := hnan best hbest.left
    have hbestlt := (Node.isCut_eq_false_iff hnumeric hbound).mp hbest.right
    refine ⟨best, rest, rfl, ?_, hbestlt⟩
    apply hfirst.of_filter
    intro other hother hcut
    have hcut : other.isCut context.upperBound = true := by simpa using hcut
    have hbeats : best.Beats other := .inl (Binary64.lt_of_lt_of_le hbestlt (Node.isCut_iff.mp hcut))
    refine ⟨hbeats, ?_⟩
    rw [Node.beats_iff (hnan other hother) hnumeric, not_lt]
    exact ((Node.beats_iff hnumeric (hnan other hother)).mp hbeats).le

theorem dive_of_push {queue rest : DiveQueue} {context : Context} {batch : List Node}
    (hpush : Agenda.push queue context batch = (.ok (), rest))
    (hlive : ∃ node ∈ batch, node.bound < context.upperBound)
    : ∃ best, best.IsFirstBest batch ∧ rest.dive = some best ∧ best.bound < context.upperBound := by
  have hok : (queue.push context batch).1 = .ok () := congrArg Prod.fst hpush
  have hpushed : Pushed queue context batch (.ok (), rest) := hpush ▸ pushed_push queue context batch
  cases hpushed with
  | nothing hnil =>
    rcases hlive with ⟨node, hmem, hlt⟩
    rw [hnil] at hmem
    exact absurd hmem List.not_mem_nil
  | taken hne hcheck =>
    rcases exists_pickDive (fun node => numeric_of_push hok) hlive with ⟨best, others, hpick, hfirst, hlt⟩
    refine ⟨best, hfirst, ?_, hlt⟩
    unfold taking
    rw [hpick]
    rfl

end SwitchSearch.DiveQueue
