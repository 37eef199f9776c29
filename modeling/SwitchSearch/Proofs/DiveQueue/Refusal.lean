import SwitchSearch.Proofs.Binary64.Value
import SwitchSearch.Proofs.DiveQueue.Admission

/-!
This module contains the faults for which a queue refuses a batch of nodes. It reports the first one, the
durations being looked at before the nodes, and stays as it was.
-/

namespace SwitchSearch

theorem forM_eq_error_iff {α ε : Type} {check : α → Except ε Unit} {items : List α} {error : ε}
    : items.forM check = .error error ↔ ∃ before item after, items = before ++ item :: after ∧
        (∀ earlier ∈ before, check earlier = .ok ()) ∧ check item = .error error := by
  induction items with
  | nil => exact iff_of_false nofun (by simp)
  | cons first items ih =>
    rw [List.forM_eq_forM, List.forM_cons, ← List.forM_eq_forM]
    simp only [List.cons_eq_append_iff]
    cases hfirst : check first with
    | error fault =>
      constructor
      . intro h
        cases h
        exact ⟨[], first, items, .inl ⟨rfl, rfl⟩, nofun, hfirst⟩
      . rintro ⟨before, item, after, ⟨hnil, hitem⟩ | ⟨earlier, hbefore, hitems⟩, hpasses, hfails⟩
        . rw [← (List.cons.inj hitem).left, hfails] at hfirst
          cases hfirst
          rfl
        . rw [hpasses first (hbefore ▸ List.mem_cons_self)] at hfirst
          contradiction
    | ok =>
      refine ih.trans ⟨?_, ?_⟩
      . rintro ⟨before, item, after, hitems, hpasses, hfails⟩
        exact ⟨first :: before, item, after, .inr ⟨before, rfl, hitems⟩,
          List.forall_mem_cons.mpr ⟨hfirst, hpasses⟩, hfails⟩
      . rintro ⟨before, item, after, ⟨hnil, hitem⟩ | ⟨earlier, hbefore, hitems⟩, hpasses, hfails⟩
        . rw [← (List.cons.inj hitem).left, hfails] at hfirst
          contradiction
        . rw [hbefore, List.forall_mem_cons] at hpasses
          exact ⟨earlier, item, after, hitems, hpasses.right, hfails⟩

namespace Context

def IsBadDuration (x : Float) : Prop :=
  x < 0.0 ∨ x.isInf = true ∨ x.isNaN = true

structure IsFirstBadStep (context : Context) (step : Nat) (duration : Float) : Prop where
  duration_eq : context.durations[step]? = some duration
  bad : IsBadDuration duration
  first : ∀ earlier < step, ∀ other, context.durations[earlier]? = some other → ¬IsBadDuration other

def IsMisfit (context : Context) (node : Node) : Prop :=
  node.bound.isNaN = true ∨ node.switches.length ≠ context.channels ∨ context.horizon < node.depth

/-- The error that tells why a node does not fit. Of several reasons it is the first one here. -/
inductive NodeFault (context : Context) (node : Node) : QueueError → Prop where
  | nanBound (hbound : node.bound.isNaN = true)
    : NodeFault context node .nanBound
  | wrongChannels (hbound : node.bound.isNaN = false)
      (hswitches : node.switches.length ≠ context.channels)
    : NodeFault context node (.wrongChannels context.channels node.switches.length)
  | beyondHorizon (hbound : node.bound.isNaN = false)
      (hswitches : node.switches.length = context.channels) (hdepth : context.horizon < node.depth)
    : NodeFault context node (.beyondHorizon node.depth context.horizon)

/-- The error that tells of a bad duration or else of a node that does not fit, of the first one each. -/
inductive FirstFault (context : Context) (batch : List Node) : QueueError → Prop where
  | duration (step : Nat) (duration : Float) (hstep : context.IsFirstBadStep step duration)
    : FirstFault context batch (.badDuration step duration)
  | node (before after : List Node) (node : Node) (error : QueueError)
      (hdurations : ∀ duration ∈ context.durations, ¬IsBadDuration duration)
      (hbatch : batch = before ++ node :: after) (hbefore : ∀ earlier ∈ before, ¬context.IsMisfit earlier)
      (hnode : context.NodeFault node error)
    : FirstFault context batch error

variable {context : Context} {batch : List Node} {error : QueueError}

theorem isDuration_eq_true_iff {x : Float} : isDuration x = true ↔ ¬IsBadDuration x := by
  unfold isDuration IsBadDuration
  rw [Bool.and_eq_true, decide_eq_true_eq, ← Binary64.isFinite_eq_false_iff, not_or, Bool.not_eq_false]
  apply and_congr_left
  intro hfinite
  exact (Binary64.not_lt (Binary64.isNaN_of_isFinite hfinite) rfl).symm

theorem find?_durations_eq_some_iff {step : Nat} {duration : Float}
    : context.durations.zipIdx.find? (fun (duration, _) => !isDuration duration) =
        some (duration, step) ↔
      context.IsFirstBadStep step duration := by
  have hbad : ∀ x, (!isDuration x) = true ↔ IsBadDuration x := by
    intro x
    rw [Bool.not_eq_true', ← Bool.not_eq_true, isDuration_eq_true_iff, not_not]
  rw [List.find?_eq_some_iff_getElem]
  constructor
  . rintro ⟨hfails, position, hlt, hget, hfirst⟩
    rw [List.length_zipIdx] at hlt
    rw [List.getElem_zipIdx, Nat.zero_add, Prod.mk.injEq] at hget
    rcases hget with ⟨rfl, rfl⟩
    refine ⟨List.getElem?_eq_getElem hlt, (hbad _).mp hfails, ?_⟩
    . intro earlier hearlier other hother
      have hpasses := hfirst earlier hearlier
      rw [List.getElem_zipIdx] at hpasses
      rcases List.getElem?_eq_some_iff.mp hother with ⟨hbound, hother⟩
      rw [hother, Bool.not_not] at hpasses
      exact isDuration_eq_true_iff.mp hpasses
  . rintro ⟨hduration, hbadStep, hfirst⟩
    rcases List.getElem?_eq_some_iff.mp hduration with ⟨hlt, hget⟩
    refine ⟨(hbad duration).mpr hbadStep, step, ?_, ?_, ?_⟩
    . rw [List.length_zipIdx]
      exact hlt
    . rw [List.getElem_zipIdx, Nat.zero_add, hget]
    . intro earlier hearlier
      have hbound : earlier < context.durations.length := Nat.lt_trans hearlier hlt
      rw [List.getElem_zipIdx, Bool.not_not, isDuration_eq_true_iff]
      exact hfirst earlier hearlier _ (List.getElem?_eq_getElem hbound)

theorem checkDurations_eq_error_iff
    : context.checkDurations = .error error ↔
      ∃ step duration, context.IsFirstBadStep step duration ∧ error = .badDuration step duration := by
  simp only [← find?_durations_eq_some_iff]
  unfold checkDurations
  cases context.durations.zipIdx.find? (fun (duration, _) => !isDuration duration) with
  | none => exact iff_of_false nofun (by simp)
  | some pair =>
    rcases pair with ⟨duration, step⟩
    simp [eq_comm]

theorem checkNode_eq_ok_iff_not {node : Node} : context.checkNode node = .ok () ↔ ¬context.IsMisfit node := by
  rw [checkNode_eq_ok_iff]
  unfold IsMisfit
  rw [not_or, not_or, Bool.not_eq_true, not_not, Nat.not_lt]

theorem checkNode_eq_error_iff {node : Node}
    : context.checkNode node = .error error ↔ context.NodeFault node error := by
  unfold checkNode
  constructor
  . intro h
    split at h
    . next hbound =>
      cases h
      exact .nanBound hbound
    . next hbound =>
      have hbound := eq_false_of_ne_true hbound
      split at h
      . next hswitches =>
        cases h
        exact .wrongChannels hbound hswitches
      . next hswitches =>
        split at h
        . next hdepth =>
          cases h
          exact .beyondHorizon hbound (not_not.mp hswitches) hdepth
        . contradiction
  . intro h
    cases h with
    | nanBound hbound => rw [if_pos hbound]
    | wrongChannels hbound hswitches =>
      rw [if_neg (ne_true_of_eq_false hbound), if_pos hswitches]
    | beyondHorizon hbound hswitches hdepth =>
      rw [if_neg (ne_true_of_eq_false hbound), if_neg (not_not.mpr hswitches), if_pos hdepth]

theorem checkBatch_eq_error_iff
    : context.checkBatch batch = .error error ↔ context.FirstFault batch error := by
  unfold checkBatch
  cases hdurations : context.checkDurations with
  | error fault =>
    rcases checkDurations_eq_error_iff.mp hdurations with ⟨step, duration, hstep, hfault⟩
    rw [hfault]
    constructor
    . intro h
      cases h
      exact .duration step duration hstep
    . intro h
      cases h with
      | duration other time hother =>
        rw [checkDurations_eq_error_iff.mpr ⟨other, time, hother, rfl⟩] at hdurations
        cases hdurations
        rw [hfault]
        rfl
      | node before after node error hgood hbatch hbefore hnode =>
        exact absurd hstep.bad (hgood duration (List.mem_of_getElem? hstep.duration_eq))
  | ok =>
    have hgood : ∀ duration ∈ context.durations, ¬IsBadDuration duration := by
      intro duration hmem
      exact isDuration_eq_true_iff.mp (checkDurations_eq_ok_iff.mp hdurations duration hmem)
    refine (@forM_eq_error_iff _ _ context.checkNode batch error).trans ⟨?_, ?_⟩
    . rintro ⟨before, node, after, hbatch, hpasses, hfails⟩
      refine .node before after node error hgood hbatch ?_ (checkNode_eq_error_iff.mp hfails)
      exact fun earlier hmem => checkNode_eq_ok_iff_not.mp (hpasses earlier hmem)
    . intro h
      cases h with
      | duration step duration hstep =>
        exact absurd hstep.bad (hgood duration (List.mem_of_getElem? hstep.duration_eq))
      | node before after node error hgood hbatch hbefore hnode =>
        refine ⟨before, node, after, hbatch, ?_, checkNode_eq_error_iff.mpr hnode⟩
        exact fun earlier hmem => checkNode_eq_ok_iff_not.mpr (hbefore earlier hmem)

theorem not_firstFault_empty : ¬context.FirstFault batch .empty := by
  intro h
  cases h with
  | node before after node error hgood hbatch hbefore hnode => cases hnode

theorem exists_checkBatch_eq_error_iff
    : (∃ error, context.checkBatch batch = .error error) ↔
      (∃ duration ∈ context.durations, IsBadDuration duration) ∨ ∃ node ∈ batch, context.IsMisfit node := by
  have hok : context.checkBatch batch = .ok () ↔
      (∀ duration ∈ context.durations, ¬IsBadDuration duration) ∧
        ∀ node ∈ batch, ¬context.IsMisfit node := by
    simp only [checkBatch_eq_ok_iff, isDuration_eq_true_iff, checkNode_eq_ok_iff_not]
  have hfails : (∃ error, context.checkBatch batch = .error error) ↔ ¬context.checkBatch batch = .ok () := by
    cases context.checkBatch batch <;> simp
  rw [hfails, hok, not_and_or]
  push Not
  rfl

end Context

namespace DiveQueue

theorem push_refused_iff {queue rest : DiveQueue} {context : Context} {batch : List Node}
    {error : QueueError}
    : queue.push context batch = (.error error, rest) ↔
      rest = queue ∧ batch ≠ [] ∧ context.checkBatch batch = .error error := by
  cases batch with
  | nil => exact iff_of_false nofun fun h => h.right.left rfl
  | cons first others =>
    rw [push_cons, and_iff_right (List.cons_ne_nil _ _)]
    cases context.checkBatch (first :: others) with
    | error fault => rw [Prod.mk.injEq, and_comm, eq_comm]
    | ok => exact iff_of_false nofun nofun

/--
An empty batch is accepted without a look at the context. Any other batch is refused if a step has a bad
duration or a node does not fit, and only then. The queue then reports the first fault and is left just
as it was.
-/
theorem push_eq_error_iff (queue : DiveQueue) (context : Context)
    : queue.push context [] = (.ok (), queue) ∧ ∀ first others,
        ((∃ error rest, queue.push context (first :: others) = (.error error, rest)) ↔
          (∃ duration ∈ context.durations, Context.IsBadDuration duration) ∨
            ∃ node ∈ first :: others, context.IsMisfit node) ∧
        ∀ error rest, queue.push context (first :: others) = (.error error, rest) ↔
          rest = queue ∧ context.FirstFault (first :: others) error := by
  refine ⟨rfl, fun first others => ⟨?_, ?_⟩⟩
  . rw [← Context.exists_checkBatch_eq_error_iff]
    apply exists_congr
    intro error
    simp [push_refused_iff]
  . intro error rest
    rw [push_refused_iff, Context.checkBatch_eq_error_iff, and_iff_right (List.cons_ne_nil _ _)]

example :
    let node (depth : Nat) (bound : Float) (switches : List UInt32) :=
      Node.below none { channel := none, depth, bound, switches }
    let context : Context := .initial [1.0, 2.0] [0]
    (context.checkBatch [node 0 1.0 [0], node 3 1.0 [], node 3 (0.0 / 0.0) [0]]) matches
      .error (.wrongChannels 1 0) := by
  decide

end DiveQueue

end SwitchSearch
