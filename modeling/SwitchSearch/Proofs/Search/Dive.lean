import SwitchSearch.Proofs.DiveQueue.Choice
import SwitchSearch.Proofs.Search.Pruning

/-!
This module contains the course of a dive. After a node come its pruned children, which are discarded,
and then the best of its children, so that the first dive of a search ends at a leaf without detours.
-/

namespace SwitchSearch

def Progress.search {α : Type} : Progress α → Search α
  | .running search => search
  | .ended _ search => search

def Event.isDecision : Event → Bool
  | .record _ | .branch _ => true
  | _ => false

namespace Problem

/--
A problem in which a dive cannot get stuck: the children of a node fit the problem and are one step
further, and one of them may still have a leaf of finite cost below it.
-/
structure Fertile (problem : Problem) : Prop where
  durations : ∀ duration ∈ problem.durations, Context.isDuration duration = true
  depth_root : problem.root.depth = 0
  bound_root : problem.root.bound < infinity
  branch : ∀ node, problem.Reaches node → problem.isLeaf node = false →
    ∃ children, problem.branch node = .ok children ∧
      (∀ child ∈ children,
        (problem.context infinity).checkNode child = .ok () ∧ child.depth = node.depth + 1) ∧
      ∃ child ∈ children, child.bound < infinity

def Prefers (problem : Problem) (parent best : Node) : Prop :=
  problem.isLeaf parent = false ∧
    ∃ children, problem.branch parent = .ok children ∧ best.IsFirstBest children

/-- The way down from a node to a leaf that takes the best child each time, without the leaf itself. -/
inductive Greedy (problem : Problem) : Node → List Node → Node → Prop where
  | here (leaf : Node) (hleaf : problem.isLeaf leaf = true)
    : Greedy problem leaf [] leaf
  | down {parent best leaf : Node} {path : List Node} (hbest : problem.Prefers parent best)
      (hrest : Greedy problem best path leaf)
      : Greedy problem parent (parent :: path) leaf

theorem Prefers.isChild {problem : Problem} {parent best : Node} (h : problem.Prefers parent best)
    : problem.IsChild parent best := by
  rcases h with ⟨hopen, children, hbranch, hfirst⟩
  exact ⟨hopen, children, hbranch, hfirst.mem⟩

end Problem

namespace Search

variable {problem : Problem} {stop : StopRule} {first search next last : Search DiveQueue}
  {node best : Node} {children : List Node} {queue rest : DiveQueue}

def decisions (search : Search DiveQueue) : List Event :=
  (search.journal.filter (·.isDecision)).reverse

inductive Discards (problem : Problem) (stop : StopRule) : Search DiveQueue → Search DiveQueue → Prop where
  | done (search : Search DiveQueue)
    : Discards problem stop search search
  | more {search last : Search DiveQueue} (node : Node) (rest : DiveQueue)
      (hstep : search.step problem stop = .running ((search.taking node rest).note (.discard node)))
      (hrest : Discards problem stop ((search.taking node rest).note (.discard node)) last)
      : Discards problem stop search last

inductive Settles (problem : Problem) (stop : StopRule) (best : Node) (search : Search DiveQueue)
    : Prop where
  | stopped (hstop : stop search.asked = true)
      (hstep : search.step problem stop = { search with asked := search.asked + 1 }.abort)
  | recorded (rest : DiveQueue) (hleaf : problem.isLeaf best = true)
      (hstep : search.step problem stop =
        .running ((search.taking best rest).record best))
  | branched (hopen : problem.isLeaf best = false)
      (hjournal : .branch best :: .take best :: search.journal <:+
        (search.step problem stop).search.journal)

/-- A search that is about to go on with the given node, once the pruned nodes are out of the way. -/
structure Diving (best : Node) (search : Search DiveQueue) : Prop where
  prunesCut : PrunesCut search
  dive : search.agenda.dive = some best
  live : best.isCut search.upperBound = false

theorem journal_offer (search : Search DiveQueue) (batch : List Node)
    : (search.offer problem batch).search.journal =
      .offer batch search.upperBound :: search.journal := by
  unfold offer
  dsimp only
  split <;> rfl

theorem Visits.exists_start (hvisits : Visits problem stop first search)
    : ∃ started, first.start problem = .running started := by
  induction hvisits with
  | started hstart => exact ⟨_, hstart⟩
  | stepped hvisits hstep ih => exact ih

theorem Visits.discards (hvisits : Visits problem stop first search)
    (h : Discards problem stop search last)
    : Visits problem stop first last := by
  induction h with
  | done => exact hvisits
  | more node rest hstep hrest ih => exact ih (.stepped hvisits hstep)

theorem Discards.upperBound_eq (h : Discards problem stop search last)
    : last.upperBound = search.upperBound := by
  induction h with
  | done => rfl
  | more node rest hstep hrest ih => exact ih

theorem Discards.decisions_eq (h : Discards problem stop search last)
    : last.decisions = search.decisions := by
  induction h with
  | done => rfl
  | more node rest hstep hrest ih => exact ih

namespace Diving

theorem of_push (hprunes : PrunesCut search) {context : Context} {before : DiveQueue}
    {batch : List Node} (hpush : Agenda.push before context batch = (.ok (), search.agenda))
    (hcontext : context.upperBound = search.upperBound)
    (hlive : ∃ node ∈ batch, node.bound < search.upperBound)
    : ∃ best, best.IsFirstBest batch ∧ Diving best search ∧ best.bound < search.upperBound := by
  rw [← hcontext] at hlive ⊢
  rcases DiveQueue.dive_of_push hpush hlive with ⟨best, hfirst, hdive, hlt⟩
  have hnumeric := (Binary64.lt_iff.mp hlt).left
  have hcut := (Node.isCut_eq_false_iff hnumeric.left hnumeric.right).mpr hlt
  rw [hcontext] at hcut
  exact ⟨best, hfirst, ⟨hprunes, hdive, hcut⟩, hlt⟩

theorem held (h : Diving best search) : Agenda.isEmpty search.agenda = false := by
  change (search.agenda.size == 0) = false
  simp [DiveQueue.size, h.dive]

theorem step_eq (h : Diving best search) (hpruned : search.agenda.pruned = [])
    (hgo : stop search.asked = false)
    : search.step problem stop =
      (search.taking best { search.agenda with dive := none }).explore problem best :=
  step_of_pop h.held hgo (DiveQueue.pop_of_dive hpruned h.dive)

theorem exists_discards (problem : Problem) (stop : StopRule) (h : Diving best search)
    : ∃ last, Discards problem stop search last ∧ Diving best last ∧
      (stop last.asked = true ∨ last.agenda.pruned = []) := by
  induction hpruned : search.agenda.pruned generalizing search with
  | nil => exact ⟨search, .done search, h, .inr hpruned⟩
  | cons node pruned ih =>
    cases hgo : stop search.asked with
    | true => exact ⟨search, .done search, h, .inl hgo⟩
    | false =>
      have hstep : search.step problem stop = _ := step_of_pruned h.prunesCut hpruned hgo
      have hdiving : Diving best
          ((search.taking node { search.agenda with pruned }).note (.discard node)) := by
        refine ⟨?_, h.dive, h.live⟩
        intro other hmem
        apply h.prunesCut other
        rw [hpruned]
        exact List.mem_cons_of_mem _ hmem
      rcases ih hdiving rfl with ⟨last, hdiscards, hlast, hends⟩
      exact ⟨last, .more node _ hstep hdiscards, hlast, hends⟩

theorem expands (h : Diving best search) (hpruned : search.agenda.pruned = [])
    (hgo : stop search.asked = false) (hopen : problem.isLeaf best = false)
    (hbranch : problem.branch best = .ok children)
    : Expands problem stop search best { search.agenda with dive := none } children :=
  ⟨h.held, hgo, DiveQueue.pop_of_dive hpruned h.dive, h.live, hopen, hbranch⟩

theorem settles (h : Diving best search) (hends : stop search.asked = true ∨ search.agenda.pruned = [])
    : Settles problem stop best search := by
  cases hgo : stop search.asked with
  | true => exact .stopped hgo (step_of_stop h.held hgo)
  | false =>
    have hpruned : search.agenda.pruned = [] := hends.resolve_left (by simp [hgo])
    cases hleaf : problem.isLeaf best with
    | true => exact .recorded _ hleaf ((h.step_eq hpruned hgo).trans (explore_of_isLeaf h.live hleaf))
    | false =>
      refine .branched hleaf ?_
      cases hbranch : problem.branch best with
      | error error =>
        rw [(h.step_eq hpruned hgo).trans (explore_of_error h.live hleaf hbranch)]
        exact List.suffix_refl _
      | ok children =>
        rw [(h.expands hpruned hgo hleaf hbranch).step_eq, journal_offer]
        exact List.suffix_cons _ _

end Diving

theorem diving_of_expands (hvisits : Visits problem stop first search)
    (hexpands : Expands problem stop search node rest children)
    (hstep : search.step problem stop = .running next)
    (hlive : ∃ child ∈ children, child.bound < search.upperBound)
    : ∃ best, best.IsFirstBest children ∧ Diving best next ∧ best.bound < search.upperBound := by
  have hprunes := (hvisits.stepped hstep).prunesCut
  rw [hexpands.step_eq] at hstep
  unfold offer at hstep
  dsimp only at hstep
  split at hstep
  . next pushed hpush =>
    cases hstep
    exact Diving.of_push hprunes hpush rfl hlive
  . contradiction

theorem exists_offering {batch : List Node} (search : Search DiveQueue) (hfertile : problem.Fertile)
    (hfits : ∀ node ∈ batch, (problem.context infinity).checkNode node = .ok ())
    : ∃ pushed, search.offer problem batch = .running (search.offering batch pushed) ∧
      Agenda.push search.agenda (problem.context search.upperBound) batch = (.ok (), pushed) := by
  have hcheck : (problem.context search.upperBound).checkBatch batch = .ok () :=
    Context.checkBatch_eq_ok_iff.mpr ⟨hfertile.durations, hfits⟩
  have hok : (search.agenda.push (problem.context search.upperBound) batch).1 = .ok () :=
    DiveQueue.push_eq_ok_iff.mpr (.inr hcheck)
  have hpush : Agenda.push search.agenda (problem.context search.upperBound) batch =
      (.ok (), (search.agenda.push (problem.context search.upperBound) batch).2) :=
    Prod.ext hok rfl
  refine ⟨_, ?_, hpush⟩
  unfold offer
  rw [hpush]
  rfl

theorem Diving.exists_ready (h : Diving best search) (hvisits : Visits problem .never first search)
    : ∃ ready, Visits problem .never first ready ∧ Diving best ready ∧ ready.agenda.pruned = [] ∧
      ready.upperBound = search.upperBound ∧ ready.decisions = search.decisions := by
  rcases h.exists_discards problem .never with ⟨ready, hdiscards, hready, hends⟩
  refine ⟨ready, hvisits.discards hdiscards, hready, ?_, hdiscards.upperBound_eq, hdiscards.decisions_eq⟩
  exact hends.resolve_left (by simp [StopRule.never])

theorem Diving.exists_recorded (h : Diving node search) (hvisits : Visits problem .never first search)
    (hleaf : problem.isLeaf node = true)
    : ∃ last, Visits problem .never first last ∧
      last.decisions = search.decisions ++ [.record node] ∧ last.best = some node := by
  rcases h.exists_ready hvisits with ⟨ready, hbefore, hready, hpruned, hbound, hdecisions⟩
  have hgo : StopRule.never ready.asked = false := rfl
  have hstep := (hready.step_eq hpruned hgo).trans (explore_of_isLeaf hready.live hleaf)
  refine ⟨_, hbefore.stepped hstep, ?_, rfl⟩
  rw [← hdecisions]
  exact List.reverse_cons

theorem Diving.exists_branched (h : Diving node search) (hvisits : Visits problem .never first search)
    (hfertile : problem.Fertile) (hnone : search.upperBound = infinity) (hreaches : problem.Reaches node)
    (hopen : problem.isLeaf node = false)
    : ∃ best next, problem.Prefers node best ∧ best.depth = node.depth + 1 ∧
      Visits problem .never first next ∧ Diving best next ∧ next.upperBound = infinity ∧
      next.decisions = search.decisions ++ [.branch node] := by
  rcases h.exists_ready hvisits with ⟨ready, hbefore, hready, hpruned, hbound, hdecisions⟩
  rcases hfertile.branch node hreaches hopen with ⟨children, hbranch, hfits, hlive⟩
  rw [← hbound.trans hnone] at hlive
  have hgo : StopRule.never ready.asked = false := rfl
  have hexpands := hready.expands hpruned hgo hopen hbranch
  have hchecks := fun child hmem => (hfits child hmem).left
  rcases exists_offering _ hfertile hchecks with ⟨pushed, hoffer, hpush⟩
  have hstep := hexpands.step_eq.trans hoffer
  rcases diving_of_expands hbefore hexpands hstep hlive with ⟨best, hfirst, hnext, hlt⟩
  have hprefers : problem.Prefers node best := ⟨hopen, children, hbranch, hfirst⟩
  refine ⟨best, _, hprefers, (hfits best hfirst.mem).right, hbefore.stepped hstep, hnext, ?_, ?_⟩
  . exact hbound.trans hnone
  . rw [← hdecisions]
    exact List.reverse_cons

theorem exists_dive {remaining : Nat} (hfertile : problem.Fertile)
    (hvisits : Visits problem .never first search) (hnone : search.upperBound = infinity)
    (hdiving : Diving node search) (hreaches : problem.Reaches node)
    (hdepth : node.depth + remaining = problem.horizon)
    : ∃ path leaf last, problem.Greedy node path leaf ∧
      path.map (·.depth) = List.range' node.depth remaining ∧ Visits problem .never first last ∧
      last.decisions = search.decisions ++ (path.map .branch ++ [.record leaf]) ∧
      last.best = some leaf := by
  -- on the steps that the node leaves open: the best child leaves one less
  induction remaining generalizing search node with
  | zero =>
    have hleaf : problem.isLeaf node = true := Problem.isLeaf_iff.mpr hdepth.ge
    rcases hdiving.exists_recorded hvisits hleaf with ⟨last, hlast, hdecisions, hbest⟩
    exact ⟨[], node, last, .here node hleaf, rfl, hlast, hdecisions, hbest⟩
  | succ remaining ih =>
    have hopen : problem.isLeaf node = false := Problem.isLeaf_eq_false_iff.mpr (by omega)
    rcases hdiving.exists_branched hvisits hfertile hnone hreaches hopen with
      ⟨best, next, hprefers, hdeeper, hnext, hgoes, hstill, hbranched⟩
    have hchild := hreaches.child hprefers.isChild
    rcases ih hnext hstill hgoes hchild (by omega) with
      ⟨path, leaf, last, hgreedy, hdepths, hlast, hdecisions, hbest⟩
    refine ⟨node :: path, leaf, last, .down hprefers hgreedy, ?_, hlast, ?_, hbest⟩
    . rw [List.map_cons, hdepths, hdeeper]
      rfl
    . rw [hdecisions, hbranched, List.append_assoc]
      rfl

theorem exists_first_dive (hfertile : problem.Fertile)
    (hroot : problem.root.switches.length = problem.budgets.length) (queue : DiveQueue)
    : ∃ path leaf last, problem.Greedy problem.root path leaf ∧
      path.map (·.depth) = List.range problem.horizon ∧
      Visits problem .never { agenda := queue } last ∧
      last.decisions = path.map .branch ++ [.record leaf] ∧ last.best = some leaf := by
  let first : Search DiveQueue := { agenda := queue }
  have hfits : ∀ node ∈ [problem.root], (problem.context infinity).checkNode node = .ok () := by
    intro node hmem
    rw [List.mem_singleton.mp hmem, Context.checkNode_eq_ok_iff, hfertile.depth_root]
    exact ⟨(Binary64.lt_iff.mp hfertile.bound_root).left.left, hroot, Nat.zero_le _⟩
  rcases exists_offering first.cleared hfertile hfits with ⟨pushed, hoffer, hpush⟩
  have hvisits : Visits problem .never first _ := .started hoffer
  have hlive : ∃ node ∈ [problem.root], node.bound < infinity :=
    ⟨_, List.mem_singleton_self _, hfertile.bound_root⟩
  rcases Diving.of_push hvisits.prunesCut hpush rfl hlive with ⟨best, hfirst, hdiving, hlt⟩
  rw [List.mem_singleton.mp hfirst.mem] at hdiving
  have hdepth : problem.root.depth + problem.horizon = problem.horizon := by
    rw [hfertile.depth_root, Nat.zero_add]
  have hdive := exists_dive hfertile hvisits rfl hdiving Problem.reaches_root hdepth
  rw [hfertile.depth_root, ← List.range_eq_range'] at hdive
  exact hdive

/--
If some of the children that a round pushes improve on the best solution, then the rounds that follow
discard nodes until one records or branches the first best child. So a search that starts afresh, on
whatever queue, first goes down to a leaf, and always to the best child, if there is always one to go to.
-/
theorem course_of_dive
    : (∀ (problem : Problem) (stop : StopRule) (first search next : Search DiveQueue) (node : Node)
        (rest : DiveQueue) (children : List Node),
        Visits problem stop first search → Expands problem stop search node rest children →
        search.step problem stop = .running next → (∃ child ∈ children, child.bound < search.upperBound) →
        ∃ best last, best.IsFirstBest children ∧ Discards problem stop next last ∧
          Settles problem stop best last) ∧
      ∀ problem : Problem, problem.Fertile → problem.root.switches.length = problem.budgets.length →
        ∀ queue : DiveQueue, ∃ path leaf last, problem.Greedy problem.root path leaf ∧
          path.map (·.depth) = List.range problem.horizon ∧
          Visits problem .never { agenda := queue } last ∧
          last.decisions = path.map .branch ++ [.record leaf] ∧ last.best = some leaf := by
  constructor
  . intro problem stop first search next node rest children hvisits hexpands hstep hlive
    rcases diving_of_expands hvisits hexpands hstep hlive with ⟨best, hfirst, hdiving, hlt⟩
    rcases hdiving.exists_discards problem stop with ⟨last, hdiscards, hlast, hends⟩
    exact ⟨best, last, hfirst, hdiscards, hlast.settles hends⟩
  . exact fun problem hfertile hroot queue => exists_first_dive hfertile hroot queue

end Search

def Problem.forkAt (root : Node) : Problem :=
  { fork with root }

namespace Problem

theorem forkAt_child {root parent child : Node} {children : List Node}
    (hbranch : (forkAt root).branch parent = .ok children) (hmem : child ∈ children)
    : child.depth = parent.depth + 1 ∧ child.bound.isNaN = false ∧ child.switches.length = 2 := by
  cases hbranch
  rcases List.mem_map.mp hmem with ⟨⟨bound, channel⟩, hpair, heq⟩
  have hnumeric : ∀ pair ∈ [3.0, 2.0].zipIdx, pair.1.isNaN = false := by decide
  have hbound : bound.isNaN = false := hnumeric (bound, channel) hpair
  rw [← heq]
  exact ⟨rfl, hbound, rfl⟩

theorem fertile_forkAt {root : Node} (hdepth : root.depth = 0) (hbound : root.bound < infinity)
    : (forkAt root).Fertile := by
  have hnodes : ∀ node, (forkAt root).Reaches node → node = root ∨ (forkAt root).isLeaf node = true := by
    intro node hreaches
    apply hreaches.induct (.inl rfl)
    intro parent child hparent hchild
    rcases hchild with ⟨hopen, children, hbranch, hmem⟩
    right
    rw [isLeaf_iff, (forkAt_child hbranch hmem).left]
    exact Nat.le_add_left _ _
  refine ⟨show ∀ duration ∈ [1.0], _ by decide, hdepth, hbound, ?_⟩
  intro node hreaches hopen
  have hroot : node = root := (hnodes node hreaches).resolve_right (by simp [hopen])
  refine ⟨_, rfl, ?_, _, List.mem_cons_self, show 3.0 < infinity by decide⟩
  intro child hmem
  have hbranch : (forkAt root).branch node = .ok _ := rfl
  rcases forkAt_child hbranch hmem with ⟨hchild, hnumeric, hswitches⟩
  rw [hroot, hdepth] at hchild
  rw [Context.checkNode_eq_ok_iff, hchild, hroot, hdepth]
  exact ⟨⟨hnumeric, hswitches, Nat.le_refl _⟩, rfl⟩

end Problem

namespace Search

theorem course_of_dive_fork
    : (∃ root split : Search DiveQueue,
        ({ agenda := .new {} } : Search DiveQueue).start .fork = .running root ∧
        root.step .fork .never = .running split ∧
        ∃ best last children, Problem.fork.branch Problem.fork.root = .ok children ∧
          best.IsFirstBest children ∧ Discards .fork .never split last ∧ Settles .fork .never best last) ∧
      ∃ path leaf last, Problem.fork.Greedy Problem.fork.root path leaf ∧
        path.map (·.depth) = [0] ∧ Visits .fork .never { agenda := DiveQueue.new {} } last ∧
        last.decisions = path.map .branch ++ [.record leaf] ∧ last.best = some leaf := by
  constructor
  . refine ⟨_, _, rfl, rfl, ?_⟩
    have hroot : Visits .fork .never { agenda := DiveQueue.new {} } _ := .started rfl
    rcases course_of_dive.left .fork .never _ _ _ Problem.fork.root _ _ hroot
      ⟨rfl, rfl, rfl, rfl, rfl, rfl⟩ rfl (by decide) with ⟨best, last, hfirst, hdiscards, hsettles⟩
    exact ⟨best, last, _, rfl, hfirst, hdiscards, hsettles⟩
  . exact course_of_dive.right .fork (Problem.fertile_forkAt rfl (by decide)) rfl _

/-- The root counts one channel too few: a run fails at once, and nothing is branched. -/
theorem not_course_of_dive_forkAt
    : (Problem.forkAt (Node.root 1 0.5)).Fertile ∧
      (∃ final : Search DiveQueue,
        ({ agenda := .new {} } : Search DiveQueue).run (.forkAt (Node.root 1 0.5)) .never 9 =
          some (.failed (.wrongChannels 2 1), final) ∧ final.decisions.length = 0) ∧
      ¬∃ path leaf last, (Problem.forkAt (Node.root 1 0.5)).Greedy (Node.root 1 0.5) path leaf ∧
        path.map (·.depth) = List.range 1 ∧
        Visits (.forkAt (Node.root 1 0.5)) .never { agenda := DiveQueue.new {} } last ∧
        last.decisions = path.map .branch ++ [.record leaf] ∧ last.best = some leaf := by
  refine ⟨Problem.fertile_forkAt rfl (by decide), ⟨_, rfl, rfl⟩, ?_⟩
  rintro ⟨path, leaf, last, hgreedy, hdepths, hvisits, hdecisions, hbest⟩
  rcases hvisits.exists_start with ⟨started, hstart⟩
  contradiction

end Search

end SwitchSearch
