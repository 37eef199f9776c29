import SwitchSearch.Proofs.DiveQueue.Drain
import SwitchSearch.Proofs.DiveQueue.Transitions
import SwitchSearch.Proofs.Search.Exactness
import SwitchSearch.Proofs.Search.Visits

/-!
This module contains what a run of a search does to the tiers of its queue: a node once pruned is of no
use for the rest of the run, and a dive is never cut short by a push.
-/

namespace SwitchSearch

namespace DiveQueue

theorem pruned_subset_of_pop {queue rest : DiveQueue} {node : Node}
    (hpop : Agenda.pop queue = (.ok node, rest))
    : rest.pruned ⊆ queue.pruned := by
  have hpopped : Popped queue (.ok node, rest) := hpop ▸ popped_pop queue
  cases hpopped with
  | pruned node pruned hpruned =>
    rw [hpruned]
    exact List.subset_cons_self _ _
  | dive => exact List.Subset.refl _
  | deferred => exact List.Subset.refl _

theorem cleared_of_pop {queue rest : DiveQueue} {node : Node}
    (hpop : Agenda.pop queue = (.ok node, rest)) (hnode : node ∉ queue.pruned)
    : rest.pruned = [] ∧ rest.dive = none := by
  have hpopped : Popped queue (.ok node, rest) := hpop ▸ popped_pop queue
  cases hpopped with
  | pruned node pruned hpruned =>
    rw [hpruned] at hnode
    exact absurd List.mem_cons_self hnode
  | dive node hpruned hdive => exact ⟨hpruned, rfl⟩
  | deferred entry deferred hpruned hdive hpop => exact ⟨hpruned, hdive⟩

theorem demote_of_dive_eq_none {queue : DiveQueue} (h : queue.dive = none) (context : Context)
    : queue.demote context = queue := by
  unfold demote
  rw [h]

theorem isCut_of_push {queue rest : DiveQueue} {context : Context} {batch : List Node}
    {result : Except QueueError Unit} (hpush : Agenda.push queue context batch = (result, rest))
    (hpruned : queue.pruned = [])
    : ∀ node ∈ rest.pruned, node.isCut context.upperBound = true := by
  have hpushed : Pushed queue context batch (result, rest) := hpush ▸ pushed_push queue context batch
  cases hpushed with
  | nothing hnil =>
    rw [hpruned]
    exact List.forall_mem_nil _
  | refused error hne hcheck =>
    rw [hpruned]
    exact List.forall_mem_nil _
  | taken hne hcheck =>
    intro node hmem
    simp only [taking, hpruned, List.append_nil, List.mem_reverse] at hmem
    exact (List.mem_filter.mp hmem).right

end DiveQueue

namespace Search

variable {problem : Problem} {stop : StopRule} {first search next : Search DiveQueue}

def PrunesCut (search : Search DiveQueue) : Prop :=
  ∀ node ∈ search.agenda.pruned, node.isCut search.upperBound = true

theorem PrunesCut.cleared {node : Node} {rest : DiveQueue} (h : PrunesCut search)
    (hpop : Agenda.pop search.agenda = (.ok node, rest)) (hcut : node.isCut search.upperBound = false)
    : rest.pruned = [] ∧ rest.dive = none := by
  apply DiveQueue.cleared_of_pop hpop
  intro hmem
  rw [h node hmem] at hcut
  contradiction

theorem PrunesCut.round (h : PrunesCut search) (hround : Round problem stop search (.running next))
    : PrunesCut next := by
  cases hround with
  | discarded node agenda hgo hpop hcut =>
    exact fun other hmem => h other (DiveQueue.pruned_subset_of_pop hpop hmem)
  | recorded node agenda hgo hpop hcut hleaf =>
    -- the upper bound falls, but only when nothing is left that it was tested against
    intro other hmem
    have hmem : other ∈ agenda.pruned := hmem
    rw [(h.cleared hpop hcut).left] at hmem
    exact absurd hmem List.not_mem_nil
  | expanded node agenda rest children hgo hpop hcut hleaf hbranch hpush =>
    have hcuts := DiveQueue.isCut_of_push hpush (h.cleared hpop hcut).left
    exact hcuts

theorem Visits.prunesCut (hvisits : Visits problem stop first search) : PrunesCut search := by
  have hstart : (first.start problem).Meets PrunesCut fun _ _ => True := by
    apply meets_start
    . exact fun _ _ _ => trivial
    . intro rest hpush
      have hcuts := DiveQueue.isCut_of_push hpush rfl
      exact hcuts
  apply hvisits.meets hstart
  intro search h
  have hround := round_step problem stop search
  generalize search.step problem stop = progress at hround ⊢
  cases progress with
  | running next => exact h.round hround
  | ended outcome final => trivial

theorem step_of_pruned {node : Node} {pruned : List Node} (h : PrunesCut search)
    (hpruned : search.agenda.pruned = node :: pruned) (hgo : stop search.asked = false)
    : search.step problem stop =
      .running ((search.taking node { search.agenda with pruned }).note (.discard node)) := by
  have hheld : Agenda.isEmpty search.agenda = false := by
    change (search.agenda.size == 0) = false
    simp [DiveQueue.size, hpruned]
  have hcut := h node (hpruned ▸ List.mem_cons_self)
  exact (step_of_pop hheld hgo (DiveQueue.pop_of_pruned hpruned)).trans (explore_of_isCut hcut)

/--
Before each round of a run, the nodes of the pruned tier cannot improve on the best solution, and the
round discards the one on top. Children are pushed only when no node is pruned and no dive is under
way, so that the push has no dive to end.
-/
theorem tiers_of_visits (hvisits : Visits problem stop first search)
    : (∀ node ∈ search.agenda.pruned, search.upperBound ≤ node.bound) ∧
      (∀ node pruned, search.agenda.pruned = node :: pruned → stop search.asked = false →
        search.step problem stop =
          .running ((search.taking node { search.agenda with pruned }).note (.discard node))) ∧
      ∀ node queue children, Expands problem stop search node queue children →
        search.step problem stop =
          ((search.taking node queue).note (.branch node)).offer problem children ∧
        queue.pruned = [] ∧ queue.dive = none ∧ ∀ context, queue.demote context = queue := by
  have hprunes := hvisits.prunesCut
  refine ⟨?_, ?_, ?_⟩
  . exact fun node hmem => Node.isCut_iff.mp (hprunes node hmem)
  . exact fun node pruned hpruned hgo => step_of_pruned hprunes hpruned hgo
  . intro node queue children hexpands
    rcases hprunes.cleared hexpands.taken hexpands.live with ⟨hpruned, hdive⟩
    exact ⟨hexpands.step_eq, hpruned, hdive, DiveQueue.demote_of_dive_eq_none hdive⟩

def halfway : Search DiveQueue where
  agenda := .new {}
  best := some (Node.below (some Problem.fork.root)
    { channel := some 0, depth := 1, bound := 2.5, switches := [0, 0] })
  upperBound := 2.5

theorem tiers_of_visits_halfway
    : ∃ root split : Search DiveQueue, halfway.start .fork = .running root ∧
      root.step .fork .never = .running split ∧ split.agenda.pruned.map (·.bound) = [3.0] ∧
      (∀ node ∈ split.agenda.pruned, split.upperBound ≤ node.bound) ∧
      (∃ next, split.step .fork .never = .running next ∧ next.agenda.pruned = []) ∧
      ∃ queue children, Expands .fork .never root Problem.fork.root queue children ∧
        queue.pruned = [] ∧ queue.dive = none := by
  have hroot : Visits .fork .never halfway _ := .started rfl
  have hsplit : Visits .fork .never halfway _ := .stepped hroot rfl
  have htiers := (tiers_of_visits hroot).right.right Problem.fork.root _ _ ⟨rfl, rfl, rfl, rfl, rfl, rfl⟩
  refine ⟨_, _, rfl, rfl, rfl, (tiers_of_visits hsplit).left, ?_, ?_⟩
  . exact ⟨_, (tiers_of_visits hsplit).right.left _ _ rfl rfl, rfl⟩
  . exact ⟨_, _, ⟨rfl, rfl, rfl, rfl, rfl, rfl⟩, htiers.right.left, htiers.right.right.left⟩

end Search

end SwitchSearch
