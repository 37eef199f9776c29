import SwitchSearch.Proofs.DiveQueue.Refusal
import SwitchSearch.Proofs.Search.Conservation
import SwitchSearch.Proofs.Search.Exactness

/-!
This module contains the proof that a run fails just when its agenda refuses a batch, and that nothing
happens after that. A queue refuses a batch for the faults in it alone, never for being empty itself.
-/

namespace SwitchSearch

def Context.Refuses (context : Context) (batch : List Node) (error : QueueError) : Prop :=
  batch ≠ [] ∧ context.checkBatch batch = .error error

namespace Search

section Agenda

variable {α : Type} [Agenda α] {problem : Problem} {stop : StopRule} {first search ended : Search α}
  {batch : List Node} {error : QueueError}

theorem offer_of_error {rest : α}
    (hpush : Agenda.push search.agenda (problem.context search.upperBound) batch = (.error error, rest))
    : search.offer problem batch = .ended (.failed error) (search.offering batch rest) := by
  unfold offer
  rw [hpush]
  rfl

variable [LawfulAgenda α]

theorem isEmpty_eq_false_of_pop {agenda rest : α} {node : Node}
    (hpop : Agenda.pop agenda = (.ok node, rest))
    : Agenda.isEmpty agenda = false := by
  apply eq_false_of_ne_true
  intro hempty
  have hperm := perm_nodes_of_pop hpop
  rw [isEmpty_iff.mp hempty] at hperm
  exact List.cons_ne_nil _ _ hperm.nil_eq.symm

theorem exists_run_of_offers {rest : α} (h : Offers problem stop first search batch)
    (hpush : Agenda.push search.agenda (problem.context search.upperBound) batch = (.error error, rest))
    : ∃ fuel, first.run problem stop fuel = some (.failed error, search.offering batch rest) := by
  cases h with
  | root =>
    refine ⟨0, ?_⟩
    have hstart : first.start problem = first.cleared.offer problem [problem.root] := rfl
    rw [run, hstart, offer_of_error hpush]
    rfl
  | children hvisits hexpands =>
    rcases exists_run_eq_finish hvisits with ⟨rounds, hrounds⟩
    refine ⟨rounds + 1, ?_⟩
    rw [hrounds, finish, hexpands.step_eq, offer_of_error hpush, finish_ended]

theorem exists_offers_of_run {fuel : Nat} (hrun : first.run problem stop fuel = some (.failed error, ended))
    : ∃ search batch rest, Offers problem stop first search batch ∧
        Agenda.push search.agenda (problem.context search.upperBound) batch = (.error error, rest) ∧
        ended = search.offering batch rest := by
  rcases exists_last hrun with hstart | ⟨last, hvisits, hstep⟩
  . unfold start offer at hstart
    dsimp only at hstart
    split at hstart
    . contradiction
    . next fault rest hpush =>
      cases hstart
      exact ⟨first.cleared, [problem.root], rest, .root, hpush, rfl⟩
  . -- a round takes a node only when there is one, so the failure is that of its push
    have hround := round_step problem stop last
    rw [hstep] at hround
    cases hround with
    | refused node agenda rest children error hgo hpop hcut hleaf hbranch hpush =>
      have hheld := isEmpty_eq_false_of_pop hpop
      exact ⟨_, children, rest, .children hvisits ⟨hheld, hgo, hpop, hcut, hleaf, hbranch⟩, hpush, rfl⟩

theorem run_failed_iff
    : (∃ fuel, first.run problem stop fuel = some (.failed error, ended)) ↔
      ∃ search batch rest, Offers problem stop first search batch ∧
        Agenda.push search.agenda (problem.context search.upperBound) batch = (.error error, rest) ∧
        ended = search.offering batch rest := by
  constructor
  . rintro ⟨fuel, hrun⟩
    exact exists_offers_of_run hrun
  . rintro ⟨search, batch, rest, hoffers, hpush, hended⟩
    rw [hended]
    exact exists_run_of_offers hoffers hpush

end Agenda

variable {problem : Problem} {stop : StopRule} {first search next ended : Search DiveQueue}
  {batch : List Node} {error : QueueError}

theorem refuses_iff_of_push {queue rest : DiveQueue} {context : Context}
    : Agenda.push queue context batch = (.error error, rest) ↔
      rest = queue ∧ context.Refuses batch error :=
  DiveQueue.push_refused_iff

def Accepted (problem : Problem) (search : Search DiveQueue) : Prop :=
  ∀ batch upperBound, .offer batch upperBound ∈ search.lastRun →
    ∀ error, ¬(problem.context upperBound).Refuses batch error

theorem Accepted.advance (h : Accepted problem search) (events : List Event)
    (hjournal : next.journal = events ++ search.journal) (hevents : .start ∉ events)
    (hoffers : ∀ batch upperBound, .offer batch upperBound ∈ events →
      ∀ error, ¬(problem.context upperBound).Refuses batch error)
    : Accepted problem next := by
  intro batch upperBound hmem
  rw [lastRun_of_journal hjournal hevents, List.mem_append, List.mem_reverse] at hmem
  cases hmem with
  | inl hearlier => exact h batch upperBound hearlier
  | inr hnew => exact hoffers batch upperBound hnew

theorem Accepted.offering {rest : DiveQueue} (h : Accepted problem search)
    (hpush : Agenda.push search.agenda (problem.context search.upperBound) batch = (.ok (), rest))
    : Accepted problem (search.offering batch rest) := by
  refine h.advance [.offer batch search.upperBound] rfl (by simp) ?_
  intro offered upperBound hmem error hrefuses
  rw [List.mem_singleton, Event.offer.injEq] at hmem
  rw [hmem.left, hmem.right] at hrefuses
  rw [refuses_iff_of_push.mpr ⟨rfl, hrefuses⟩] at hpush
  cases hpush

theorem accepted_cleared (problem : Problem) (first : Search DiveQueue)
    : Accepted problem first.cleared := by
  intro batch upperBound hmem
  change Event.offer batch upperBound ∈ [.start] at hmem
  simp at hmem

theorem Accepted.round (h : Accepted problem search)
    (hround : Round problem stop search (.running next))
    : Accepted problem next := by
  cases hround with
  | discarded node agenda hgo hpop hcut =>
    exact h.advance [.discard node, .take node] rfl (by simp) (by simp)
  | recorded node agenda hgo hpop hcut hleaf =>
    exact h.advance [.record node, .take node] rfl (by simp) (by simp)
  | expanded node agenda rest children hgo hpop hcut hleaf hbranch hpush =>
    have hbranching : Accepted problem ((search.taking node agenda).note (.branch node)) :=
      h.advance [.branch node, .take node] rfl (by simp) (by simp)
    exact hbranching.offering hpush

theorem Visits.accepted (hvisits : Visits problem stop first search) : Accepted problem search := by
  induction hvisits with
  | started hstart =>
    rcases started_of_start hstart with ⟨rest, hstarted, hpush⟩
    rw [hstarted]
    exact (accepted_cleared problem first).offering hpush
  | stepped hvisits hstep ih => exact ih.round (round_of_step hstep)

theorem Offers.accepted (h : Offers problem stop first search batch) : Accepted problem search := by
  cases h with
  | root => exact accepted_cleared problem first
  | children hvisits hexpands =>
    exact hvisits.accepted.advance [.branch _, .take _] rfl (by simp) (by simp)

theorem run_failed_iff_refuses
    : (∃ fuel, first.run problem stop fuel = some (.failed error, ended)) ↔
      ∃ search batch, Offers problem stop first search batch ∧
        (problem.context search.upperBound).Refuses batch error ∧
        ended = search.note (.offer batch search.upperBound) := by
  rw [run_failed_iff]
  constructor
  . rintro ⟨search, batch, rest, hoffers, hpush, hended⟩
    rw [refuses_iff_of_push] at hpush
    rw [hpush.left] at hended
    exact ⟨search, batch, hoffers, hpush.right, hended⟩
  . rintro ⟨search, batch, hoffers, hrefuses, hended⟩
    exact ⟨search, batch, search.agenda, hoffers, refuses_iff_of_push.mpr ⟨rfl, hrefuses⟩, hended⟩

/--
A run on a queue fails when the queue refuses a batch that is offered to it, with the error of the queue,
and only then. It ends in the state that it was in when it offered the batch: it has recorded the offer
and done nothing since. Up to then the queue has accepted all batches of the run, and it holds those of
their nodes that have not been taken. So no run finds its queue empty when it takes a node, and if the
durations are in order and all nodes that are offered fit the problem, then no run fails.
-/
theorem failed_of_run (problem : Problem) (stop : StopRule) (first : Search DiveQueue)
    : (∀ fuel ended, first.run problem stop fuel ≠ some (.failed .empty, ended)) ∧
      (∀ error ended, (∃ fuel, first.run problem stop fuel = some (.failed error, ended)) ↔
        ∃ search batch, Offers problem stop first search batch ∧
          (problem.context search.upperBound).Refuses batch error ∧
          ended = search.note (.offer batch search.upperBound)) ∧
      (∀ search batch, Offers problem stop first search batch →
        Balanced search ∧ Accepted problem search) ∧
      ((∀ duration ∈ problem.durations, 0.0 ≤ duration ∧ duration.isFinite = true) →
        (∀ search batch, Offers problem stop first search batch → ∀ node ∈ batch,
          node.bound.isNaN = false ∧ node.switches.length = problem.budgets.length ∧
            node.depth ≤ problem.horizon) →
        ∀ fuel error ended, first.run problem stop fuel ≠ some (.failed error, ended)) := by
  refine ⟨?_, ?_, ?_, ?_⟩
  . intro fuel ended hrun
    rcases run_failed_iff_refuses.mp ⟨fuel, hrun⟩ with ⟨search, batch, hoffers, hrefuses, hended⟩
    exact Context.not_firstFault_empty (Context.checkBatch_eq_error_iff.mp hrefuses.right)
  . exact fun error ended => run_failed_iff_refuses
  . exact fun search batch hoffers => ⟨hoffers.balanced, hoffers.accepted⟩
  . intro hdurations hfits fuel error ended hrun
    rcases run_failed_iff_refuses.mp ⟨fuel, hrun⟩ with ⟨search, batch, hoffers, hrefuses, hended⟩
    have hok : (problem.context search.upperBound).checkBatch batch = .ok () := by
      rw [Context.checkBatch_eq_ok_iff]
      constructor
      . intro duration hmem
        simpa [Context.isDuration] using hdurations duration hmem
      . exact fun node hmem => Context.checkNode_eq_ok_iff.mpr (hfits search batch hoffers node hmem)
    rw [hrefuses.right] at hok
    contradiction

end Search

def Problem.tainted : Problem where
  root := Node.root 1 0.5
  durations := [1.0]
  budgets := [0]
  branch node := .ok <| [3.0, Float.ofBits 0x7ff8000000000000].map fun bound =>
    Node.below (some node) { channel := some 0, depth := node.depth + 1, bound, switches := [0] }

namespace Search

theorem failed_of_run_tainted
    : (∃ ended search batch,
        ({ agenda := .new {} } : Search DiveQueue).run .tainted .never 1 =
          some (.failed .nanBound, ended) ∧
        Offers .tainted .never ({ agenda := .new {} } : Search DiveQueue) search batch ∧
        (Problem.tainted.context search.upperBound).Refuses batch .nanBound ∧
        ended = search.note (.offer batch search.upperBound) ∧ Balanced search ∧
        Accepted .tainted search) ∧
      ∀ fuel error ended,
        ({ agenda := .new {} } : Search DiveQueue).run .fork .never fuel ≠ some (.failed error, ended) := by
  constructor
  . have hrun : ({ agenda := .new {} } : Search DiveQueue).run .tainted .never 1 =
        some (.failed .nanBound, _) := rfl
    rcases failed_of_run .tainted .never { agenda := .new {} } with ⟨hempty, hfailed, hsound, hfit⟩
    rcases (hfailed _ _).mp ⟨1, hrun⟩ with ⟨search, batch, hoffers, hrefuses, hended⟩
    have hoffered := hsound search batch hoffers
    exact ⟨_, search, batch, hrun, hoffers, hrefuses, hended, hoffered.left, hoffered.right⟩
  . refine (failed_of_run .fork .never { agenda := .new {} }).right.right.right (by decide) ?_
    intro search batch hoffers node hmem
    cases hoffers with
    | root =>
      rw [List.mem_singleton.mp hmem]
      decide
    | @children _ parent _ _ hvisits hexpands =>
      have hinner : parent.depth < 1 := Nat.lt_of_not_le (of_decide_eq_false hexpands.inner)
      have hbounds : ∀ pair ∈ [3.0, 2.0].zipIdx, pair.fst.isNaN = false := by decide
      cases hexpands.branched
      rcases List.mem_map.mp hmem with ⟨pair, hpair, hnode⟩
      rw [← hnode]
      exact ⟨hbounds pair hpair, rfl, hinner⟩

end Search

end SwitchSearch
