import SwitchSearch.Proofs.Search.Journal
import SwitchSearch.Proofs.Search.Visits

/-!
This module contains the proof that a run neither loses nor duplicates a node: at each round, and whenever
it offers a batch to its agenda, the nodes offered before have been taken or are still held.
-/

namespace SwitchSearch.Search

variable {α : Type} [Agenda α] {problem : Problem} {stop : StopRule} {first search next : Search α}
  {batch : List Node}

/-- The run is about to offer a batch: the root when it starts, later the children of a node. -/
inductive Offers (problem : Problem) (stop : StopRule) (first : Search α)
    : Search α → List Node → Prop where
  | root
    : Offers problem stop first first.cleared [problem.root]
  | children {search : Search α} {node : Node} {rest : α} {children : List Node}
      (hvisits : Visits problem stop first search)
      (hexpands : Expands problem stop search node rest children)
    : Offers problem stop first ((search.taking node rest).note (.branch node)) children

variable [LawfulAgenda α]

structure Balanced (search : Search α) : Prop where
  explored_eq : search.explored = search.lastTaken.length
  nodes_perm : (LawfulAgenda.nodes search.agenda ++ search.lastTaken).Perm search.lastOffered

theorem Balanced.taking {node : Node} {rest : α} {event : Event} (h : Balanced search)
    (hpop : Agenda.pop search.agenda = (.ok node, rest)) (hagenda : next.agenda = rest)
    (hexplored : next.explored = search.explored + 1)
    (hjournal : next.journal = [event, .take node] ++ search.journal) (hstart : event ≠ .start)
    (htaken : event.taken? = none) (hoffered : event.offered = [])
    : Balanced next := by
  have hrun : next.lastRun = search.lastRun ++ [.take node, event] :=
    lastRun_of_journal hjournal (by simp [hstart.symm])
  have hlastTaken : next.lastTaken = search.lastTaken ++ [node] := by
    have hnone : [event].filterMap (·.taken?) = [] := List.filterMap_cons_none htaken
    unfold lastTaken
    rw [hrun, List.filterMap_append]
    exact congrArg (search.lastTaken ++ node :: ·) hnone
  have hlastOffered : next.lastOffered = search.lastOffered := by
    unfold lastOffered
    rw [hrun, List.flatMap_append, List.flatMap_cons, List.flatMap_cons, hoffered]
    exact List.append_nil _
  constructor
  . rw [hexplored, h.explored_eq, hlastTaken, List.length_append, List.length_singleton]
  . rw [hagenda, hlastTaken, hlastOffered, ← List.append_assoc]
    calc
      List.Perm (LawfulAgenda.nodes rest ++ search.lastTaken ++ [node])
          (node :: (LawfulAgenda.nodes rest ++ search.lastTaken)) := List.perm_append_singleton node _
      List.Perm _ (LawfulAgenda.nodes search.agenda ++ search.lastTaken) :=
        (perm_nodes_of_pop hpop).symm.append_right _
      List.Perm _ search.lastOffered := h.nodes_perm

theorem Balanced.offering {rest : α} {context : Context} (h : Balanced search)
    (hpush : Agenda.push search.agenda context batch = (.ok (), rest))
    : Balanced (search.offering batch rest) := by
  have hrun : (search.offering batch rest).lastRun = search.lastRun ++ [.offer batch search.upperBound] :=
    @lastRun_of_journal _ search (search.offering batch rest) [.offer batch search.upperBound] rfl (by simp)
  have hlastTaken : (search.offering batch rest).lastTaken = search.lastTaken := by
    unfold lastTaken
    rw [hrun, List.filterMap_append]
    exact List.append_nil _
  have hlastOffered : (search.offering batch rest).lastOffered = search.lastOffered ++ batch := by
    unfold lastOffered
    rw [hrun, List.flatMap_append]
    exact congrArg _ (List.append_nil batch)
  constructor
  . rw [hlastTaken]
    exact h.explored_eq
  . rw [hlastTaken, hlastOffered]
    calc
      List.Perm (LawfulAgenda.nodes rest ++ search.lastTaken)
          ((batch ++ LawfulAgenda.nodes search.agenda) ++ search.lastTaken) :=
        (perm_nodes_of_push hpush).append_right _
      List.Perm _ (batch ++ search.lastOffered) := by
        rw [List.append_assoc]
        exact h.nodes_perm.append_left batch
      List.Perm _ (search.lastOffered ++ batch) := List.perm_append_comm

theorem balanced_cleared (first : Search α) : Balanced first.cleared := by
  refine ⟨rfl, ?_⟩
  have hnodes : LawfulAgenda.nodes first.cleared.agenda = [] := LawfulAgenda.nodes_clear first.agenda
  rw [hnodes]
  exact .refl _

theorem Balanced.branching {node : Node} {rest : α} (h : Balanced search)
    (hpop : Agenda.pop search.agenda = (.ok node, rest))
    : Balanced ((search.taking node rest).note (.branch node)) :=
  h.taking hpop rfl rfl rfl nofun rfl rfl

theorem Balanced.round (h : Balanced search) (hround : Round problem stop search (.running next))
    : Balanced next := by
  cases hround with
  | discarded node agenda hgo hpop hcut => exact h.taking hpop rfl rfl rfl nofun rfl rfl
  | recorded node agenda hgo hpop hcut hleaf => exact h.taking hpop rfl rfl rfl nofun rfl rfl
  | expanded node agenda rest children hgo hpop hcut hleaf hbranch hpush =>
    exact (h.branching hpop).offering hpush

theorem Visits.balanced (hvisits : Visits problem stop first search) : Balanced search := by
  induction hvisits with
  | started hstart =>
    rcases started_of_start hstart with ⟨rest, hstarted, hpush⟩
    rw [hstarted]
    exact (balanced_cleared first).offering hpush
  | stepped hvisits hstep ih => exact ih.round (round_of_step hstep)

theorem Offers.balanced (h : Offers problem stop first search batch) : Balanced search := by
  cases h with
  | root => exact balanced_cleared first
  | children hvisits hexpands => exact hvisits.balanced.branching hexpands.taken

end SwitchSearch.Search
