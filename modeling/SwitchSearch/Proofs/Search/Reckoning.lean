import SwitchSearch.Proofs.Search.Conservation
import SwitchSearch.Proofs.Search.Restart

/-!
This module contains the proof that the figures of a run agree. At the head of each round, all nodes taken
have been discarded, recorded or branched, and the children that came of the branches are held or taken.
-/

namespace SwitchSearch

def Event.discarded? : Event → Option Node
  | .discard node => some node
  | _ => none

namespace Search

variable {α : Type} {problem : Problem} {search next : Search α}

def discards (search : Search α) : List Node :=
  search.lastRun.filterMap (·.discarded?)

def generated (problem : Problem) (search : Search α) : List Node :=
  search.branches.flatMap problem.offspring

/-- What a search does with a node it has taken, unless that ends the run. -/
inductive Handles (problem : Problem) (upperBound : Float) (node : Node) : List Event → Prop where
  | discarded (hcut : node.isCut upperBound = true)
    : Handles problem upperBound node [.discard node]
  | recorded (hlive : node.isCut upperBound = false) (hleaf : problem.isLeaf node = true)
    : Handles problem upperBound node [.record node]
  | branched {children : List Node} (hlive : node.isCut upperBound = false)
      (hopen : problem.isLeaf node = false) (hbranch : problem.branch node = .ok children)
    : Handles problem upperBound node [.branch node, .offer children upperBound]

variable [Agenda α] {stop : StopRule} {first : Search α}

structure Follows (problem : Problem) (search next : Search α) (node : Node) (events : List Event)
    : Prop where
  popped : (Agenda.pop search.agenda).1 = .ok node
  handled : Handles problem search.upperBound node events
  lastRun_eq : next.lastRun = search.lastRun ++ .take node :: events
  asked_eq : next.asked = search.asked + 1
  explored_eq : next.explored = search.explored + 1

theorem Round.follows (hround : Round problem stop search (.running next))
    : ∃ node events, Follows problem search next node events := by
  have hrun : ∀ events, next.journal = events ++ search.journal → .start ∉ events →
      next.lastRun = search.lastRun ++ events.reverse :=
    fun events => lastRun_of_journal
  cases hround with
  | discarded node agenda hgo hpop hcut =>
    have hevents := hrun [.discard node, .take node] rfl (by simp)
    exact ⟨node, _, congrArg Prod.fst hpop, .discarded hcut, hevents, rfl, rfl⟩
  | recorded node agenda hgo hpop hcut hleaf =>
    have hevents := hrun [.record node, .take node] rfl (by simp)
    exact ⟨node, _, congrArg Prod.fst hpop, .recorded hcut hleaf, hevents, rfl, rfl⟩
  | expanded node agenda rest children hgo hpop hcut hleaf hbranch hpush =>
    have hevents := hrun [.offer children search.upperBound, .branch node, .take node] rfl (by simp)
    exact ⟨node, _, congrArg Prod.fst hpop, .branched hcut hleaf hbranch, hevents, rfl, rfl⟩

/-- A node has been branched right after it was popped, and it was neither a leaf nor cut at that time. -/
structure BranchedIn (problem : Problem) (earlier : List Event) (node : Node) (head : Search α) : Prop where
  popped : (Agenda.pop head.agenda).1 = .ok node
  earlier_eq : earlier = head.lastRun ++ [.take node]
  inner : node.depth < problem.horizon
  live : ¬(head.upperBound ≤ node.bound)

namespace Follows

variable {node : Node} {events : List Event}

theorem lastOffered_eq (h : Follows problem search next node events)
    (hsearch : search.lastOffered = problem.root :: search.generated problem)
    : next.lastOffered = problem.root :: next.generated problem := by
  unfold lastOffered generated branches at hsearch ⊢
  rw [h.lastRun_eq, List.flatMap_append, List.filterMap_append, List.flatMap_append, hsearch]
  cases h.handled with
  | discarded hcut => rfl
  | recorded hlive hleaf => rfl
  | branched hlive hopen hbranch =>
    simp [Event.offered, Event.branched?, Problem.offspring_of_branch hopen hbranch]

theorem filterMap_lastRun (h : Follows problem search next node events) (view : Event → Option Node)
    (hview : view (.take node) = none)
    : next.lastRun.filterMap view = search.lastRun.filterMap view ++ events.filterMap view := by
  rw [h.lastRun_eq, List.filterMap_append, List.filterMap_cons_none hview]

theorem lastTaken_perm (h : Follows problem search next node events)
    (hsearch : search.lastTaken.Perm (search.discards ++ search.records ++ search.branches))
    : next.lastTaken.Perm (next.discards ++ next.records ++ next.branches) := by
  have htaken : next.lastTaken = search.lastTaken ++ [node] := by
    unfold lastTaken
    rw [h.lastRun_eq, List.filterMap_append]
    cases h.handled <;> rfl
  have hdiscards : next.discards = search.discards ++ _ := h.filterMap_lastRun _ rfl
  have hrecords : next.records = search.records ++ _ := h.filterMap_lastRun _ rfl
  have hbranches : next.branches = search.branches ++ _ := h.filterMap_lastRun _ rfl
  rw [htaken, hdiscards, hrecords, hbranches]
  refine ((List.perm_append_singleton node _).trans (hsearch.cons node)).trans ?_
  -- the node has joined one of the three lists
  cases h.handled with
  | discarded hcut =>
    have hjoined : (node :: (search.discards ++ (search.records ++ search.branches))).Perm
        (search.discards ++ node :: (search.records ++ search.branches)) :=
      List.perm_middle.symm
    simpa [Event.discarded?, Event.incumbent?, Event.branched?] using hjoined
  | recorded hlive hleaf =>
    have hjoined : (node :: (search.discards ++ search.records ++ search.branches)).Perm
        (search.discards ++ search.records ++ node :: search.branches) :=
      List.perm_middle.symm
    simpa [Event.discarded?, Event.incumbent?, Event.branched?] using hjoined
  | branched hlive hopen hbranch =>
    have hjoined : (node :: (search.discards ++ search.records ++ search.branches)).Perm
        (search.discards ++ search.records ++ search.branches ++ [node]) :=
      (List.perm_append_singleton node _).symm
    simpa [Event.discarded?, Event.incumbent?, Event.branched?] using hjoined

theorem branchedIn (h : Follows problem search next node events) {kept later : List Event} {inner : Node}
    (hevents : .take node :: events = kept ++ .branch inner :: later)
    : BranchedIn problem (search.lastRun ++ kept) inner search := by
  have hmem : .branch inner ∈ .take node :: events := by simp [hevents]
  cases h.handled with
  | discarded hcut => simp at hmem
  | recorded hlive hleaf => simp at hmem
  | @branched children hlive hopen hbranch =>
    have hinner : inner = node := by simpa using hmem
    have hkept : kept = [.take node] := by
      match kept with
      | [] => simp at hevents
      | [event] =>
        rw [List.cons_append, List.cons.injEq] at hevents
        rw [hevents.left]
      | first :: second :: kept =>
        simp only [List.cons_append, List.cons.injEq] at hevents
        have hrest : .branch inner ∈ [Event.offer children search.upperBound] := by
          simp [hevents.right.right]
        simp at hrest
    rw [hkept, hinner]
    refine ⟨h.popped, rfl, Problem.isLeaf_eq_false_iff.mp hopen, ?_⟩
    rw [← Node.isCut_iff, hlive]
    exact Bool.false_ne_true

end Follows

theorem Visits.lastOffered_eq [LawfulAgenda α] (hvisits : Visits problem stop first search)
    : search.lastOffered = problem.root :: search.generated problem := by
  induction hvisits with
  | started hstart =>
    rcases started_of_start hstart with ⟨rest, hstarted, hpush⟩
    rw [hstarted]
    rfl
  | stepped hvisits hstep ih =>
    rcases (round_of_step hstep).follows with ⟨node, events, hfollows⟩
    exact hfollows.lastOffered_eq ih

theorem Visits.lastTaken_perm [LawfulAgenda α] (hvisits : Visits problem stop first search)
    : search.lastTaken.Perm (search.discards ++ search.records ++ search.branches) := by
  induction hvisits with
  | started hstart =>
    rcases started_of_start hstart with ⟨rest, hstarted, hpush⟩
    rw [hstarted]
    exact .nil
  | stepped hvisits hstep ih =>
    rcases (round_of_step hstep).follows with ⟨node, events, hfollows⟩
    exact hfollows.lastTaken_perm ih

theorem Visits.asked_eq [LawfulAgenda α] (hvisits : Visits problem stop first search)
    : search.asked = first.asked + search.explored := by
  induction hvisits with
  | started hstart =>
    rcases started_of_start hstart with ⟨rest, hstarted, hpush⟩
    rw [hstarted]
    rfl
  | stepped hvisits hstep ih =>
    rcases (round_of_step hstep).follows with ⟨node, events, hfollows⟩
    rw [hfollows.asked_eq, hfollows.explored_eq, ih, Nat.add_assoc]

theorem Visits.exists_branchedIn [LawfulAgenda α] (hvisits : Visits problem stop first search)
    {earlier later : List Event} {node : Node} (hrun : search.lastRun = earlier ++ .branch node :: later)
    : ∃ head, Visits problem stop first head ∧ BranchedIn problem earlier node head := by
  induction hvisits generalizing later with
  | started hstart =>
    rcases started_of_start hstart with ⟨rest, hstarted, hpush⟩
    have hmem : Event.branch node ∈ [.start, .offer [problem.root] first.upperBound] := by
      have hself : Event.branch node ∈ earlier ++ .branch node :: later := by simp
      rw [← hrun, hstarted] at hself
      exact hself
    simp at hmem
  | @stepped search next hvisits hstep ih =>
    rcases (round_of_step hstep).follows with ⟨taken, events, hfollows⟩
    rw [hfollows.lastRun_eq, List.append_eq_append_iff] at hrun
    rcases hrun with ⟨kept, hearlier, hevents⟩ | ⟨kept, hbefore, hevents⟩
    . rw [hearlier]
      exact ⟨search, hvisits, hfollows.branchedIn hevents⟩
    . cases kept with
      | nil => simp at hevents
      | cons event kept =>
        rw [List.cons_append, List.cons.injEq] at hevents
        rw [← hevents.left] at hbefore
        exact ih hbefore

structure Reckons (problem : Problem) (stop : StopRule) (first search : Search α) : Prop where
  offered_eq : search.lastOffered = problem.root :: search.generated problem
  held_eq : search.explored + Agenda.size search.agenda = 1 + (search.generated problem).length
  asked_eq : search.asked = first.asked + search.explored
  explored_eq : search.explored =
    search.branches.length + search.records.length + search.discards.length
  taken_perm : search.lastTaken.Perm (search.discards ++ search.records ++ search.branches)
  branched : ∀ earlier node later, search.lastRun = earlier ++ .branch node :: later →
    ∃ head, Visits problem stop first head ∧ BranchedIn problem earlier node head

variable [LawfulAgenda α]

theorem Visits.reckons (hvisits : Visits problem stop first search)
    : Reckons problem stop first search := by
  have hbalanced := hvisits.balanced
  have hoffered := hvisits.lastOffered_eq
  have htaken := hvisits.lastTaken_perm
  constructor
  . exact hoffered
  . have hlength := hbalanced.nodes_perm.length_eq
    rw [hoffered, List.length_append, List.length_cons] at hlength
    rw [LawfulAgenda.size_eq, hbalanced.explored_eq]
    omega
  . exact hvisits.asked_eq
  . have hlength := htaken.length_eq
    rw [List.length_append, List.length_append] at hlength
    rw [hbalanced.explored_eq]
    omega
  . exact htaken
  . exact fun earlier node later hrun => hvisits.exists_branchedIn hrun

theorem exhausted_of_run {fuel : Nat} {value : Option Float} {final : Search α}
    (hrun : first.run problem stop fuel = some (.completed true value, final))
    : Visits problem stop first final ∧ Agenda.isEmpty final.agenda = true := by
  rcases exists_last hrun with hstart | ⟨last, hvisits, hstep⟩
  . rcases failed_of_start hstart with ⟨error, hfailed⟩
    contradiction
  . have hround := round_step problem stop last
    rw [hstep] at hround
    cases hround with
    | exhausted hempty => exact ⟨hvisits, hempty⟩

/--
Whatever the agenda holds before a run, and whatever runs there have been, the figures of the run agree
at the head of each of its rounds. When it is exact, its agenda is empty in the end, and the root and
each child that has come of a branch have been taken, once for each time.
-/
theorem reckons_of_run (problem : Problem) (stop : StopRule) (first : Search α)
    : (∀ search, Visits problem stop first search → Reckons problem stop first search) ∧
      ∀ fuel value final, first.run problem stop fuel = some (.completed true value, final) →
        Reckons problem stop first final ∧ Agenda.size final.agenda = 0 ∧
          final.lastTaken.Perm (problem.root :: final.generated problem) ∧
          final.explored = 1 + (final.generated problem).length := by
  refine ⟨fun search hvisits => hvisits.reckons, ?_⟩
  intro fuel value final hrun
  rcases exhausted_of_run hrun with ⟨hvisits, hempty⟩
  have hreckons := hvisits.reckons
  have hperm := hvisits.balanced.nodes_perm
  have hsize : Agenda.size final.agenda = 0 := beq_iff_eq.mp hempty
  have hheld := hreckons.held_eq
  rw [isEmpty_iff.mp hempty, List.nil_append, hreckons.offered_eq] at hperm
  rw [hsize] at hheld
  exact ⟨hreckons, hsize, hperm, hheld⟩

theorem reckons_of_run_detour
    : ∃ stopped final : Search Stack,
      ({ agenda := { nodes := [Problem.fork.root] } } : Search Stack).run .detour (.after 2) 9 =
        some (.completed false none, stopped) ∧
      stopped.run .detour .never 9 = some (.completed true (some 2.0), final) ∧
      (stopped.asked = 3 ∧ final.asked = 7 ∧ final.explored = 4) ∧
      (final.branches.length = 2 ∧ final.records.length = 1 ∧ final.discards.length = 1) ∧
      Reckons .detour .never stopped final ∧ Agenda.size final.agenda = 0 ∧
      final.lastTaken.Perm (Problem.detour.root :: final.generated .detour) ∧
      final.explored = 1 + (final.generated .detour).length := by
  refine ⟨_, _, rfl, rfl, ⟨rfl, rfl, rfl⟩, ⟨rfl, rfl, rfl⟩, ?_⟩
  exact (reckons_of_run .detour .never _).right 9 _ _ rfl

end Search

end SwitchSearch
