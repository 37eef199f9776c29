import SwitchSearch.Proofs.Search.Round

/-!
This module contains the states a search goes through: those within a run, before each of its rounds,
and those between runs. It also singles out the rounds that replace a node by its children.
-/

namespace SwitchSearch.Search

variable {α : Type} [Agenda α] {problem : Problem} {stop : StopRule} {first search next : Search α}

/-- The states before the rounds of the run that `first` starts. -/
inductive Visits (problem : Problem) (stop : StopRule) (first : Search α) : Search α → Prop where
  | started {search : Search α} (hstart : first.start problem = .running search)
    : Visits problem stop first search
  | stepped {search next : Search α} (hvisits : Visits problem stop first search)
      (hstep : search.step problem stop = .running next)
      : Visits problem stop first next

theorem Visits.meets {inv : Search α → Prop} {post : Outcome → Search α → Prop}
    (hvisits : Visits problem stop first search)
    (hstart : (first.start problem).Meets inv post)
    (hstep : ∀ search, inv search → (step problem stop search).Meets inv post)
    : inv search := by
  induction hvisits with
  | started hrunning =>
    rw [hrunning] at hstart
    exact hstart
  | stepped hvisits hrunning ih =>
    have hnext := hstep _ ih
    rw [hrunning] at hnext
    exact hnext

/-- The states of a search in all of its runs, each of which may have a stop rule of its own. -/
inductive Met (problem : Problem) : Search α → Prop where
  | between {search : Search α} (hreached : Reached problem search)
    : Met problem search
  | within {first search : Search α} {stop : StopRule} (hreached : Reached problem first)
      (hvisits : Visits problem stop first search)
      : Met problem search

theorem Met.induct {always held : Search α → Prop} (hmet : Met problem search)
    (hnew : ∀ agenda : α, always { agenda })
    (hstart : ∀ search, always search → (start problem search).Meets held fun _ => always)
    (hstep : ∀ stop search, held search → (step problem stop search).Meets held fun _ => always)
    (hweaken : ∀ search, held search → always search)
    : always search := by
  have hreach : ∀ search : Search α, Reached problem search → always search := by
    intro search hreached
    induction hreached with
    | new agenda => exact hnew agenda
    | run hreached hrun ih => exact meets_of_finish (hstep _) (hstart _ ih) hrun
  cases hmet with
  | between hreached => exact hreach search hreached
  | within hreached hvisits =>
    exact hweaken search (hvisits.meets (hstart _ (hreach _ hreached)) (hstep _))

theorem exists_last {fuel : Nat} {outcome : Outcome} {final : Search α}
    (hrun : first.run problem stop fuel = some (outcome, final))
    : first.start problem = .ended outcome final ∨
      ∃ last, Visits problem stop first last ∧ last.step problem stop = .ended outcome final := by
  cases hstart : first.start problem with
  | ended ending search =>
    rw [run, hstart, finish_ended] at hrun
    cases hrun
    exact .inl rfl
  | running started =>
    right
    have hvisited : (first.start problem).Meets (Visits problem stop first) fun outcome final =>
        ∃ last, Visits problem stop first last ∧ last.step problem stop = .ended outcome final := by
      rw [hstart]
      exact .started hstart
    refine meets_of_finish ?_ hvisited hrun
    intro search hvisits
    cases hstep : search.step problem stop with
    | running next => exact hvisits.stepped hstep
    | ended ending last => exact ⟨search, hvisits, hstep⟩

theorem exists_run_eq_finish (hvisits : Visits problem stop first search)
    : ∃ rounds, ∀ fuel, first.run problem stop (rounds + fuel) =
        finish problem stop fuel (.running search) := by
  induction hvisits with
  | started hstart =>
    refine ⟨0, fun fuel => ?_⟩
    rw [run, hstart, Nat.zero_add]
  | stepped hvisits hstep ih =>
    rcases ih with ⟨rounds, hrounds⟩
    refine ⟨rounds + 1, fun fuel => ?_⟩
    rw [Nat.add_assoc, Nat.add_comm 1, hrounds, finish, hstep]

/-- The next round takes `node`, leaving `rest`, and offers the agenda the children of the node. -/
structure Expands (problem : Problem) (stop : StopRule) (search : Search α) (node : Node) (rest : α)
    (children : List Node) : Prop where
  held : Agenda.isEmpty search.agenda = false
  goes : stop search.asked = false
  taken : Agenda.pop search.agenda = (.ok node, rest)
  live : node.isCut search.upperBound = false
  inner : problem.isLeaf node = false
  branched : problem.branch node = .ok children

section Explore

variable {node : Node}

theorem explore_of_isCut (hcut : node.isCut search.upperBound = true)
    : search.explore problem node = .running (search.note (.discard node)) :=
  if_pos hcut

theorem explore_of_isLeaf (hcut : node.isCut search.upperBound = false)
    (hleaf : problem.isLeaf node = true)
    : search.explore problem node = .running (search.record node) := by
  simp only [explore, hcut, hleaf, Bool.false_eq_true, if_false, if_true]

theorem explore_of_error {error : ExtendError} (hcut : node.isCut search.upperBound = false)
    (hopen : problem.isLeaf node = false) (hbranch : problem.branch node = .error error)
    : search.explore problem node = .ended (.crashed error) (search.note (.branch node)) := by
  simp only [explore, hcut, hopen, hbranch, Bool.false_eq_true, if_false]

theorem explore_of_children {children : List Node} (hcut : node.isCut search.upperBound = false)
    (hopen : problem.isLeaf node = false) (hbranch : problem.branch node = .ok children)
    : search.explore problem node = (search.note (.branch node)).offer problem children := by
  simp only [explore, hcut, hopen, hbranch, Bool.false_eq_true, if_false]

end Explore

theorem step_of_stop (hheld : Agenda.isEmpty search.agenda = false) (hstop : stop search.asked = true)
    : search.step problem stop = { search with asked := search.asked + 1 }.abort := by
  simp only [step, hheld, hstop, Bool.false_eq_true, if_false, if_true]

variable [LawfulAgenda α] {node : Node} {rest : α}

theorem step_of_pop (hheld : Agenda.isEmpty search.agenda = false) (hgo : stop search.asked = false)
    (hpop : Agenda.pop search.agenda = (.ok node, rest))
    : search.step problem stop = (search.taking node rest).explore problem node := by
  have htop := LawfulAgenda.pop_eq_top search.agenda
  rw [hpop] at htop
  simp only [step, advance, hheld, hgo, ← htop, hpop, Bool.false_eq_true, if_false]
  rfl

theorem Expands.step_eq {children : List Node} (h : Expands problem stop search node rest children)
    : search.step problem stop =
      ((search.taking node rest).note (.branch node)).offer problem children :=
  (step_of_pop h.held h.goes h.taken).trans (explore_of_children h.live h.inner h.branched)

end SwitchSearch.Search
