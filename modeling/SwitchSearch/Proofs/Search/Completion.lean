import SwitchSearch.Proofs.Search.Termination

/-!
This module contains the proof that nothing but the stop rule keeps a search from its result, provided
that all nodes of the tree have children that the agenda takes.
-/

namespace SwitchSearch

variable {α : Type} [Agenda α] {problem : Problem}

structure Problem.Faultless (α : Type) [Agenda α] (problem : Problem) : Prop where
  root : ∀ (agenda : α) (upperBound : Float),
    (Agenda.push agenda (problem.context upperBound) [problem.root]).1 = .ok ()
  branch : ∀ node, problem.Reaches node → problem.isLeaf node = false →
    ∃ children, problem.branch node = .ok children ∧ ∀ (agenda : α) (upperBound : Float),
      (Agenda.push agenda (problem.context upperBound) children).1 = .ok ()

namespace Search

variable {stop : StopRule} {search : Search α}

def Completes (stop : StopRule) (outcome : Outcome) (search : Search α) : Prop :=
  ∃ exact, outcome = .completed exact search.bestValue ∧
    (exact = false → ∃ asked, stop asked = true)

variable [LawfulAgenda α]

theorem Holds.step (hfaultless : problem.Faultless α) (h : search.Holds problem.Reaches)
    : (search.step problem stop).Meets (·.Holds problem.Reaches) (Completes stop) := by
  have hround := round_step problem stop search
  generalize search.step problem stop = progress at hround ⊢
  cases progress with
  | running next => exact h.round hround
  | ended outcome final =>
    cases hround with
    | exhausted hempty => exact ⟨true, rfl, nofun⟩
    | stopped hheld hstop => exact ⟨false, rfl, fun _ => ⟨_, hstop⟩⟩
    | crashed node agenda error hgo hpop hcut hleaf hbranch =>
      rcases hfaultless.branch node (h.taken hpop) hleaf with ⟨children, hok, hpush⟩
      rw [hok] at hbranch
      contradiction
    | refused node agenda rest children error hgo hpop hcut hleaf hbranch hpush =>
      rcases hfaultless.branch node (h.taken hpop) hleaf with ⟨others, hok, htaken⟩
      rw [hok] at hbranch
      cases hbranch
      have hpushed := htaken agenda search.upperBound
      rw [hpush] at hpushed
      contradiction

theorem meets_start_of_faultless (hfaultless : problem.Faultless α) (search : Search α)
    : (search.start problem).Meets (·.Holds problem.Reaches) (Completes stop) := by
  apply meets_start
  . intro error rest hpush
    have hpushed := hfaultless.root (Agenda.clear search.agenda) search.upperBound
    rw [hpush] at hpushed
    contradiction
  . intro rest hpush node hmem
    rw [(mem_nodes_of_start hpush).mp hmem]
    exact Problem.reaches_root

theorem completes_of_run {final : Search α} {fuel : Nat} {outcome : Outcome}
    (hfaultless : problem.Faultless α) (hrun : search.run problem stop fuel = some (outcome, final))
    : Completes stop outcome final :=
  meets_of_finish (fun _ h => h.step hfaultless) (meets_start_of_faultless hfaultless search) hrun

theorem exists_exact_run (hdeepens : problem.Deepens) (hfaultless : problem.Faultless α)
    (search : Search α)
    : ∃ rounds final, ∀ fuel, rounds ≤ fuel →
      search.run problem .never fuel = some (.completed true final.bestValue, final) := by
  rcases exists_run hdeepens .never search with ⟨rounds, outcome, final, hrun⟩
  rcases completes_of_run hfaultless (hrun rounds (Nat.le_refl _)) with ⟨exact, houtcome, hexact⟩
  have htrue : exact = true := by
    cases exact with
    | true => rfl
    | false =>
      rcases hexact rfl with ⟨asked, hasked⟩
      contradiction
  rw [houtcome, htrue] at hrun
  exact ⟨rounds, final, hrun⟩

end Search

end SwitchSearch
