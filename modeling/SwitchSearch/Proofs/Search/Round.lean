import SwitchSearch.Agenda.Lawful
import SwitchSearch.Proofs.Problem.Descent
import SwitchSearch.Search.Basic

/-!
This module contains all that a round of a search can do, given an agenda that keeps its contract,
and the induction over the rounds of a run.
-/

namespace SwitchSearch

variable {α : Type}

namespace Progress

def Meets (inv : Search α → Prop) (post : Outcome → Search α → Prop) : Progress α → Prop
  | .running search => inv search
  | .ended outcome search => post outcome search

end Progress

namespace Search

variable [Agenda α] {problem : Problem} {stop : StopRule} {search : Search α}

def taking (search : Search α) (node : Node) (agenda : α) : Search α :=
  { search with
    agenda
    explored := search.explored + 1
    asked := search.asked + 1
    journal := .take node :: search.journal }

def offering (search : Search α) (batch : List Node) (agenda : α) : Search α :=
  { search.note (.offer batch search.upperBound) with agenda }

inductive Round (problem : Problem) (stop : StopRule) (search : Search α) : Progress α → Prop where
  | exhausted (hempty : Agenda.isEmpty search.agenda = true)
    : Round problem stop search (.ended (.completed true search.bestValue) search)
  | stopped (hheld : Agenda.isEmpty search.agenda = false) (hstop : stop search.asked = true)
    : Round problem stop search { search with asked := search.asked + 1 }.abort
  | discarded (node : Node) (agenda : α) (hgo : stop search.asked = false)
      (hpop : Agenda.pop search.agenda = (.ok node, agenda))
      (hcut : node.isCut search.upperBound = true)
    : Round problem stop search (.running ((search.taking node agenda).note (.discard node)))
  | recorded (node : Node) (agenda : α) (hgo : stop search.asked = false)
      (hpop : Agenda.pop search.agenda = (.ok node, agenda))
      (hcut : node.isCut search.upperBound = false) (hleaf : problem.isLeaf node = true)
    : Round problem stop search
        (.running ((search.taking node agenda).record node))
  | crashed (node : Node) (agenda : α) (error : ExtendError) (hgo : stop search.asked = false)
      (hpop : Agenda.pop search.agenda = (.ok node, agenda))
      (hcut : node.isCut search.upperBound = false) (hleaf : problem.isLeaf node = false)
      (hbranch : problem.branch node = .error error)
    : Round problem stop search
        (.ended (.crashed error) ((search.taking node agenda).note (.branch node)))
  | refused (node : Node) (agenda rest : α) (children : List Node) (error : QueueError)
      (hgo : stop search.asked = false) (hpop : Agenda.pop search.agenda = (.ok node, agenda))
      (hcut : node.isCut search.upperBound = false) (hleaf : problem.isLeaf node = false)
      (hbranch : problem.branch node = .ok children)
      (hpush : Agenda.push agenda (problem.context search.upperBound) children =
        (.error error, rest))
    : Round problem stop search
        (.ended (.failed error)
          (((search.taking node agenda).note (.branch node)).offering children rest))
  | expanded (node : Node) (agenda rest : α) (children : List Node)
      (hgo : stop search.asked = false) (hpop : Agenda.pop search.agenda = (.ok node, agenda))
      (hcut : node.isCut search.upperBound = false) (hleaf : problem.isLeaf node = false)
      (hbranch : problem.branch node = .ok children)
      (hpush : Agenda.push agenda (problem.context search.upperBound) children = (.ok (), rest))
    : Round problem stop search
        (.running (((search.taking node agenda).note (.branch node)).offering children rest))

theorem round_explore {node : Node} {agenda : α} (hgo : stop search.asked = false)
    (hpop : Agenda.pop search.agenda = (.ok node, agenda))
    : Round problem stop search ((search.taking node agenda).explore problem node) := by
  have hbound : (search.taking node agenda).upperBound = search.upperBound := rfl
  unfold explore
  rw [hbound]
  split
  . next hcut => exact .discarded node agenda hgo hpop hcut
  . next hcut =>
    have hcut := eq_false_of_ne_true hcut
    split
    . next hleaf => exact .recorded node agenda hgo hpop hcut hleaf
    . next hleaf =>
      have hleaf := eq_false_of_ne_true hleaf
      dsimp only
      split
      . next error hbranch => exact .crashed node agenda error hgo hpop hcut hleaf hbranch
      . next children hbranch =>
        unfold offer
        dsimp only
        split
        . next rest hpush => exact .expanded node agenda rest children hgo hpop hcut hleaf hbranch hpush
        . next error rest hpush =>
          exact .refused node agenda rest children error hgo hpop hcut hleaf hbranch hpush

theorem finish_ended (problem : Problem) (stop : StopRule) (fuel : Nat) (outcome : Outcome)
    (search : Search α)
    : finish problem stop fuel (.ended outcome search) = some (outcome, search) := by
  cases fuel <;> rfl

theorem meets_of_finish {inv : Search α → Prop} {post : Outcome → Search α → Prop}
    (hstep : ∀ search, inv search → (step problem stop search).Meets inv post)
    {fuel : Nat} {progress : Progress α} {outcome : Outcome} {final : Search α}
    (hstart : progress.Meets inv post)
    (h : finish problem stop fuel progress = some (outcome, final))
    : post outcome final := by
  induction fuel generalizing progress with
  | zero =>
    cases progress with
    | running search => simp [finish] at h
    | ended outcome search =>
      rw [finish_ended] at h
      cases h
      exact hstart
  | succ fuel ih =>
    cases progress with
    | running search => exact ih (hstep search hstart) h
    | ended outcome search =>
      rw [finish_ended] at h
      cases h
      exact hstart

def cleared (search : Search α) : Search α :=
  { search with agenda := Agenda.clear search.agenda, explored := 0 }.note .start

theorem meets_start {inv : Search α → Prop} {post : Outcome → Search α → Prop}
    (hrefused : ∀ error rest,
      Agenda.push (Agenda.clear search.agenda) (problem.context search.upperBound) [problem.root] =
        (.error error, rest) →
      post (.failed error) (search.cleared.offering [problem.root] rest))
    (htaken : ∀ rest,
      Agenda.push (Agenda.clear search.agenda) (problem.context search.upperBound) [problem.root] =
        (.ok (), rest) →
      inv (search.cleared.offering [problem.root] rest))
    : (search.start problem).Meets inv post := by
  unfold start offer
  dsimp only
  split
  . next rest hpush => exact htaken rest hpush
  . next error rest hpush => exact hrefused error rest hpush

theorem started_of_start {started : Search α} (h : search.start problem = .running started)
    : ∃ rest, started = search.cleared.offering [problem.root] rest ∧
        Agenda.push (Agenda.clear search.agenda) (problem.context search.upperBound) [problem.root] =
          (.ok (), rest) := by
  unfold start offer at h
  dsimp only at h
  split at h
  . next rest hpush => exact ⟨rest, (Progress.running.inj h).symm, hpush⟩
  . contradiction

theorem failed_of_start {outcome : Outcome} {ended : Search α}
    (h : search.start problem = .ended outcome ended)
    : ∃ error, outcome = .failed error := by
  unfold start offer at h
  dsimp only at h
  split at h
  . contradiction
  . next error rest hpush => exact ⟨error, (Progress.ended.inj h).left.symm⟩

/-- A search between two runs: each run may have ended in any way, and had a stop rule of its own. -/
inductive Reached (problem : Problem) : Search α → Prop where
  | new (agenda : α) : Reached problem { agenda }
  | run {search final : Search α} {stop : StopRule} {fuel : Nat} {outcome : Outcome}
      (hreached : Reached problem search)
      (hrun : search.run problem stop fuel = some (outcome, final))
      : Reached problem final

variable [LawfulAgenda α]

theorem isEmpty_iff {agenda : α} : Agenda.isEmpty agenda = true ↔ LawfulAgenda.nodes agenda = [] := by
  unfold Agenda.isEmpty
  rw [beq_iff_eq, LawfulAgenda.size_eq, List.length_eq_zero_iff]

theorem exists_pop {agenda : α} (h : Agenda.isEmpty agenda = false)
    : ∃ node rest, Agenda.top agenda = .ok node ∧ Agenda.pop agenda = (.ok node, rest) := by
  cases htop : Agenda.top agenda with
  | error error =>
    have hempty := (LawfulAgenda.top_eq_error_iff agenda).mp ⟨error, htop⟩
    rw [isEmpty_iff.mpr hempty] at h
    contradiction
  | ok node =>
    have hpop := LawfulAgenda.pop_eq_top agenda
    rw [htop] at hpop
    exact ⟨node, (Agenda.pop agenda).2, rfl, Prod.ext hpop rfl⟩

theorem round_step (problem : Problem) (stop : StopRule) (search : Search α)
    : Round problem stop search (search.step problem stop) := by
  unfold step
  split
  . next hempty => exact .exhausted hempty
  . next hheld =>
    have hheld := eq_false_of_ne_true hheld
    dsimp only
    split
    . next hstop => exact .stopped hheld hstop
    . next hgo =>
      have hgo := eq_false_of_ne_true hgo
      rcases exists_pop hheld with ⟨node, agenda, htop, hpop⟩
      unfold advance
      dsimp only
      rw [htop, hpop]
      exact round_explore hgo hpop

theorem round_of_step {next : Search α} (hstep : search.step problem stop = .running next)
    : Round problem stop search (.running next) :=
  hstep ▸ round_step problem stop search

theorem perm_nodes_of_pop {agenda rest : α} {node : Node}
    (hpop : Agenda.pop agenda = (.ok node, rest))
    : (LawfulAgenda.nodes agenda).Perm (node :: LawfulAgenda.nodes rest) := by
  have hperm := LawfulAgenda.nodes_pop_of_ok agenda node (by rw [hpop])
  rwa [hpop] at hperm

theorem perm_nodes_of_push {agenda rest : α} {context : Context} {batch : List Node}
    (hpush : Agenda.push agenda context batch = (.ok (), rest))
    : (LawfulAgenda.nodes rest).Perm (batch ++ LawfulAgenda.nodes agenda) := by
  have hperm := LawfulAgenda.nodes_push_of_ok agenda context batch (by rw [hpush])
  rwa [hpush] at hperm

theorem mem_nodes_of_pop {agenda rest : α} {node other : Node}
    (hpop : Agenda.pop agenda = (.ok node, rest))
    : other ∈ LawfulAgenda.nodes agenda ↔ other = node ∨ other ∈ LawfulAgenda.nodes rest := by
  rw [(perm_nodes_of_pop hpop).mem_iff, List.mem_cons]

theorem mem_nodes_of_push {agenda rest : α} {context : Context} {batch : List Node} {other : Node}
    (hpush : Agenda.push agenda context batch = (.ok (), rest))
    : other ∈ LawfulAgenda.nodes rest ↔ other ∈ batch ∨ other ∈ LawfulAgenda.nodes agenda := by
  rw [(perm_nodes_of_push hpush).mem_iff, List.mem_append]

def Holds (property : Node → Prop) (search : Search α) : Prop :=
  ∀ node ∈ LawfulAgenda.nodes search.agenda, property node

theorem Holds.taken {property : Node → Prop} {node : Node} {rest : α} (h : search.Holds property)
    (hpop : Agenda.pop search.agenda = (.ok node, rest))
    : property node :=
  h node ((mem_nodes_of_pop hpop).mpr (.inl rfl))

theorem Round.holds {property : Node → Prop} {next : Search α}
    (hround : Round problem stop search (.running next)) (h : search.Holds property)
    (hinherited : ∀ (agenda rest : α) (parent : Node) (children : List Node), property parent →
      problem.isLeaf parent = false → problem.branch parent = .ok children →
      Agenda.push agenda (problem.context search.upperBound) children = (.ok (), rest) →
      ∀ child ∈ children, property child)
    : next.Holds property := by
  cases hround with
  | discarded node agenda hgo hpop hcut =>
    exact fun other hmem => h other ((mem_nodes_of_pop hpop).mpr (.inr hmem))
  | recorded node agenda hgo hpop hcut hleaf =>
    exact fun other hmem => h other ((mem_nodes_of_pop hpop).mpr (.inr hmem))
  | expanded node agenda rest children hgo hpop hcut hleaf hbranch hpush =>
    intro other hmem
    cases (mem_nodes_of_push hpush).mp hmem with
    | inl hnew => exact hinherited agenda rest node children (h.taken hpop) hleaf hbranch hpush other hnew
    | inr hold => exact h other ((mem_nodes_of_pop hpop).mpr (.inr hold))

theorem Holds.round {next : Search α} (h : search.Holds problem.Reaches)
    (hround : Round problem stop search (.running next))
    : next.Holds problem.Reaches := by
  apply hround.holds h
  intro agenda rest parent children hparent hopen hbranch hpush child hmem
  exact hparent.child ⟨hopen, children, hbranch, hmem⟩

theorem mem_nodes_of_start {agenda rest : α} {context : Context} {node : Node}
    (hpush : Agenda.push (Agenda.clear agenda) context [problem.root] = (.ok (), rest))
    : node ∈ LawfulAgenda.nodes rest ↔ node = problem.root := by
  rw [mem_nodes_of_push hpush, LawfulAgenda.nodes_clear, List.mem_singleton]
  exact or_iff_left List.not_mem_nil

theorem holds_start {started : Search α} (h : search.start problem = .running started)
    : started.Holds problem.Reaches := by
  have hmeets : (search.start problem).Meets (·.Holds problem.Reaches) (fun _ _ => True) := by
    apply meets_start
    . exact fun _ _ _ => trivial
    . intro rest hpush node hmem
      rw [(mem_nodes_of_start hpush).mp hmem]
      exact Problem.reaches_root
  rw [h] at hmeets
  exact hmeets

end Search

end SwitchSearch
