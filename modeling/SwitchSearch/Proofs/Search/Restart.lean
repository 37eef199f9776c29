import SwitchSearch.Proofs.Problem.Occurrences
import SwitchSearch.Proofs.Search.Incumbent
import SwitchSearch.Proofs.Search.Journal

/-!
This module contains the proof that a search that has come to its end learns nothing from further runs.
Its best solution stays, and a run branches just the inner nodes that the best solution leaves open,
whichever node the agenda puts on top.
-/

namespace SwitchSearch

def Event.branched? : Event → Option Node
  | .branch node => some node
  | _ => none

namespace Search

variable {α : Type} {problem : Problem} {search next final : Search α}

def branches (search : Search α) : List Node :=
  search.lastRun.filterMap (·.branched?)

def records (search : Search α) : List Node :=
  search.lastRun.filterMap (·.incumbent?)

theorem branches_of_journal {nodes : List Node} (events : List Event)
    (hjournal : next.journal = events ++ search.journal) (hevents : .start ∉ events)
    (hnodes : events.reverse.filterMap (·.branched?) = nodes)
    : next.branches = search.branches ++ nodes := by
  rw [branches, lastRun_of_journal hjournal hevents, List.filterMap_append, hnodes]
  rfl

theorem records_of_journal {nodes : List Node} (events : List Event)
    (hjournal : next.journal = events ++ search.journal) (hevents : .start ∉ events)
    (hnodes : events.reverse.filterMap (·.incumbent?) = nodes)
    : next.records = search.records ++ nodes := by
  rw [records, lastRun_of_journal hjournal hevents, List.filterMap_append, hnodes]
  rfl

variable [Agenda α]

inductive Later (problem : Problem) (first : Search α) : Search α → Prop where
  | here : Later problem first first
  | run {search final : Search α} {stop : StopRule} {fuel : Nat} {outcome : Outcome}
      (hlater : Later problem first search)
      (hrun : search.run problem stop fuel = some (outcome, final))
      : Later problem first final

/-- A search has come to its end in one run, with the first value, and again in a later one. -/
structure Repeats (problem : Problem) (value : Option Float) (first : Search α)
    (again : Option Float) (final : Search α) : Prop where
  completed : ∃ search stop fuel, Reached problem search ∧
    search.run problem stop fuel = some (.completed true value, first)
  repeated : ∃ search stop fuel, Later problem first search ∧
    search.run problem stop fuel = some (.completed true again, final)

variable [LawfulAgenda α] {stop : StopRule}

/-- The rounds from one state to the end of the run branch what the nodes held span at the end. -/
structure Ahead (problem : Problem) (search final : Search α) : Prop where
  le : final.upperBound ≤ search.upperBound
  branched : ∃ below, problem.Spans final.upperBound (LawfulAgenda.nodes search.agenda) below ∧
    (below ++ search.branches).Subperm final.branches ∧
    (final.best = search.best → (below ++ search.branches).Perm final.branches)

namespace Ahead

theorem of_isEmpty (hnumeric : search.upperBound.isNaN = false)
    (hempty : Agenda.isEmpty search.agenda = true)
    : Ahead problem search search := by
  refine ⟨Binary64.le_refl hnumeric, [], ?_, .refl _, fun _ => .refl _⟩
  rw [isEmpty_iff.mp hempty]
  exact .nil

theorem replace {node : Node} {kept made : List Node} (children : List Node)
    (h : Ahead problem next final)
    (hle : next.upperBound ≤ search.upperBound)
    (hheld : (LawfulAgenda.nodes search.agenda).Perm (node :: kept))
    (hnext : (LawfulAgenda.nodes next.agenda).Perm (children ++ kept))
    (hmade : next.branches = search.branches ++ made)
    (hnode : ∀ own, problem.Spans final.upperBound children own →
      ∃ here, problem.Spans final.upperBound [node] here ∧ here.Subperm (own ++ made) ∧
        (final.best = search.best → final.best = next.best ∧ here.Perm (own ++ made)))
    : Ahead problem search final := by
  rcases h.branched with ⟨below, hbelow, hsubperm, hperm⟩
  rcases hbelow.perm hnext with ⟨others, hothers, hsame⟩
  rcases hothers.split children with ⟨own, tail, hown, htail, heq⟩
  rcases hnode own hown with ⟨here, hhere, hhereSubperm, hherePerm⟩
  rcases (hhere.append htail).perm hheld.symm with ⟨all, hall, hallPerm⟩
  have hmoved : (below ++ next.branches).Perm ((own ++ made) ++ (tail ++ search.branches)) := by
    rw [hmade, List.append_assoc own, ← List.append_assoc]
    rw [heq] at hsame
    refine ((hsame.append_right _).append_right _).trans ?_
    rw [List.append_assoc own, List.append_assoc own]
    exact List.perm_append_comm.append_left own
  have hthere : (all ++ search.branches).Perm (here ++ (tail ++ search.branches)) := by
    rw [← List.append_assoc]
    exact hallPerm.symm.append_right _
  refine ⟨Binary64.le_trans h.le hle, all, hall, ?_, ?_⟩
  . have hgrows := (List.subperm_append_right (tail ++ search.branches)).mpr hhereSubperm
    exact (hthere.subperm.trans hgrows).trans (hmoved.symm.subperm.trans hsubperm)
  . intro hbest
    rcases hherePerm hbest with ⟨hnextBest, hhere⟩
    exact (hthere.trans (hhere.append_right _)).trans (hmoved.symm.trans (hperm hnextBest))

theorem round (h : Ahead problem next final) (hcovers : Covers problem search)
    (hfinal : Agrees final) (hround : Round problem stop search (.running next))
    : Ahead problem search final := by
  have hself := Binary64.le_refl hcovers.numeric
  cases hround with
  | discarded node agenda hgo hpop hcut =>
    have hmade : ((search.taking node agenda).note (.discard node)).branches = search.branches ++ [] :=
      branches_of_journal [.discard node, .take node] rfl (by simp) rfl
    apply h.replace [] hself (perm_nodes_of_pop hpop) (.refl _) hmade
    intro own hown
    cases hown
    refine ⟨[], .cut ?_ .nil, .refl _, fun hbest => ⟨hbest, .refl _⟩⟩
    exact Binary64.le_trans h.le (Node.isCut_iff.mp hcut)
  | recorded node agenda hgo hpop hcut hleaf =>
    have hlt := hcovers.lt_of_isCut_eq_false (hcovers.held.taken hpop).right hcut
    have hmade : ((search.taking node agenda).record node).branches = search.branches ++ [] :=
      branches_of_journal [.record node, .take node] rfl (by simp) rfl
    apply h.replace [] (Binary64.le_of_lt hlt) (perm_nodes_of_pop hpop) (.refl _) hmade
    intro own hown
    cases hown
    refine ⟨[], .leaf hleaf .nil, .refl _, ?_⟩
    -- the new best solution is cheaper, and so is the last one
    intro hbest
    have hfalls := h.le
    rw [hcovers.toAgrees.congr hfinal hbest] at hfalls
    exact absurd (Binary64.lt_of_lt_of_le hlt hfalls) (Binary64.lt_irrefl _)
  | expanded node agenda rest children hgo hpop hcut hleaf hbranch hpush =>
    have hmade : (((search.taking node agenda).note (.branch node)).offering children rest).branches =
        search.branches ++ [node] :=
      branches_of_journal [.offer children _, .branch node, .take node] rfl (by simp) rfl
    have hbound := (hcovers.held.taken hpop).right
    apply h.replace children hself (perm_nodes_of_pop hpop) (perm_nodes_of_push hpush) hmade
    intro own hown
    by_cases hlive : node.bound < final.upperBound
    . have hmoves : (node :: own ++ []).Perm (own ++ [node]) := by
        rw [List.append_nil]
        exact (List.perm_append_singleton node own).symm
      exact ⟨_, .inner hlive hleaf hbranch hown .nil, hmoves.subperm, fun hbest => ⟨hbest, hmoves⟩⟩
    . have hcuts := (Binary64.not_lt hbound hfinal.numeric).mp hlive
      refine ⟨[], .cut hcuts .nil, List.nil_subperm, ?_⟩
      -- the upper bound must have fallen since the node was branched, as it was not cut then
      intro hbest
      rw [hcovers.toAgrees.congr hfinal hbest] at hlive
      exact absurd (hcovers.lt_of_isCut_eq_false hbound hcut) hlive

end Ahead

theorem ahead_of_finish {fuel : Nat} {value : Option Float} (hscreens : problem.Screens α)
    (hcovers : Covers problem search)
    (h : finish problem stop fuel (.running search) = some (.completed true value, final))
    : Ahead problem search final := by
  have hfinal : Agrees final := by
    have hmeets : (Progress.running search).Meets (Covers problem) (Proves problem) := hcovers
    exact (meets_of_finish (fun _ hnext => hnext.step hscreens) hmeets h).toAgrees
  induction fuel generalizing search with
  | zero =>
    rw [finish] at h
    contradiction
  | succ fuel ih =>
    rw [finish] at h
    have hround := round_step problem stop search
    generalize search.step problem stop = progress at hround h
    cases progress with
    | running next =>
      have hnext := ih (hcovers.round hscreens hround) h
      exact hnext.round hcovers hfinal hround
    | ended outcome last =>
      rw [finish_ended] at h
      cases h
      cases hround with
      | exhausted hempty => exact .of_isEmpty hcovers.numeric hempty

theorem branches_of_run {fuel : Nat} {value : Option Float} (hscreens : problem.Screens α)
    (hsound : Sound problem search)
    (hrun : search.run problem stop fuel = some (.completed true value, final))
    : ∃ below, problem.Spans final.upperBound [problem.root] below ∧ below.Subperm final.branches ∧
        (final.best = search.best → below.Perm final.branches) := by
  have hmeets := hsound.start hscreens
  rw [run] at hrun
  cases hstart : search.start problem with
  | ended outcome last =>
    rcases failed_of_start hstart with ⟨error, hfailed⟩
    rw [hstart, hfailed, finish_ended] at hrun
    cases hrun
  | running started =>
    rw [hstart] at hrun hmeets
    rcases (ahead_of_finish hscreens hmeets hrun).branched with ⟨below, hbelow, hsubperm, hperm⟩
    rcases started_of_start hstart with ⟨rest, hstarted, hpush⟩
    have hroot := perm_nodes_of_push hpush
    rw [LawfulAgenda.nodes_clear, List.append_nil] at hroot
    have hnone : started.branches = [] := by
      rw [hstarted]
      rfl
    rw [hnone, List.append_nil] at hsubperm hperm
    rw [hstarted] at hbelow hperm
    rcases hbelow.perm hroot with ⟨others, hothers, hsame⟩
    exact ⟨others, hothers, hsame.symm.subperm.trans hsubperm, fun h => hsame.symm.trans (hperm h)⟩

structure Stands (first search : Search α) : Prop where
  best_eq : search.best = first.best
  upperBound_eq : search.upperBound = first.upperBound
  records_eq : search.records = []

/-- Nothing has come of the current run, and no node above a node held is cut. -/
structure Unimproved (problem : Problem) (first search : Search α) : Prop extends Stands first search where
  held : search.Holds fun node => ∃ path, problem.Descent problem.root path node ∧
    ∀ other ∈ path, other = node ∨ other.isCut first.upperBound = false

namespace Unimproved

variable {first : Search α}

theorem stands (h : Unimproved problem first search) (events : List Event)
    (hbest : next.best = search.best) (hbound : next.upperBound = search.upperBound)
    (hjournal : next.journal = events ++ search.journal) (hstart : .start ∉ events)
    (hevents : events.reverse.filterMap (·.incumbent?) = [])
    : Stands first next := by
  refine ⟨hbest.trans h.best_eq, hbound.trans h.upperBound_eq, ?_⟩
  rw [records_of_journal events hjournal hstart hevents, h.records_eq]
  rfl

theorem taken {node : Node} {rest : α} (h : Unimproved problem first search)
    (hpop : Agenda.pop search.agenda = (.ok node, rest)) (hcut : node.isCut search.upperBound = false)
    : ∃ path, problem.Descent problem.root path node ∧
        ∀ other ∈ path, other.isCut first.upperBound = false := by
  rcases h.held.taken hpop with ⟨path, hdescent, hopen⟩
  refine ⟨path, hdescent, ?_⟩
  intro other hmem
  cases hopen other hmem with
  | inl heq => rwa [heq, ← h.upperBound_eq]
  | inr habove => exact habove

theorem step (hclosed : problem.Closed first.upperBound) (h : Unimproved problem first search)
    : (search.step problem stop).Meets (Unimproved problem first) fun _ => Stands first := by
  have hround := round_step problem stop search
  generalize search.step problem stop = progress at hround ⊢
  cases hround with
  | exhausted hempty => exact h.toStands
  | stopped hheld hstop => exact h.stands [.stop] rfl rfl rfl (by simp) rfl
  | crashed node agenda error hgo hpop hcut hleaf hbranch =>
    exact h.stands [.branch node, .take node] rfl rfl rfl (by simp) rfl
  | refused node agenda rest children error hgo hpop hcut hleaf hbranch hpush =>
    exact h.stands [.offer children _, .branch node, .take node] rfl rfl rfl (by simp) rfl
  | discarded node agenda hgo hpop hcut =>
    refine ⟨h.stands [.discard node, .take node] rfl rfl rfl (by simp) rfl, ?_⟩
    exact fun other hmem => h.held other ((mem_nodes_of_pop hpop).mpr (.inr hmem))
  | recorded node agenda hgo hpop hcut hleaf =>
    rcases h.taken hpop hcut with ⟨path, hdescent, hopen⟩
    rcases hclosed path node ⟨hdescent, hleaf⟩ with ⟨other, hmem, hle⟩
    have hother := hopen other hmem
    rw [Node.isCut_iff.mpr hle] at hother
    contradiction
  | expanded node agenda rest children hgo hpop hcut hleaf hbranch hpush =>
    refine ⟨h.stands [.offer children _, .branch node, .take node] rfl rfl rfl (by simp) rfl, ?_⟩
    intro child hmem
    cases (mem_nodes_of_push hpush).mp hmem with
    | inr hkept => exact h.held child ((mem_nodes_of_pop hpop).mpr (.inr hkept))
    | inl hnew =>
      rcases h.taken hpop hcut with ⟨path, hdescent, hopen⟩
      refine ⟨_, hdescent.concat ⟨hleaf, children, hbranch, hnew⟩, ?_⟩
      intro other hother
      cases List.mem_append.mp hother with
      | inl habove => exact .inr (hopen other habove)
      | inr hlast => exact .inl (List.mem_singleton.mp hlast)

end Unimproved

theorem unimproved_of_run {fuel : Nat} {outcome : Outcome} (hclosed : problem.Closed search.upperBound)
    (hrun : search.run problem stop fuel = some (outcome, final))
    : Stands search final := by
  have hstart : (search.start problem).Meets (Unimproved problem search) fun _ => Stands search := by
    apply meets_start
    . exact fun _ _ _ => ⟨rfl, rfl, rfl⟩
    . intro rest hpush
      refine ⟨⟨rfl, rfl, rfl⟩, ?_⟩
      intro node hmem
      rw [(mem_nodes_of_start hpush).mp hmem]
      exact ⟨_, .here _, fun other hother => .inl (List.mem_singleton.mp hother)⟩
  exact meets_of_finish (fun _ h => h.step hclosed) hstart hrun

theorem Later.kept {first : Search α} (hclosed : problem.Closed first.upperBound)
    (h : Later problem first search)
    : search.best = first.best ∧ search.upperBound = first.upperBound := by
  induction h with
  | here => exact ⟨rfl, rfl⟩
  | run hlater hrun ih =>
    rw [← ih.right] at hclosed
    have hstands := unimproved_of_run hclosed hrun
    exact ⟨hstands.best_eq.trans ih.left, hstands.upperBound_eq.trans ih.right⟩

namespace Repeats

variable {value again : Option Float} {first : Search α}

theorem unimproved (hnan : problem.NaNFree) (h : Repeats problem value first again final)
    : again = value ∧ Stands first final := by
  rcases h.completed with ⟨before, stop, fuel, hreached, hfirst⟩
  rcases h.repeated with ⟨between, stop, fuel, hlater, hagain⟩
  have hproves := (hreached.sound hnan.screens).run hnan.screens hfirst
  rcases hproves.closed value rfl with ⟨hvalue, hclosed⟩
  rcases hlater.kept hclosed with ⟨hbest, hbound⟩
  rw [← hbound] at hclosed
  have hstands := unimproved_of_run hclosed hagain
  have hrepeats := (hproves.of_same hbest hbound).run hnan.screens hagain
  have hsame := hstands.best_eq.trans hbest
  refine ⟨?_, hsame, hstands.upperBound_eq.trans hbound, hstands.records_eq⟩
  rw [(hrepeats.closed again rfl).left, hvalue, bestValue, hsame]
  rfl

theorem exists_lists (hnan : problem.NaNFree) (h : Repeats problem value first again final)
    : ∃ occurrences, Problem.Lists occurrences (problem.Inner first.upperBound problem.root) ∧
        final.branches.Perm (occurrences.map Prod.snd) ∧
        (occurrences.map Prod.snd).Subperm first.branches := by
  have hstands := (h.unimproved hnan).right
  rcases h.completed with ⟨before, stop, fuel, hreached, hfirst⟩
  rcases h.repeated with ⟨between, stop, fuel, hlater, hagain⟩
  have hbefore := hreached.sound hnan.screens
  have hproves := hbefore.run hnan.screens hfirst
  rcases hlater.kept (hproves.closed value rfl).right with ⟨hbest, hbound⟩
  have hbetween := hproves.of_same hbest hbound
  rcases branches_of_run hnan.screens hbefore hfirst with ⟨early, hearly, hsubperm, _⟩
  rcases branches_of_run hnan.screens hbetween hagain with ⟨late, hlate, _, hperm⟩
  rw [hstands.upperBound_eq] at hlate
  rcases hearly.exists_lists with ⟨others, hothers, hothersEq⟩
  rcases hlate.exists_lists with ⟨occurrences, hlists, heq⟩
  refine ⟨occurrences, hlists, ?_, ?_⟩
  . rw [heq]
    exact (hperm (hstands.best_eq.trans hbest.symm)).symm
  . rw [← hothersEq] at hsubperm
    exact ((hlists.perm hothers).map _).subperm.trans hsubperm

end Repeats

/--
A search that has come to its end does so again with the same result, whatever runs there are in between.
The last run records no solution. It branches the inner nodes that the best solution leaves open, once
for each place at which they lie, and nothing else. The first run has branched all of these, too. So what
is branched again depends on the cost alone, and a search on another agenda that has come to its end at
that cost branches it, too.
-/
theorem branches_of_repeats {value again : Option Float} {first final : Search α}
    (hnan : problem.NaNFree) (h : Repeats problem value first again final)
    : (again = value ∧ final.best = first.best ∧ final.bestSequence = first.bestSequence ∧
        final.records = []) ∧
      (∃ occurrences, Problem.Lists occurrences (problem.Inner first.upperBound problem.root) ∧
        final.branches.Perm (occurrences.map Prod.snd) ∧
        (occurrences.map Prod.snd).Subperm first.branches) ∧
      ∀ (β : Type) [Agenda β] [LawfulAgenda β] (otherValue otherAgain : Option Float)
        (otherFirst otherFinal : Search β),
        Repeats problem otherValue otherFirst otherAgain otherFinal →
        (otherFirst.upperBound == first.upperBound) = true →
        otherFinal.branches.Perm final.branches := by
  have hresult := h.unimproved hnan
  have hsequence : final.bestSequence = first.bestSequence := by
    rw [bestSequence, hresult.right.best_eq]
    rfl
  refine ⟨⟨hresult.left, hresult.right.best_eq, hsequence, hresult.right.records_eq⟩,
    h.exists_lists hnan, ?_⟩
  intro β _ _ otherValue otherAgain otherFirst otherFinal hother hbound
  rcases h.exists_lists hnan with ⟨occurrences, hlists, hperm, _⟩
  rcases hother.exists_lists hnan with ⟨others, hothers, hotherPerm, _⟩
  have hsame := (hothers.congr fun _ _ => Problem.inner_congr hbound).perm hlists
  exact (hotherPerm.trans (hsame.map _)).trans hperm.symm

end Search

def Problem.upset : Problem where
  root := Node.root 1 0.5
  durations := [1.0, 1.0]
  budgets := [0]
  branch node :=
    let bounds :=
      if node.depth = 0 then [5.0, 3.0, 1.0]
      else if node.bound < 2.0 then [4.0]
      else if node.bound < 4.0 then [10.0]
      else [2.0]
    .ok <| bounds.map fun bound =>
      Node.below (some node) { channel := some 0, depth := node.depth + 1, bound, switches := [0] }

theorem Problem.upset_nanFree : upset.NaNFree := by
  apply nanFree_of_map (by rfl) (fun _ => rfl) (fun _ _ => rfl)
  intro node
  split
  . decide
  . split
    . decide
    . split <;> decide

namespace Search

/-- The cheapest leaf is cut on a stack and not on a line, so that the two have different costs to repeat. -/
theorem not_perm_branches_upset
    : Problem.upset.NaNFree ∧
      ∃ (first final : Search Line) (otherFirst otherFinal : Search Stack),
        ({ agenda := {} } : Search Line).run .upset .never 9 = some (.completed true (some 2.0), first) ∧
        first.run .upset .never 9 = some (.completed true (some 2.0), final) ∧
        ({ agenda := {} } : Search Stack).run .upset .never 9 =
          some (.completed true (some 4.0), otherFirst) ∧
        otherFirst.run .upset .never 9 = some (.completed true (some 4.0), otherFinal) ∧
        final.branches.length = 2 ∧ otherFinal.branches.length = 3 ∧
        ¬otherFinal.branches.Perm final.branches := by
  refine ⟨Problem.upset_nanFree, _, _, _, _, rfl, rfl, rfl, rfl, rfl, rfl, ?_⟩
  intro hperm
  exact absurd hperm.length_eq (by decide)

end Search

def Problem.detour : Problem where
  root := Node.root 1 0.5
  durations := [1.0, 1.0]
  budgets := [0]
  branch node :=
    let bounds := if node.depth = 0 then [3.0, 1.0] else if node.bound < 2.0 then [2.0] else [5.0]
    .ok <| bounds.map fun bound =>
      Node.below (some node) { channel := some 0, depth := node.depth + 1, bound, switches := [0] }

theorem Problem.detour_nanFree : detour.NaNFree := by
  apply nanFree_of_map (by rfl) (fun _ => rfl) (fun _ _ => rfl)
  intro node
  split
  . decide
  . split <;> decide

namespace Search

theorem branches_of_repeats_detour
    : ∃ (first stopped final : Search Line) (otherFirst otherFinal : Search Stack),
      ({ agenda := {} } : Search Line).run .detour .never 9 = some (.completed true (some 2.0), first) ∧
      first.run .detour (.after 1) 9 = some (.completed false (some 2.0), stopped) ∧
      stopped.run .detour .never 9 = some (.completed true (some 2.0), final) ∧
      ({ agenda := {} } : Search Stack).run .detour .never 9 =
        some (.completed true (some 2.0), otherFirst) ∧
      otherFirst.run .detour .never 9 = some (.completed true (some 2.0), otherFinal) ∧
      first.branches.length = 3 ∧ final.branches.length = 2 ∧ final.best = first.best ∧
      final.records = [] ∧ otherFinal.branches.Perm final.branches := by
  refine ⟨_, _, _, _, _, rfl, rfl, rfl, rfl, rfl, rfl, rfl, ?_⟩
  have h := branches_of_repeats Problem.detour_nanFree <| .mk
    ⟨_, _, _, .new ({} : Line), (rfl : run .detour .never 9 _ = some _)⟩
    ⟨_, _, _, .run .here (rfl : run .detour (.after 1) 9 _ = some _),
      (rfl : run .detour .never 9 _ = some _)⟩
  have hother : Repeats .detour _ _ _ _ := .mk
    ⟨_, _, _, .new ({} : Stack), (rfl : run .detour .never 9 _ = some _)⟩
    ⟨_, _, _, .here, (rfl : run .detour .never 9 _ = some _)⟩
  exact ⟨h.left.right.left, h.left.right.right.right, h.right.right Stack _ _ _ _ hother rfl⟩

end Search

end SwitchSearch
