import SwitchSearch.Proofs.Agenda.Sources
import SwitchSearch.Proofs.DiveQueue.Admission
import SwitchSearch.Proofs.Search.Exactness
import SwitchSearch.Proofs.Search.Visits

/-!
This module contains the proof that the best solution and the upper bound of a search stay in step with
the leaves explored so far, in all runs and however these have ended. Like the journal, all lists of
what has happened are newest first.
-/

namespace SwitchSearch

namespace Event

def leaf? (problem : Problem) : Event → Option Node
  | .discard node | .record node => if problem.isLeaf node then some node else none
  | _ => none

def incumbent? : Event → Option Node
  | .record node => some node
  | _ => none

def shown? : Event → Option Float
  | .offer _ upperBound => some upperBound
  | _ => none

end Event

theorem DiveQueue.screens (problem : Problem) : problem.Screens DiveQueue := by
  intro queue rest upperBound batch hpush node hmem hreaches
  have hok : (queue.push (problem.context upperBound) batch).1 = .ok () := congrArg Prod.fst hpush
  exact numeric_of_push hok hmem

namespace Search

variable {α : Type} {problem : Problem} {search next : Search α}

def leaves (problem : Problem) (search : Search α) : List Node :=
  search.journal.filterMap (·.leaf? problem)

def incumbents (search : Search α) : List Node :=
  search.journal.filterMap (·.incumbent?)

def shown (search : Search α) : List Float :=
  search.journal.filterMap (·.shown?)

/-- The best solution is the first leaf explored whose bound is the least one and below infinity. -/
structure Tracks (problem : Problem) (search : Search α) : Prop extends Agrees search where
  le_leaves : ∀ leaf ∈ search.leaves problem, search.upperBound ≤ leaf.bound
  first : ∀ leaf, search.best = some leaf → ∃ later earlier,
    search.leaves problem = later ++ leaf :: earlier ∧ ∀ other ∈ earlier, leaf.bound < other.bound
  latest : search.incumbents.head? = search.best
  decreasing : search.incumbents.Pairwise fun later earlier => later.bound < earlier.bound
  falling : (search.upperBound :: search.shown).Pairwise fun later earlier => later ≤ earlier

namespace Tracks

theorem eq_none_iff (h : Tracks problem search)
    : search.best = none ↔ search.upperBound = infinity := by
  refine ⟨h.upperBound_of_none, ?_⟩
  intro hinfinite
  cases hbest : search.best with
  | none => rfl
  | some leaf =>
    have hlt := h.lt_infinity leaf hbest
    rw [← h.upperBound_of_some hbest, hinfinite] at hlt
    exact absurd hlt (Binary64.lt_irrefl _)

theorem upperBound_le_incumbents (h : Tracks problem search)
    : ∀ leaf ∈ search.incumbents, search.upperBound ≤ leaf.bound := by
  have hlatest := h.latest
  have hdecreasing := h.decreasing
  cases hincumbents : search.incumbents with
  | nil => exact List.forall_mem_nil _
  | cons newest older =>
    rw [hincumbents, List.head?_cons] at hlatest
    rw [hincumbents, List.pairwise_cons] at hdecreasing
    have hlt := h.lt_infinity newest hlatest.symm
    rw [h.upperBound_of_some hlatest.symm, List.forall_mem_cons]
    refine ⟨Binary64.le_refl (Binary64.lt_iff.mp hlt).left.left, ?_⟩
    exact fun leaf hmem => Binary64.le_of_lt (hdecreasing.left leaf hmem)

theorem of_same (h : Tracks problem search) (hbest : next.best = search.best)
    (hbound : next.upperBound = search.upperBound) (hleaves : next.leaves problem = search.leaves problem)
    (hincumbents : next.incumbents = search.incumbents) (hshown : next.shown = search.shown)
    : Tracks problem next := by
  refine { h.toAgrees.of_same hbest hbound with
    le_leaves := ?_, first := ?_, latest := ?_, decreasing := ?_, falling := ?_ }
  . rw [hleaves, hbound]
    exact h.le_leaves
  . rw [hbest, hleaves]
    exact h.first
  . rw [hincumbents, hbest]
    exact h.latest
  . rw [hincumbents]
    exact h.decreasing
  . rw [hbound, hshown]
    exact h.falling

theorem offered (h : Tracks problem search) (batch : List Node)
    : Tracks problem (search.note (.offer batch search.upperBound)) := by
  refine { h with falling := List.pairwise_cons.mpr ⟨?_, h.falling⟩ }
  exact List.forall_mem_cons.mpr ⟨Binary64.le_refl h.numeric, (List.pairwise_cons.mp h.falling).left⟩

theorem discarded {node : Node} (h : Tracks problem search) (hcut : search.upperBound ≤ node.bound)
    : Tracks problem (search.note (.discard node)) := by
  cases hleaf : problem.isLeaf node with
  | false =>
    have hleaves : (search.note (.discard node)).leaves problem = search.leaves problem := by
      simp [leaves, note, Event.leaf?, hleaf]
    exact h.of_same rfl rfl hleaves rfl rfl
  | true =>
    have hleaves : (search.note (.discard node)).leaves problem = node :: search.leaves problem := by
      simp [leaves, note, Event.leaf?, hleaf]
    refine { h with le_leaves := ?_, first := ?_ }
    . rw [hleaves]
      exact List.forall_mem_cons.mpr ⟨hcut, h.le_leaves⟩
    . intro leaf hbest
      rcases h.first leaf hbest with ⟨later, earlier, hsplit, hlt⟩
      rw [hleaves, hsplit]
      exact ⟨node :: later, earlier, rfl, hlt⟩

theorem recorded {node : Node} (h : Tracks problem search) (hleaf : problem.isLeaf node = true)
    (hlt : node.bound < search.upperBound)
    : Tracks problem (search.record node) := by
  have hleaves : (search.record node).leaves problem = node :: search.leaves problem := by
    simp [leaves, Search.record, note, Event.leaf?, hleaf]
  have hnumeric := (Binary64.lt_iff.mp hlt).left.left
  refine { h.toAgrees.record hlt with
    le_leaves := ?_, first := ?_, latest := ?_, decreasing := ?_, falling := ?_ }
  . rw [hleaves]
    refine List.forall_mem_cons.mpr ⟨Binary64.le_refl hnumeric, ?_⟩
    exact fun leaf hmem => Binary64.le_trans (Binary64.le_of_lt hlt) (h.le_leaves leaf hmem)
  . intro leaf hbest
    cases hbest
    refine ⟨[], search.leaves problem, hleaves, ?_⟩
    exact fun other hmem => Binary64.lt_of_lt_of_le hlt (h.le_leaves other hmem)
  . rfl
  . refine List.pairwise_cons.mpr ⟨?_, h.decreasing⟩
    exact fun leaf hmem => Binary64.lt_of_lt_of_le hlt (h.upperBound_le_incumbents leaf hmem)
  . have hfalling := List.pairwise_cons.mp h.falling
    refine List.pairwise_cons.mpr ⟨?_, hfalling.right⟩
    exact fun bound hmem => Binary64.le_trans (Binary64.le_of_lt hlt) (hfalling.left bound hmem)

end Tracks

variable [Agenda α] {stop : StopRule}

/-- Whatever was pushed since the agenda was cleared is in the tree and has a number for its bound. -/
def Fed (problem : Problem) (agenda : α) : Prop :=
  ∃ (initial : α) (operations : List Operation),
    agenda = Agenda.after (Agenda.clear initial) operations ∧
    ∀ context batch, .push context batch ∈ operations →
      ∀ node ∈ batch, problem.Reaches node ∧ node.bound.isNaN = false

structure Feeds (problem : Problem) (search : Search α) : Prop extends Tracks problem search where
  fed : Fed problem search.agenda

theorem Fed.top [SourcedAgenda α] {agenda : α} {node : Node} (h : Fed problem agenda)
    (htop : Agenda.top agenda = .ok node)
    : problem.Reaches node ∧ node.bound.isNaN = false := by
  rcases h with ⟨initial, operations, hagenda, hfed⟩
  rw [hagenda] at htop
  rcases SourcedAgenda.pushed initial operations node (.inl htop) with ⟨context, batch, hpush, hmem⟩
  exact hfed context batch hpush node hmem

theorem Fed.pop {agenda : α} (h : Fed problem agenda) : Fed problem (Agenda.pop agenda).2 := by
  rcases h with ⟨initial, operations, hagenda, hfed⟩
  refine ⟨initial, operations ++ [.pop], ?_, ?_⟩
  . rw [Agenda.after_concat, ← hagenda]
    rfl
  . intro context batch hpush
    exact hfed context batch (by simpa using hpush)

theorem Feeds.offer {batch : List Node} (hscreens : problem.Screens α) (h : Feeds problem search)
    (hreaches : ∀ node ∈ batch, problem.Reaches node)
    : (search.offer problem batch).Meets (Feeds problem) fun _ => Tracks problem := by
  have htracks := h.offered batch
  unfold Search.offer
  dsimp only
  split
  . next rest hpush =>
    refine { htracks.of_same rfl rfl rfl rfl rfl with fed := ?_ }
    rcases h.fed with ⟨initial, operations, hagenda, hfed⟩
    refine ⟨initial, operations ++ [.push (problem.context search.upperBound) batch], ?_, ?_⟩
    . rw [Agenda.after_concat, ← hagenda]
      exact (congrArg Prod.snd hpush).symm
    . intro context other hmem node hnode
      cases List.mem_append.mp hmem with
      | inl hearlier => exact hfed context other hearlier node hnode
      | inr hlast =>
        cases List.mem_singleton.mp hlast
        have hreached := hreaches node hnode
        exact ⟨hreached, hscreens search.agenda rest _ _ hpush node hnode hreached⟩
  . next error rest hpush => exact htracks.of_same rfl rfl rfl rfl rfl

theorem Feeds.explore {node : Node} (hscreens : problem.Screens α) (h : Feeds problem search)
    (hnode : problem.Reaches node ∧ node.bound.isNaN = false)
    : (search.explore problem node).Meets (Feeds problem) fun _ => Tracks problem := by
  unfold Search.explore
  split
  . next hcut =>
    exact { h.discarded (Node.isCut_iff.mp hcut) with fed := h.fed }
  . next hcut =>
    split
    . next hleaf =>
      have hlt := (Node.isCut_eq_false_iff hnode.right h.numeric).mp (eq_false_of_ne_true hcut)
      exact { h.recorded hleaf hlt with fed := h.fed }
    . next hleaf =>
      have hopen := eq_false_of_ne_true hleaf
      have hbranching : Tracks problem (search.note (.branch node)) := h.of_same rfl rfl rfl rfl rfl
      dsimp only
      split
      . next error hbranch => exact hbranching
      . next children hbranch =>
        apply Feeds.offer hscreens { hbranching with fed := h.fed }
        exact fun child hmem => hnode.left.child ⟨hopen, children, hbranch, hmem⟩

theorem Feeds.step [SourcedAgenda α] (hscreens : problem.Screens α) (h : Feeds problem search)
    : (search.step problem stop).Meets (Feeds problem) fun _ => Tracks problem := by
  unfold Search.step
  split
  . exact h.toTracks
  . dsimp only
    split
    . exact h.of_same rfl rfl rfl rfl rfl
    . unfold advance
      split
      . exact h.of_same rfl rfl rfl rfl rfl
      . next node htop =>
        split
        . exact h.of_same rfl rfl rfl rfl rfl
        . next taken rest hpop =>
          apply Feeds.explore hscreens _ (h.fed.top htop)
          have hpopped := h.fed.pop
          rw [hpop] at hpopped
          exact { h.of_same rfl rfl rfl rfl rfl with fed := hpopped }

theorem Tracks.start (hscreens : problem.Screens α) (h : Tracks problem search)
    : (search.start problem).Meets (Feeds problem) fun _ => Tracks problem := by
  have hcleared : Feeds problem search.cleared :=
    { h.of_same rfl rfl rfl rfl rfl with fed := ⟨search.agenda, [], rfl, nofun⟩ }
  apply hcleared.offer hscreens
  intro node hmem
  rw [List.mem_singleton.mp hmem]
  exact Problem.reaches_root

theorem Met.tracks [SourcedAgenda α] (hscreens : problem.Screens α) (h : Met problem search)
    : Tracks problem search := by
  apply h.induct
  . intro agenda
    exact ⟨agrees_new agenda, List.forall_mem_nil _, nofun, rfl, .nil, List.pairwise_singleton _ _⟩
  . exact fun search htracks => htracks.start hscreens
  . exact fun stop search hfeeds => hfeeds.step hscreens
  . exact fun search hfeeds => hfeeds.toTracks

end Search

namespace Search

end Search

end SwitchSearch
