import SwitchSearch.DiveQueue.Lemmas
import SwitchSearch.Proofs.Node.Preference
import SwitchSearch.Proofs.Problem.Descent
import SwitchSearch.Proofs.Search.Round

/-!
This module contains the proof that a search that has come to its end has proved its best solution
optimal, whatever the order of exploration and whatever has happened in earlier runs.
-/

namespace SwitchSearch

/-- What the cheapest of some costs is, if one is finite or below. Costs are compared as floats. -/
def IsMinimum (costs : Float → Prop) : Option Float → Prop
  | none => ∀ cost, costs cost → ¬(cost < infinity)
  | some best =>
    best < infinity ∧ (∃ cost, costs cost ∧ (best == cost) = true) ∧ ∀ cost, costs cost → best ≤ cost

theorem not_lt_infinity_iff {cost : Float} (h : cost.isNaN = false)
    : ¬(cost < infinity) ↔ (cost == infinity) = true := by
  have hvalue : Binary64.value infinity = ((⊤ : WithTop ℚ) : WithBot (WithTop ℚ)) := rfl
  have hnumeric : infinity.isNaN = false := rfl
  rw [Binary64.not_lt h hnumeric, Binary64.le_iff, Binary64.beq_iff, hvalue]
  rw [and_iff_right ⟨hnumeric, h⟩, and_iff_right ⟨h, hnumeric⟩]
  exact top_le_iff

theorem IsMinimum.eq_none_iff {costs : Float → Prop} {value : Option Float}
    (h : IsMinimum costs value)
    : value = none ↔ ∀ cost, costs cost → ¬(cost < infinity) := by
  cases value with
  | none => exact iff_of_true rfl h
  | some best =>
    rcases h with ⟨hlt, ⟨cost, hcost, hbeq⟩, hle⟩
    simp only [reduceCtorEq, false_iff]
    intro hall
    rw [Binary64.beq_iff] at hbeq
    apply hall cost hcost
    rw [Binary64.lt_iff, ← hbeq.right]
    rw [Binary64.lt_iff] at hlt
    exact ⟨⟨hbeq.left.right, hlt.left.right⟩, hlt.right⟩

namespace Problem

def Closed (problem : Problem) (upperBound : Float) : Prop :=
  ∀ path leaf, problem.LeafPath path leaf → ∃ node ∈ path, upperBound ≤ node.bound

def Screens (α : Type) [Agenda α] (problem : Problem) : Prop :=
  ∀ (agenda rest : α) (upperBound : Float) (batch : List Node),
    Agenda.push agenda (problem.context upperBound) batch = (.ok (), rest) →
      ∀ node ∈ batch, problem.Reaches node → node.bound.isNaN = false

theorem NaNFree.screens {α : Type} [Agenda α] {problem : Problem} (h : problem.NaNFree)
    : problem.Screens α := by
  intro agenda rest upperBound batch hpush node hmem hreaches
  exact h node hreaches

end Problem

namespace Search

variable {α : Type} {problem : Problem} {search : Search α}

/-- The cost to beat is that of the best solution, which is below infinity. -/
structure Agrees (search : Search α) : Prop where
  upperBound_eq : search.upperBound = search.bestValue.getD infinity
  lt_infinity : ∀ leaf, search.best = some leaf → leaf.bound < infinity

theorem agrees_new (agenda : α) : Agrees { agenda } :=
  ⟨rfl, nofun⟩

namespace Agrees

variable {other : Search α} {leaf : Node}

theorem upperBound_of_none (h : Agrees search) (hbest : search.best = none)
    : search.upperBound = infinity := by
  rw [h.upperBound_eq, bestValue, hbest]
  rfl

theorem upperBound_of_some (h : Agrees search) (hbest : search.best = some leaf)
    : search.upperBound = leaf.bound := by
  rw [h.upperBound_eq, bestValue, hbest]
  rfl

theorem congr (h : Agrees search) (hother : Agrees other) (hbest : other.best = search.best)
    : other.upperBound = search.upperBound := by
  rw [h.upperBound_eq, hother.upperBound_eq, bestValue, bestValue, hbest]

theorem of_same (h : Agrees search) (hbest : other.best = search.best)
    (hbound : other.upperBound = search.upperBound)
    : Agrees other := by
  constructor
  . rw [hbound, h.upperBound_eq, bestValue, bestValue, hbest]
  . rw [hbest]
    exact h.lt_infinity

theorem upperBound_le (h : Agrees search) : search.upperBound ≤ infinity := by
  cases hbest : search.best with
  | none =>
    rw [h.upperBound_of_none hbest]
    exact Binary64.le_refl rfl
  | some leaf =>
    rw [h.upperBound_of_some hbest]
    exact Binary64.le_of_lt (h.lt_infinity leaf hbest)

theorem numeric (h : Agrees search) : search.upperBound.isNaN = false :=
  (Binary64.le_iff.mp h.upperBound_le).left.left

theorem record (h : Agrees search) (hlt : leaf.bound < search.upperBound)
    : Agrees (search.record leaf) := by
  refine ⟨rfl, ?_⟩
  intro other hbest
  cases hbest
  exact Binary64.lt_of_lt_of_le hlt h.upperBound_le

end Agrees

structure Sound (problem : Problem) (search : Search α) : Prop extends Agrees search where
  reaches : ∀ leaf, search.best = some leaf → problem.Reaches leaf
  isLeaf : ∀ leaf, search.best = some leaf → problem.isLeaf leaf = true

/-- What every round of a run preserves: each leaf of the tree is below a node that is cut or held. -/
structure Covers [Agenda α] [LawfulAgenda α] (problem : Problem) (search : Search α) : Prop
    extends Sound problem search where
  held : search.Holds fun node => problem.Reaches node ∧ node.bound.isNaN = false
  covered : ∀ path leaf, problem.LeafPath path leaf →
    ∃ node ∈ path, search.upperBound ≤ node.bound ∨ node ∈ LawfulAgenda.nodes search.agenda

structure Proves (problem : Problem) (outcome : Outcome) (search : Search α) : Prop
    extends Sound problem search where
  closed : ∀ value, outcome = .completed true value →
    value = search.bestValue ∧ problem.Closed search.upperBound

theorem Sound.of_same {other : Search α} (h : Sound problem search) (hbest : other.best = search.best)
    (hbound : other.upperBound = search.upperBound)
    : Sound problem other := by
  refine { h.toAgrees.of_same hbest hbound with reaches := ?_, isLeaf := ?_ }
  . rw [hbest]
    exact h.reaches
  . rw [hbest]
    exact h.isLeaf

theorem Sound.lt_of_isCut_eq_false {node : Node} (h : Sound problem search)
    (hnumeric : node.bound.isNaN = false) (hcut : node.isCut search.upperBound = false)
    : node.bound < search.upperBound :=
  (Node.isCut_eq_false_iff hnumeric h.numeric).mp hcut

theorem Sound.record {node : Node} (h : Sound problem search) (hreaches : problem.Reaches node)
    (hleaf : problem.isLeaf node = true) (hlt : node.bound < search.upperBound)
    : Sound problem (search.record node) := by
  refine { h.toAgrees.record hlt with reaches := ?_, isLeaf := ?_ }
  . intro leaf heq
    cases heq
    exact hreaches
  . intro leaf heq
    cases heq
    exact hleaf

theorem Sound.proves_of_ne {outcome : Outcome} (h : Sound problem search)
    (hne : ∀ value, outcome ≠ .completed true value)
    : Proves problem outcome search :=
  { h with closed := fun value heq => absurd heq (hne value) }

variable [Agenda α] [LawfulAgenda α] {stop : StopRule}

theorem Covers.move {next : Search α} (h : Covers problem search) (hsound : Sound problem next)
    (hheld : next.Holds fun node => problem.Reaches node ∧ node.bound.isNaN = false)
    (hbound : next.upperBound ≤ search.upperBound)
    (hleft : ∀ node ∈ LawfulAgenda.nodes search.agenda, node ∈ LawfulAgenda.nodes next.agenda ∨
      next.upperBound ≤ node.bound ∨
      problem.isLeaf node = false ∧
        ∀ child, problem.IsChild node child → child ∈ LawfulAgenda.nodes next.agenda)
    : Covers problem next := by
  refine { hsound with held := hheld, covered := ?_ }
  intro path leaf hpath
  rcases h.covered path leaf hpath with ⟨node, hnode, hcut | hmem⟩
  . exact ⟨node, hnode, .inl (Binary64.le_trans hbound hcut)⟩
  . rcases hleft node hmem with hkept | hcut | ⟨hopen, hchildren⟩
    . exact ⟨node, hnode, .inr hkept⟩
    . exact ⟨node, hnode, .inl hcut⟩
    -- The path goes on below the node, so it meets one of the children.
    . rcases hpath.descent.drop hnode with ⟨rest, hdescent, hsub⟩
      rcases hdescent.exists_child hopen hpath.isLeaf with ⟨child, hchild, hmem⟩
      exact ⟨child, hsub hmem, .inr (hchildren child hchild)⟩

theorem Covers.round {next : Search α} (hscreens : problem.Screens α) (h : Covers problem search)
    (hround : Round problem stop search (.running next))
    : Covers problem next := by
  have hheld := hround.holds h.held <| by
    intro agenda rest parent children hparent hopen hbranch hpush child hmem
    have hchild := hparent.left.child ⟨hopen, children, hbranch, hmem⟩
    exact ⟨hchild, hscreens agenda rest _ children hpush child hmem hchild⟩
  cases hround with
  | discarded node agenda hgo hpop hcut =>
    have hle := Node.isCut_iff.mp hcut
    apply h.move (h.of_same (by rfl) (by rfl)) hheld (Binary64.le_refl h.numeric)
    intro other hmem
    cases (mem_nodes_of_pop hpop).mp hmem with
    | inl heq =>
      rw [heq]
      exact .inr (.inl hle)
    | inr hkept => exact .inl hkept
  | recorded node agenda hgo hpop hcut hleaf =>
    have htaken := h.held.taken hpop
    have hlt := h.lt_of_isCut_eq_false htaken.right hcut
    have htaking : Sound problem (search.taking node agenda) := h.of_same rfl rfl
    apply h.move (htaking.record htaken.left hleaf hlt) hheld (Binary64.le_of_lt hlt)
    intro other hmem
    cases (mem_nodes_of_pop hpop).mp hmem with
    | inl heq =>
      rw [heq]
      exact .inr (.inl (Binary64.le_refl htaken.right))
    | inr hkept => exact .inl hkept
  | expanded node agenda rest children hgo hpop hcut hleaf hbranch hpush =>
    apply h.move (h.of_same (by rfl) (by rfl)) hheld (Binary64.le_refl h.numeric)
    intro other hmem
    cases (mem_nodes_of_pop hpop).mp hmem with
    | inl heq =>
      rw [heq]
      refine .inr (.inr ⟨hleaf, ?_⟩)
      intro child hchild
      exact (mem_nodes_of_push hpush).mpr (.inl (hchild.mem hbranch))
    | inr hkept => exact .inl ((mem_nodes_of_push hpush).mpr (.inr hkept))

theorem Covers.proves (h : Covers problem search) (hempty : Agenda.isEmpty search.agenda = true)
    : Proves problem (.completed true search.bestValue) search := by
  refine { h.toSound with closed := ?_ }
  intro value heq
  cases heq
  refine ⟨rfl, ?_⟩
  intro path leaf hpath
  rcases h.covered path leaf hpath with ⟨node, hnode, hcut | hmem⟩
  . exact ⟨node, hnode, hcut⟩
  . rw [isEmpty_iff.mp hempty] at hmem
    exact absurd hmem List.not_mem_nil

theorem Covers.step (hscreens : problem.Screens α) (h : Covers problem search)
    : (search.step problem stop).Meets (Covers problem) (Proves problem) := by
  have hround := round_step problem stop search
  generalize search.step problem stop = progress at hround ⊢
  cases progress with
  | running next => exact h.round hscreens hround
  | ended outcome final =>
    cases hround with
    | exhausted hempty => exact h.proves hempty
    | stopped hheld hstop => exact Sound.proves_of_ne (h.of_same rfl rfl) nofun
    | crashed node agenda error hgo hpop hcut hleaf hbranch =>
      exact Sound.proves_of_ne (h.of_same rfl rfl) nofun
    | refused node agenda rest children error hgo hpop hcut hleaf hbranch hpush =>
      exact Sound.proves_of_ne (h.of_same rfl rfl) nofun

theorem Sound.start (hscreens : problem.Screens α) (h : Sound problem search)
    : (search.start problem).Meets (Covers problem) (Proves problem) := by
  apply meets_start
  . intro error rest hpush
    exact Sound.proves_of_ne (h.of_same rfl rfl) nofun
  . intro rest hpush
    refine { h.of_same rfl rfl with held := ?_, covered := ?_ }
    . intro node hmem
      rw [(mem_nodes_of_start hpush).mp hmem]
      have hnumeric := hscreens _ rest _ _ hpush _ (List.mem_singleton_self _) Problem.reaches_root
      exact ⟨Problem.reaches_root, hnumeric⟩
    . intro path leaf hpath
      exact ⟨problem.root, hpath.descent.first_mem, .inr ((mem_nodes_of_start hpush).mpr rfl)⟩

theorem Sound.run {final : Search α} {fuel : Nat} {outcome : Outcome}
    (hscreens : problem.Screens α) (h : Sound problem search)
    (hrun : search.run problem stop fuel = some (outcome, final))
    : Proves problem outcome final :=
  meets_of_finish (fun _ hcovers => hcovers.step hscreens) (h.start hscreens) hrun

theorem Reached.sound (hscreens : problem.Screens α) (h : Reached problem search)
    : Sound problem search := by
  induction h with
  | new agenda => exact { agrees_new agenda with reaches := nofun, isLeaf := nofun }
  | run hreached hrun ih => exact (ih.run hscreens hrun).toSound

omit [Agenda α] [LawfulAgenda α] in
theorem Sound.isMinimum (h : Sound problem search) (hclosed : problem.Closed search.upperBound)
    (hnan : problem.NaNFree) (hadmissible : problem.Admissible)
    : IsMinimum problem.LeafCost search.bestValue := by
  have hle : ∀ cost, problem.LeafCost cost → search.upperBound ≤ cost := by
    intro cost hcost
    rcases hcost with ⟨path, leaf, hpath, hcost⟩
    rcases hclosed path leaf hpath with ⟨node, hnode, hcut⟩
    rcases hpath.descent.drop hnode with ⟨rest, hdescent, hsub⟩
    have hreaches := hpath.descent.reaches hnode
    -- the bound of the node is between the best cost and the cost of the leaf
    have hbound := hadmissible node rest leaf hreaches hdescent hpath.isLeaf
    rw [Binary64.not_lt (hnan leaf ⟨path, hpath.descent⟩) (hnan node hreaches)] at hbound
    rw [← hcost]
    exact Binary64.le_trans hcut hbound
  rw [h.upperBound_eq] at hle
  cases hbest : search.best with
  | none =>
    simp only [bestValue, hbest, Option.map_none, Option.getD_none, IsMinimum] at hle ⊢
    intro cost hcost hlt
    have hcut := Binary64.le_iff.mp (hle cost hcost)
    exact (Binary64.not_lt hcut.left.right hcut.left.left).mpr (hle cost hcost) hlt
  | some leaf =>
    simp only [bestValue, hbest, Option.map_some, Option.getD_some, IsMinimum] at hle ⊢
    rcases h.reaches leaf hbest with ⟨path, hpath⟩
    refine ⟨h.lt_infinity leaf hbest, ?_, hle⟩
    refine ⟨leaf.bound, ⟨path, leaf, ⟨hpath, h.isLeaf leaf hbest⟩, rfl⟩, ?_⟩
    exact Binary64.beq_refl (hnan leaf ⟨path, hpath⟩)

/--
A run that is not stopped proves its result: every leaf is at or below a node that the best solution
cuts. If no bound exceeds the cost of a leaf below, then the result is the cost of a cheapest leaf.
-/
theorem minimum_of_run_exact {final : Search α} {fuel : Nat} {value : Option Float}
    (hnan : problem.NaNFree) (hreached : Reached problem search)
    (hrun : search.run problem stop fuel = some (.completed true value, final))
    : value = final.bestValue ∧ problem.Closed final.upperBound ∧
      (problem.Admissible → IsMinimum problem.LeafCost value ∧
        (value = none ↔ ∀ cost, problem.LeafCost cost → ¬(cost < infinity))) := by
  have hproves := (hreached.sound hnan.screens).run hnan.screens hrun
  rcases hproves.closed value rfl with ⟨hvalue, hclosed⟩
  refine ⟨hvalue, hclosed, ?_⟩
  intro hadmissible
  rw [hvalue]
  have hminimum := hproves.isMinimum hclosed hnan hadmissible
  exact ⟨hminimum, hminimum.eq_none_iff⟩

end Search

def Problem.fork : Problem where
  root := Node.root 2 0.5
  durations := [1.0]
  budgets := [0, 0]
  branch node := .ok <| [3.0, 2.0].zipIdx.map fun (bound, channel) =>
    Node.below (some node) { channel := some channel, depth := node.depth + 1, bound, switches := [0, 0] }

namespace Problem

theorem fork_reaches {node : Node} (h : fork.Reaches node)
    : node = fork.root ∨
      fork.isLeaf node = true ∧ fork.root.bound ≤ node.bound ∧ node.bound.isNaN = false := by
  apply h.induct (.inl rfl)
  intro parent child hparent hchild
  rcases hchild with ⟨hopen, children, hbranch, hmem⟩
  cases hparent with
  | inl heq =>
    rw [heq] at hbranch
    cases hbranch
    right
    revert child
    decide
  | inr hleaf =>
    rw [hleaf.left] at hopen
    contradiction

theorem fork_nanFree : fork.NaNFree := by
  intro node h
  cases fork_reaches h with
  | inl heq =>
    rw [heq]
    rfl
  | inr hleaf => exact hleaf.right.right

theorem fork_admissible : fork.Admissible := by
  intro node path leaf hreaches hdescent hleaf
  cases fork_reaches hreaches with
  | inl hroot =>
    rw [hroot]
    cases fork_reaches (hreaches.trans hdescent) with
    | inl hsame =>
      rw [hsame]
      exact Binary64.lt_irrefl _
    | inr hbelow => exact (Binary64.not_lt hbelow.right.right rfl).mpr hbelow.right.left
  | inr hbelow =>
    cases hdescent with
    | here => exact Binary64.lt_irrefl _
    | down hchild hrest =>
      have hopen := hchild.left
      rw [hbelow.left] at hopen
      contradiction

end Problem

namespace Search

theorem minimum_of_run_exact_fork
    : ∃ stopped final : Search Line,
      ({ agenda := {} } : Search Line).run .fork (.after 2) 9 =
        some (.completed false (some 3.0), stopped) ∧
      stopped.run .fork .never 9 = some (.completed true (some 2.0), final) ∧
      Problem.fork.Closed final.upperBound ∧ IsMinimum Problem.fork.LeafCost (some 2.0) := by
  refine ⟨_, _, rfl, rfl, ?_⟩
  have h := minimum_of_run_exact Problem.fork_nanFree
    (.run (.new ({} : Line)) (rfl : run .fork (.after 2) 9 _ = some _)) (rfl : run .fork .never 9 _ = _)
  exact ⟨h.right.left, (h.right.right Problem.fork_admissible).left⟩

end Search

end SwitchSearch
