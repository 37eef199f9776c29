import SwitchSearch.Proofs.Node.Counters
import SwitchSearch.Proofs.Slack.Range

/-!
This module contains what a slack is: the least margin that a budget leaves to its counter, unless that
is negative. A step of the horizon switches one channel on at most, so it takes at most one switch off
the slack of a node and never gives one back.
-/

namespace SwitchSearch.SlackRule

/-- By how much the budget of some channel exceeds its counter, or falls short of it if negative. -/
def margins (budgets used : List UInt32) : Set Int :=
  { margin | ∃ (channel : Nat) (budget count : UInt32), budgets[channel]? = some budget ∧
      used[channel]? = some count ∧ margin = budget.toNat - count.toNat }

def Near (less more : Int) : Prop :=
  less ≤ more ∧ more ≤ less + 1

variable {budgets used : List UInt32} {lower upper : List Int}

theorem mem_margins_iff {margin : Int}
    : margin ∈ margins budgets used ↔ margin ∈ differences budgets used :=
  mem_differences_iff.symm

theorem margins_of_differences_eq_nil (h : differences budgets used = [])
    : margins budgets used = ∅ := by
  apply Set.eq_empty_of_forall_notMem
  intro margin hmem
  rw [mem_margins_iff, h] at hmem
  exact absurd hmem List.not_mem_nil

theorem isLeast_of_min? {least : Int} (h : (differences budgets used).min? = some least)
    : IsLeast (margins budgets used) least := by
  rcases List.min?_eq_some_iff.mp h with ⟨hmem, hle⟩
  refine ⟨mem_margins_iff.mpr hmem, ?_⟩
  intro margin hmargin
  exact hle margin (mem_margins_iff.mp hmargin)

theorem slack_tightest (budgets used : List UInt32)
    : margins budgets used = ∅ ∧ tightest.slack budgets used = 0 ∨
      ∃ least, IsLeast (margins budgets used) least ∧
        ((tightest.slack budgets used).toNat : Int) = max 0 least := by
  cases hmin : (differences budgets used).min? with
  | none =>
    refine .inl ⟨margins_of_differences_eq_nil (List.min?_eq_none_iff.mp hmin), ?_⟩
    unfold slack least
    rw [hmin]
    rfl
  | some least =>
    refine .inr ⟨least, isLeast_of_min? hmin, ?_⟩
    have hleast : tightest.least (differences budgets used) = least := by
      unfold SlackRule.least
      rw [hmin]
      rfl
    rw [toNat_slack, hleast, Int.ofNat_toNat, max_comm]

theorem foldl_min_near (h : List.Forall₂ Near lower upper) {less more : Int} (hstart : Near less more)
    : Near (lower.foldl min less) (upper.foldl min more) := by
  induction h generalizing less more with
  | nil => exact hstart
  | cons hhead htail ih =>
    apply ih
    unfold Near at hhead hstart ⊢
    omega

theorem least_near (rule : SlackRule) (h : List.Forall₂ Near lower upper)
    : Near (rule.least lower) (rule.least upper) := by
  cases rule with
  | tightest =>
    cases h with
    | nil => exact ⟨le_rfl, by decide⟩
    | cons hhead htail => exact foldl_min_near htail hhead
  | fromZero => exact foldl_min_near h ⟨le_rfl, by decide⟩

def Switched (before after : List UInt32) : Prop :=
  List.Forall₂ (fun count next => count.toNat ≤ next.toNat ∧ next.toNat ≤ count.toNat + 1) before after

theorem Switched.refl (switches : List UInt32) : Switched switches switches :=
  List.forall₂_same.mpr fun _ _ => ⟨Nat.le_refl _, Nat.le_succ _⟩

theorem switched_set {switches : List UInt32} {channel : Nat} {count : UInt32}
    (hcount : switches[channel]? = some count) (hroom : count.toNat + 1 < UInt32.size)
    : Switched switches (switches.set channel (count + 1)) := by
  induction switches generalizing channel with
  | nil => simp at hcount
  | cons first switches ih =>
    cases channel with
    | zero =>
      rw [List.getElem?_cons_zero, Option.some.injEq] at hcount
      have hnext : (count + 1).toNat = count.toNat + 1 := by
        rw [UInt32.toNat_add]
        exact Nat.mod_eq_of_lt hroom
      rw [List.set_cons_zero, hcount]
      exact .cons (by omega) (Switched.refl switches)
    | succ channel =>
      rw [List.getElem?_cons_succ] at hcount
      exact .cons ⟨Nat.le_refl _, Nat.le_succ _⟩ (ih hcount)

theorem switched_of_switchOn {previous : Option Nat} {channel : Nat} {before after : List UInt32}
    (h : Node.switchOn previous channel before = .ok after)
    : Switched before after := by
  unfold Node.switchOn at h
  split at h
  . contradiction
  . next count hcount =>
    split at h
    . cases h
      exact Switched.refl before
    . split at h
      . next hroom =>
        cases h
        exact switched_set hcount hroom
      . contradiction

theorem switched_of_extend {parent child : Node} {channel : Nat} {bound : Float}
    (h : parent.extend channel bound = .ok child)
    : Switched parent.switches child.switches := by
  rcases Node.eq_below_of_extend h with ⟨switches, hswitches, hchild⟩
  rw [hchild]
  exact switched_of_switchOn hswitches

theorem Switched.differences_near {before after : List UInt32} (h : Switched before after)
    (budgets : List UInt32)
    : List.Forall₂ Near (differences budgets after) (differences budgets before) := by
  induction h generalizing budgets with
  | nil =>
    unfold differences
    rw [List.zipWith_nil_right]
    exact .nil
  | cons hcount hrest ih =>
    cases budgets with
    | nil => exact .nil
    | cons budget budgets =>
      apply List.Forall₂.cons _ (ih budgets)
      unfold Near
      dsimp only
      omega

theorem slack_of_extend (rule : SlackRule) {parent child : Node} {channel : Nat} {bound : Float}
    (h : parent.extend channel bound = .ok child) (budgets : List UInt32)
    : rule.slack budgets child.switches ≤ rule.slack budgets parent.switches ∧
      (rule.slack budgets parent.switches).toNat ≤ (rule.slack budgets child.switches).toNat + 1 := by
  have hnear := least_near rule ((switched_of_extend h).differences_near budgets)
  unfold Near at hnear
  rw [UInt32.le_iff_toNat_le, toNat_slack, toNat_slack]
  omega

/--
A slack is the least margin of the paired channels or, if that is negative or there is none, zero. The
words that it is computed in neither overflow nor lose anything when they are narrowed. From a node to
its child it goes down by one at most, and never up.
-/
theorem slack_eq_least_margin
    : (∀ budgets used : List UInt32,
        (margins budgets used = ∅ ∧ tightest.slack budgets used = 0 ∨
          ∃ least, IsLeast (margins budgets used) least ∧
            ((tightest.slack budgets used).toNat : Int) = max 0 least) ∧
        (wordDifferences budgets used).map (·.toInt) = differences budgets used ∧
        tightest.wordSlack? budgets used = some (tightest.slack budgets used)) ∧
      ∀ (parent child : Node) (channel : Nat) (bound : Float), parent.extend channel bound = .ok child →
        ∀ budgets : List UInt32,
          tightest.slack budgets child.switches ≤ tightest.slack budgets parent.switches ∧
          (tightest.slack budgets parent.switches).toNat ≤
            (tightest.slack budgets child.switches).toNat + 1 := by
  constructor
  . intro budgets used
    have hwords := toInt_wordDifferences budgets used
    exact ⟨slack_tightest budgets used, hwords, wordSlack?_eq tightest budgets used⟩
  . intro parent child channel bound hchild budgets
    exact slack_of_extend tightest hchild budgets

def nearlyFull : Node :=
  .below none { channel := some 0, depth := 1, bound := 0.0, switches := [0, 4294967294] }

theorem slack_eq_least_margin_nearlyFull
    : ∃ child, nearlyFull.extend 1 0.0 = .ok child ∧
        tightest.slack [4294967295, 4294967295, 7] nearlyFull.switches = 1 ∧
        tightest.slack [4294967295, 4294967295, 7] child.switches = 0 ∧
        (tightest.slack [4294967295, 4294967295, 7] nearlyFull.switches).toNat ≤
          (tightest.slack [4294967295, 4294967295, 7] child.switches).toNat + 1 ∧
        tightest.wordSlack? [4294967295] [0] = some (tightest.slack [4294967295] [0]) ∧
        tightest.slack [4294967295] [0] = 4294967295 := by
  have hwords := (slack_eq_least_margin.left [4294967295] [0]).right.right
  have hstep := slack_eq_least_margin.right nearlyFull _ 1 0.0 rfl [4294967295, 4294967295, 7]
  exact ⟨_, rfl, by decide, by decide, hstep.right, hwords, by decide⟩

end SwitchSearch.SlackRule
