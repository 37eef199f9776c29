import Mathlib
import SwitchSearch.Slack

/-!
This module contains the range of slacks. Differences of counters of 32 bits do not overflow signed words
of 64 bits, and what is left of them once they are clamped fits into 32 bits again, so words compute the
slacks that integers do. A slack that is sought from zero is zero.
-/

namespace SwitchSearch.SlackRule

def wordDifferences (budgets used : List UInt32) : List Int64 :=
  List.zipWith (fun budget count => .ofNat budget.toNat - .ofNat count.toNat) budgets used

def wordLeast (rule : SlackRule) (words : List Int64) : Int64 :=
  match rule with
  | tightest => words.min?.getD 0
  | fromZero => words.foldl min 0

def narrow? (word : Int64) : Option UInt32 :=
  if 0 ≤ word ∧ word ≤ 4294967295 then some (.ofNat word.toInt.toNat) else none

def wordSlack? (rule : SlackRule) (budgets used : List UInt32) : Option UInt32 :=
  narrow? (max (rule.wordLeast (wordDifferences budgets used)) 0)

theorem mem_differences_iff {budgets used : List UInt32} {margin : Int}
    : margin ∈ differences budgets used ↔ ∃ (channel : Nat) (budget count : UInt32),
        budgets[channel]? = some budget ∧ used[channel]? = some count ∧
        margin = budget.toNat - count.toNat := by
  unfold differences
  rw [List.mem_iff_getElem?]
  apply exists_congr
  intro channel
  rw [List.getElem?_zipWith]
  cases budgets[channel]? with
  | none => simp
  | some budget =>
    cases used[channel]? with
    | none => simp
    | some count => simp [eq_comm]

theorem lt_of_mem_differences {budgets used : List UInt32} {margin : Int}
    (h : margin ∈ differences budgets used)
    : margin < UInt32.size := by
  rcases mem_differences_iff.mp h with ⟨channel, budget, count, hbudget, hcount, hmargin⟩
  have hlt := budget.toNat_lt
  simp only [UInt32.size]
  omega

theorem least_fromZero_le (margins : List Int) : fromZero.least margins ≤ 0 := by
  unfold least
  rw [List.foldl_min]
  exact min_le_left _ _

theorem slack_fromZero (budgets used : List UInt32) : fromZero.slack budgets used = 0 := by
  unfold slack
  rw [Int.toNat_of_nonpos (least_fromZero_le _)]
  rfl

theorem least_mem_or_le (rule : SlackRule) (margins : List Int)
    : rule.least margins ∈ margins ∨ rule.least margins ≤ 0 := by
  cases rule with
  | tightest =>
    unfold least
    cases hmin : margins.min? with
    | none => exact .inr le_rfl
    | some margin => exact .inl (List.min?_mem hmin)
  | fromZero => exact .inr (least_fromZero_le margins)

theorem least_lt_size (rule : SlackRule) (budgets used : List UInt32)
    : rule.least (differences budgets used) < UInt32.size := by
  cases least_mem_or_le rule (differences budgets used) with
  | inl hmem => exact lt_of_mem_differences hmem
  | inr hle => exact hle.trans_lt (by decide)

theorem toNat_least_lt_size (rule : SlackRule) (budgets used : List UInt32)
    : (rule.least (differences budgets used)).toNat < UInt32.size := by
  have hlt := least_lt_size rule budgets used
  simp only [UInt32.size] at hlt ⊢
  omega

theorem toNat_slack (rule : SlackRule) (budgets used : List UInt32)
    : (rule.slack budgets used).toNat = (rule.least (differences budgets used)).toNat :=
  UInt32.toNat_ofNatClamp_of_lt (toNat_least_lt_size rule budgets used)

theorem toInt_wordDifferences (budgets used : List UInt32)
    : (wordDifferences budgets used).map (·.toInt) = differences budgets used := by
  unfold wordDifferences differences
  rw [List.map_zipWith]
  congr 1
  funext budget count
  have hbudget := budget.toNat_lt
  have hcount := count.toNat_lt
  rw [Int64.toInt_sub, Int64.toInt_ofNat_of_lt (by omega), Int64.toInt_ofNat_of_lt (by omega)]
  apply Int.bmod_eq_of_le <;> omega

theorem toInt_min (x y : Int64) : (min x y).toInt = min x.toInt y.toInt := by
  rw [Std.min_eq_if, Int.min_def]
  simp only [Int64.le_iff_toInt_le]
  split <;> rfl

theorem toInt_foldl_min (words : List Int64) (start : Int64)
    : (words.foldl min start).toInt = (words.map (·.toInt)).foldl min start.toInt := by
  induction words generalizing start with
  | nil => rfl
  | cons word words ih => rw [List.foldl_cons, ih, toInt_min, List.map_cons, List.foldl_cons]

theorem toInt_wordLeast (rule : SlackRule) (words : List Int64)
    : (rule.wordLeast words).toInt = rule.least (words.map (·.toInt)) := by
  cases rule with
  | tightest =>
    cases words with
    | nil => rfl
    | cons word words => exact toInt_foldl_min words word
  | fromZero => exact toInt_foldl_min words 0

theorem toInt_max_zero (word : Int64) : (max word 0).toInt = (word.toInt.toNat : Int) := by
  change (if word ≤ 0 then 0 else word).toInt = _
  split
  . next hle =>
    rw [Int64.le_iff_toInt_le, Int64.toInt_zero] at hle
    rw [Int.toNat_of_nonpos hle]
    rfl
  . next hpos =>
    rw [Int64.le_iff_toInt_le, Int64.toInt_zero] at hpos
    omega

theorem narrow?_of_toInt {word : Int64} {count : UInt32} (h : word.toInt = count.toNat)
    : narrow? word = some count := by
  have hlt := count.toNat_lt
  unfold narrow?
  rw [if_pos, h, Int.toNat_natCast, UInt32.ofNat_toNat]
  rw [Int64.le_iff_toInt_le, Int64.le_iff_toInt_le, h]
  change 0 ≤ (count.toNat : Int) ∧ (count.toNat : Int) ≤ 4294967295
  omega

theorem wordSlack?_eq (rule : SlackRule) (budgets used : List UInt32)
    : rule.wordSlack? budgets used = some (rule.slack budgets used) := by
  apply narrow?_of_toInt
  rw [toInt_max_zero, toInt_wordLeast, toInt_wordDifferences, toNat_slack]

end SwitchSearch.SlackRule
