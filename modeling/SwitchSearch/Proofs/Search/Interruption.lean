import SwitchSearch.Proofs.Search.Incumbent
import SwitchSearch.Proofs.Search.Journal
import SwitchSearch.Proofs.Search.Termination

/-!
This module compares runs that differ in nothing but when they are stopped: until the first of them is
stopped, they do the same, so the run that is stopped later has done all that the other one did.
-/

namespace SwitchSearch

def Event.isStop : Event → Bool
  | .stop => true
  | _ => false

def Outcome.isAborted : Outcome → Bool
  | .completed exact _ => !exact
  | _ => false

def StopRule.NoLater (early late : StopRule) : Prop :=
  ∀ asked, late asked = true → early asked = true

namespace Search

variable {α : Type} {problem : Problem} {early late stop : StopRule} {first search next : Search α}

def history (search : Search α) : List Event :=
  (search.journal.filter (!·.isStop)).reverse

def takes (search : Search α) : List Node :=
  search.journal.filterMap (·.taken?)

structure Continues (earlier later : Search α) : Prop where
  journal : earlier.journal <:+ later.journal
  explored : earlier.explored ≤ later.explored

theorem Continues.refl (search : Search α) : Continues search search :=
  ⟨List.suffix_refl _, Nat.le_refl _⟩

theorem Continues.trans {earlier middle later : Search α} (h : Continues earlier middle)
    (hnext : Continues middle later)
    : Continues earlier later :=
  ⟨h.journal.trans hnext.journal, Nat.le_trans h.explored hnext.explored⟩

theorem Continues.history_initial {earlier later : Search α} (h : Continues earlier later)
    : earlier.history <+: later.history :=
  List.reverse_prefix.mpr (h.journal.filter _)

structure Advances (search next : Search α) : Prop extends Continues search next where
  asked : next.asked = search.asked + 1
  count : next.explored = search.explored + 1
  takes : next.takes.length = search.takes.length + 1

variable [Agenda α]

theorem step_congr (hstop : early search.asked = late search.asked)
    : search.step problem early = search.step problem late := by
  unfold step
  rw [hstop]

theorem goes_of_step (hstep : search.step problem stop = .running next) : stop search.asked = false := by
  unfold step at hstep
  split at hstep
  . contradiction
  . dsimp only at hstep
    split at hstep
    . contradiction
    . next hgo => exact eq_false_of_ne_true hgo

theorem step_of_noLater (hlater : early.NoLater late) (hstep : search.step problem early = .running next)
    : search.step problem late = .running next := by
  have hgo := goes_of_step hstep
  have hgoes : late search.asked = false := by
    cases hstop : late search.asked with
    | false => rfl
    | true =>
      rw [hlater _ hstop] at hgo
      contradiction
  rw [← hstep]
  exact step_congr (hgoes.trans hgo.symm)

theorem Visits.of_noLater (hlater : early.NoLater late) (hvisits : Visits problem early first search)
    : Visits problem late first search := by
  induction hvisits with
  | started hstart => exact .started hstart
  | stepped hvisits hstep ih => exact ih.stepped (step_of_noLater hlater hstep)

theorem step_cases (problem : Problem) (hlater : early.NoLater late) (search : Search α)
    : search.step problem early = search.step problem late ∨
      search.step problem early = { search with asked := search.asked + 1 }.abort := by
  cases hempty : Agenda.isEmpty search.agenda with
  | true =>
    left
    unfold step
    rw [hempty]
    rfl
  | false =>
    cases hstop : early search.asked with
    | true => exact .inr (step_of_stop hempty hstop)
    | false =>
      left
      apply step_congr
      rw [hstop]
      cases hlate : late search.asked with
      | false => rfl
      | true =>
        rw [hlater _ hlate] at hstop
        contradiction

theorem finish_of_noLater {fuel : Nat} {progress : Progress α} {outcome : Outcome} {final : Search α}
    (hlater : early.NoLater late) (hdone : outcome.isAborted = false)
    (h : finish problem early fuel progress = some (outcome, final))
    : finish problem late fuel progress = some (outcome, final) := by
  induction fuel generalizing progress with
  | zero =>
    cases progress with
    | running search => contradiction
    | ended ending search => exact h
  | succ fuel ih =>
    cases progress with
    | running search =>
      rcases step_cases problem hlater search with hsame | habort
      . unfold finish at h ⊢
        rw [← hsame]
        exact ih h
      . unfold finish at h
        rw [habort, abort, finish_ended] at h
        cases h
        contradiction
    | ended ending search => exact h

theorem Round.advances (hround : Round problem stop search (.running next)) : Advances search next := by
  cases hround with
  | discarded node agenda hgo hpop hcut =>
    exact ⟨⟨List.suffix_append [_, _] _, Nat.le_succ _⟩, rfl, rfl, rfl⟩
  | recorded node agenda hgo hpop hcut hleaf =>
    exact ⟨⟨List.suffix_append [_, _] _, Nat.le_succ _⟩, rfl, rfl, rfl⟩
  | expanded node agenda rest children hgo hpop hcut hleaf hbranch hpush =>
    exact ⟨⟨List.suffix_append [_, _, _] _, Nat.le_succ _⟩, rfl, rfl, rfl⟩

theorem Round.continues {outcome : Outcome} {final : Search α}
    (hround : Round problem stop search (.ended outcome final))
    : Continues search final := by
  cases hround with
  | exhausted hempty => exact .refl search
  | stopped hheld hstop => exact ⟨List.suffix_cons _ _, Nat.le_refl _⟩
  | crashed node agenda error hgo hpop hcut hleaf hbranch =>
    exact ⟨List.suffix_append [_, _] _, Nat.le_succ _⟩
  | refused node agenda rest children error hgo hpop hcut hleaf hbranch hpush =>
    exact ⟨List.suffix_append [_, _, _] _, Nat.le_succ _⟩

variable [LawfulAgenda α]

theorem advances_of_step (hstep : search.step problem stop = .running next)
    : Advances search next :=
  (round_of_step hstep).advances

theorem continues_of_finish {fuel : Nat} {outcome : Outcome} {final : Search α}
    (h : finish problem stop fuel (.running search) = some (outcome, final))
    : Continues search final := by
  have hself : (Progress.running search).Meets (Continues search) fun _ => Continues search :=
    Continues.refl search
  refine meets_of_finish ?_ hself h
  intro current hcontinues
  have hround := round_step problem stop current
  generalize current.step problem stop = progress at hround ⊢
  cases progress with
  | running next => exact hcontinues.trans hround.advances.toContinues
  | ended outcome final => exact hcontinues.trans hround.continues

theorem exists_finish_after {count fuel : Nat} {progress : Progress α}
    (h : ∀ search, progress = .running search → search.asked ≤ count ∧ count < fuel + search.asked)
    : ∃ outcome final, finish problem (.after count) fuel progress = some (outcome, final) := by
  induction fuel generalizing progress with
  | zero =>
    cases progress with
    | running search =>
      have hbounds := h search rfl
      omega
    | ended outcome final => exact ⟨outcome, final, rfl⟩
  | succ fuel ih =>
    cases progress with
    | running search =>
      have hbounds := h search rfl
      apply ih
      intro next hstep
      -- the round has been allowed to ask, so it was not the last question
      have hgo := goes_of_step hstep
      have hasked := (advances_of_step hstep).asked
      simp only [StopRule.after, decide_eq_false_iff_not] at hgo
      omega
    | ended outcome final => exact ⟨outcome, final, rfl⟩

structure Tally (stop : StopRule) (search : Search α) : Prop where
  explored : search.explored = search.asked
  takes : search.takes.length = search.asked
  answers : ∀ question < search.asked, stop question = false

theorem Visits.tally {agenda : α} (hvisits : Visits problem stop { agenda } search)
    : Tally stop search := by
  induction hvisits with
  | started hstart =>
    rcases started_of_start hstart with ⟨rest, hstarted, hpush⟩
    rw [hstarted]
    exact ⟨rfl, rfl, fun question hlt => absurd hlt (Nat.not_lt_zero _)⟩
  | stepped hvisits hstep ih =>
    have hadvances := advances_of_step hstep
    constructor
    . rw [hadvances.count, hadvances.asked, ih.explored]
    . rw [hadvances.takes, hadvances.asked, ih.takes]
    . intro question hlt
      rw [hadvances.asked] at hlt
      cases Nat.lt_succ_iff_lt_or_eq.mp hlt with
      | inl hearlier => exact ih.answers question hearlier
      | inr hlast =>
        rw [hlast]
        exact goes_of_step hstep

theorem exists_halted {fuel : Nat} {outcome : Outcome} {ended : Search α}
    (hrun : first.run problem stop fuel = some (outcome, ended)) (haborted : outcome.isAborted = true)
    : ∃ halted, Visits problem stop first halted ∧ stop halted.asked = true ∧
        outcome = .completed false halted.bestValue ∧
        ended = { halted.note .stop with
          agenda := Agenda.clear halted.agenda, asked := halted.asked + 1 } := by
  rcases exists_last hrun with hstart | ⟨last, hvisits, hstep⟩
  . rcases failed_of_start hstart with ⟨error, hfailed⟩
    rw [hfailed] at haborted
    contradiction
  . have hround := round_step problem stop last
    rw [hstep] at hround
    cases hround with
    | exhausted hempty => contradiction
    | stopped hheld hstop => exact ⟨last, hvisits, hstop, rfl, rfl⟩
    | crashed => contradiction
    | refused => contradiction

end Search

namespace Search

variable {problem : Problem} {left right : DiveQueue}

theorem run_congr (hrule : left.rule = right.rule) (stop : StopRule) (fuel : Nat)
    : run problem stop fuel { agenda := left } = run problem stop fuel { agenda := right } := by
  have hclear : left.clear = right.clear := congrArg DiveQueue.new hrule
  have hstart : start problem { agenda := left } = start problem { agenda := right } := by
    unfold start
    change offer problem (note { agenda := left.clear } .start) _ =
      offer problem (note { agenda := right.clear } .start) _
    rw [hclear]
  unfold run
  rw [hstart]

theorem upperBound_le_of_continues {earlier later : Search DiveQueue} (hearlier : Met problem earlier)
    (hlater : Met problem later) (h : Continues earlier later)
    : later.upperBound ≤ earlier.upperBound := by
  have hfirst := hearlier.tracks (DiveQueue.screens problem)
  have hsecond := hlater.tracks (DiveQueue.screens problem)
  have hincumbents : earlier.incumbents <:+ later.incumbents := h.journal.filterMap _
  cases hbest : earlier.best with
  | none =>
    rw [hfirst.upperBound_of_none hbest]
    exact hsecond.upperBound_le
  | some leaf =>
    rw [hfirst.upperBound_of_some hbest]
    apply hsecond.upperBound_le_incumbents
    apply hincumbents.subset
    apply List.mem_of_mem_head?
    rw [hfirst.latest, hbest]
    exact Option.mem_some_self leaf

theorem exists_run_after (problem : Problem) (count : Nat) (queue : DiveQueue)
    : ∃ outcome ended, ∀ fuel, count < fuel →
        run problem (.after count) fuel { agenda := queue } = some (outcome, ended) := by
  have hbounds : ∀ search, start problem { agenda := queue } = .running search →
      search.asked ≤ count ∧ count < count + 1 + search.asked := by
    intro search hstart
    rcases started_of_start hstart with ⟨rest, hstarted, hpush⟩
    have hasked : search.asked = 0 := congrArg asked hstarted
    omega
  rcases exists_finish_after hbounds with ⟨outcome, ended, hfinish⟩
  exact ⟨outcome, ended, fun fuel hlt => finish_of_le hfinish hlt⟩

/-- The run that has ended was in the given state when the stop rule stopped it. -/
structure StoppedIn (count : Nat) (outcome : Outcome) (halted ended : Search DiveQueue) : Prop where
  outcome_eq : outcome = .completed false ended.bestValue
  best_eq : ended.best = halted.best
  upperBound_eq : ended.upperBound = halted.upperBound
  isEmpty : Agenda.isEmpty ended.agenda = true
  journal_eq : ended.journal = .stop :: halted.journal
  explored_eq : ended.explored = count
  takes_eq : ended.takes.length = (List.range ended.asked).countP (!StopRule.after count ·)

theorem StoppedIn.history_eq {count : Nat} {outcome : Outcome} {halted ended : Search DiveQueue}
    (h : StoppedIn count outcome halted ended)
    : ended.history = halted.history := by
  unfold history
  rw [h.journal_eq]
  rfl

theorem stoppedIn_of_run {count fuel : Nat} {queue : DiveQueue} {outcome : Outcome}
    {ended : Search DiveQueue}
    (hrun : run problem (.after count) fuel { agenda := queue } = some (outcome, ended))
    (haborted : outcome.isAborted = true)
    : ∃ halted, Visits problem (.after count) { agenda := queue } halted ∧
        halted.explored = count ∧ StoppedIn count outcome halted ended := by
  rcases exists_halted hrun haborted with ⟨halted, hvisits, hstop, houtcome, hended⟩
  have htally := hvisits.tally
  have hasked : halted.asked = count := by
    simp only [StopRule.after, decide_eq_true_eq] at hstop
    -- had it asked a question more, it would have been stopped at that one
    by_contra hne
    have hgo := htally.answers count (by omega)
    simp [StopRule.after] at hgo
  have hcount : (List.range (count + 1)).countP (!StopRule.after count ·) = count := by
    have hgoes : (List.range count).countP (!StopRule.after count ·) = (List.range count).length := by
      rw [List.countP_eq_length]
      intro question hmem
      simpa [StopRule.after] using hmem
    rw [List.range_succ, List.countP_append, hgoes, List.length_range]
    simp [StopRule.after]
  subst hended
  have hexplored := htally.explored.trans hasked
  refine ⟨halted, hvisits, hexplored, houtcome, rfl, rfl, rfl, rfl, hexplored, ?_⟩
  . change halted.takes.length = (List.range (halted.asked + 1)).countP _
    rw [htally.takes, hasked, hcount]

/--
A run that is stopped at some question comes back. If it was not stopped after all, a run that may ask
more ends in the very same state. Otherwise that run passes through the state in which the first one was
stopped, so that it has done all that the first one did and has a solution at least as good.
-/
theorem history_of_run_after (problem : Problem) (count : Nat) (late : StopRule)
    (hlate : late = .never ∨ ∃ more, count ≤ more ∧ late = .after more) (left right : DiveQueue)
    (hrule : left.rule = right.rule)
    : ∃ outcome ended,
        (∀ fuel, count < fuel →
          run problem (.after count) fuel { agenda := left } = some (outcome, ended)) ∧
        (∀ fuel other final, run problem late fuel { agenda := right } = some (other, final) →
          ended.history <+: final.history ∧ final.upperBound ≤ ended.upperBound ∧
            ended.explored ≤ final.explored) ∧
        (outcome.isAborted = false → ∀ fuel, count < fuel →
          run problem late fuel { agenda := right } = some (outcome, ended)) ∧
        (outcome.isAborted = true → ∃ halted, Visits problem late { agenda := right } halted ∧
          StoppedIn count outcome halted ended) := by
  have hlater : (StopRule.after count).NoLater late := by
    intro asked hstop
    rcases hlate with hnever | ⟨more, hmore, hafter⟩
    . rw [hnever] at hstop
      contradiction
    . rw [hafter] at hstop
      simp only [StopRule.after, decide_eq_true_eq] at hstop ⊢
      exact Nat.le_trans hmore hstop
  rcases exists_run_after problem count right with ⟨outcome, ended, hreturns⟩
  have hrun := hreturns (count + 1) (Nat.lt_succ_self count)
  have hsame : outcome.isAborted = false → ∀ fuel, count < fuel →
      run problem late fuel { agenda := right } = some (outcome, ended) :=
    fun hdone fuel hlt => finish_of_noLater hlater hdone (hreturns fuel hlt)
  refine ⟨outcome, ended, ?_, ?_, hsame, ?_⟩
  . intro fuel hlt
    rw [run_congr hrule]
    exact hreturns fuel hlt
  . intro fuel other final hfinal
    have hmet : Met problem ended := .between (.run (.new right) hrun)
    have hlast : Met problem final := .between (.run (.new right) hfinal)
    cases haborted : outcome.isAborted with
    | false =>
      have hequal := hsame haborted (max fuel (count + 1)) (by omega)
      unfold run at hequal hfinal
      rw [finish_of_le hfinal (Nat.le_max_left _ _)] at hequal
      cases hequal
      have hself := Continues.refl ended
      exact ⟨hself.history_initial, upperBound_le_of_continues hmet hmet hself, hself.explored⟩
    | true =>
      rcases stoppedIn_of_run hrun haborted with ⟨halted, hvisits, hexplored, hstopped⟩
      rcases exists_run_eq_finish (hvisits.of_noLater hlater) with ⟨rounds, hrounds⟩
      have hmore := finish_of_le hfinal (Nat.le_add_left fuel rounds)
      have hcontinues := continues_of_finish ((hrounds fuel).symm.trans hmore)
      have hbound := upperBound_le_of_continues (.within (.new right) hvisits) hlast hcontinues
      rw [hstopped.history_eq, hstopped.upperBound_eq, hstopped.explored_eq, ← hexplored]
      exact ⟨hcontinues.history_initial, hbound, hcontinues.explored⟩
  . intro haborted
    rcases stoppedIn_of_run hrun haborted with ⟨halted, hvisits, hexplored, hstopped⟩
    exact ⟨halted, hvisits.of_noLater hlater, hstopped⟩

def leftover : DiveQueue where
  rule := {}
  pruned := [Problem.fork.root]

theorem history_of_run_after_fork
    : ∃ (outcome last : Outcome) (ended final : Search DiveQueue),
        run .fork (.after 2) 9 { agenda := .new {} } = some (outcome, ended) ∧
        run .fork .never 9 { agenda := leftover } = some (last, final) ∧
        outcome.isAborted = true ∧ last.isAborted = false ∧ (ended.upperBound == 2.0) = true ∧
        ended.history <+: final.history ∧ final.upperBound ≤ ended.upperBound ∧
        ended.explored = 2 ∧ final.explored = 3 ∧
        ∃ halted, Visits .fork .never { agenda := leftover } halted ∧
          StoppedIn 2 outcome halted ended := by
  rcases history_of_run_after .fork 2 .never (.inl rfl) (.new {}) leftover rfl with
    ⟨outcome, ended, hreturns, hinitial, hsame, hstopped⟩
  have hrun := hreturns 9 (by decide)
  have hearly : (run .fork (.after 2) 9 { agenda := DiveQueue.new {} }).all
      (fun (outcome, ended) => outcome.isAborted && ended.upperBound == 2.0) = true := by
    decide +kernel
  have hlate : (run .fork .never 9 { agenda := leftover }).any
      (fun (outcome, final) => !outcome.isAborted && final.explored == 3) = true := by
    decide +kernel
  rw [hrun] at hearly
  rcases Option.any_eq_true _ _ |>.mp hlate with ⟨⟨last, final⟩, hfinal, htests⟩
  simp only [Option.all_some, Bool.and_eq_true] at hearly
  simp only [Bool.and_eq_true, Bool.not_eq_true', beq_iff_eq] at htests
  rcases hstopped hearly.left with ⟨halted, hvisits, hhalted⟩
  rcases hinitial 9 last final hfinal with ⟨hhistory, hbound, hexplored⟩
  exact ⟨outcome, last, ended, final, hrun, hfinal, hearly.left, htests.left, hearly.right, hhistory,
    hbound, hhalted.explored_eq, htests.right, halted, hvisits, hhalted⟩

end Search

end SwitchSearch
