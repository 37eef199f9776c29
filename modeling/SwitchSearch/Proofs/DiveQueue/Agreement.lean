import SwitchSearch.Proofs.DiveQueue.Departure
import SwitchSearch.Proofs.KeyRule.Constant

/-!
This module contains the proof that a queue gets nothing from its rule but keys: under rules that agree
on all keys, the same operations get the same answers and leave the same tiers behind.
-/

namespace SwitchSearch

def KeyRule.Agrees (first second : KeyRule) : Prop :=
  ∀ node context, first.key node context = second.key node context

namespace DiveQueue

variable {queue : DiveQueue} {first second rule : KeyRule} {context : Context} {batch : List Node}

def withRule (queue : DiveQueue) (rule : KeyRule) : DiveQueue :=
  { queue with rule }

theorem taking_withRule (h : queue.rule.Agrees rule)
    : (queue.withRule rule).taking context batch = (queue.taking context batch).withRule rule := by
  have hentry : entry rule context = entry queue.rule context := by
    funext node
    unfold entry
    rw [h node context]
  unfold taking withRule deferredNodes
  rw [hentry]

theorem push_withRule (h : queue.rule.Agrees rule)
    : (queue.withRule rule).push context batch =
      ((queue.push context batch).1, (queue.push context batch).2.withRule rule) := by
  cases batch with
  | nil => rfl
  | cons node batch =>
    rw [push_cons, push_cons, spread_demote_eq, spread_demote_eq, taking_withRule h]
    split <;> rfl

theorem pop_withRule : (queue.withRule rule).pop = (queue.pop.1, queue.pop.2.withRule rule) := by
  unfold pop withRule
  dsimp only
  split
  . rfl
  . split
    . rfl
    . split <;> rfl

theorem perform_withRule (h : queue.rule.Agrees rule) (operation : Operation)
    : Agenda.perform (queue.withRule rule) operation =
      ((Agenda.perform queue operation).1, (Agenda.perform queue operation).2.withRule rule) := by
  cases operation with
  | push context batch =>
    exact congrArg (fun result => (Answer.pushed result.1, result.2)) (push_withRule h)
  | pop => exact congrArg (fun result => (Answer.popped result.1, result.2)) pop_withRule
  | top => rfl
  | clear => rfl

theorem answers_withRule (h : queue.rule.Agrees rule) (operations : List Operation)
    : Agenda.answers (queue.withRule rule) operations = Agenda.answers queue operations := by
  induction operations generalizing queue with
  | nil => rfl
  | cons operation operations ih =>
    have hnext : (Agenda.perform queue operation).2.rule.Agrees rule := by
      rw [rule_perform]
      exact h
    simp only [Agenda.answers, perform_withRule h, ih hnext]

theorem reached_withRule (h : first.Agrees second) (operations : List Operation)
    : reached second operations = (reached first operations).withRule second := by
  induction operations using List.reverseRecOn with
  | nil => rfl
  | append_singleton operations last ih =>
    have hrule : (reached first operations).rule.Agrees second := by
      rw [rule_reached]
      exact h
    rw [reached_concat, reached_concat, ih, perform_withRule hrule]

/--
New queues under the two rules answer each of the operations alike, and then hold the same nodes in the
same places of their tiers, the deferred ones under the same keys bit for bit.
-/
structure SameCourse (first second : KeyRule) (operations : List Operation) : Prop where
  answers_eq : Agenda.answers (new first) operations = Agenda.answers (new second) operations
  pruned_eq : (reached first operations).pruned = (reached second operations).pruned
  dive_eq : (reached first operations).dive = (reached second operations).dive
  deferred_eq : (reached first operations).deferred = (reached second operations).deferred

theorem sameCourse_of_agrees (h : first.Agrees second) (operations : List Operation)
    : SameCourse first second operations := by
  have hnew : (new first).rule.Agrees second := h
  have hanswers := answers_withRule hnew operations
  have hreached := reached_withRule h operations
  constructor
  . exact hanswers.symm
  . rw [hreached]
    rfl
  . rw [hreached]
    rfl
  . rw [hreached]
    rfl

theorem sameCourse_of_ignoresSlack (hfirst : first.IgnoresSlack) (hsecond : second.IgnoresSlack)
    (hbase : second.base = first.base) (operations : List Operation)
    : SameCourse first second operations := by
  apply sameCourse_of_agrees
  intro node context
  rw [hfirst.key_eq, hsecond.key_eq, hbase]

/--
If slack is sought from zero, the keys discount the time left by the base alone, and the weight does not
matter: the queue goes the same way under each other weight, and under the rule that looks for the
tightest channel but gives slack no weight.
-/
theorem sameCourse_of_fromZero {draft : KeyRule.Draft} (hbuild : draft.build = .ok rule)
    (hslack : rule.slackRule = .fromZero) (operations : List Operation)
    : (∀ zero : Float, (zero == 0.0) = true →
        SameCourse rule { slackRule := .tightest, base := rule.base, weight := zero } operations) ∧
      (∀ (other : KeyRule.Draft) (another : KeyRule), other.build = .ok another →
        another.slackRule = .fromZero → another.base = rule.base →
        SameCourse rule another operations) ∧
      ∀ deferral ∈ (reached rule operations).deferred.toList, ∃ earlier context batch later,
        operations = earlier ++ .push context batch :: later ∧
        ((reached rule earlier).push context batch).1 = .ok () ∧
        deferral.node ∈ (reached rule earlier).deferredNodes context batch ∧
        deferral.key =
          deferral.node.bound + KeyRule.timeLeft deferral.node context / rule.base := by
  have hvalid := KeyRule.valid_of_build hbuild
  have hignores := KeyRule.ignoresSlack_of_fromZero hvalid hslack
  refine ⟨?_, ?_, ?_⟩
  . intro zero hzero
    have hconstant : KeyRule.IgnoresSlack { slackRule := .tightest, base := rule.base, weight := zero } :=
      KeyRule.ignoresSlack_of_weight hvalid.base_pos hzero
    exact sameCourse_of_ignoresSlack hignores hconstant rfl operations
  . intro other another hother hseek hbase
    have hsame := KeyRule.ignoresSlack_of_fromZero (KeyRule.valid_of_build hother) hseek
    exact sameCourse_of_ignoresSlack hignores hsame hbase operations
  . intro deferral hmem
    rcases deferredBy_of_mem hmem with ⟨earlier, context, batch, later, hsplit, hpush, hnode, hkey, hstays⟩
    rw [hignores.key_eq] at hkey
    exact ⟨earlier, context, batch, later, hsplit, hpush, hnode, hkey⟩

theorem sameCourse_of_fromZero_twoPushes
    : ({ slackRule := some .fromZero } : KeyRule.Draft).build = .ok { slackRule := .fromZero } ∧
      SameCourse { slackRule := .fromZero } { weight := -0.0 } (twoPushes ++ [.pop, .pop, .pop]) ∧
      SameCourse { slackRule := .fromZero } { slackRule := .fromZero, weight := 7.5 } twoPushes ∧
      (reached { slackRule := .fromZero } twoPushes).deferred.size = 3 ∧
      (reached { slackRule := .fromZero } (twoPushes ++ [.pop, .pop, .pop])).deferred.size = 2 := by
  have hbuild : ({ slackRule := some .fromZero } : KeyRule.Draft).build =
      .ok { slackRule := .fromZero } := rfl
  have hother : ({ slackRule := some .fromZero, weight := some 7.5 } : KeyRule.Draft).build =
      .ok { slackRule := .fromZero, weight := 7.5 } := rfl
  have hemptied := (sameCourse_of_fromZero hbuild rfl (twoPushes ++ [.pop, .pop, .pop])).left
  have hfilled := (sameCourse_of_fromZero hbuild rfl twoPushes).right.left
  exact ⟨hbuild, hemptied (-0.0) rfl, hfilled _ _ hother rfl rfl, by decide +kernel, by decide +kernel⟩

end DiveQueue

end SwitchSearch
