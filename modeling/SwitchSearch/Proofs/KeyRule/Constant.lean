import SwitchSearch.Proofs.Binary64.Zero
import SwitchSearch.Proofs.KeyRule.Range
import SwitchSearch.Proofs.Slack.Range

/-!
This module contains the rules under which every key has the same divisor, the base: those that find
slack in no node, and those that give no weight to it.
-/

namespace SwitchSearch.KeyRule

variable {rule : KeyRule} {context : Context} {node : Node}

/-- The divisors are the base, bit for bit, whatever has been switched. -/
def IgnoresSlack (rule : KeyRule) : Prop :=
  ∀ node context, rule.divisor node context = rule.base

theorem IgnoresSlack.key_eq (h : rule.IgnoresSlack)
    : rule.key node context = node.bound + timeLeft node context / rule.base := by
  rw [KeyRule.key_eq, discount, h node context]

theorem ignoresSlack_of_fromZero (hrule : rule.Valid) (hslack : rule.slackRule = .fromZero)
    : rule.IgnoresSlack := by
  intro node context
  unfold divisor
  rw [hslack, SlackRule.slack_fromZero]
  apply Binary64.add_eq_self (Binary64.beq_zero_of_pos hrule.base_pos)
  apply Binary64.mul_beq_zero hrule.weight_finite
  rfl

theorem ignoresSlack_of_weight (hbase : 0.0 < rule.base) (hweight : (rule.weight == 0.0) = true)
    : rule.IgnoresSlack := by
  intro node context
  unfold divisor
  apply Binary64.add_eq_self (Binary64.beq_zero_of_pos hbase)
  rw [Binary64.mul_comm]
  exact Binary64.mul_beq_zero (Binary64.isFinite_toFloat _) hweight

end SwitchSearch.KeyRule
