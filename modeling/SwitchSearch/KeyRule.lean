import SwitchSearch.Context
import SwitchSearch.Decimal.Positional
import SwitchSearch.Node
import SwitchSearch.Slack

/-!
This module contains the keys by which deferred nodes are ordered. Bounds alone favour deep nodes, of
which little is unknown, although a node that may still switch often has more to gain. So the key of
a node discounts the time it has left by the slack it has left:

  `key = bound + timeLeft / (base + weight * slack)`
-/

namespace SwitchSearch

structure KeyRule where
  slackRule : SlackRule := .tightest
  base : Float := 3.0
  weight : Float := 2.0
  deriving BEq

namespace KeyRule

/--
The total duration of the steps that the node leaves open, added in order from negative zero. Beyond
the horizon it is positive zero.
-/
def timeLeft (node : Node) (context : Context) : Float :=
  if node.depth ≤ context.horizon then
    (context.durations.drop node.depth).foldl (· + ·) (-0.0)
  else
    0.0

def key (rule : KeyRule) (node : Node) (context : Context) : Float :=
  let slack := rule.slackRule.slack context.budgets node.switches
  node.bound + timeLeft node context / (rule.base + rule.weight * slack.toFloat)

structure Draft where
  slackRule : Option SlackRule := none
  base : Option Float := none
  weight : Option Float := none

inductive DraftError where
  | badBase (base : Float)
  | badWeight (weight : Float)
  deriving BEq

namespace DraftError

def message : DraftError → String
  | badBase base =>
    let text := Decimal.positional base
    s!"base_divisor must be positive and finite (got {text})"
  | badWeight weight =>
    let text := Decimal.positional weight
    s!"slack_weight must be non negative and finite (got {text})"

end DraftError

namespace Draft

def checkBase (base : Float) : Except DraftError Unit :=
  if 0.0 < base && base.isFinite then .ok () else .error (.badBase base)

def checkWeight (weight : Float) : Except DraftError Unit :=
  if 0.0 ≤ weight && weight.isFinite then .ok () else .error (.badWeight weight)

def build (draft : Draft) : Except DraftError KeyRule := do
  draft.base.forM checkBase
  draft.weight.forM checkWeight
  let default : KeyRule := {}
  return {
    slackRule := draft.slackRule.getD default.slackRule
    base := draft.base.getD default.base
    weight := draft.weight.getD default.weight
  }

end Draft

end KeyRule

end SwitchSearch
