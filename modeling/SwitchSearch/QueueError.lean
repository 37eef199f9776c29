import SwitchSearch.Decimal.Positional

/-!
This module contains the errors that queues of nodes report.
-/

namespace SwitchSearch

inductive QueueError where
  | empty
  | wrongChannels (expected actual : Nat)
  | beyondHorizon (depth horizon : Nat)
  | nanBound
  | badDuration (step : Nat) (duration : Float)
  deriving BEq

namespace QueueError

def message : QueueError → String
  | empty => "the node queue is empty"
  | wrongChannels expected actual =>
    s!"node has {actual} switch counters but the problem has {expected} channels"
  | beyondHorizon depth horizon => s!"node depth {depth} exceeds the horizon length {horizon}"
  | nanBound => "node lower bound is NaN"
  | badDuration step duration =>
    let text := Decimal.positional duration
    s!"step {step} has an invalid duration ({text})"

/-- Whether the data handed in is at fault. An empty queue is a mistake of whoever asks it. -/
def isDataFault : QueueError → Bool
  | empty => false
  | _ => true

end QueueError

end SwitchSearch
