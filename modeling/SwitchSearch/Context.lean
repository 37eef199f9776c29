/-!
This module contains what a queue of nodes gets to see of the search around it: the cost to beat and
the data of the problem.
-/

namespace SwitchSearch

/-- The cost of a search that has not met any solution yet. -/
def infinity : Float := Float.ofBits 0x7ff0000000000000

structure Context where
  upperBound : Float
  durations : List Float
  budgets : List UInt32

namespace Context

def initial (durations : List Float) (budgets : List UInt32) : Context :=
  { upperBound := infinity, durations, budgets }

def horizon (context : Context) : Nat :=
  context.durations.length

def channels (context : Context) : Nat :=
  context.budgets.length

end Context

end SwitchSearch
