import SwitchSearch.Problem.Basic

/-!
This module contains problems in which each channel has a cost on each step, and a sequence costs the
sum of what its channels cost.
-/

namespace SwitchSearch

structure CostTable where
  durations : List Float
  budgets : List UInt32
  channels : Nat
  start : Float
  costs : List (List Float)
  enforced : Bool

namespace CostTable

/-- Whether each counter stays within its budget. Unpaired counters do not count. -/
def withinBudgets (budgets : List UInt32) (node : Node) : Bool :=
  (node.switches.zip budgets).all fun (count, budget) => count ≤ budget

def children (costs : List Float) (node : Node) : Except ExtendError (List Node) :=
  costs.zipIdx.mapM fun (cost, channel) => node.extend channel (node.bound + cost)

def branch (table : CostTable) (node : Node) : Except ExtendError (List Node) :=
  match children (table.costs[node.depth]?.getD []) node with
  | .error e => .error e
  | .ok nodes => .ok (if table.enforced then nodes.filter (withinBudgets table.budgets) else nodes)

def problem (table : CostTable) : Problem where
  root := Node.root table.channels table.start
  durations := table.durations
  budgets := table.budgets
  branch := table.branch

end CostTable

end SwitchSearch
