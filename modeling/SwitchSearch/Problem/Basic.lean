import SwitchSearch.Context
import SwitchSearch.Node

/-!
This module contains switching problems as a search sees them: a tree of nodes, given by its root and
by the children of each node.
-/

namespace SwitchSearch

structure Problem where
  root : Node
  durations : List Float
  budgets : List UInt32
  /--
  The children of a node. Only nodes that leave a step open are asked for theirs: all others are
  leaves, and their bounds are the costs of their sequences.
  -/
  branch : Node → Except ExtendError (List Node)

namespace Problem

def horizon (problem : Problem) : Nat :=
  problem.durations.length

def context (problem : Problem) (upperBound : Float) : Context :=
  { upperBound, durations := problem.durations, budgets := problem.budgets }

def isLeaf (problem : Problem) (node : Node) : Bool :=
  problem.horizon ≤ node.depth

end Problem

end SwitchSearch
