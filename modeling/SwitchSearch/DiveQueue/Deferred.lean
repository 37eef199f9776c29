import SwitchSearch.Node

/-!
This module contains deferred nodes and the order among them. Beware that it breaks ties against the
order in which nodes are dived into: among equal keys, the node that has switched most comes first
here.
-/

namespace SwitchSearch

structure Deferred where
  key : Float
  node : Node

namespace Deferred

/-- The order of two keys. NaN counts as equal to everything. -/
def compareKeys (x y : Float) : Ordering :=
  if x < y then .lt else if y < x then .gt else .eq

/-- Greater means earlier: the smaller key or, on equal keys, the larger maximum of switches. -/
def rank (l r : Deferred) : Ordering :=
  (compareKeys r.key l.key).then (compare l.node.maxSwitches r.node.maxSwitches)

end Deferred

end SwitchSearch
