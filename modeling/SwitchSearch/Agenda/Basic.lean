import SwitchSearch.Context
import SwitchSearch.Node
import SwitchSearch.QueueError

/-!
This module contains the interface between a search and the nodes it has still to explore. A search
takes whatever node the agenda puts on top, so the agenda alone decides the order of exploration.
-/

namespace SwitchSearch

/-- A collection of nodes that are still to be explored. An operation that fails may yet change it. -/
class Agenda (α : Type) where
  size : α → Nat
  top : α → Except QueueError Node
  pop : α → Except QueueError Node × α
  push : α → Context → List Node → Except QueueError Unit × α
  clear : α → α

namespace Agenda

variable {α : Type} [Agenda α]

def isEmpty (agenda : α) : Bool :=
  size agenda == 0

def drain (agenda : α) : List Node × α :=
  go (size agenda) agenda
where
  go : Nat → α → List Node × α
    | 0, agenda => ([], agenda)
    | count + 1, agenda =>
      match pop agenda with
      | (.error _, agenda) => ([], agenda)
      | (.ok node, agenda) =>
        let (nodes, agenda) := go count agenda
        (node :: nodes, agenda)

end Agenda

end SwitchSearch
