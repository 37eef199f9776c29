import SwitchSearch.Agenda.Basic

/-!
This module contains plain agendas, which look at neither bounds nor keys and take every batch.
-/

namespace SwitchSearch

structure Stack where
  /-- The nodes held, newest first. -/
  nodes : List Node := []

namespace Stack

def pop (stack : Stack) : Except QueueError Node × Stack :=
  match stack.nodes with
  | [] => (.error .empty, stack)
  | node :: nodes => (.ok node, { nodes })

instance : Agenda Stack where
  size stack := stack.nodes.length
  top stack := stack.pop.1
  pop := pop
  push stack _ batch := (.ok (), { nodes := batch.reverse ++ stack.nodes })
  clear _ := {}

end Stack

structure Line where
  /-- The nodes held, oldest first. -/
  nodes : List Node := []

namespace Line

def pop (line : Line) : Except QueueError Node × Line :=
  match line.nodes with
  | [] => (.error .empty, line)
  | node :: nodes => (.ok node, { nodes })

instance : Agenda Line where
  size line := line.nodes.length
  top line := line.pop.1
  pop := pop
  push line _ batch := (.ok (), { nodes := line.nodes ++ batch })
  clear _ := {}

end Line

end SwitchSearch
