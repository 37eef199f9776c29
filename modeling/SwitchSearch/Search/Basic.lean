import SwitchSearch.Agenda.Basic
import SwitchSearch.Problem.Basic
import SwitchSearch.StopRule

/-!
This module contains the search for a cheapest switching sequence by branch and bound. It takes one
node after the other from an agenda. A node that cannot improve on the best solution is discarded, a
leaf becomes the best solution, and any other node is replaced by its children. When the agenda is
empty, the best solution is optimal.

A search may be run again. Its best solution outlives the run that has found it.
-/

namespace SwitchSearch

inductive Event where
  | start
  /-- A batch is pushed onto the agenda, with success or without, at the given cost to beat. -/
  | offer (batch : List Node) (upperBound : Float)
  | take (node : Node)
  | discard (node : Node)
  | record (node : Node)
  | branch (node : Node)
  | stop

inductive Outcome where
  /-- The run is over, with the cost of the best solution. It is exact unless it was stopped. -/
  | completed (exact : Bool) (bestValue : Option Float)
  | failed (error : QueueError)
  | crashed (error : ExtendError)

structure Search (α : Type) where
  agenda : α
  best : Option Node := none
  upperBound : Float := infinity
  /-- How many nodes have been taken in the current run. -/
  explored : Nat := 0
  /-- How often the stop rule has been asked, in all runs. -/
  asked : Nat := 0
  /-- What has happened in all runs, newest first. -/
  journal : List Event := []

inductive Progress (α : Type) where
  | running (search : Search α)
  | ended (outcome : Outcome) (search : Search α)

namespace Search

variable {α : Type}

def bestValue (search : Search α) : Option Float :=
  search.best.map (·.bound)

def bestSequence (search : Search α) : Option (List Nat) :=
  search.best.map (·.sequence)

def note (search : Search α) (event : Event) : Search α :=
  { search with journal := event :: search.journal }

def record (search : Search α) (leaf : Node) : Search α :=
  { search.note (.record leaf) with best := some leaf, upperBound := leaf.bound }

def lastRun (search : Search α) : List Event :=
  go [] search.journal
where
  go (run : List Event) : List Event → List Event
    | [] => run
    | .start :: _ => .start :: run
    | event :: earlier => go (event :: run) earlier

def branched (search : Search α) : Nat :=
  search.lastRun.countP fun
    | .branch _ => true
    | _ => false

variable [Agenda α]

def offer (problem : Problem) (search : Search α) (batch : List Node) : Progress α :=
  let noted := search.note (.offer batch search.upperBound)
  match Agenda.push search.agenda (problem.context search.upperBound) batch with
  | (.ok (), agenda) => .running { noted with agenda }
  | (.error e, agenda) => .ended (.failed e) { noted with agenda }

def start (problem : Problem) (search : Search α) : Progress α :=
  let cleared := { search with agenda := Agenda.clear search.agenda, explored := 0 }
  offer problem (cleared.note .start) [problem.root]

def explore (problem : Problem) (search : Search α) (node : Node) : Progress α :=
  if node.isCut search.upperBound then
    .running (search.note (.discard node))
  else if problem.isLeaf node then
    .running (search.record node)
  else
    let noted := search.note (.branch node)
    match problem.branch node with
    | .error e => .ended (.crashed e) noted
    | .ok children => offer problem noted children

def abort (search : Search α) : Progress α :=
  .ended (.completed false search.bestValue)
    { search.note .stop with agenda := Agenda.clear search.agenda }

def advance (problem : Problem) (search : Search α) : Progress α :=
  match Agenda.top search.agenda with
  | .error e => .ended (.failed e) search
  | .ok node =>
    match Agenda.pop search.agenda with
    | (.error e, agenda) => .ended (.failed e) { search with agenda }
    | (.ok taken, agenda) =>
      -- An agenda out of contract may take another node than it has shown.
      explore problem
        { search.note (.take taken) with agenda, explored := search.explored + 1 } node

def step (problem : Problem) (stop : StopRule) (search : Search α) : Progress α :=
  if Agenda.isEmpty search.agenda then
    .ended (.completed true search.bestValue) search
  else
    let next := { search with asked := search.asked + 1 }
    if stop search.asked then next.abort else next.advance problem

/-- Runs the search to its end, which has to come within `fuel` rounds. -/
def finish (problem : Problem) (stop : StopRule) :
    (fuel : Nat) → Progress α → Option (Outcome × Search α)
  | _, .ended outcome search => some (outcome, search)
  | 0, .running _ => none
  | fuel + 1, .running search => finish problem stop fuel (search.step problem stop)

def run (problem : Problem) (stop : StopRule) (fuel : Nat) (search : Search α) :
    Option (Outcome × Search α) :=
  finish problem stop fuel (search.start problem)

end Search

end SwitchSearch
