import SwitchSearch.Context
import SwitchSearch.Node
import SwitchSearch.QueueError

/-!
This module contains the test that a batch of nodes has to pass before a queue takes it. The test
keeps NaN out of the bounds and keys of a queue.
-/

namespace SwitchSearch.Context

def isDuration (x : Float) : Bool :=
  0.0 ≤ x && x.isFinite

def checkDurations (context : Context) : Except QueueError Unit :=
  match context.durations.zipIdx.find? (fun (duration, _) => !isDuration duration) with
  | none => .ok ()
  | some (duration, step) => .error (.badDuration step duration)

def checkNode (context : Context) (node : Node) : Except QueueError Unit :=
  if node.bound.isNaN then
    .error .nanBound
  else if node.switches.length ≠ context.channels then
    .error (.wrongChannels context.channels node.switches.length)
  else if context.horizon < node.depth then
    .error (.beyondHorizon node.depth context.horizon)
  else
    .ok ()

def checkBatch (context : Context) (batch : List Node) : Except QueueError Unit := do
  context.checkDurations
  batch.forM context.checkNode

end SwitchSearch.Context
