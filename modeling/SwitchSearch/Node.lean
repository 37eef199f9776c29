/-!
This module contains the nodes of the search tree. The horizon is divided into steps, and on each
step exactly one channel is on. A node stands for all switching sequences that agree on the first
`depth` steps; it carries a bound on their cost and counts how often each channel has been switched
on so far.
-/

namespace SwitchSearch

structure Label where
  channel : Option Nat
  depth : Nat
  /-- The cost below which no completion of the node is expected. -/
  bound : Float
  switches : List UInt32
  deriving BEq

/--
A node of the search tree, kept with the labels that lie between it and its root. Nodes compare
label by label, with the comparison of floats for the bounds, so a node with a NaN bound differs
from itself.
-/
structure Node extends Label where
  /-- The labels of the ancestors, nearest first. -/
  ancestors : List Label
  deriving BEq

inductive ExtendError where
  | unknownChannel (channel : Nat)
  | fullCounter (channel : Nat)
  | fullDepth
  deriving DecidableEq

namespace ExtendError

def message : ExtendError → String
  | unknownChannel channel => s!"channel {channel} does not exist"
  | fullCounter _ => "attempt to add with overflow"
  | fullDepth => "attempt to add with overflow"

end ExtendError

namespace Node

def lineage (node : Node) : List Label :=
  node.toLabel :: node.ancestors

def below (parent : Option Node) (label : Label) : Node where
  toLabel := label
  ancestors := match parent with
    | none => []
    | some node => node.lineage

def parent? (node : Node) : Option Node :=
  match node.ancestors with
  | [] => none
  | label :: rest => some { toLabel := label, ancestors := rest }

def root (channels : Nat) (bound : Float) : Node :=
  below none { channel := none, depth := 0, bound := bound, switches := List.replicate channels 0 }

def maxSwitches (node : Node) : UInt32 :=
  node.switches.max?.getD 0

def sequence (node : Node) : List Nat :=
  (node.lineage.filterMap (·.channel)).reverse

def depthLimit : Nat := UInt64.size

/--
The counters once `channel` is on, `previous` being the channel that was on before it. Keeping a
channel on costs nothing, and neither does the first channel of a sequence.
-/
def switchOn (previous : Option Nat) (channel : Nat) (switches : List UInt32) :
    Except ExtendError (List UInt32) :=
  match switches[channel]? with
  | none => .error (.unknownChannel channel)
  | some count =>
    if previous = none ∨ previous = some channel then
      .ok switches
    else if count.toNat + 1 < UInt32.size then
      .ok (switches.set channel (count + 1))
    else
      .error (.fullCounter channel)

def extend (parent : Node) (channel : Nat) (bound : Float) : Except ExtendError Node :=
  match switchOn parent.channel channel parent.switches with
  | .error e => .error e
  | .ok switches =>
    if parent.depth + 1 < depthLimit then
      .ok (below (some parent) { channel := some channel, depth := parent.depth + 1, bound, switches })
    else
      .error .fullDepth

def divesBefore (l r : Node) : Bool :=
  if l.bound != r.bound then l.bound < r.bound else l.maxSwitches < r.maxSwitches

def isCut (node : Node) (upperBound : Float) : Bool :=
  node.bound ≥ upperBound

@[simp]
theorem lineage_below_some (parent : Node) (label : Label)
    : (below (some parent) label).lineage = label :: parent.lineage := rfl

@[simp]
theorem parent?_below (parent : Option Node) (label : Label)
    : (below parent label).parent? = parent := by
  cases parent <;> rfl

theorem sequence_below_some (parent : Node) (label : Label)
    : (below (some parent) label).sequence = parent.sequence ++ label.channel.toList := by
  simp only [sequence, lineage_below_some]
  cases h : label.channel <;> simp [h]

end Node

end SwitchSearch
