import SwitchSearch.Problem.Basic

/-!
This module contains problems whose nodes are listed one by one. The children of a node are given by
their places in the list, so the tree of the search is the unfolding of a graph, possibly of one with
cycles. The channel of a node is its place in the list.
-/

namespace SwitchSearch

structure Vertex where
  depth : Nat
  bound : Float
  switches : List UInt32
  children : List Nat

structure Graph where
  durations : List Float
  budgets : List UInt32
  vertices : Array Vertex

namespace Graph

def node? (graph : Graph) (parent : Option Node) (place : Nat) : Option Node :=
  graph.vertices[place]?.map fun vertex =>
    Node.below parent
      { channel := some place
        depth := vertex.depth
        bound := vertex.bound
        switches := vertex.switches }

def children (graph : Graph) (node : Node) : List Node :=
  match node.channel.bind (graph.vertices[·]?) with
  | none => []
  | some vertex => vertex.children.filterMap (graph.node? (some node))

def problem? (graph : Graph) : Option Problem :=
  (graph.node? none 0).map fun root =>
    { root
      durations := graph.durations
      budgets := graph.budgets
      branch := fun node => .ok (graph.children node) }

end Graph

end SwitchSearch
