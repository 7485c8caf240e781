import TurtleGrammar.Plane.NodeKey
import TurtleGrammar.Plane.Rect
import Std.Data.ExtHashMap

/-! # Graphs — the steps of a walk, grouped by where they start

    A graph is a sequence of directed edges between points.  Edges that start
    at the same node are grouped, where "same" is decided by the `NodeKey` of
    the starting point; the node is represented by the first point that was
    seen for its key.  Destinations are stored exactly as they were given.

    Nodes keep the order in which they first appeared and every node keeps its
    destinations in the order of arrival, so that `Graph.edgeList` is
    determined by the sequence of edges alone.  An index from keys to positions
    finds a node without a search. -/

namespace TurtleGrammar

/-- A node with the destinations of the edges that start there. -/
structure Node (α : Type) where
  /-- The first point that was seen for the node's key. -/
  point : Point α
  /-- Where its edges lead, in order of arrival. -/
  dests : Array (Point α) := #[]

/-- Edges grouped by the node that they start from. -/
structure Graph (α : Type) [DecidableEq α] [Hashable α] where
  /-- The spacing of the grid that decides which points are one node. -/
  quantum : α
  /-- The nodes with at least one outgoing edge, in order of first appearance. -/
  nodes : Array (Node α)
  /-- The position in `nodes` of every key that has appeared. -/
  index : Std.ExtHashMap (NodeKey α) Nat
  edgeCount : Nat

namespace Graph

variable {α : Type} [DecidableEq α] [Hashable α]

/-- The graph without edges on the grid with the given quantum. -/
def withQuantum (quantum : α) : Graph α := ⟨quantum, #[], ∅, 0⟩

/-- Drops every edge and keeps the grid. -/
def clear (g : Graph α) : Graph α := { g with nodes := #[], index := ∅, edgeCount := 0 }

/-- Drops every edge and changes the grid for those to come. -/
def reset (g : Graph α) (quantum : α) : Graph α := { g.clear with quantum }

/-- Whether there is no edge. -/
def isEmpty (g : Graph α) : Bool := g.nodes.isEmpty

/-- The number of nodes with at least one outgoing edge. -/
def nodeCount (g : Graph α) : Nat := g.nodes.size

/-- The points that represent the nodes, in order of first appearance. -/
def points (g : Graph α) : List (Point α) := g.nodes.toList.map Node.point

/-- Every edge as a pair of origin and destination, node by node. -/
def edgeList (g : Graph α) : List (Point α × Point α) :=
  g.nodes.toList.flatMap fun n => n.dests.toList.map (n.point, ·)

/-- Every end of an edge, in the order of the nodes: a node's point, then its
    destinations. -/
def endpoints (g : Graph α) : List (Point α) :=
  g.nodes.toList.flatMap fun n => n.point :: n.dests.toList

/-- The bounding rectangle of all ends of edges. -/
def bounds [Scalar α] [Neg α] [LE α] [DecidableLE α] (g : Graph α) : Rect α :=
  g.endpoints.foldl Rect.expand .empty

section Keys

variable [Scalar α] [LT α] [DecidableLT α] [OfNat α 0] [Add α] [Div α] [Neg α]

/-- The key of a point on this graph's grid. -/
def key (g : Graph α) (p : Point α) : NodeKey α := .ofPoint g.quantum p

/-- Adds an edge.  Its origin becomes a new node unless its key has appeared before. -/
def addEdge (g : Graph α) (origin dest : Point α) : Graph α :=
  let key := g.key origin
  let next := g.nodes.size
  match g.index[key]? with
  | some i =>
      { g with
        nodes := g.nodes.modify i fun n => { n with dests := n.dests.push dest }
        edgeCount := g.edgeCount + 1 }
  | none =>
      { g with
        nodes := g.nodes.push ⟨origin, #[dest]⟩
        index := g.index.insert key next
        edgeCount := g.edgeCount + 1 }

/-- Whether some edge starts at the node of `p`. -/
def contains (g : Graph α) (p : Point α) : Bool := g.index.contains (g.key p)

/-- Where the edges from the node of `p` lead, if there are any. -/
def neighbors? (g : Graph α) (p : Point α) : Option (Array (Point α)) :=
  (g.index[g.key p]?.bind (g.nodes[·]?)).map Node.dests

end Keys

/-- The graph without edges on the grid for steps of unit length. -/
def new : Graph Float := withQuantum NodeKey.tolerance

/-! ## Emptying a graph -/

theorem clear_eq (g : Graph α) : g.clear = withQuantum g.quantum := rfl

/-- A graph that is reset is an empty one with the new quantum. -/
@[simp] theorem reset_eq (g : Graph α) (quantum : α) : g.reset quantum = withQuantum quantum := rfl

end Graph

end TurtleGrammar
