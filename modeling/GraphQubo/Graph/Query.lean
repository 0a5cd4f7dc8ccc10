import GraphQubo.Ascending
import GraphQubo.Graph.Basic

/-!
# GraphQubo.Graph.Query

Questions about the edges of a graph.

1. Two nodes are joined *outgoing* when an edge leads from the first to the
   second, and *any* when an edge leads either way.  On an undirected graph
   both mean the same.
2. The neighbours of a node are found by a walk along the edges at it, which
   are stored as arcs.  The walk can meet a node twice, as it does with a pair of
   opposite arcs; what it meets is put in order and rid of repetitions.
3. The edge store knows nodes by their 32-bit identifiers: a number is cut down
   to its low 32 bits when it is looked up.  Checks of the node range, the
   ordering of an undirected pair and the test "another node" see the number as
   it was given.
-/

namespace GraphQubo

/-- Which edges count when asking for the neighbours of a node. -/
inductive Adjacency where
  /-- Only edges that leave the node. -/
  | outgoing
  /-- Edges in either direction. -/
  | any
  deriving DecidableEq, Repr

/-- The identifier that a node number is looked up under. -/
def identifier (node : Nat) : Nat := node % nodeLimit

namespace Graph

variable {K : Type} [Coefficient K]

/-- The edge from `source` to `target`, in either direction if undirected. -/
def find? (g : Graph K) (source target : Nat) : Option (Edge K) :=
  let ends := orient g.directed source target
  g.edges.find? (Edge.leads (identifier ends.1) (identifier ends.2))

/-- Whether there is an edge from `source` to `target`. -/
def hasEdge (g : Graph K) (source target : Nat) : Bool := (g.find? source target).isSome

/-- The arc between two identifiers, whichever way it leads; one that leads from
the first to the second comes first. -/
def findEitherWay? (arcs : List (Edge K)) (a b : Nat) : Option (Edge K) :=
  (arcs.find? (Edge.leads a b)).or (arcs.find? (Edge.leads b a))

/-- Whether two nodes are adjacent. -/
def isAdjacent (g : Graph K) (a b : Nat) : Adjacency → Bool
  | .outgoing => g.hasEdge a b
  | .any => (findEitherWay? g.edges (identifier a) (identifier b)).isSome

/-- Whether an edge leads from the node to itself. -/
def hasSelfLoop (g : Graph K) (node : Nat) : Bool := g.hasEdge node node

/-- What a walk along the arcs at a node meets, in the order of the arcs: the
targets of those that leave it and then, unless only these count, the sources of
those that enter it.  A loop is met on the way out. -/
def walk (directed : Bool) (adjacency : Adjacency) (arcs : List (Edge K)) (node : Nat) :
    List Nat :=
  let leaving := (arcs.filter fun e => e.source == node).map Edge.target
  let entering := (arcs.filter fun e => e.target == node && e.source != node).map Edge.source
  match adjacency, directed with
  | .outgoing, true => leaving
  | _, _ => leaving ++ entering

/-- The neighbours of a node, ascending; a node with a self loop is its own
neighbour. -/
def neighbors (g : Graph K) (node : Nat) (adjacency : Adjacency) : List Nat :=
  Ascending.dedup (Ascending.sort (walk g.directed adjacency g.edges (identifier node)))

/-- The other nodes that are not neighbours of a node, ascending. -/
def nonNeighbors (g : Graph K) (node : Nat) (adjacency : Adjacency) : List Nat :=
  let near := (g.neighbors node adjacency).toArray
  g.nodes.filter fun other => other != node && !Ascending.search near other

/-- The successors of a node with the weight of the edge that leads there. -/
def weightedSuccessors (g : Graph K) (node : Nat) : List (Nat × Option K) :=
  (g.neighbors node .outgoing).filterMap fun other =>
    (g.find? node other).map fun e => (other, e.weight)

/-- How many nodes an edge joins to the node, in either direction. -/
def degree (g : Graph K) (node : Nat) : Nat := (g.neighbors node .any).length

/-- The weight of the edge from `source` to `target`, if it carries one. -/
def edgeWeight (g : Graph K) (source target : Nat) : Except (Error K) (Option K) := do
  g.checkNode source
  g.checkNode target
  match g.find? source target with
  | some e => .ok e.weight
  | none => .error (.noSuchEdge source target)

/-- The first edge without a weight. -/
def firstUnweighted? (g : Graph K) : Option (Edge K) :=
  g.edges.find? fun e => e.weight.isNone

/-- The larger of a weight so far and the weight that an edge must have. -/
def heavier (most : K) (e : Edge K) : Except (Error K) K :=
  match e.weight with
  | some w => .ok (Coefficient.larger most w)
  | none => .error (.unweightedEdge e.source e.target)

/-- The largest edge weight, zero without edges; every edge must have one. -/
def maxWeight (g : Graph K) : Except (Error K) K := g.edges.foldlM heavier 0

/-- Whether two optional weights are both absent or the same. -/
def sameWeight : Option K → Option K → Bool
  | none, none => true
  | some v, some w => Coefficient.same v w
  | _, _ => false

/-- Whether two edges have the same ends and weights. -/
def sameEdge (e f : Edge K) : Bool :=
  e.source == f.source && e.target == f.target && sameWeight e.weight f.weight

/-- Whether two graphs have the same direction, nodes and edges. -/
def same (g h : Graph K) : Bool :=
  g.directed == h.directed && g.nodeCount == h.nodeCount
    && g.edges.length == h.edges.length
    && (g.edges.zip h.edges).all fun p => sameEdge p.1 p.2

end Graph

end GraphQubo
