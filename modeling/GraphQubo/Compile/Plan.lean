import GraphQubo.Constraints
import GraphQubo.Graph.Query
import GraphQubo.Variable

/-!
# GraphQubo.Compile.Plan

The decision whether a configuration compiles over a layout, and what will be
compiled.

A layout is a graph with a number of positions and, where needed, a start and
a terminal node.  It is checked in this order, and the first failure decides:

1. every set penalty weight is finite;
2. there is at least one position;
3. the side of the matrix and its number of cells fit in a word;
4. the start node, then the terminal node, is a node of the graph;
5. a start score has a start node, then a terminal score a terminal node;
6. if a compiled family reads edge weights, every edge has one.

A cyclic family has nothing to wrap around with a single position and is left
out.  Everything that compiles asks `Layout.plan`, so all answers agree on
which inputs are refused, and why.
-/

namespace GraphQubo

/-- What a configuration is compiled over. -/
structure Layout (K : Type) [Coefficient K] where
  graph : Graph K
  positions : Nat
  startNode : Option Nat
  terminalNode : Option Nat

/-- A family that is compiled, with its weight and whether pairs `v > w` are
written too. -/
structure Term (K : Type) where
  penalty : Penalty
  weight : K
  doubled : Bool
  deriving DecidableEq, Repr

/-- A layout and the families to compile over it, all checks passed. -/
structure Plan (K : Type) [Coefficient K] where
  layout : Layout K
  numbering : Numbering
  dimension : Nat
  terms : List (Term K)

variable {K : Type} [Coefficient K]

namespace Layout

/-- A graph with one position and no start or terminal node. -/
def ofGraph (graph : Graph K) : Layout K := ⟨graph, 1, none, none⟩

/-- The side of the matrix over the layout. -/
def dimension (l : Layout K) : Except (Error K) Nat := do
  (← Numbering.ofPositions l.positions).dimension l.graph.nodeCount

/-- Refuses a node, if there is one, that the graph does not have. -/
def checkNode? (l : Layout K) : Option Nat → Except (Error K) Unit
  | some node => l.graph.checkNode node
  | none => .ok ()

/-- Refuses a score without its node. -/
def checkScores (l : Layout K) (c : Constraints K) : Except (Error K) Unit :=
  if c.isEnabled .startNodeScore ∧ l.startNode.isNone then .error .startNodeMissing
  else if c.isEnabled .terminalNodeScore ∧ l.terminalNode.isNone then
    .error .terminalNodeMissing
  else .ok ()

/-- Refuses a configuration with a weight that is not finite. -/
def checkWeights (c : Constraints K) : Except (Error K) Unit :=
  match c.firstNonFinite? with
  | none => .ok ()
  | some (penalty, weight) => .error (.nonFiniteWeight penalty weight)

/-- Every check but the one on edge weights; the numbering of the variables
and the side of the matrix come out of it. -/
def accept (l : Layout K) (c : Constraints K) : Except (Error K) (Numbering × Nat) := do
  checkWeights c
  let numbering ← Numbering.ofPositions l.positions
  let dimension ← numbering.dimension l.graph.nodeCount
  l.checkNode? l.startNode
  l.checkNode? l.terminalNode
  l.checkScores c
  return (numbering, dimension)

/-- Whether a family is left out: it wraps around, and there is one position. -/
def leavesOut (l : Layout K) (penalty : Penalty) : Bool :=
  penalty.wrapsAround && l.positions == 1

/-- The families that are compiled, in declaration order. -/
def terms (l : Layout K) (c : Constraints K) : List (Term K) :=
  (c.enabled.filter fun e => !l.leavesOut e.1).map fun e =>
    ⟨e.1, e.2, c.doubleCounts e.1⟩

/-- Refuses a graph with an edge that lacks the weight a family reads. -/
def checkEdgeWeights (l : Layout K) (terms : List (Term K)) : Except (Error K) Unit :=
  if terms.any fun t => t.penalty.readsEdgeWeights then
    match l.graph.firstUnweighted? with
    | some e => .error (.unweightedEdge e.source e.target)
    | none => .ok ()
  else .ok ()

/-- What a configuration compiles to over the layout, or why it does not. -/
def plan (l : Layout K) (c : Constraints K) : Except (Error K) (Plan K) := do
  let (numbering, dimension) ← l.accept c
  let terms := l.terms c
  l.checkEdgeWeights terms
  return ⟨l, numbering, dimension, terms⟩

end Layout

end GraphQubo
