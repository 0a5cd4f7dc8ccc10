/-!
# GraphQubo.Penalty

The closed set of penalty families that a matrix can be compiled from.

With `x(v, p)` the variable "node `v` occupies position `p`", each family adds
its weight to some cells:

1. `startNodeScore`, `terminalNodeScore`: the start node at the first position,
   the terminal node at the last one;
2. `diagonal`: every variable;
3. `nodesWithEdges`: every variable, once per neighbour of its node;
4. `oneNodeManyPositions`: a node at two positions;
5. `onePositionManyNodes`: two nodes at one position;
6. `edges`, `nonEdges`: two adjacent, or two non-adjacent, nodes at one
   position;
7. `edgeWeightsFactor`: an edge walked from one position to the next, times
   the weight of the edge;
8. `invalidTraversal`: a step from one position to the next between nodes that
   no edge joins, `invalidTraversalSelf`: a step that stays at a node without a
   self loop;
9. the two `Cycles` families: the same step from the last position back to the
   first.
-/

namespace GraphQubo

/-- A penalty family. -/
inductive Penalty where
  | startNodeScore
  | terminalNodeScore
  | diagonal
  | nodesWithEdges
  | oneNodeManyPositions
  | onePositionManyNodes
  | edges
  | edgeWeightsFactor
  | edgeWeightsCyclesFactor
  | nonEdges
  | invalidTraversal
  | invalidTraversalCycles
  | invalidTraversalSelf
  deriving DecidableEq, Repr

namespace Penalty

/-- Every family, in the order in which they are declared, compiled and
checked. -/
def all : List Penalty :=
  [.startNodeScore, .terminalNodeScore, .diagonal, .nodesWithEdges,
    .oneNodeManyPositions, .onePositionManyNodes, .edges, .edgeWeightsFactor,
    .edgeWeightsCyclesFactor, .nonEdges, .invalidTraversal,
    .invalidTraversalCycles, .invalidTraversalSelf]

/-- The configuration key of a family. -/
def name : Penalty → String
  | startNodeScore => "start_node_score"
  | terminalNodeScore => "terminal_node_score"
  | diagonal => "diagonal"
  | nodesWithEdges => "nodes_with_edges"
  | oneNodeManyPositions => "one_node_many_positions"
  | onePositionManyNodes => "one_position_many_nodes"
  | edges => "edges"
  | edgeWeightsFactor => "edge_weights_factor"
  | edgeWeightsCyclesFactor => "edge_weights_cycles_factor"
  | nonEdges => "non_edges"
  | invalidTraversal => "invalid_traversal"
  | invalidTraversalCycles => "invalid_traversal_cycles"
  | invalidTraversalSelf => "invalid_traversal_self"

/-- The family with the given configuration key. -/
def ofName? (key : String) : Option Penalty := all.find? fun p => p.name == key

/-- The place of a family in the declaration order. -/
def order (p : Penalty) : Nat := all.idxOf p

/-- Whether the family acts on the step from the last position to the first. -/
def wrapsAround : Penalty → Bool
  | edgeWeightsCyclesFactor | invalidTraversalCycles => true
  | _ => false

/-- Whether the family reads edge weights. -/
def readsEdgeWeights : Penalty → Bool
  | edgeWeightsFactor | edgeWeightsCyclesFactor => true
  | _ => false

/-- Every family is declared. -/
theorem mem_all (p : Penalty) : p ∈ all := by cases p <;> decide

/-- No family is declared twice. -/
theorem nodup_all : all.Nodup := by decide

/-- A key names its own family. -/
theorem ofName?_name (p : Penalty) : ofName? p.name = some p := by cases p <;> decide

/-- No two families have one key. -/
theorem name_injective : Function.Injective name := fun p q h =>
  Option.some.inj ((ofName?_name p).symm.trans ((congrArg ofName? h).trans (ofName?_name q)))

/-- A key that no family has names none. -/
theorem ofName?_eq_none {key : String} (h : ∀ p : Penalty, p.name ≠ key) : ofName? key = none :=
  List.find?_eq_none.2 fun p _ => by simpa using h p

end Penalty

end GraphQubo
