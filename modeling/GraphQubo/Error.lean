import GraphQubo.Coefficient
import GraphQubo.Penalty

/-!
# GraphQubo.Error

Why a graph, a layout, a matrix operation or a compilation is refused.

An `Error` is a cause with the values that show it; the wording is in one
function, `Error.message`.  Every cause belongs to one `ErrorKind`, which is
what callers tell apart.
-/

namespace GraphQubo

/-- Why an operation is refused. -/
inductive Error (K : Type) where
  /-- A node outside `0..nodeCount`. -/
  | nodeOutOfRange (node nodeCount : Nat)
  /-- A penalty weight that is NaN or infinite. -/
  | nonFiniteWeight (penalty : Penalty) (weight : K)
  /-- A layout without positions. -/
  | noPositions
  /-- A layout whose matrix has too many cells to be addressed. -/
  | layoutTooLarge (nodeCount positions : Nat)
  /-- A start score without a start node. -/
  | startNodeMissing
  /-- A terminal score without a terminal node. -/
  | terminalNodeMissing
  /-- An edge without the weight that is asked for. -/
  | unweightedEdge (source target : Nat)
  /-- Two nodes that no edge joins. -/
  | noSuchEdge (source target : Nat)
  /-- An edge weight that is negative, NaN or infinite. -/
  | invalidEdgeWeight (source target : Nat) (weight : K)
  /-- More nodes than node identifiers. -/
  | tooManyNodes (nodeCount : Nat)
  /-- A size that does not match the matrix. -/
  | dimensionMismatch (expected actual : Nat)
  /-- A cell outside the matrix, or outside the band of rows being written. -/
  | outsideMatrix (row col : Nat)
  /-- A matrix whose cells are more than a block of memory can hold. -/
  | noRoom (dimension : Nat)
  deriving DecidableEq, Repr

/-- The kinds of error that callers tell apart. -/
inductive ErrorKind where
  | invalidNode
  | invalidConfiguration
  | missingWeight
  | missingEdge
  | invalidGraph
  | dimensionMismatch
  /-- A request that ends the program: an index out of its range, or more memory
  than there can be. -/
  | indexOutOfRange
  deriving DecidableEq, Repr

namespace Error

variable {K : Type}

/-- The kind of a cause. -/
def kind : Error K → ErrorKind
  | nodeOutOfRange .. => .invalidNode
  | nonFiniteWeight .. | noPositions | layoutTooLarge ..
  | startNodeMissing | terminalNodeMissing => .invalidConfiguration
  | unweightedEdge .. => .missingWeight
  | noSuchEdge .. => .missingEdge
  | invalidEdgeWeight .. => .invalidGraph
  | dimensionMismatch .. => .dimensionMismatch
  | tooManyNodes _ | outsideMatrix .. | noRoom _ => .indexOutOfRange

/-- A penalty weight that is no finite number, in words. -/
def nonFiniteText [Coefficient K] (penalty : Penalty) (weight : K) : String :=
  s!"Invalid configuration: {penalty.name} has non-finite weight {Coefficient.text weight}"

/-- What goes into the message of an invalid configuration. -/
def configurationText [Coefficient K] : Error K → String
  | nonFiniteWeight penalty weight => nonFiniteText penalty weight
  | noPositions => "positions must be at least 1"
  | layoutTooLarge nodeCount positions =>
    s!"{nodeCount} nodes with {positions} positions is too large a matrix"
  | startNodeMissing => "start_node_score requires a start node"
  | terminalNodeMissing => "terminal_node_score requires a terminal node"
  | _ => ""

/-- The message of a cause. -/
def message [Coefficient K] : Error K → String
  | nodeOutOfRange node nodeCount =>
    s!"node {node} is outside the graph's node range 0..{nodeCount}"
  | unweightedEdge source target => s!"edge ({source}, {target}) has no weight"
  | noSuchEdge source target => s!"no edge from {source} to {target}"
  | invalidEdgeWeight source target weight =>
    s!"Invalid graph: edge ({source}, {target}) has invalid weight {Coefficient.text weight}"
  | dimensionMismatch expected actual =>
    s!"dimension mismatch: expected {expected}, got {actual}"
  | tooManyNodes nodeCount => s!"{nodeCount} nodes are too many"
  | outsideMatrix row col => s!"cell ({row}, {col}) is out of range"
  | noRoom dimension => s!"no room for a matrix of side {dimension}"
  | e => "Configuration error: " ++ e.configurationText

end Error

end GraphQubo
