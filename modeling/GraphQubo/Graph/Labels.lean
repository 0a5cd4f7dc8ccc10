import GraphQubo.Graph.Basic

/-!
# GraphQubo.Graph.Labels

Graphs over labels of any kind.

A label gets the next free node number when it is first seen, an edge's source
before its target.  A number once given never changes, so the labels in the
order of their first appearance say which node is which.
-/

namespace GraphQubo

/-- A graph in the making: the labels seen so far and the edges added. -/
structure LabelledGraph (L K : Type) where
  directed : Bool
  labels : List L
  edges : List (Edge K)
  deriving DecidableEq, Repr

namespace LabelledGraph

variable {L K : Type} [DecidableEq L]

/-- Nothing seen yet. -/
def empty (directed : Bool) : LabelledGraph L K := ⟨directed, [], []⟩

/-- The number of a label that has been seen. -/
def indexOf? (b : LabelledGraph L K) (label : L) : Option Nat := b.labels.idxOf? label

/-- The number of a label, a new one if it has not been seen. -/
def addNode (b : LabelledGraph L K) (label : L) : Nat × LabelledGraph L K :=
  match b.indexOf? label with
  | some i => (i, b)
  | none => (b.labels.length, { b with labels := b.labels ++ [label] })

/-- Adds an edge between two labels. -/
def addEdge (b : LabelledGraph L K) (source target : L) (weight : Option K) :
    LabelledGraph L K :=
  let (s, b) := b.addNode source
  let (t, b) := b.addNode target
  { b with edges := b.edges ++ [⟨s, t, weight⟩] }

/-- Sees a label, for the case that no edge has it. -/
def node (b : LabelledGraph L K) (label : L) : LabelledGraph L K := (b.addNode label).2

/-- Adds an edge without a weight. -/
def edge (b : LabelledGraph L K) (source target : L) : LabelledGraph L K :=
  b.addEdge source target none

/-- Adds an edge with a weight. -/
def weightedEdge (b : LabelledGraph L K) (source target : L) (weight : K) :
    LabelledGraph L K :=
  b.addEdge source target (some weight)

/-- The graph over the numbers of the labels. -/
def build [Coefficient K] (b : LabelledGraph L K) : Except (Error K) (Graph K) :=
  Graph.ofEdges b.directed b.labels.length b.edges

/-- The graph with the labels of its nodes. -/
def buildLabelled [Coefficient K] (b : LabelledGraph L K) :
    Except (Error K) (Graph K × List L) := do
  return (← b.build, b.labels)

end LabelledGraph

end GraphQubo
