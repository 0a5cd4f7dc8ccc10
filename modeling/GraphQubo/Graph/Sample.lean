import GraphQubo.Graph.Basic

/-!
# GraphQubo.Graph.Sample

Small graphs for examples and regressions.
-/

namespace GraphQubo.Graph

variable {K : Type} [Coefficient K]

open Coefficient (whole)

/-- An edge with a whole weight. -/
def sampleEdge (source target weight : Nat) : Edge K :=
  ⟨source, target, some (whole weight)⟩

/-- Four nodes on a weighted square. -/
def sampleSquare : Except (Error K) (Graph K) :=
  ofEdges false 4 [sampleEdge 0 1 8, sampleEdge 0 2 7, sampleEdge 1 3 2, sampleEdge 2 3 8]

/-- The square with its edges directed upwards, and one edge back. -/
def sampleDirected : Except (Error K) (Graph K) :=
  ofEdges true 4
    [sampleEdge 0 1 8, sampleEdge 0 2 7, sampleEdge 1 3 2, sampleEdge 2 3 8,
      sampleEdge 3 0 5]

/-- The path through the nodes in order, without weights. -/
def path (nodeCount : Nat) : Except (Error K) (Graph K) :=
  ofEdges false nodeCount ((List.range (nodeCount - 1)).map fun v => ⟨v, v + 1, none⟩)

end GraphQubo.Graph
