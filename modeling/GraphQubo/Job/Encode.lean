import GraphQubo.Document.Content
import GraphQubo.Job.Decode

/-!
# GraphQubo.Job.Encode

Configurations and jobs as they are handed to the writer of a document.

Fields stand in the order of their declaration.  A weight that is unset is left
out, both in a configuration and in an edge; the start node, the terminal node
and the node count are handed over without a value.
-/

namespace GraphQubo

open Content (Fields optionalField fieldIfSet)

/-- The weights of a configuration that are set, and the two flags. -/
def Constraints.fields (c : Constraints Float) : Fields :=
  (Penalty.all.flatMap fun p => fieldIfSet p.name .number (c.weights p)) ++
    [(doubleCountEdgesKey, some (.flag c.doubleCountEdges)),
      (doubleCountCyclesKey, some (.flag c.doubleCountCycles))]

/-- The ends of an edge, and its weight if it has one. -/
def Edge.fields (e : Edge Float) : Fields :=
  [("from", some (.natural e.source)), ("to", some (.natural e.target))] ++
    fieldIfSet "weight" .number e.weight

/-- The direction of a graph, its node count and its edges. -/
def GraphDescription.fields (d : GraphDescription Float) : Fields :=
  [("directed", some (.flag d.directed))] ++ optionalField "node_count" .natural d.nodeCount ++
    [("edges", some (.list (d.edges.map fun e => .record e.fields)))]

/-- Everything that a job consists of. -/
def Job.fields (j : Job Float) : Fields :=
  [("positions", some (.natural j.positions))] ++ optionalField "start_node" .natural j.startNode ++
    optionalField "terminal_node" .natural j.terminalNode ++
      [("constraints", some (.record j.constraints.fields)),
        ("graph", some (.record j.graph.fields))]

end GraphQubo
