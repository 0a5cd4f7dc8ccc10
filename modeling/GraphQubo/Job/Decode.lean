import GraphQubo.Document.Record
import GraphQubo.Job.Basic

/-!
# GraphQubo.Job.Decode

Configurations, graphs and jobs as records of a document.

The names of the fields, in the order of their declaration, are:

* an edge: `from`, `to`, `weight`;
* a graph: `directed`, `node_count`, `edges`;
* a configuration: the penalty families, then the two flags;
* a job: `positions`, `start_node`, `terminal_node`, `constraints`, `graph`.

Weights are not checked here: a document is read to its end before the first
weight is refused.
-/

namespace GraphQubo

open Document

variable {V : Type} [DocumentValue V]

/-- The fields of an edge. -/
def edgeFields : List String := ["from", "to", "weight"]

/-- The edge that a value describes. -/
def Edge.ofDocument? (v : V) : Option (Edge Float) := do
  let r ← record? edgeFields v
  return {
    source := ← required DocumentValue.natural? r "from"
    target := ← required DocumentValue.natural? r "to"
    weight := ← optional DocumentValue.number? r "weight" }

/-- The fields of a graph. -/
def graphFields : List String := ["directed", "node_count", "edges"]

/-- The graph that a value describes. -/
def GraphDescription.ofDocument? (v : V) : Option (GraphDescription Float) := do
  let r ← record? graphFields v
  return {
    directed := ← withDefault false DocumentValue.flag? r "directed"
    nodeCount := ← optional DocumentValue.natural? r "node_count"
    edges := ← withDefault [] (listOf Edge.ofDocument?) r "edges" }

/-- The fields of a configuration. -/
def constraintFields : List String :=
  Penalty.all.map Penalty.name ++ [doubleCountEdgesKey, doubleCountCyclesKey]

/-- Takes over the weight of a family from a record. -/
def Constraints.readWeight (r : Record V) (c : Constraints Float) (penalty : Penalty) :
    Option (Constraints Float) := do
  match ← optional DocumentValue.number? r penalty.name with
  | some w => return c.set penalty w
  | none => return c

/-- The configuration that a value describes. -/
def Constraints.ofDocument? (v : V) : Option (Constraints Float) := do
  let r ← record? constraintFields v
  let weighted ← Penalty.all.foldlM (Constraints.readWeight r) Constraints.empty
  return { weighted with
    doubleCountEdges := ← withDefault false DocumentValue.flag? r doubleCountEdgesKey
    doubleCountCycles := ← withDefault false DocumentValue.flag? r doubleCountCyclesKey }

/-- The fields of a job. -/
def jobFields : List String :=
  ["positions", "start_node", "terminal_node", "constraints", "graph"]

/-- The job that a value describes. -/
def Job.ofDocument? (v : V) : Option (Job Float) := do
  let r ← record? jobFields v
  return {
    positions := ← withDefault 1 DocumentValue.natural? r "positions"
    startNode := ← optional DocumentValue.natural? r "start_node"
    terminalNode := ← optional DocumentValue.natural? r "terminal_node"
    constraints := ← withDefault Constraints.empty Constraints.ofDocument? r "constraints"
    graph := ← required GraphDescription.ofDocument? r "graph" }

end GraphQubo
