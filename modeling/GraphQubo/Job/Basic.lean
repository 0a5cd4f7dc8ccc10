import GraphQubo.Compile.Log
import GraphQubo.Compile.Memory
import GraphQubo.Compile.Work

/-!
# GraphQubo.Job.Basic

A job: a graph, a layout and a configuration, as one description.

1. A described graph without a node count has one node more than its largest
   edge end.
2. A job is compiled in parallel when its work exceeds `2^20` steps; both ways
   give the same matrix.
3. A job reports its plan twice, once for the estimate and once for the
   compilation.
4. Memory is asked for by the compilation, not by the estimate.
-/

namespace GraphQubo

/-- A graph as a document describes it: edges in any order and orientation,
also several with the same ends. -/
structure GraphDescription (K : Type) where
  directed : Bool
  nodeCount : Option Nat
  edges : List (Edge K)
  deriving DecidableEq, Repr

/-- Everything needed for one compilation. -/
structure Job (K : Type) where
  positions : Nat
  startNode : Option Nat
  terminalNode : Option Nat
  constraints : Constraints K
  graph : GraphDescription K

variable {K : Type} [Coefficient K]

namespace GraphDescription

/-- The empty description. -/
def empty : GraphDescription K := ⟨false, none, []⟩

/-- One more than the largest edge end, zero without edges. -/
def inferredNodeCount (d : GraphDescription K) : Nat :=
  d.edges.foldl (fun most e => max most (max e.source e.target + 1)) 0

/-- The described graph. -/
def toGraph (d : GraphDescription K) : Except (Error K) (Graph K) :=
  Graph.ofEdges d.directed (d.nodeCount.getD d.inferredNodeCount) d.edges

/-- The description of a graph. -/
def ofGraph (g : Graph K) : GraphDescription K := ⟨g.directed, some g.nodeCount, g.edges⟩

end GraphDescription

/-- An answer in which a refused graph or compilation is a refused job. -/
def asJobAnswer {α : Type} (answer : Except (Error K) α) : Except (ConfigError K) α :=
  answer.mapError .graph

namespace Job

/-- Jobs with more steps than this, `2^20`, compile in parallel. -/
def parallelThreshold : Nat := 1048576

/-- What the job is compiled over, given its graph. -/
def layout (j : Job K) (g : Graph K) : Layout K :=
  ⟨g, j.positions, j.startNode, j.terminalNode⟩

/-- Compiles a job over its graph, in the way that its work asks for. -/
def compile (j : Job K) (g : Graph K) : Except (Error K) (Matrix K) := do
  let work ← (j.layout g).estimateWork j.constraints
  if parallelThreshold < work then (j.layout g).generateParallel j.constraints
  else (j.layout g).generate j.constraints

/-- The matrix of a job. -/
def run (j : Job K) : Except (ConfigError K) (Matrix K) :=
  asJobAnswer do j.compile (← j.graph.toGraph)

/-- Compiles a job in memory, in the way that its work asks for. -/
def compileInMemory (j : Job K) (g : Graph K) : Except (Error K) (Matrix K) := do
  let work ← (j.layout g).estimateWork j.constraints
  if parallelThreshold < work then (j.layout g).generateParallelInMemory j.constraints
  else (j.layout g).generateInMemory j.constraints

/-- The matrix of a job, if there is memory for it. -/
def runInMemory (j : Job K) : Except (ConfigError K) (Matrix K) :=
  asJobAnswer do j.compileInMemory (← j.graph.toGraph)

/-- The reports of compiling a job over its graph. -/
def compileLog (j : Job K) (g : Graph K) : List (LogEvent K) :=
  let l := j.layout g
  l.planLog j.constraints ++ match l.estimateWork j.constraints with
    | .ok work =>
      let parallel := decide (parallelThreshold < work)
      .jobStart work parallel :: l.log j.constraints parallel
    | .error _ => []

/-- The reports of a job. -/
def log (j : Job K) : List (LogEvent K) :=
  match j.graph.toGraph with
  | .ok g => j.compileLog g
  | .error _ => []

end Job

end GraphQubo
