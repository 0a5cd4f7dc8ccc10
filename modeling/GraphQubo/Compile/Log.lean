import GraphQubo.Compile.Memory
import GraphQubo.Matrix.Cells

/-!
# GraphQubo.Compile.Log

What a compilation reports while it runs.

1. For each enabled family, in declaration order, whether it is compiled or
   left out; nothing is reported before all other checks but the one on edge
   weights have passed.
2. Once that check has passed as well: the start with the size of the problem
   and then, if there is memory for the matrix, each node with its first row and
   the end with the number of cells that are not zero.

A compilation that is refused keeps the reports up to that point.
-/

namespace GraphQubo

/-- How much detail a report belongs to. -/
inductive LogLevel where
  | info
  | debug
  | trace
  deriving DecidableEq, Repr

/-- One report. -/
inductive LogEvent (K : Type) where
  | problemConfigured (problem : String) (penalties : Nat)
  | penaltySkipped (penalty : Penalty)
  | penaltyEnabled (term : Term K)
  | jobStart (work : Nat) (parallel : Bool)
  | compileStart (nodes edges : Nat) (directed : Bool) (positions dimension penalties : Nat)
      (parallel : Bool)
  | nodeBlock (node firstRow : Nat)
  | compileEnd (nonzero : Nat)
  deriving DecidableEq, Repr

/-- Why a penalty is skipped. -/
def skipReason : String := "single position"

namespace LogEvent

variable {K : Type}

/-- The detail a report belongs to. -/
def level : LogEvent K → LogLevel
  | jobStart .. | compileStart .. | compileEnd _ => .info
  | problemConfigured .. | penaltySkipped _ | penaltyEnabled _ => .debug
  | nodeBlock .. => .trace

/-- The name of a report. -/
def name : LogEvent K → String
  | problemConfigured .. => "problem_configured"
  | penaltySkipped _ => "penalty_skipped"
  | penaltyEnabled _ => "penalty_enabled"
  | jobStart .. => "job_start"
  | compileStart .. => "compile_start"
  | nodeBlock .. => "node_block"
  | compileEnd _ => "compile_end"

end LogEvent

variable {K : Type} [Coefficient K]

/-- The reports on the nodes of a plan that is being filled, and on its end. -/
def Plan.fillLog (p : Plan K) (parallel : Bool) : List (LogEvent K) :=
  let nodes := p.nodeRows.map fun v => .nodeBlock v.node v.rows.first
  let finish := match (if parallel then p.fillParallel else p.fill) with
    | .ok m => [.compileEnd m.nonzeroCount]
    | .error _ => []
  nodes ++ finish

/-- The reports on a plan that is being compiled; the start comes before memory
is asked for. -/
def Plan.compileLog (p : Plan K) (parallel : Bool) : List (LogEvent K) :=
  let graph := p.layout.graph
  .compileStart graph.nodeCount graph.edgeCount graph.directed p.numbering.positions
      p.dimension p.terms.length parallel ::
    if HasRoom p.dimension then p.fillLog parallel else []

namespace Layout

/-- The report on an enabled family. -/
def penaltyEvent (l : Layout K) (c : Constraints K) (e : Penalty × K) : LogEvent K :=
  if l.leavesOut e.1 then .penaltySkipped e.1
  else .penaltyEnabled ⟨e.1, e.2, c.doubleCounts e.1⟩

/-- The reports on a plan that is being made. -/
def planLog (l : Layout K) (c : Constraints K) : List (LogEvent K) :=
  match l.accept c with
  | .ok _ => c.enabled.map (l.penaltyEvent c)
  | .error _ => []

/-- The reports of a compilation. -/
def log (l : Layout K) (c : Constraints K) (parallel : Bool) : List (LogEvent K) :=
  l.planLog c ++ match l.plan c with
    | .ok p => p.compileLog parallel
    | .error _ => []

end Layout

end GraphQubo
