import GraphQubo.Compile.Generate
import GraphQubo.Matrix.Memory

/-!
# GraphQubo.Compile.Memory

Compiling into a block of memory.

A plan makes sure that the cells of its matrix can be counted in a word; it does
not ask whether there is memory for them.  So a compilation asks for its block
after the plan, and a request that is too large ends it.  With a block both ways
of filling the matrix go on as `Plan.fill` and `Plan.fillParallel` do.
-/

namespace GraphQubo

variable {K : Type} [Coefficient K]

namespace Layout

/-- The matrix of a configuration over a layout, if there is memory for it. -/
def compileInMemory (l : Layout K) (c : Constraints K) (parallel : Bool) :
    Except (Error K) (Matrix K) := do
  let p ← l.plan c
  Matrix.checkRoom p.dimension
  if parallel then p.fillParallel else p.fill

/-- The matrix, filled node after node. -/
def generateInMemory (l : Layout K) (c : Constraints K) : Except (Error K) (Matrix K) :=
  l.compileInMemory c false

/-- The same matrix, with the rows of different nodes filled side by side. -/
def generateParallelInMemory (l : Layout K) (c : Constraints K) : Except (Error K) (Matrix K) :=
  l.compileInMemory c true

end Layout

/-- The matrix of a configuration over a graph, in one call. -/
def generateInMemory (graph : Graph K) (positions : Nat) (startNode terminalNode : Option Nat)
    (c : Constraints K) : Except (Error K) (Matrix K) :=
  Layout.generateInMemory ⟨graph, positions, startNode, terminalNode⟩ c

end GraphQubo
