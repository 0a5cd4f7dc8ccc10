import GraphQubo.Compile.Addition
import GraphQubo.Matrix.Band

/-!
# GraphQubo.Compile.Generate

From a plan to the matrix, in two ways.

* `Layout.generate` fills one matrix, node after node.
* `Layout.generateParallel` fills a band of rows for each node, all of them
  independently, and lays the bands end to end.

A node only ever writes its own rows, and both ways make a node's additions in
the same order, so every cell receives the same values in the same order.

The matrix is a value here, of any size; `GraphQubo.Compile.Memory` asks for
the memory that it takes.
-/

namespace GraphQubo

variable {K : Type} [Coefficient K]

/-- A node and the rows of the matrix that are its own. -/
structure NodeRows where
  node : Nat
  rows : RowRange
  deriving DecidableEq, Repr

namespace Plan

/-- The nodes with their rows, in order. -/
def nodeRows (p : Plan K) : List NodeRows :=
  (rowBands p.dimension p.numbering.positions).mapIdx fun node rows => ⟨node, rows⟩

/-- Makes an addition in the rows of a node. -/
def applyAddition (rows : RowRange) (m : Matrix K) (a : Addition K) :
    Except (Error K) (Matrix K) :=
  rows.add m a.row a.col a.value

/-- Makes all additions of a node. -/
def fillNode (p : Plan K) (m : Matrix K) (v : NodeRows) : Except (Error K) (Matrix K) := do
  (← p.additions v.node).foldlM (applyAddition v.rows) m

/-- The matrix, filled node after node. -/
def fill (p : Plan K) : Except (Error K) (Matrix K) :=
  p.nodeRows.foldlM p.fillNode (.zeros p.dimension)

/-- The rows of a node, filled on their own. -/
def band (p : Plan K) (v : NodeRows) : Except (Error K) (Band K) := do
  (← p.additions v.node).foldlM (fun band a => band.add a.row a.col a.value)
    (.zeros v.rows p.dimension)

/-- The matrix, put together from bands that are filled side by side. -/
def fillParallel (p : Plan K) : Except (Error K) (Matrix K) := do
  let tasks := p.nodeRows.map fun v => Task.spawn fun _ => p.band v
  Matrix.ofBands p.dimension (← tasks.mapM Task.get)

end Plan

namespace Layout

/-- The matrix of a configuration over a layout. -/
def generate (l : Layout K) (c : Constraints K) : Except (Error K) (Matrix K) := do
  (← l.plan c).fill

/-- The same matrix, with the rows of different nodes filled side by side. -/
def generateParallel (l : Layout K) (c : Constraints K) : Except (Error K) (Matrix K) := do
  (← l.plan c).fillParallel

end Layout

/-- The matrix of a configuration over a graph, in one call. -/
def generate (graph : Graph K) (positions : Nat) (startNode terminalNode : Option Nat)
    (c : Constraints K) : Except (Error K) (Matrix K) :=
  Layout.generate ⟨graph, positions, startNode, terminalNode⟩ c

end GraphQubo
