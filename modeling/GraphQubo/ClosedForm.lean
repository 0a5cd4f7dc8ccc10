import GraphQubo.Graph.Query
import GraphQubo.Polynomial
import GraphQubo.Problem
import GraphQubo.Variable

/-!
# GraphQubo.ClosedForm

The Hamiltonian of each problem, written out as a polynomial.

These formulas share nothing with the compiler but the numbering of the
variables, so that the two matrices of a problem check each other.  Their
factors are fixed: a tour is weighed with length factor one.
-/

namespace GraphQubo.ClosedForm

open Coefficient (whole)

variable {K : Type} [Coefficient K]

/-- Adds what `f` adds for each element of a list, in order. -/
def sumOver {α : Type} (items : List α) (f : Polynomial K → α → Polynomial K)
    (p : Polynomial K) : Polynomial K := items.foldl f p

/-- The weight of an edge that is there, zero if it has none. -/
def weightOrZero (g : Graph K) (source target : Nat) : K :=
  match g.find? source target with
  | some e => e.weight.getD 0
  | none => 0

/-- The numbers from `low` up to, but without, `high`. -/
def between (low high : Nat) : List Nat := List.range' low (high - low)

/-- The path must start and end at its nodes, rewarded with `a`. -/
def pathEnds (a : K) (startNode terminalNode steps : Nat) (p : Polynomial K) : Polynomial K :=
  let x node position := Variable.number ⟨node, position⟩ (steps + 1)
  (p.addLinear (x startNode 0) (-a)).addLinear (x terminalNode steps) (-a)

/-- One node at each position. -/
def onePerPosition (a : K) (n k : Nat) : Polynomial K → Polynomial K :=
  let x node position := Variable.number ⟨node, position⟩ k
  sumOver (List.range k) fun p position =>
    sumOver (List.range n) (fun p i =>
      sumOver (between (i + 1) n) (fun p j =>
        p.addProduct (x i position) (x j position) (whole 2 * a))
        (p.addLinear (x i position) (-a))) p

/-- One position for each node. -/
def onePerNode (a : K) (n k : Nat) : Polynomial K → Polynomial K :=
  let x node position := Variable.number ⟨node, position⟩ k
  sumOver (List.range n) fun p i =>
    sumOver (List.range k) (fun p first =>
      sumOver (between (first + 1) k) (fun p later =>
        p.addProduct (x i first) (x i later) a) p) p

/-- A reward for a step along an edge and a penalty for a step without one,
over the pairs of nodes in ascending order. -/
def pathSteps (g : Graph K) (a : K) (k : Nat) : Polynomial K → Polynomial K :=
  let n := g.nodeCount
  let x node position := Variable.number ⟨node, position⟩ k
  sumOver (List.range n) fun p i =>
    sumOver (between i n) (fun p j =>
      let strength := if g.hasEdge i j then -weightOrZero g i j else a
      sumOver (List.range (k - 1)) (fun p position =>
        p.addProduct (x i position) (x j (position + 1)) strength) p) p

/-- The heaviest path between two nodes in exactly `steps` steps. -/
def longestPath (g : Graph K) (startNode terminalNode steps : Nat) :
    Except (Error K) (Matrix K) := do
  let a := whole steps * (← g.maxWeight)
  let n := g.nodeCount
  let k := steps + 1
  let p := pathEnds a startNode terminalNode steps .zero
  let p := pathSteps g a k (onePerNode a n k (onePerPosition a n k p))
  p.toMatrix (n * k)

/-- Exactly one color for each node. -/
def oneColorEach (a : K) (n colors : Nat) : Polynomial K → Polynomial K :=
  sumOver (List.range n) fun p v =>
    p.addExactlyOne ((List.range colors).map fun i => Variable.number ⟨v, i⟩ colors) a

/-- A coloring: a penalty for each edge, from both of its ends, within a color. -/
def graphColoring (g : Graph K) (colors : Nat) : Except (Error K) (Matrix K) :=
  let x node color := Variable.number ⟨node, color⟩ colors
  let p := oneColorEach (whole 4) g.nodeCount colors .zero
  let p := sumOver g.nodes (fun p v =>
    sumOver (g.neighbors v .any) (fun p w =>
      sumOver (List.range colors) (fun p i =>
        p.addProduct (x v i) (x w i) (whole 2)) p) p) p
  p.toMatrix (g.nodeCount * colors)

/-- What a step of a tour from `u` to `v` costs, if anything: strength `a`
without an edge, the scaled weight of the edge with one.  Staying at a node
without a self loop is not a step. -/
def stepCost? (g : Graph K) (a : K) (lengthFactor : Option K) (u v : Nat) : Option K :=
  if g.hasEdge u v then lengthFactor.map fun b => b * weightOrZero g u v
  else if u = v then none
  else some a

/-- A closed tour: each node once, one node at each position, and the steps
between cyclically consecutive positions. -/
def tour (g : Graph K) (a : K) (lengthFactor : Option K) : Except (Error K) (Matrix K) :=
  let n := g.nodeCount
  let x node position := Variable.number ⟨node, position⟩ n
  let p := sumOver (List.range n) (fun p v =>
    p.addExactlyOne ((List.range n).map fun j => x v j) a) .zero
  let p := sumOver (List.range n) (fun p j =>
    p.addExactlyOne ((List.range n).map fun v => x v j) a) p
  let p := sumOver (List.range n) (fun p u =>
    sumOver (List.range n) (fun p v =>
      match stepCost? g a lengthFactor u v with
      | none => p
      | some cost =>
        sumOver (List.range n) (fun p j =>
          p.addProduct (x u j) (x v ((j + 1) % n)) cost) p) p) p
  p.toMatrix (n * n)

/-- The shortest closed tour, with length factor one. -/
def travelingSalesperson (g : Graph K) : Except (Error K) (Matrix K) := do
  tour g (1 * (← g.maxWeight) + 1) (some 1)

/-- Any closed tour. -/
def hamiltonianCycle (g : Graph K) : Except (Error K) (Matrix K) := tour g 1 none

/-- The cut: `-Σ (x_u + x_v - 2 x_u x_v)` over the edges. -/
def maxCut (g : Graph K) : Except (Error K) (Matrix K) :=
  let p := sumOver g.edges (fun p e =>
    ((p.addLinear e.source (-1)).addLinear e.target (-1)).addProduct e.source e.target
      (whole 2)) .zero
  p.toMatrix g.nodeCount

/-- The independent set: `-Σ x_v` over the nodes and `2 Σ x_u x_v` over the
edges. -/
def maximumIndependentSet (g : Graph K) : Except (Error K) (Matrix K) :=
  let p := sumOver g.nodes (fun p v => p.addLinear v (-1)) .zero
  let p := sumOver g.edges (fun p e => p.addProduct e.source e.target (whole 2)) p
  p.toMatrix g.nodeCount

/-- The vertex cover: `Σ x_v` over the nodes and `2 Σ (1 - x_u)(1 - x_v)` over
the edges. -/
def minimumVertexCover (g : Graph K) : Except (Error K) (Matrix K) :=
  let p := sumOver g.nodes (fun p v => p.addLinear v 1) .zero
  let p := sumOver g.edges (fun p e =>
    (((p.addConstant (whole 2)).addLinear e.source (-whole 2)).addLinear e.target
      (-whole 2)).addProduct e.source e.target (whole 2)) p
  p.toMatrix g.nodeCount

/-- The clique cover: one color for each node, and for each color twice the
number of its pairs of nodes that no edge joins. -/
def cliqueCover (g : Graph K) (colors : Nat) : Except (Error K) (Matrix K) :=
  let n := g.nodeCount
  let p := oneColorEach 1 n colors .zero
  let p := sumOver (List.range colors) (fun p i =>
    let x node := Variable.number ⟨node, i⟩ colors
    let p := sumOver (List.range n) (fun p u =>
      sumOver (List.range n) (fun p v => p.addProduct (x u) (x v) 1)
        (p.addLinear (x u) (-1))) p
    sumOver g.edges (fun p e => p.addProduct (x e.source) (x e.target) (-whole 2)) p) p
  p.toMatrix (n * colors)

/-- The densest subgraph: `n (Σ x_v - k)²` and `-Σ x_u x_v` over the edges. -/
def densestSubgraph (g : Graph K) (k : Nat) : Except (Error K) (Matrix K) :=
  let n := g.nodeCount
  let scale : K := whole n
  let p := Polynomial.zero.addConstant (scale * whole (k * k))
  let p := sumOver (List.range n) (fun p u =>
    sumOver (between (u + 1) n) (fun p v => p.addProduct u v (whole 2 * scale))
      (p.addLinear u (scale - whole 2 * scale * whole k))) p
  let p := sumOver g.edges (fun p e => p.addProduct e.source e.target (-1)) p
  p.toMatrix n

end GraphQubo.ClosedForm

namespace GraphQubo

/-- The closed form of a problem over a graph. -/
def Problem.closedForm {K : Type} [Coefficient K] (g : Graph K) :
    Problem K → Except (Error K) (Matrix K)
  | .longestPath startNode terminalNode steps =>
    ClosedForm.longestPath g startNode terminalNode steps
  | .travelingSalesperson _ => ClosedForm.travelingSalesperson g
  | .hamiltonianCycle => ClosedForm.hamiltonianCycle g
  | .graphColoring colors => ClosedForm.graphColoring g colors
  | .cliqueCover colors => ClosedForm.cliqueCover g colors
  | .maxCut => ClosedForm.maxCut g
  | .maximumIndependentSet => ClosedForm.maximumIndependentSet g
  | .minimumVertexCover => ClosedForm.minimumVertexCover g
  | .densestSubgraph k => ClosedForm.densestSubgraph g k

end GraphQubo
