import GraphQubo.Proofs.Compile.EnergyParts
import GraphQubo.Proofs.Graph.Simple
import GraphQubo.Proofs.Problem.Accepted

/-!
# GraphQubo.Proofs.Problem.Placement

Problems that place nodes and have no steps: selections and colorings.

Such a problem gives strength to the variables, to the degrees of their nodes, to a node at
two positions, and to two nodes at one position, joined or not.  Over a graph without loops
in which two nodes have one edge at most, its energy is a sum over the nodes and over the
pairs of nodes in ascending order.

* `Problem.placement?` — the strengths of each problem;
* `meaning_placement` — what two variables bring together, over any graph;
* `energyAt_eq_placement` — the energy by nodes and pairs;
* `Problem.exists_plan_placement` — all of these problems are accepted where there is room.
-/

namespace GraphQubo

open Finset

/-! ## Strengths -/

/-- The strengths of the families that place nodes; the others have none. -/
structure Placement where
  placed : Rat := 0
  degree : Rat := 0
  repeated : Rat := 0
  crowded : Rat := 0
  joined : Rat := 0
  apart : Rat := 0

namespace Placement

def strength (s : Placement) : Penalty → Rat
  | .diagonal => s.placed
  | .nodesWithEdges => s.degree
  | .oneNodeManyPositions => s.repeated
  | .onePositionManyNodes => s.crowded
  | .edges => s.joined
  | .nonEdges => s.apart
  | _ => 0

/-- What two nodes at one position cost. -/
def coupling (s : Placement) (g : Graph Rat) (v w : Nat) : Rat :=
  s.crowded + if g.Joined v w then s.joined else s.apart

/-- What a node brings at each of its positions, its loop included. -/
def own (s : Placement) (g : Graph Rat) (v : Nat) : Rat :=
  s.placed + s.degree * g.degree v + if g.Joined v v then s.joined else 0

theorem own_mul (s : Placement) (g : Graph Rat) (v : Nat) (x : Rat) :
    s.own g v * x = s.placed * x + g.degree v * (s.degree * x) +
      if g.Joined v v then s.joined * x else 0 := by
  rw [own]
  split <;> ring

/-- What a node and itself, or two nodes, bring at one position. -/
def bond (s : Placement) (g : Graph Rat) (v w : Nat) : Rat :=
  if v = w then s.own g v else s.coupling g v w

/-- The energy at a point, node by node and pair by pair. -/
def energyAt (s : Placement) (g : Graph Rat) (P : Nat) (y : Nat → Nat → Rat) : Rat :=
  ∑ v ∈ range g.nodeCount,
      (s.placed * ∑ q ∈ range P, y v q +
        s.repeated * ∑ q ∈ range P, ∑ r ∈ range P, if q < r then y v q * y v r else 0) +
    ∑ v ∈ range g.nodeCount, ∑ w ∈ range g.nodeCount,
      if v < w then
        (if g.Joined v w then s.degree * (∑ q ∈ range P, y v q + ∑ q ∈ range P, y w q) else 0) +
          s.coupling g v w * ∑ q ∈ range P, y v q * y w q
      else 0

end Placement

/-- No pair is written both ways, and all strengths are those of the placement. -/
structure Constraints.IsPlacement (c : Constraints Rat) (s : Placement) : Prop where
  edges : c.doubleCountEdges = false
  cycles : c.doubleCountCycles = false
  strength : ∀ f, c.strength f = s.strength f

/-- The strengths of a problem without steps. -/
def Problem.placement? (g : Graph Rat) : Problem Rat → Option Placement
  | .graphColoring _ => some { placed := -4, repeated := 8, joined := 4 }
  | .cliqueCover _ => some { placed := -1, repeated := 2, apart := 2 }
  | .maxCut => some { degree := -1, joined := 2 }
  | .maximumIndependentSet => some { placed := -1, joined := 2 }
  | .minimumVertexCover => some { placed := 1, degree := -2, joined := 2 }
  | .densestSubgraph k =>
    some { placed := g.nodeCount - 2 * g.nodeCount * k, crowded := 2 * g.nodeCount, joined := -1 }
  | .longestPath .. | .travelingSalesperson _ | .hamiltonianCycle => none

/-- Whether a problem is about the steps between positions, as paths and tours are. -/
def Problem.hasSteps : Problem Rat → Bool
  | .longestPath .. | .travelingSalesperson _ | .hamiltonianCycle => true
  | _ => false

/-- What a problem without steps sets are its strengths. -/
theorem Problem.exists_configuration {g : Graph Rat} {p : Problem Rat} {s : Placement}
    (h : p.placement? g = some s) : ∃ c, p.configuration g = .ok c ∧ c.IsPlacement s := by
  cases p with
  | longestPath | travelingSalesperson | hamiltonianCycle => cases h
  | _ =>
    obtain rfl := Option.some.inj h
    refine ⟨_, rfl, rfl, rfl, fun f => ?_⟩
    rw [Constraints.strength_eq]
    cases f <;> simp [Constraints.setAll, Constraints.weights_set, Placement.strength, whole_eq]

/-! ## The energy -/

section Energy

variable {l : Layout Rat} {c : Constraints Rat} {s : Placement} {y : Nat → Nat → Rat}

/-- Nodes are coupled at one position, and a node with itself at two; each pair is written once. -/
theorem meaning_placement (hc : c.IsPlacement s) (v q w r : Nat) :
    l.meaning c v q w r =
      if q = r then if v ≤ w then s.bond l.graph v w else 0
      else if v = w ∧ q < r then s.repeated else 0 := by
  by_cases hvw : v = w
  · subst hvw
    by_cases hqr : q = r
    · simp only [Layout.meaning, Layout.variableMeaning, hc.strength, Placement.strength, hqr,
        Placement.bond, Placement.own, Graph.joined_self, le_refl, if_true, ite_self, zero_add,
        mul_comm]
    · simp only [Layout.meaning, Layout.nodeMeaning, hc.strength, Placement.strength, hqr,
        if_true, if_false, true_and, zero_mul, ite_self, add_zero]
  · have hle : v ≤ w ↔ v < w := ⟨fun h => lt_of_le_of_ne h hvw, le_of_lt⟩
    by_cases hqr : q = r
    · simp only [Layout.meaning, Layout.positionMeaning, hc.edges, hc.strength,
        Placement.strength, hqr, hvw, hle, Placement.bond, Placement.coupling, Bool.false_eq_true,
        or_false, if_true, if_false, ← ite_add_zero]
    · simp only [Layout.meaning, Layout.stepMeaning, Layout.cycleMeaning, hc.strength,
        Placement.strength, hqr, hvw, if_false, false_and, zero_mul, ite_self]

/-- What the variables of one node add to the energy of a placement. -/
theorem nodePart_placement (hc : c.IsPlacement s) (v : Nat) :
    l.nodePart c y v = s.own l.graph v * ∑ q ∈ range l.positions, y v q +
      s.repeated * ∑ q ∈ range l.positions, ∑ r ∈ range l.positions,
        (if q < r then y v q * y v r else 0) := by
  simp only [Layout.nodePart, Layout.variableMeaning, Layout.nodeMeaning, hc.strength,
    Placement.strength, Placement.own, Graph.joined_self, ite_self, zero_mul, zero_add,
    add_zero, mul_sum, mul_ite, mul_zero, mul_comm s.degree]

/-- What the variables of two nodes add to it. -/
theorem pairPart_placement (hc : c.IsPlacement s) (v w : Nat) :
    l.pairPart c y v w =
      if v < w then s.coupling l.graph v w * ∑ q ∈ range l.positions, y v q * y w q else 0 := by
  simp only [Layout.pairPart, Layout.positionMeaning, Layout.stepMeaning, Layout.cycleMeaning,
    hc.edges, hc.cycles, hc.strength, Placement.strength, Placement.coupling, Bool.false_eq_true,
    or_false, zero_mul, ite_self, add_zero]
  rw [← ite_add_zero, ite_mul, zero_mul]

/-- The energy over a layout, for strengths of a placement. -/
theorem energyAt_eq_placement (hc : c.IsPlacement s) (hsimple : l.graph.IsSimple) :
    l.energyAt c y = s.energyAt l.graph l.positions y := by
  have hdegree : ∀ v, s.own l.graph v * ∑ q ∈ range l.positions, y v q =
      s.placed * ∑ q ∈ range l.positions, y v q +
        l.graph.degree v * (s.degree * ∑ q ∈ range l.positions, y v q) := by
    intro v
    rw [Placement.own_mul, if_neg (hsimple.not_joined_self v), add_zero]
  simp only [Layout.energyAt, Placement.energyAt, nodePart_placement hc, hdegree,
    pairPart_placement hc, ite_ne_ite_lt, sum_add_distrib, hsimple.sum_degree_mul, ite_add_zero,
    mul_add]
  ring

end Energy

/-! ## Acceptance -/

/-- A family without strength is not set. -/
theorem Constraints.IsPlacement.not_sets {c : Constraints Rat} {s : Placement}
    (hc : c.IsPlacement s) {f : Penalty} (hf : s.strength f = 0) : ¬c.Sets f := fun h =>
  strength_ne_zero h ((hc.strength f).trans hf)

/-- With room for its matrix, and at least one position, a problem without steps is accepted. -/
theorem Problem.exists_plan_placement {g : Graph Rat} {p : Problem Rat} {s : Placement}
    (h : p.placement? g = some s) (hpos : 0 < p.positions g) (hfits : g.Fits (p.positions g)) :
    ∃ c plan, p.configuration g = .ok c ∧ c.IsPlacement s ∧ (p.layout g).plan c = .ok plan := by
  obtain ⟨c, hconf, hc⟩ := Problem.exists_configuration h
  have hnodes : p.startNode = none ∧ p.terminalNode = none := by
    cases p with
    | longestPath => cases h
    | _ => exact ⟨rfl, rfl⟩
  obtain ⟨plan, hplan⟩ := Layout.exists_plan (l := p.layout g) (c := c) hpos hfits
    (fun v hv => by rw [layout, hnodes.1] at hv; cases hv)
    (fun v hv => by rw [layout, hnodes.2] at hv; cases hv)
    (fun hsets => absurd hsets (hc.not_sets rfl)) (fun hsets => absurd hsets (hc.not_sets rfl))
    fun hreads => absurd hreads fun hreads =>
      hreads.elim (hc.not_sets rfl) fun hcycle => hc.not_sets rfl hcycle.1
  exact ⟨c, plan, hconf, hc, hplan⟩

end GraphQubo
