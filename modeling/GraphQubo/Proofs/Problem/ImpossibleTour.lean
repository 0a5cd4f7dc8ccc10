import GraphQubo.Proofs.Problem.TravelingSalesperson

/-!
# GraphQubo.Proofs.Problem.ImpossibleTour

Traveling salesperson where some nodes are not joined.

An order of the nodes with steps that have no edge is no tour.  Each such step costs the
strength `b · W + 1` and saves the length of an edge, but the strength answers for one
edge only: the other steps of the order can be shorter than those of every closed tour,
by any number of edges.  So the impossible order costs more exactly where the strength of
its missing steps exceeds all the length that it saves.

* `impossibleToursCostMore_iff` — the condition, for every graph with a weight on each edge;
* `not_impossibleToursCostMore_shortcutRing` — three nodes where it fails.
-/

namespace GraphQubo

open Finset

namespace Graph

variable (g : Graph Rat)

/-- A closed tour along edges, and no shorter one exists. -/
def IsShortestClosedTour (σ : Equiv.Perm (Fin g.nodeCount)) : Prop :=
  g.missingSteps σ = 0 ∧ ∀ τ, g.missingSteps τ = 0 → g.tourLength σ ≤ g.tourLength τ

instance (σ : Equiv.Perm (Fin g.nodeCount)) : Decidable (g.IsShortestClosedTour σ) :=
  inferInstanceAs (Decidable (_ ∧ ∀ _, _))

/-- Over the matrix, every order of the nodes that misses an edge has more energy than the
shortest closed tour. -/
def ImpossibleToursCostMore (m : Matrix Rat) : Prop :=
  ∀ (bits bits' : List Bool) (σ τ : Equiv.Perm (Fin g.nodeCount)), Encodes bits σ →
    0 < g.missingSteps σ → Encodes bits' τ → g.IsShortestClosedTour τ →
      ∃ e e', m.energy bits = .ok e ∧ m.energy bits' = .ok e' ∧ e' < e

end Graph

/-- An impossible order costs more than the shortest closed tour if and only if the length
that it saves is less than the strength of its missing steps. -/
theorem impossibleToursCostMore_iff {g : Graph Rat} (b : Rat) (hn : 2 ≤ g.nodeCount)
    (hfits : g.Fits g.nodeCount) (hweights : g.FullyWeighted) :
    ∃ W m, g.maxWeight = .ok W ∧ (Problem.travelingSalesperson b).toMatrix g = .ok m ∧
      (∀ bits (σ : Equiv.Perm (Fin g.nodeCount)), Encodes bits σ →
        m.energy bits = .ok (b * g.tourLength σ + (b * W + 1) * g.missingSteps σ -
          2 * (b * W + 1) * g.nodeCount)) ∧
      (g.ImpossibleToursCostMore m ↔ ∀ σ τ, 0 < g.missingSteps σ → g.IsShortestClosedTour τ →
        b * (g.tourLength τ - g.tourLength σ) < (b * W + 1) * g.missingSteps σ) := by
  obtain ⟨W, hW, -, -⟩ := Graph.exists_maxWeight hweights
  obtain ⟨m, hm, hmeasures⟩ := exists_salespersonMatrix b hn hfits hweights hW
  have henergy : ∀ bits (σ : Equiv.Perm (Fin g.nodeCount)), Encodes bits σ →
      m.energy bits = .ok (b * g.tourLength σ + (b * W + 1) * g.missingSteps σ -
        2 * (b * W + 1) * g.nodeCount) :=
    fun bits σ hσ => hmeasures.energy_perm hn hσ
  refine ⟨W, m, hW, hm, henergy, fun hmore σ τ hmissing hshortest => ?_,
    fun hsaves bits bits' σ τ hσ hmissing hτ hshortest => ?_⟩
  · obtain ⟨e, e', he, he', hless⟩ := hmore _ _ σ τ (encodes_bitsOf σ) hmissing
      (encodes_bitsOf τ) hshortest
    rw [henergy _ σ (encodes_bitsOf σ)] at he
    rw [henergy _ τ (encodes_bitsOf τ), hshortest.1] at he'
    obtain rfl := Except.ok.inj he
    obtain rfl := Except.ok.inj he'
    push_cast at hless
    linarith
  · refine ⟨_, _, henergy bits σ hσ, henergy bits' τ hτ, ?_⟩
    have hless := hsaves σ τ hmissing hshortest
    rw [hshortest.1]
    push_cast
    linarith

/-- Three nodes in a ring of long edges, with two short edges that lead the other way. -/
def Graph.shortcutRing : Graph Rat where
  directed := true
  nodeCount := 3
  edges := [⟨0, 1, some 10⟩, ⟨0, 2, some 1⟩, ⟨1, 2, some 10⟩, ⟨2, 0, some 10⟩, ⟨2, 1, some 1⟩]
  nodeCount_lt := Graph.three_lt_nodeLimit
  sorted := by decide
  bounded := by decide
  oriented := by decide
  weighted := Graph.weighted_of_all (by decide)

/-- The order along the long edges, the only closed tour of the ring. -/
def Graph.longWay : Equiv.Perm (Fin Graph.shortcutRing.nodeCount) := .refl _

/-- The order along both short edges, back over an edge that the ring does not have. -/
def Graph.shortWay : Equiv.Perm (Fin Graph.shortcutRing.nodeCount) :=
  Equiv.swap ⟨1, by decide⟩ ⟨2, by decide⟩

/-- With factor `1 / 20` the strength `3 / 2` is more than any order of the ring saves. -/
theorem impossibleToursCostMore_shortcutRing :
    ∃ m, (Problem.travelingSalesperson (1 / 20)).toMatrix .shortcutRing = .ok m ∧
      Graph.shortcutRing.ImpossibleToursCostMore m := by
  obtain ⟨W, m, hW, hm, -, hiff⟩ := impossibleToursCostMore_iff (g := .shortcutRing) (1 / 20)
    (by decide) (by decide) (by decide)
  obtain rfl : (10 : Rat) = W := Except.ok.inj hW
  exact ⟨m, hm, hiff.2 (by decide +kernel)⟩

/-- With factor one it is not: the order by the two short edges saves 28 of the 30 that
the only closed tour is long, and its missing step costs 11. -/
theorem not_impossibleToursCostMore_shortcutRing :
    3 ≤ Graph.shortcutRing.nodeCount ∧ Graph.shortcutRing.Fits 3 ∧
      Graph.shortcutRing.FullyWeighted ∧ (∃ σ, Graph.shortcutRing.IsShortestClosedTour σ) ∧
      ∃ m, (Problem.travelingSalesperson 1).toMatrix .shortcutRing = .ok m ∧
        ¬Graph.shortcutRing.ImpossibleToursCostMore m := by
  have hn : 2 ≤ Graph.shortcutRing.nodeCount := by decide
  obtain ⟨m, hm, hmeasures⟩ :=
    exists_salespersonMatrix (g := .shortcutRing) (W := 10) 1 hn (by decide) (by decide) rfl
  have hshortest : Graph.shortcutRing.IsShortestClosedTour Graph.longWay := by decide +kernel
  have hmissing : 0 < Graph.shortcutRing.missingSteps Graph.shortWay := by decide
  refine ⟨by decide, by decide, by decide, ⟨_, hshortest⟩, m, hm, fun hmore => ?_⟩
  obtain ⟨e, e', he, he', hless⟩ := hmore _ _ Graph.shortWay Graph.longWay (encodes_bitsOf _)
    hmissing (encodes_bitsOf _) hshortest
  rw [hmeasures.energy_perm hn (encodes_bitsOf _)] at he he'
  obtain rfl := Except.ok.inj he
  obtain rfl := Except.ok.inj he'
  exact absurd hless (by decide +kernel)

end GraphQubo
