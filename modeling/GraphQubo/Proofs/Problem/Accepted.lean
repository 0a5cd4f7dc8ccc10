import Mathlib.Algebra.Order.Ring.Rat
import Mathlib.Tactic.Linarith
import GraphQubo.Problem
import GraphQubo.Proofs.Compile.Refusal
import GraphQubo.Proofs.Graph.Arc
import GraphQubo.Proofs.Graph.Weight

/-!
# GraphQubo.Proofs.Problem.Accepted

When a problem compiles over a graph, in exact arithmetic.

A problem scales its penalties by the heaviest edge, so it asks for a weight on every edge
and for nothing else of the weights.  A layout asks for room: the matrix must have fewer
than `2^64` rows and cells.

* `Graph.exists_maxWeight` — where every edge has a weight the largest one is found, and
  no step weighs more; `Graph.maxWeight_eq_error` — where one has none, the first is named;
* `Layout.exists_plan` — a layout with room, and with its nodes in the graph, is accepted;
  `Layout.room_of_plan` — only one with room is.
-/

namespace GraphQubo

/-! ## Weights -/

namespace Graph

/-- Every edge carries a weight. -/
def FullyWeighted (g : Graph Rat) : Prop := ∀ e ∈ g.edges, ∃ w, e.weight = some w

instance (g : Graph Rat) : Decidable g.FullyWeighted :=
  decidable_of_iff (∀ e ∈ g.edges, e.weight.isSome = true) <| by
    simp only [FullyWeighted, Option.isSome_iff_exists]

/-- A list of edges is checked weight by weight. -/
theorem weighted_of_all {es : List (Edge Rat)}
    (h : ∀ e ∈ es, e.weight.all validWeight = true) :
    ∀ e ∈ es, ∀ w, e.weight = some w → validWeight w = true := by
  intro e he w hw
  have hall := h e he
  rwa [hw] at hall

/-- A valid weight is not negative. -/
theorem nonneg_of_validWeight {w : Rat} (h : validWeight w = true) : 0 ≤ w :=
  of_decide_eq_true (atMost_of_validWeight h)

/-- The weight of a step is that of an edge, or zero where no weighted edge is walked. -/
theorem arcWeight_cases (g : Graph Rat) (v w : Nat) :
    g.arcWeight v w = 0 ∨ ∃ e ∈ g.edges, e.weight = some (g.arcWeight v w) := by
  unfold arcWeight arcWeight?
  cases hfind : g.edges.find? (g.walks v w) with
  | none => exact .inl rfl
  | some e =>
    cases hw : e.weight with
    | none => exact .inl (by simp [hw])
    | some x => exact .inr ⟨e, List.mem_of_find?_eq_some hfind, by simp [hw]⟩

/-- No arc has a negative weight. -/
theorem arcWeight_nonneg (g : Graph Rat) (v w : Nat) : 0 ≤ g.arcWeight v w := by
  rcases g.arcWeight_cases v w with h | ⟨e, he, hw⟩
  · rw [h]
  · exact nonneg_of_validWeight (g.weighted e he _ hw)

/-- Where every edge weighs more than zero, so does every step. -/
theorem arcWeight_pos {g : Graph Rat} (h : ∀ e ∈ g.edges, ∃ w, e.weight = some w ∧ 0 < w)
    {v w : Nat} (harc : g.Arc v w) : 0 < g.arcWeight v w := by
  obtain ⟨e, he⟩ := Option.isSome_iff_exists.1 (List.find?_isSome.2 harc)
  obtain ⟨x, hx, hpos⟩ := h e (List.mem_of_find?_eq_some he)
  simpa [arcWeight, arcWeight?, he, hx] using hpos

/-- No step weighs more than the heaviest edge. -/
theorem exists_maxWeight {g : Graph Rat} (h : g.FullyWeighted) :
    ∃ W, g.maxWeight = .ok W ∧ 0 ≤ W ∧ ∀ v w, g.arcWeight v w ≤ W := by
  have hfinite : ∀ e ∈ g.edges, ∃ w, e.weight = some w ∧ Coefficient.isFinite w = true :=
    fun e he => (h e he).imp fun _ hw => ⟨hw, rfl⟩
  obtain ⟨W, hW, -, hpos, hall, -⟩ := exists_foldlM_heavier hfinite
    (Coefficient.Ordered.isFinite_zero : Coefficient.isFinite (0 : Rat) = true)
  refine ⟨W, hW, of_decide_eq_true hpos, fun v w => ?_⟩
  rcases g.arcWeight_cases v w with h | ⟨e, he, hw⟩
  · rw [h]
    exact of_decide_eq_true hpos
  · exact of_decide_eq_true (hall e he _ hw)

/-- Without all weights there is no largest, and the smallest edge without one is named. -/
theorem maxWeight_eq_error {g : Graph Rat} {e : Edge Rat} (h : g.SmallestUnweighted e) :
    g.maxWeight = .error (.unweightedEdge e.source e.target) :=
  foldlM_heavier_eq_error (firstUnweighted?_eq_some_iff.2 h) 0

/-- The matrix over so many positions has fewer than `2^64` rows and cells. -/
def Fits (g : Graph Rat) (positions : Nat) : Prop :=
  g.nodeCount * positions < wordLimit ∧
    g.nodeCount * positions * (g.nodeCount * positions) < wordLimit

instance (g : Graph Rat) (positions : Nat) : Decidable (g.Fits positions) :=
  inferInstanceAs (Decidable (_ ∧ _))

/-- There are nodes enough for a small graph. -/
theorem three_lt_nodeLimit : 3 < nodeLimit := by decide

theorem four_lt_nodeLimit : 4 < nodeLimit := by decide

end Graph

/-! ## Acceptance -/

/-- With room for its matrix, its nodes in the graph and the weights that it reads, a
layout is accepted. -/
theorem Layout.exists_plan {l : Layout Rat} {c : Constraints Rat} (hpos : 0 < l.positions)
    (hfits : l.graph.Fits l.positions)
    (hstart : ∀ v, l.startNode = some v → v < l.graph.nodeCount)
    (hterminal : ∀ v, l.terminalNode = some v → v < l.graph.nodeCount)
    (hscore : c.Sets .startNodeScore → l.startNode ≠ none)
    (hscore' : c.Sets .terminalNodeScore → l.terminalNode ≠ none)
    (hweights : l.ReadsEdgeWeights c → l.graph.FullyWeighted) : ∃ p, l.plan c = .ok p := by
  have hroom : ¬l.TooLarge := by
    have hlt := hfits.1
    have hlt' := hfits.2
    rw [TooLarge]
    omega
  refine exists_plan_iff.2 ⟨fun _ _ _ => rfl, hpos, hroom, hstart, hterminal, hscore, hscore', ?_⟩
  intro hreads e he hmissing
  obtain ⟨w, hw⟩ := hweights hreads e he
  exact Option.some_ne_none w (hw.symm.trans hmissing)

/-- An accepted layout has a position, and room for its matrix. -/
theorem Layout.room_of_plan {l : Layout Rat} {c : Constraints Rat} {p : Plan Rat}
    (h : l.plan c = .ok p) : 0 < l.positions ∧ l.graph.Fits l.positions := by
  obtain ⟨rfl, -, hp⟩ := plan_eq_ok h
  rw [Graph.Fits, ← hp.dimension]
  exact ⟨hp.positions ▸ p.numbering.positive, hp.fits, hp.cells_fit⟩

end GraphQubo
