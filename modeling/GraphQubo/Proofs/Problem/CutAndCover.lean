import Mathlib.Tactic.NormNum
import GraphQubo.Proofs.Problem.Selection

/-!
# GraphQubo.Proofs.Problem.CutAndCover

Cuts and vertex covers of undirected graphs, loops included.

Both problems reward a selected node for each of its edges, and take some of it back for an
edge with two selected ends.  So every edge brings an energy of its own: for a cut `-1` if one
end is selected, for a cover `-2` if it is covered.  A loop has both of its ends at one node,
but is one neighbour of it and rewarded once.  Where its node is selected a loop brings `1`
more than it should for a cut, and `2` more for a cover.

* `Placement.onEdge_cutting`, `Placement.onEdge_covering` — what an edge brings;
* `exists_cutMatrix`, `exists_coverMatrix` — the energies of all assignments;
* `Graph.encodesCut_iff`, `Graph.encodesCover_iff` — without loops these are the numbers of edges
  across the cut and of edges that are not covered, and only then;
* `cutAndCover_energy` — all of this for both problems.
-/

namespace GraphQubo

open Finset

/-! ## Edges and selections -/

namespace Edge

variable (e : Edge Rat) (bits : List Bool)

/-- Exactly one end is selected. -/
def Crosses : Prop := ¬(Selects bits e.source ↔ Selects bits e.target)

/-- No end is selected. -/
def IsUncovered : Prop := ¬Selects bits e.source ∧ ¬Selects bits e.target

/-- The edge leads from a selected node to itself. -/
def LoopsAt : Prop := e.source = e.target ∧ Selects bits e.source

instance : Decidable (e.Crosses bits) := inferInstanceAs (Decidable (¬_))

instance : Decidable (e.IsUncovered bits) := inferInstanceAs (Decidable (_ ∧ _))

instance : Decidable (e.LoopsAt bits) := inferInstanceAs (Decidable (_ ∧ _))

end Edge

/-! ## The energy, edge by edge -/

namespace Placement

/-- The strengths of the cut problem. -/
def cutting : Placement := { degree := -1, joined := 2 }

/-- The strengths of the cover problem. -/
def covering : Placement := { placed := 1, degree := -2, joined := 2 }

variable (bits : List Bool)

/-- What an edge adds to the energy of a cut. -/
theorem onEdge_cutting (e : Edge Rat) :
    cutting.onEdge bits e.source e.target =
      (if e.LoopsAt bits then 1 else 0) - if e.Crosses bits then 1 else 0 := by
  by_cases hloop : e.source = e.target
  · rw [hloop, onEdge_self, bitAt_eq_selects, cutting]
    by_cases hselects : Selects bits e.target <;>
      norm_num [Edge.LoopsAt, Edge.Crosses, hloop, hselects]
  · rw [onEdge, if_neg hloop, bitAt_eq_selects, bitAt_eq_selects, cutting]
    by_cases hsource : Selects bits e.source <;> by_cases htarget : Selects bits e.target <;>
      norm_num [Edge.LoopsAt, Edge.Crosses, hloop, hsource, htarget]

/-- What an edge adds to the energy of a cover. -/
theorem onEdge_covering (e : Edge Rat) :
    covering.onEdge bits e.source e.target =
      2 * (if e.IsUncovered bits then 1 else 0) - 2 + 2 * if e.LoopsAt bits then 1 else 0 := by
  by_cases hloop : e.source = e.target
  · rw [hloop, onEdge_self, bitAt_eq_selects, covering]
    by_cases hselects : Selects bits e.target <;>
      norm_num [Edge.LoopsAt, Edge.IsUncovered, hloop, hselects]
  · rw [onEdge, if_neg hloop, bitAt_eq_selects, bitAt_eq_selects, covering]
    by_cases hsource : Selects bits e.source <;> by_cases htarget : Selects bits e.target <;>
      norm_num [Edge.LoopsAt, Edge.IsUncovered, hloop, hsource, htarget]

theorem sum_onEdge_cutting (edges : List (Edge Rat)) :
    (edges.map fun e => cutting.onEdge bits e.source e.target).sum =
      edges.countP (fun e => e.LoopsAt bits) - edges.countP fun e => e.Crosses bits := by
  induction edges with
  | nil => simp
  | cons e edges ih =>
    rw [List.map_cons, List.sum_cons, ih, onEdge_cutting, List.countP_cons, List.countP_cons]
    push_cast [decide_eq_true_eq]
    ring

theorem sum_onEdge_covering (edges : List (Edge Rat)) :
    (edges.map fun e => covering.onEdge bits e.source e.target).sum =
      2 * edges.countP (fun e => e.IsUncovered bits) - 2 * edges.length +
        2 * edges.countP fun e => e.LoopsAt bits := by
  induction edges with
  | nil => simp
  | cons e edges ih =>
    rw [List.map_cons, List.sum_cons, ih, onEdge_covering, List.countP_cons, List.countP_cons,
      List.length_cons]
    push_cast [decide_eq_true_eq]
    ring

end Placement

/-! ## The energies of all assignments -/

section

variable {g : Graph Rat}

/-- The cut problem counts the edges across the cut, and the loops of selected nodes against
them. -/
theorem exists_cutMatrix (hd : g.directed = false) (hfits : g.Fits 1) :
    ∃ m, Problem.maxCut.toMatrix g = .ok m ∧ m.dimension = g.nodeCount ∧
      ∀ bits, bits.length = g.nodeCount →
        m.energy bits = .ok (g.edges.countP (fun e => e.LoopsAt bits) -
          g.edges.countP fun e => e.Crosses bits) := by
  obtain ⟨m, hm, hdim, henergy⟩ := exists_edgeMatrix (p := .maxCut) (s := Placement.cutting)
    rfl rfl hfits (Graph.isSingle_of_undirected hd) rfl
  refine ⟨m, hm, hdim, fun bits hlen => ?_⟩
  rw [henergy bits hlen, Placement.sum_onEdge_cutting]
  simp only [Placement.cutting, zero_mul, zero_add]

/-- The cover problem counts the selected nodes, twice the edges that are not covered, and
twice the loops of selected nodes. -/
theorem exists_coverMatrix (hd : g.directed = false) (hfits : g.Fits 1) :
    ∃ m, Problem.minimumVertexCover.toMatrix g = .ok m ∧ m.dimension = g.nodeCount ∧
      ∀ bits, bits.length = g.nodeCount →
        m.energy bits = .ok ((selected g.nodeCount bits).card +
          (2 * g.edges.countP (fun e => e.IsUncovered bits) - 2 * g.edges.length +
            2 * g.edges.countP fun e => e.LoopsAt bits)) := by
  obtain ⟨m, hm, hdim, henergy⟩ :=
    exists_edgeMatrix (p := .minimumVertexCover) (s := Placement.covering)
      rfl rfl hfits (Graph.isSingle_of_undirected hd) rfl
  refine ⟨m, hm, hdim, fun bits hlen => ?_⟩
  rw [henergy bits hlen, Placement.sum_onEdge_covering]
  simp only [Placement.covering, zero_mul, one_mul, add_zero]

end

/-! ## Loops -/

namespace Graph

variable {g : Graph Rat}

/-- The cut problem has a matrix, in which an assignment has minus the number of edges across its
cut as energy. -/
def EncodesCut (g : Graph Rat) : Prop :=
  ∃ m, Problem.maxCut.toMatrix g = .ok m ∧ ∀ bits, bits.length = g.nodeCount →
    m.energy bits = .ok (-(g.edges.countP fun e => e.Crosses bits))

/-- The cover problem has a matrix, in which an assignment has as energy the number of selected
nodes, and twice the number of edges it does not cover less twice that of all edges. -/
def EncodesCover (g : Graph Rat) : Prop :=
  ∃ m, Problem.minimumVertexCover.toMatrix g = .ok m ∧ ∀ bits, bits.length = g.nodeCount →
    m.energy bits = .ok ((selected g.nodeCount bits).card +
      2 * (g.edges.countP fun e => e.IsUncovered bits) - 2 * g.edges.length)

/-- Where no assignment selects a node with a loop, there is none. -/
theorem forall_countP_loopsAt_eq_zero_iff :
    (∀ bits, bits.length = g.nodeCount → g.edges.countP (fun e => e.LoopsAt bits) = 0) ↔
      ∀ e ∈ g.edges, e.source ≠ e.target := by
  simp only [List.countP_eq_zero, decide_eq_true_eq]
  constructor
  · intro h e he hloop
    refine h (List.replicate g.nodeCount true) List.length_replicate e he ⟨hloop, ?_⟩
    rw [Selects, List.getElem?_replicate, if_pos (g.bounded e he).1]
  · intro h bits _ e he hloops
    exact h e he hloops.1

/-- The energies are those of cuts if and only if no edge is a loop. -/
theorem encodesCut_iff (hd : g.directed = false) (hfits : g.Fits 1) :
    g.EncodesCut ↔ ∀ e ∈ g.edges, e.source ≠ e.target := by
  obtain ⟨m, hm, -, henergy⟩ := exists_cutMatrix hd hfits
  simp only [← forall_countP_loopsAt_eq_zero_iff, EncodesCut, hm, Except.ok.injEq, exists_eq_left']
  refine forall₂_congr fun bits hlen => ?_
  rw [henergy bits hlen, Except.ok.injEq, sub_eq_neg_self, Nat.cast_eq_zero]

/-- The energies are those of covers if and only if no edge is a loop. -/
theorem encodesCover_iff (hd : g.directed = false) (hfits : g.Fits 1) :
    g.EncodesCover ↔ ∀ e ∈ g.edges, e.source ≠ e.target := by
  obtain ⟨m, hm, -, henergy⟩ := exists_coverMatrix hd hfits
  simp only [← forall_countP_loopsAt_eq_zero_iff, EncodesCover, hm, Except.ok.injEq,
    exists_eq_left']
  refine forall₂_congr fun bits hlen => ?_
  rw [henergy bits hlen, Except.ok.injEq, ← add_assoc, ← add_sub_assoc, add_eq_left,
    mul_eq_zero_iff_left two_ne_zero, Nat.cast_eq_zero]

/-- Two joined nodes with a loop each. -/
def loopedPair : Graph Rat where
  directed := false
  nodeCount := 2
  edges := [⟨0, 0, none⟩, ⟨0, 1, none⟩, ⟨1, 1, none⟩]
  nodeCount_lt := pairWithLoop.nodeCount_lt
  sorted := by decide
  bounded := by decide
  oriented := by decide
  weighted := by simp

/-- Loops keep both problems from counting edges. -/
theorem not_encodesCutAndCover_loopedPair :
    (loopedPair.directed = false ∧ loopedPair.Fits 1) ∧
      ¬loopedPair.EncodesCut ∧ ¬loopedPair.EncodesCover := by
  have hd : loopedPair.directed = false := rfl
  have hfits : loopedPair.Fits 1 := by decide
  have hloop : ¬∀ e ∈ loopedPair.edges, e.source ≠ e.target := by decide
  exact ⟨⟨hd, hfits⟩, mt (encodesCut_iff hd hfits).1 hloop, mt (encodesCover_iff hd hfits).1 hloop⟩

end Graph

/-- The energies of both problems over an undirected graph; they count the edges across a cut and
those that are not covered if and only if there are no loops. -/
theorem cutAndCover_energy {g : Graph Rat} (hd : g.directed = false) (hfits : g.Fits 1) :
    (∃ cut cover, Problem.maxCut.toMatrix g = .ok cut ∧ cut.dimension = g.nodeCount ∧
      Problem.minimumVertexCover.toMatrix g = .ok cover ∧ cover.dimension = g.nodeCount ∧
      ∀ bits, bits.length = g.nodeCount →
        cut.energy bits = .ok (g.edges.countP (fun e => e.LoopsAt bits) -
            g.edges.countP fun e => e.Crosses bits) ∧
          cover.energy bits = .ok ((selected g.nodeCount bits).card +
            (2 * g.edges.countP (fun e => e.IsUncovered bits) - 2 * g.edges.length +
              2 * g.edges.countP fun e => e.LoopsAt bits))) ∧
      (g.EncodesCut ↔ ∀ e ∈ g.edges, e.source ≠ e.target) ∧
      (g.EncodesCover ↔ ∀ e ∈ g.edges, e.source ≠ e.target) := by
  obtain ⟨cut, hcut, hcutDim, hcutEnergy⟩ := exists_cutMatrix hd hfits
  obtain ⟨cover, hcover, hcoverDim, hcoverEnergy⟩ := exists_coverMatrix hd hfits
  exact ⟨⟨cut, cover, hcut, hcutDim, hcover, hcoverDim, fun bits hlen =>
      ⟨hcutEnergy bits hlen, hcoverEnergy bits hlen⟩⟩,
    Graph.encodesCut_iff hd hfits, Graph.encodesCover_iff hd hfits⟩

/-- With both nodes selected no edge crosses and all are covered, yet the loops count. -/
theorem cutAndCover_energy_loopedPair :
    ∃ cut cover, Problem.maxCut.toMatrix .loopedPair = .ok cut ∧
      Problem.minimumVertexCover.toMatrix .loopedPair = .ok cover ∧
      cut.energy [true, true] = .ok 2 ∧ cover.energy [true, true] = .ok 0 := by
  obtain ⟨⟨cut, cover, hcut, -, hcover, -, henergy⟩, -⟩ :=
    cutAndCover_energy (g := .loopedPair) rfl (by decide)
  obtain ⟨hcutEnergy, hcoverEnergy⟩ := henergy [true, true] rfl
  have hloops : Graph.loopedPair.edges.countP (fun e => e.LoopsAt [true, true]) = 2 := by decide
  have hcrossing : Graph.loopedPair.edges.countP (fun e => e.Crosses [true, true]) = 0 := by decide
  have huncovered : Graph.loopedPair.edges.countP (fun e => e.IsUncovered [true, true]) = 0 := by
    decide
  have hcard : (selected Graph.loopedPair.nodeCount [true, true]).card = 2 := by decide
  have hlength : Graph.loopedPair.edges.length = 3 := rfl
  refine ⟨cut, cover, hcut, hcover, ?_, ?_⟩
  · rw [hcutEnergy, hloops, hcrossing]
    norm_num
  · rw [hcoverEnergy, hloops, huncovered, hcard, hlength]
    norm_num

end GraphQubo
