import Mathlib.Order.Interval.Finset.Nat
import GraphQubo.ClosedForm
import GraphQubo.Proofs.Compile.EnergyParts
import GraphQubo.Proofs.Graph.Simple
import GraphQubo.Proofs.Polynomial.Value

/-!
# GraphQubo.Proofs.ClosedForm.Worth

What the parts of a closed form are worth, as sums over nodes and positions.

* `adds_sumOver_range`, `adds_sumOver_between` — loops over numbers;
* `adds_sumOver_neighbors`, `adds_sumOver_edges` — loops over neighbours and over edges;
* `adds_oneHot` — exactly one variable of a row;
* `weightOrZero_eq` — edges as they are looked up;
* `exists_closedForm` — closed forms that are worth the energies of a layout have its matrix.
-/

namespace GraphQubo.ClosedForm

open Finset GraphQubo.Polynomial

variable {n : Nat} {f : Polynomial Rat → Nat → Polynomial Rat}
  {worth : Nat → (Nat → Rat) → Rat}

/-! ## Loops -/

/-- A loop over all numbers below a bound adds the sum of what its turns add. -/
theorem adds_sumOver_range {k : Nat} (h : ∀ i < k, Adds n (fun p => f p i) (worth i)) :
    Adds n (sumOver (List.range k) f) fun x => ∑ i ∈ range k, worth i x :=
  Adds.foldl fun i hi => h i (List.mem_range.1 hi)

/-- So does a loop that starts later. -/
theorem adds_sumOver_between {low high : Nat}
    (h : ∀ i, low ≤ i → i < high → Adds n (fun p => f p i) (worth i)) :
    Adds n (sumOver (between low high) f) fun x =>
      ∑ i ∈ range high, if low ≤ i then worth i x else 0 := by
  have hadds : Adds n (sumOver (between low high) f) fun x =>
      ∑ i ∈ Ico low high, worth i x :=
    Adds.foldl fun i hi => by
      obtain ⟨hle, hlt⟩ := List.mem_range'_1.1 hi
      exact h i hle (by omega)
  refine hadds.congr fun x _ => ?_
  have hIco : Ico low high = (range high).filter (low ≤ ·) := by
    ext i
    simp only [mem_Ico, mem_filter, mem_range, and_comm]
  rw [hIco, sum_filter]

/-- So does a loop over the neighbours of a node. -/
theorem adds_sumOver_neighbors {g : Graph Rat} {v : Nat} (hv : v < g.nodeCount)
    (h : ∀ w < g.nodeCount, Adds n (fun p => f p w) (worth w)) :
    Adds n (sumOver (g.neighbors v .any) f) fun x =>
      ∑ w ∈ range g.nodeCount, if g.Joined v w then worth w x else 0 := by
  have hadds : Adds n (sumOver (g.neighbors v .any) f) fun x =>
      ((g.neighbors v .any).map fun w => worth w x).sum :=
    Adds.foldl fun w hw => h w ((Graph.mem_neighbors_any hv).1 hw).1
  exact hadds.congr fun x _ => Graph.sum_map_neighbors hv fun w => worth w x

/-- A loop over the edges of a simple graph, with values that do not depend on the direction,
is one over the joined pairs. -/
theorem adds_sumOver_edges {g : Graph Rat} (hsimple : g.IsSimple)
    {f : Polynomial Rat → Edge Rat → Polynomial Rat} (worth : Nat → Nat → (Nat → Rat) → Rat)
    (h : ∀ e ∈ g.edges, Adds n (fun p => f p e) (worth e.source e.target))
    (hsymm : ∀ v w x, worth v w x = worth w v x) :
    Adds n (sumOver g.edges f) fun x =>
      ∑ v ∈ range g.nodeCount, ∑ w ∈ range g.nodeCount,
        if v < w then if g.Joined v w then worth v w x else 0 else 0 :=
  (Adds.foldl h).congr fun x _ => hsimple.sum_edges_eq fun v w => hsymm v w x

/-- Exactly one of `k` variables. -/
theorem adds_oneHot {k : Nat} {number : Nat → Nat} (h : ∀ i < k, number i < n) (a : Rat) :
    Adds n (fun p => p.addExactlyOne ((List.range k).map number) a) fun x =>
      a * (1 - ∑ i ∈ range k, x (number i)) ^ 2 := by
  refine (Adds.addExactlyOne a fun v hv => ?_).congr fun x _ => ?_
  · obtain ⟨i, hi, rfl⟩ := List.mem_map.1 hv
    exact h i (List.mem_range.1 hi)
  · rw [List.map_map]
    rfl

/-! ## Edges -/

/-- The weight that a closed form looks up is that of the arc, zero without one. -/
theorem weightOrZero_eq {g : Graph Rat} {v w : Nat} (hv : v < g.nodeCount)
    (hw : w < g.nodeCount) : weightOrZero g v w = g.arcWeight v w := by
  unfold weightOrZero Graph.arcWeight Graph.arcWeight?
  rw [Graph.find?_eq hv hw]
  cases g.edges.find? (g.walks v w) <;> rfl

/-! ## Closed forms and compiled matrices -/

/-- A closed form that is worth the energies over a layout has the matrix that compiles
without flags. -/
theorem exists_closedForm {l : Layout Rat} {c : Constraints Rat} {p : Plan Rat}
    {F : Polynomial Rat → Polynomial Rat} {worth : (Nat → Rat) → Rat} (h : l.plan c = .ok p)
    (hedges : c.doubleCountEdges = false) (hcycles : c.doubleCountCycles = false)
    (hF : Adds (l.graph.nodeCount * l.positions) F worth)
    (hworth : ∀ x, IsBinary x →
      l.energyAt c (fun v q => x (Variable.number ⟨v, q⟩ l.positions)) =
        worth x - worth fun _ => 0) :
    ∃ m, l.generate c = .ok m ∧ (F .zero).toMatrix (l.graph.nodeCount * l.positions) = .ok m := by
  obtain ⟨m, hm, hdim, horder, hupper, henergy⟩ := exists_upperTriangular h hedges hcycles
  obtain ⟨m', hm', hdim', horder', hupper', henergy'⟩ := hF.exists_matrix
  have hsame : m = m' := by
    refine hupper.eq_of_energy hupper' horder horder' (hdim.trans hdim'.symm) fun bits hlen => ?_
    rw [henergy bits (hlen.trans hdim), henergy' bits (hlen.trans hdim),
      hworth _ (isBinary_bitAt bits)]
  exact ⟨m, hm, hsame ▸ hm'⟩

end GraphQubo.ClosedForm
