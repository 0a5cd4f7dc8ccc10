import GraphQubo.Proofs.ClosedForm.Worth
import GraphQubo.Proofs.Problem.HamiltonianCycle
import GraphQubo.Proofs.Problem.Placement

/-!
# GraphQubo.Proofs.ClosedForm.Placement

The closed forms of the problems that have no steps.

The closed forms sum over the edges, over the neighbours of every node or over all pairs of
nodes; the compiled constraints over nodes and ascending pairs.  Over a graph without loops
in which two nodes have one edge at most these are the same sums, term by term.

* `ClosedForm.exists_placement`, `ClosedForm.exists_selection` — a closed form that is worth
  the energies of a problem without steps has its matrix;
* `ClosedForm.adds_edgeCovers`, `ClosedForm.adds_conflicts`, `ClosedForm.adds_strangers` —
  what the sums of the closed forms are worth, pair by pair;
* `placements_eq_closedForm` — all selections and colorings.
-/

namespace GraphQubo

open Finset GraphQubo.Polynomial

namespace Placement

/-- The energy at a point with one variable for each node. -/
def selectionEnergy (s : Placement) (g : Graph Rat) (x : Nat → Rat) : Rat :=
  ∑ v ∈ range g.nodeCount, s.placed * x v +
    ∑ v ∈ range g.nodeCount, ∑ w ∈ range g.nodeCount,
      if v < w then
        (if g.Joined v w then s.degree * (x v + x w) else 0) + s.coupling g v w * (x v * x w)
      else 0

/-- With one position the energy is that of a selection. -/
theorem energyAt_one (s : Placement) (g : Graph Rat) (x : Nat → Rat) :
    s.energyAt g 1 (fun v q => x (Variable.number ⟨v, q⟩ 1)) = s.selectionEnergy g x := by
  simp only [energyAt, selectionEnergy, range_one, sum_singleton, Variable.number, Nat.mul_one,
    Nat.lt_irrefl, if_false, mul_zero, add_zero]

/-- The empty assignment has no energy. -/
theorem energyAt_zero (s : Placement) (g : Graph Rat) (P : Nat) :
    s.energyAt g P (fun _ _ => 0) = 0 := by
  simp only [energyAt, mul_zero, add_zero, sum_const_zero, ite_self]

end Placement

namespace ClosedForm

section

variable {g : Graph Rat} {p : Problem Rat} {s : Placement} {F : Polynomial Rat → Polynomial Rat}

/-- A closed form that is worth the energies of a placement, but for a constant, has the
matrix of the problem. -/
theorem exists_placement (h : p.placement? g = some s) (hsimple : g.IsSimple)
    (hpos : 0 < p.positions g) (hfits : g.Fits (p.positions g)) {k : Rat}
    (hF : Adds (g.nodeCount * p.positions g) F fun x =>
      s.energyAt g (p.positions g) (fun v q => x (Variable.number ⟨v, q⟩ (p.positions g))) + k) :
    ∃ m, p.toMatrix g = .ok m ∧ (F .zero).toMatrix (g.nodeCount * p.positions g) = .ok m := by
  obtain ⟨c, plan, hconf, hc, hplan⟩ := Problem.exists_plan_placement h hpos hfits
  obtain ⟨m, hm, hclosed⟩ := exists_closedForm hplan hc.edges hc.cycles hF fun x _ => by
    rw [energyAt_eq_placement hc hsimple, s.energyAt_zero, zero_add, add_sub_cancel_right]
    rfl
  refine ⟨m, ?_, hclosed⟩
  rw [Problem.toMatrix, hconf]
  exact hm

/-- The same with one variable for each node. -/
theorem exists_selection (h : p.placement? g = some s) (hsimple : g.IsSimple)
    (hone : p.positions g = 1) (hfits : g.Fits (p.positions g)) {k : Rat}
    (hF : Adds g.nodeCount F fun x => s.selectionEnergy g x + k) :
    ∃ m, p.toMatrix g = .ok m ∧ (F .zero).toMatrix g.nodeCount = .ok m := by
  have hside : g.nodeCount * p.positions g = g.nodeCount := by rw [hone, Nat.mul_one]
  rw [← hside] at hF
  obtain ⟨m, hm, hclosed⟩ := exists_placement h hsimple (hone ▸ Nat.one_pos) hfits
    (hF.congr fun x _ => by rw [hone, s.energyAt_one])
  exact ⟨m, hm, hside ▸ hclosed⟩

end

/-! ## Parts of the closed forms -/

section

variable {g : Graph Rat} {n : Nat}

/-- A linear part for each node. -/
theorem adds_nodes (k : Rat) :
    Adds g.nodeCount (sumOver g.nodes fun p v => p.addLinear v k) fun x =>
      ∑ v ∈ range g.nodeCount, k * x v :=
  adds_sumOver_range fun _ hv => Adds.addLinear hv k

/-- A product for each edge. -/
theorem adds_edgeProducts (hsimple : g.IsSimple) (number : Nat → Nat)
    (hnumber : ∀ v < g.nodeCount, number v < n) (k : Rat) :
    Adds n (sumOver g.edges fun p e => p.addProduct (number e.source) (number e.target) k)
      fun x => ∑ v ∈ range g.nodeCount, ∑ w ∈ range g.nodeCount,
        if v < w then if g.Joined v w then k * (x (number v) * x (number w)) else 0 else 0 :=
  adds_sumOver_edges hsimple (fun v w x => k * (x (number v) * x (number w)))
    (fun e he =>
      Adds.addProduct (hnumber _ (g.bounded e he).1) (hnumber _ (g.bounded e he).2) k)
    fun v w x => by ring

/-- A constant, a linear part for both ends and a product, for each edge. -/
theorem adds_edgeCovers (hsimple : g.IsSimple) (k a b : Rat) :
    Adds g.nodeCount (sumOver g.edges fun p e =>
      (((p.addConstant k).addLinear e.source a).addLinear e.target a).addProduct e.source
        e.target b) fun x =>
      ∑ v ∈ range g.nodeCount, ∑ w ∈ range g.nodeCount,
        if v < w then if g.Joined v w then k + a * x v + a * x w + b * (x v * x w) else 0
        else 0 :=
  adds_sumOver_edges hsimple (fun v w x => k + a * x v + a * x w + b * (x v * x w))
    (fun e he =>
      (Adds.addProduct (g.bounded e he).1 (g.bounded e he).2 b).comp
        ((Adds.addLinear (g.bounded e he).2 a).comp
          ((Adds.addLinear (g.bounded e he).1 a).comp (Adds.addConstant k))))
    fun v w x => by ring

/-- One color for each node, told by the colors of a node and by pairs of them. -/
theorem adds_oneColorEach (a : Rat) (n colors : Nat) :
    Adds (n * colors) (oneColorEach a n colors) fun x =>
      ∑ v ∈ range n, (-a * ∑ q ∈ range colors, x (Variable.number ⟨v, q⟩ colors) +
        2 * a * ∑ q ∈ range colors, ∑ r ∈ range colors, if q < r then
          x (Variable.number ⟨v, q⟩ colors) * x (Variable.number ⟨v, r⟩ colors) else 0) +
        n * a := by
  have hrows := adds_sumOver_range (n := n * colors) (k := n) fun v hv =>
    adds_oneHot (k := colors) (fun _ hq => Variable.number_lt hv hq) a
  refine hrows.congr fun x hx => ?_
  have hconstant : (n * a : Rat) = ∑ _v ∈ range n, a := by
    rw [sum_const, card_range, nsmul_eq_mul]
  rw [hconstant, ← sum_add_distrib]
  refine sum_congr rfl fun v _ => ?_
  have hsquare := sq_sum_eq colors fun q => hx (Variable.number ⟨v, q⟩ colors)
  linear_combination a * hsquare

end

/-! ## Selections -/

section

variable {g : Graph Rat}

/-- The matrix of the largest cut is its closed form. -/
theorem maxCut_eq (hsimple : g.IsSimple) (hfits : g.Fits 1) :
    ∃ m, Problem.maxCut.toMatrix g = .ok m ∧ maxCut g = .ok m := by
  have hends := adds_sumOver_edges hsimple (n := g.nodeCount)
    (fun v w x => (-1 * x v + -1 * x w) + 2 * (x v * x w))
    (fun e he => (Adds.addProduct (g.bounded e he).1 (g.bounded e he).2 2).comp
      ((Adds.addLinear (g.bounded e he).2 (-1)).comp (Adds.addLinear (g.bounded e he).1 (-1))))
    fun v w x => by ring
  refine exists_selection (p := .maxCut) (k := 0) rfl hsimple rfl hfits (hends.congr fun x _ => ?_)
  simp only [Placement.selectionEnergy, Placement.coupling, mul_add, ite_add_zero, ite_mul,
    zero_mul, sum_const_zero, zero_add, add_zero]

theorem maximumIndependentSet_eq (hsimple : g.IsSimple) (hfits : g.Fits 1) :
    ∃ m, Problem.maximumIndependentSet.toMatrix g = .ok m ∧ maximumIndependentSet g = .ok m := by
  refine exists_selection (p := .maximumIndependentSet) (k := 0) rfl hsimple rfl hfits
    (((adds_edgeProducts hsimple id (fun _ hv => hv) 2).comp (adds_nodes (-1))).congr
      fun x _ => ?_)
  simp only [Placement.selectionEnergy, Placement.coupling, id, ite_mul, zero_mul, ite_self,
    zero_add, add_zero]

theorem minimumVertexCover_eq (hsimple : g.IsSimple) (hfits : g.Fits 1) :
    ∃ m, Problem.minimumVertexCover.toMatrix g = .ok m ∧ minimumVertexCover g = .ok m := by
  refine exists_selection (p := .minimumVertexCover) rfl hsimple rfl hfits
    (k := ∑ v ∈ range g.nodeCount, ∑ w ∈ range g.nodeCount,
      if v < w then if g.Joined v w then 2 else 0 else 0)
    (((adds_edgeCovers hsimple 2 (-2) 2).comp (adds_nodes 1)).congr fun x _ => ?_)
  simp only [Placement.selectionEnergy, Placement.coupling, mul_add, ite_add_zero, ite_mul,
    zero_mul, zero_add, sum_add_distrib]
  ring

theorem densestSubgraph_eq (hsimple : g.IsSimple) (hfits : g.Fits 1) (k : Nat) :
    ∃ m, (Problem.densestSubgraph k).toMatrix g = .ok m ∧ densestSubgraph g k = .ok m := by
  have hsize := adds_sumOver_range fun u (hu : u < g.nodeCount) =>
    (adds_sumOver_between fun v (_ : u + 1 ≤ v) hv =>
      Adds.addProduct hu hv (2 * g.nodeCount : Rat)).comp
      (Adds.addLinear hu (g.nodeCount - 2 * g.nodeCount * k))
  refine exists_selection (p := .densestSubgraph k) rfl hsimple rfl hfits
    (k := g.nodeCount * (k * k : Nat)) (((adds_edgeProducts hsimple id (fun _ hv => hv) (-1)).comp
      (hsize.comp (Adds.addConstant (g.nodeCount * (k * k : Nat))))).congr fun x _ => ?_)
  simp only [Placement.selectionEnergy, Placement.coupling, id, add_mul, ite_add_zero, ite_mul,
    zero_mul, ite_self, zero_add, sum_add_distrib, Nat.succ_le_iff]
  ring

end

/-! ## Colorings -/

section

variable {g : Graph Rat} {colors : Nat}

/-- Two joined nodes of one color cost twice, from both of their ends. -/
theorem adds_conflicts (hsimple : g.IsSimple) (k : Rat) :
    Adds (g.nodeCount * colors) (sumOver g.nodes fun p v =>
      sumOver (g.neighbors v .any) (fun p w =>
        sumOver (List.range colors) (fun p i =>
          p.addProduct (Variable.number ⟨v, i⟩ colors) (Variable.number ⟨w, i⟩ colors) k) p) p)
      fun x => ∑ v ∈ range g.nodeCount, ∑ w ∈ range g.nodeCount,
        if v < w then if g.Joined v w then 2 * k * ∑ i ∈ range colors,
          x (Variable.number ⟨v, i⟩ colors) * x (Variable.number ⟨w, i⟩ colors) else 0 else 0 := by
  have hneighbors := adds_sumOver_range fun v (hv : v < g.nodeCount) =>
    adds_sumOver_neighbors hv fun w hw => adds_sumOver_range fun i hi =>
      Adds.addProduct (Variable.number_lt hv hi) (Variable.number_lt (P := colors) hw hi) k
  refine hneighbors.congr fun x _ => (hsimple.sum_neighbors_eq _).trans ?_
  refine sum_congr rfl fun v _ => sum_congr rfl fun w _ => ?_
  refine if_congr Iff.rfl (if_congr Iff.rfl ?_ rfl) rfl
  rw [← sum_add_distrib, mul_sum]
  exact sum_congr rfl fun i _ => by ring

/-- Two nodes of one color cost, unless an edge joins them: pairs of nodes are counted by
`S · (S - 1) / 2` for `S` nodes of the color, and joined pairs are taken back. -/
theorem adds_strangers (hsimple : g.IsSimple) {i : Nat} (hi : i < colors) :
    Adds (g.nodeCount * colors) (fun p =>
      sumOver g.edges (fun p e => p.addProduct (Variable.number ⟨e.source, i⟩ colors)
          (Variable.number ⟨e.target, i⟩ colors) (-2)) <|
        sumOver (List.range g.nodeCount) (fun p u =>
          sumOver (List.range g.nodeCount) (fun p v =>
            p.addProduct (Variable.number ⟨u, i⟩ colors) (Variable.number ⟨v, i⟩ colors) 1)
            (p.addLinear (Variable.number ⟨u, i⟩ colors) (-1))) p)
      fun x => ∑ v ∈ range g.nodeCount, ∑ w ∈ range g.nodeCount,
        if v < w then if g.Joined v w then 0 else
          2 * (x (Variable.number ⟨v, i⟩ colors) * x (Variable.number ⟨w, i⟩ colors))
        else 0 := by
  have hpairs := adds_sumOver_range (n := g.nodeCount * colors) fun u hu =>
    (adds_sumOver_range fun v hv =>
      Adds.addProduct (Variable.number_lt hu hi) (Variable.number_lt (P := colors) hv hi) 1).comp
      (Adds.addLinear (Variable.number_lt hu hi) (-1))
  have hedges := adds_edgeProducts hsimple (fun v => Variable.number ⟨v, i⟩ colors)
    (fun _ hv => Variable.number_lt hv hi) (-2)
  refine (hedges.comp hpairs).congr fun x hx => ?_
  simp only [sum_add_distrib]
  rw [sum_sum_eq_lt]
  -- at binary points the squares of the double sum cancel the linear parts
  simp only [hx _, neg_one_mul, one_mul, sum_neg_distrib, neg_add_cancel_left]
  simp only [← sum_add_distrib]
  refine sum_congr rfl fun v _ => sum_congr rfl fun w _ => ?_
  by_cases hvw : v < w
  · by_cases hj : g.Joined v w
    · simp only [hvw, hj, if_true]
      ring
    · simp only [hvw, hj, if_true, if_false]
      ring
  · simp only [hvw, if_false, add_zero]

/-- The matrix of a colouring is its closed form. -/
theorem graphColoring_eq (hsimple : g.IsSimple) (hpos : 0 < colors) (hfits : g.Fits colors) :
    ∃ m, (Problem.graphColoring colors).toMatrix g = .ok m ∧ graphColoring g colors = .ok m := by
  refine exists_placement (p := .graphColoring colors) rfl hsimple hpos hfits
    (k := g.nodeCount * 4) (((adds_conflicts hsimple 2).comp
      (adds_oneColorEach 4 g.nodeCount colors)).congr fun x _ => ?_)
  have hpositions : (Problem.graphColoring colors : Problem Rat).positions g = colors := rfl
  -- `ring` does not look into sums
  have hnumbers : (2 : Rat) * 2 = 4 ∧ (2 : Rat) * 4 = 8 := by norm_num
  simp only [Placement.energyAt, Placement.coupling, hpositions, hnumbers, ite_mul, zero_mul,
    ite_self, zero_add]
  ring

theorem cliqueCover_eq (hsimple : g.IsSimple) (hpos : 0 < colors) (hfits : g.Fits colors) :
    ∃ m, (Problem.cliqueCover colors).toMatrix g = .ok m ∧ cliqueCover g colors = .ok m := by
  refine exists_placement (p := .cliqueCover colors) rfl hsimple hpos hfits
    (k := g.nodeCount * 1) (((adds_sumOver_range fun _ hi => adds_strangers hsimple hi).comp
      (adds_oneColorEach 1 g.nodeCount colors)).congr fun x _ => ?_)
  have hpositions : (Problem.cliqueCover colors : Problem Rat).positions g = colors := rfl
  simp only [Placement.energyAt, Placement.coupling, hpositions, sum_pairs_comm colors,
    sum_ite_irrel, sum_const_zero, mul_sum, ite_mul, zero_mul, ite_self, zero_add, mul_one]
  ring

end

/-- Wherever a problem without steps has a position and room, both matrices are there and
are the same. -/
theorem exists_toMatrix_of_room {g : Graph Rat} {p : Problem Rat} (hp : p.hasSteps = false)
    (hsimple : g.IsSimple) (hpos : 0 < p.positions g) (hfits : g.Fits (p.positions g)) :
    ∃ m, p.toMatrix g = .ok m ∧ p.closedForm g = .ok m := by
  cases p with
  | longestPath | travelingSalesperson | hamiltonianCycle => cases hp
  | graphColoring => exact graphColoring_eq hsimple hpos hfits
  | cliqueCover => exact cliqueCover_eq hsimple hpos hfits
  | maxCut => exact maxCut_eq hsimple hfits
  | maximumIndependentSet => exact maximumIndependentSet_eq hsimple hfits
  | minimumVertexCover => exact minimumVertexCover_eq hsimple hfits
  | densestSubgraph k => exact densestSubgraph_eq hsimple hfits k

end ClosedForm

/-- Over a graph without loops and with one edge at most between two nodes, selections and
colorings compile wherever there are a position and room, and to the matrix of their closed
form. -/
theorem placements_eq_closedForm {g : Graph Rat} {p : Problem Rat} (hp : p.hasSteps = false)
    (hsimple : g.IsSimple) :
    ((∃ m, p.toMatrix g = .ok m) ↔ 0 < p.positions g ∧ g.Fits (p.positions g)) ∧
      ∀ m, p.toMatrix g = .ok m → p.closedForm g = .ok m := by
  have hroom : ∀ m, p.toMatrix g = .ok m → 0 < p.positions g ∧ g.Fits (p.positions g) := by
    intro m hm
    obtain ⟨c, -, hgenerate⟩ := bind_eq_ok.1 hm
    obtain ⟨plan, hplan, -⟩ := bind_eq_ok.1 hgenerate
    exact Layout.room_of_plan hplan
  refine ⟨⟨fun ⟨m, hm⟩ => hroom m hm, fun ⟨hpos, hfits⟩ => ?_⟩, fun m hm => ?_⟩
  · obtain ⟨m, hm, -⟩ := ClosedForm.exists_toMatrix_of_room hp hsimple hpos hfits
    exact ⟨m, hm⟩
  · obtain ⟨hpos, hfits⟩ := hroom m hm
    obtain ⟨m', hm', hclosed⟩ := ClosedForm.exists_toMatrix_of_room hp hsimple hpos hfits
    rw [hm] at hm'
    exact Except.ok.inj hm' ▸ hclosed

/-- Three colors for a directed ring, whose edges have no weight and need none. -/
theorem placements_eq_closedForm_oneWayRing :
    ∃ m, (Problem.graphColoring 3).toMatrix .oneWayRing = .ok m ∧
      (Problem.graphColoring 3).closedForm .oneWayRing = .ok m := by
  obtain ⟨hiff, hclosed⟩ := placements_eq_closedForm (g := .oneWayRing)
    (p := .graphColoring 3) rfl (by decide)
  obtain ⟨m, hm⟩ := hiff.2 ⟨by decide, by decide⟩
  exact ⟨m, hm, hclosed m hm⟩

end GraphQubo
