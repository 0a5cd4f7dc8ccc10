import Mathlib.Logic.Equiv.Finset
import Mathlib.Tactic.LinearCombination
import GraphQubo.Proofs.Compile.Energy
import GraphQubo.Proofs.Problem.Placement

/-!
# GraphQubo.Proofs.Problem.Selection

Problems that select nodes.

Such a problem has a single position, so an assignment has one bit for each node and sets a
set of nodes.  Its energy is what each node of the set brings, and the coupling of every two.

* `exists_selectionMatrix` — the matrix of such a problem measures sets of nodes;
* `Matrix.MeasuresNodes.isGround_iff` — an assignment of least energy selects a set of least
  energy;
* `Placement.energyOn_erase` — what a selection loses with one of its nodes;
* `Placement.energyOn_eq_edges`, `exists_edgeMatrix` — the energy by nodes, pairs and edges.
-/

namespace GraphQubo

open Finset

/-! ## Selected nodes -/

/-- The assignment selects the node. -/
def Selects (bits : List Bool) (v : Nat) : Prop := bits[v]? = some true

instance (bits : List Bool) (v : Nat) : Decidable (Selects bits v) :=
  inferInstanceAs (Decidable (_ = _))

section

variable {n : Nat}

/-- The nodes that an assignment selects. -/
def selected (n : Nat) (bits : List Bool) : Finset (Fin n) := univ.filter fun v => Selects bits v

/-- The selected nodes are those whose bit is set. -/
theorem mem_selected {bits : List Bool} {v : Fin n} : v ∈ selected n bits ↔ Selects bits v := by
  simp [selected]

/-- Pairs of a node and the only position are nodes. -/
def nodesOf : Finset (Fin n × Fin 1) ≃ Finset (Fin n) :=
  (Equiv.prodUnique (Fin n) (Fin 1)).finsetCongr

/-- The nodes of a set of variables with one position. -/
theorem mem_nodesOf {s : Finset (Fin n × Fin 1)} {v : Fin n} : v ∈ nodesOf s ↔ (v, 0) ∈ s := by
  rw [nodesOf, Equiv.finsetCongr_apply, mem_map_equiv]
  rfl

/-- With one position the occupied variables are the selected nodes. -/
theorem nodesOf_occupied (bits : List Bool) : nodesOf (occupied n 1 bits) = selected n bits := by
  ext v
  rw [mem_nodesOf, mem_selected, occupied, mem_filter, and_iff_right (mem_univ _), Selects]
  simp only [Variable.number, Fin.val_zero, Nat.mul_one, Nat.add_zero]

theorem bitAt_eq_selects (bits : List Bool) (v : Nat) :
    bitAt bits v = if Selects bits v then 1 else 0 := bitAt_eq bits v

/-- Summing over the selected nodes is summing over all nodes with their bits. -/
theorem sum_selected (bits : List Bool) (f : Nat → Rat) :
    ∑ v ∈ selected n bits, f v = ∑ v ∈ range n, bitAt bits v * f v := by
  rw [selected, sum_filter, sum_range]
  simp only [bitAt_eq_selects, ite_mul, one_mul, zero_mul]

/-- The size of a selection as a sum of bits. -/
theorem card_selected (bits : List Bool) :
    ((selected n bits).card : Rat) = ∑ v ∈ range n, bitAt bits v := by
  have hone := sum_selected (n := n) bits fun _ => 1
  simpa only [sum_const, nsmul_eq_mul, mul_one] using hone

/-- Every set of nodes is what some assignment selects. -/
theorem exists_selects (S : Finset (Fin n)) : ∃ bits, bits.length = n ∧ selected n bits = S := by
  refine ⟨bitsOf (nodesOf.symm S), (length_bitsOf _).trans (Nat.mul_one n), ?_⟩
  rw [← nodesOf_occupied, occupied_bitsOf, Equiv.apply_symm_apply]

namespace Matrix

/-- The matrix is over `n` nodes, and an assignment has the energy of the nodes that it
selects. -/
def MeasuresNodes (m : Matrix Rat) (energyOf : Finset (Fin n) → Rat) : Prop :=
  m.Measures fun s => energyOf (nodesOf s)

namespace MeasuresNodes

variable {m : Matrix Rat} {energyOf : Finset (Fin n) → Rat}

/-- A matrix that measures sets of nodes has a row for each node. -/
theorem dimension (h : m.MeasuresNodes energyOf) : m.dimension = n :=
  (Measures.dimension h).trans (Nat.mul_one n)

/-- Its energy at an assignment is that of the selected nodes. -/
theorem energy (h : m.MeasuresNodes energyOf) {bits : List Bool} (hlen : bits.length = n) :
    m.energy bits = .ok (energyOf (selected n bits)) := by
  rw [← nodesOf_occupied]
  exact Measures.energy h bits (hlen.trans (Nat.mul_one n).symm)

/-- The assignments of least energy select the sets of least energy. -/
theorem isGround_iff (h : m.MeasuresNodes energyOf) {bits : List Bool} :
    m.IsGround bits ↔
      bits.length = n ∧ ∀ S, energyOf (selected n bits) ≤ energyOf S := by
  rw [Measures.isGround_iff h, Nat.mul_one, nodesOf_occupied,
    nodesOf.surjective.forall (p := fun S => energyOf (selected n bits) ≤ energyOf S)]

end MeasuresNodes

end Matrix

end

/-! ## The energy of a selection -/

namespace Placement

variable {s : Placement} {g : Graph Rat} {S : Finset (Fin g.nodeCount)}

/-- The energy of a set of nodes: what each of them brings, and each two in ascending order. -/
def energyOn (s : Placement) (g : Graph Rat) (S : Finset (Fin g.nodeCount)) : Rat :=
  pairSum (fun v w : Fin g.nodeCount => if v ≤ w then s.bond g v w else 0) S

/-- The coupling of two nodes does not depend on their order. -/
theorem coupling_comm (s : Placement) (g : Graph Rat) (v w : Nat) :
    s.coupling g v w = s.coupling g w v := by
  simp only [coupling, Graph.joined_comm (v := v)]

/-- Without one of its nodes a selection loses what that node brings, and its couplings to the
others. -/
theorem energyOn_erase {v : Fin g.nodeCount} (hv : v ∈ S) :
    s.energyOn g S =
      s.energyOn g (S.erase v) + (s.own g v + ∑ w ∈ S.erase v, s.coupling g v w) := by
  have hpair : ∀ w ∈ S.erase v, ((if v ≤ w then s.bond g v w else 0) +
      if w ≤ v then s.bond g w v else 0) = s.coupling g v w := by
    intro w hw
    have hne : (v : Nat) ≠ w := Fin.val_ne_of_ne (ne_of_mem_erase hw).symm
    rcases lt_or_gt_of_ne hne with hlt | hgt
    · rw [if_pos (Fin.le_def.2 hlt.le), if_neg (Fin.le_def.not.2 hlt.not_ge), bond, if_neg hne,
        add_zero]
    · rw [if_neg (Fin.le_def.not.2 hgt.not_ge), if_pos (Fin.le_def.2 hgt.le), bond,
        if_neg hne.symm, zero_add, coupling_comm]
  rw [energyOn, pairSum_erase _ hv, field, if_pos le_rfl, bond, if_pos rfl,
    sum_congr rfl hpair, energyOn]

/-! ## By nodes, pairs and edges -/

/-- The energy of a selection in terms of its bits. -/
theorem energyOn_selected (bits : List Bool) :
    s.energyOn g (selected g.nodeCount bits) =
      ∑ v ∈ range g.nodeCount, s.own g v * bitAt bits v +
        ∑ v ∈ range g.nodeCount, ∑ w ∈ range g.nodeCount,
          if v < w then bitAt bits v * bitAt bits w * s.coupling g v w else 0 := by
  have hinner : ∀ v : Fin g.nodeCount, ∑ w ∈ selected g.nodeCount bits,
      (if v ≤ w then s.bond g v w else 0) = ∑ w ∈ range g.nodeCount,
        bitAt bits w * if (v : Nat) ≤ w then s.bond g v w else 0 := fun v =>
    sum_selected bits fun w => if (v : Nat) ≤ w then s.bond g v w else 0
  have houter := sum_selected (n := g.nodeCount) bits fun v => ∑ w ∈ range g.nodeCount,
    bitAt bits w * if v ≤ w then s.bond g v w else 0
  have hordered := sum_sum_le_eq g.nodeCount fun v w =>
    bitAt bits v * (bitAt bits w * s.bond g v w)
  rw [energyOn, pairSum, sum_congr rfl fun v _ => hinner v, houter]
  simp only [mul_sum, mul_ite, mul_zero, hordered]
  refine congrArg₂ _ (sum_congr rfl fun v _ => ?_) (sum_congr rfl fun v _ =>
    sum_congr rfl fun w _ => ?_)
  · rw [bond, if_pos rfl, ← mul_assoc, bitAt_mul_self, mul_comm]
  · refine ite_congr rfl (fun hlt => ?_) fun _ => rfl
    rw [bond, if_neg hlt.ne, mul_assoc]

/-- What an edge brings: its own strength where both ends are selected, and the degree it gives
to each selected end.  A loop has one end. -/
def onEdge (s : Placement) (bits : List Bool) (v w : Nat) : Rat :=
  s.joined * (bitAt bits v * bitAt bits w) +
    s.degree * if v = w then bitAt bits v else bitAt bits v + bitAt bits w

theorem onEdge_self (s : Placement) (bits : List Bool) (v : Nat) :
    s.onEdge bits v v = (s.joined + s.degree) * bitAt bits v := by
  rw [onEdge, bitAt_mul_self, if_pos rfl, add_mul]

/-- What an edge adds does not depend on the order of its ends. -/
theorem onEdge_comm (s : Placement) (bits : List Bool) (v w : Nat) :
    s.onEdge bits v w = s.onEdge bits w v := by
  by_cases hvw : v = w
  · rw [hvw]
  · rw [onEdge, onEdge, if_neg hvw, if_neg (Ne.symm hvw), mul_comm (bitAt bits v),
      add_comm (bitAt bits v)]

/-- Two different nodes, with the degrees they have from each other, bring the price of a pair
and what the edge brings that joins them. -/
theorem coupling_add_degrees (hapart : s.apart = 0) (bits : List Bool) {v w : Nat} (hvw : v ≠ w) :
    bitAt bits v * bitAt bits w * s.coupling g v w +
        (if g.Joined v w then s.degree * bitAt bits v + s.degree * bitAt bits w else 0) =
      s.crowded * (bitAt bits v * bitAt bits w) +
        if g.Joined v w then s.onEdge bits v w else 0 := by
  rw [coupling, onEdge, hapart, if_neg hvw]
  split <;> ring

/-- Where strangers do not count, the energy is a sum over the selected nodes, their pairs and
the edges. -/
theorem energyOn_eq_edges (hsingle : g.IsSingle) (hapart : s.apart = 0) (bits : List Bool) :
    s.energyOn g (selected g.nodeCount bits) =
      s.placed * (selected g.nodeCount bits).card +
        s.crowded *
          (((selected g.nodeCount bits).card ^ 2 - (selected g.nodeCount bits).card) / 2) +
        (g.edges.map fun e => s.onEdge bits e.source e.target).sum := by
  have hsquare := sq_sum_eq g.nodeCount fun v => bitAt_mul_self bits v
  have hdegrees := g.sum_degree_mul fun v => s.degree * bitAt bits v
  have hloop : ∀ v, (if g.Joined v v then s.onEdge bits v v else 0) =
      (if g.Joined v v then s.joined * bitAt bits v else 0) +
        if g.Joined v v then s.degree * bitAt bits v else 0 := by
    intro v
    rw [onEdge_self, add_mul, ite_add_zero]
  have hpair : ∀ v w, (if v < w then bitAt bits v * bitAt bits w * s.coupling g v w else 0) +
      (if v < w then
        if g.Joined v w then s.degree * bitAt bits v + s.degree * bitAt bits w else 0 else 0) =
      s.crowded * (if v < w then bitAt bits v * bitAt bits w else 0) +
        if v < w then if g.Joined v w then s.onEdge bits v w else 0 else 0 := by
    intro v w
    by_cases hlt : v < w
    · simp only [hlt, if_true, coupling_add_degrees hapart bits hlt.ne]
    · simp only [hlt, if_false, mul_zero]
  have hpairs := sum_congr rfl fun v (_ : v ∈ range g.nodeCount) =>
    sum_congr rfl fun w (_ : w ∈ range g.nodeCount) => hpair v w
  simp only [sum_add_distrib, ← mul_sum] at hpairs
  rw [energyOn_selected, hsingle.sum_edges_eq (s.onEdge_comm bits), card_selected, hsquare]
  simp only [own_mul, hloop, sum_add_distrib, hdegrees, ← mul_sum]
  linear_combination hpairs

end Placement

/-! ## From the problem to the energy -/

/-- A placement configuration has the energy of its selection. -/
theorem energyOf_eq_energyOn {g : Graph Rat} {start terminal : Option Nat} {c : Constraints Rat}
    {s : Placement} (hc : c.IsPlacement s) :
    (⟨g, 1, start, terminal⟩ : Layout Rat).energyOf c = fun X => s.energyOn g (nodesOf X) := by
  funext X
  rw [Placement.energyOn, nodesOf, Equiv.finsetCongr_apply, pairSum_map]
  refine pairSum_congr (fun x y => ?_) X
  have hposition : ∀ q : Fin 1, (q : Nat) = 0 := fun q => Nat.lt_one_iff.1 q.isLt
  simp only [meaning_placement hc, hposition, if_true]
  rfl

/-- A problem with a single position that has room compiles, to a matrix that measures sets of
nodes. -/
theorem exists_selectionMatrix {g : Graph Rat} {p : Problem Rat} {s : Placement}
    (h : p.placement? g = some s) (hone : p.positions g = 1) (hfits : g.Fits 1) :
    ∃ m, p.toMatrix g = .ok m ∧ m.MeasuresNodes (s.energyOn g) := by
  obtain ⟨c, plan, hconf, hc, hplan⟩ :=
    Problem.exists_plan_placement h (hone ▸ Nat.one_pos) (hone ▸ hfits)
  have hlayout : p.layout g = ⟨g, 1, p.startNode, p.terminalNode⟩ := by rw [Problem.layout, hone]
  obtain ⟨m, hm, hmeasures⟩ := exists_measures hplan
  refine ⟨m, ?_, ?_⟩
  · rw [Problem.toMatrix, hconf]
    exact hm
  · rw [hlayout] at hmeasures
    rwa [energyOf_eq_energyOn hc] at hmeasures

/-- Where strangers do not count and no two nodes have two edges, its energies are sums over the
selected nodes, their pairs and the edges. -/
theorem exists_edgeMatrix {g : Graph Rat} {p : Problem Rat} {s : Placement}
    (h : p.placement? g = some s) (hone : p.positions g = 1) (hfits : g.Fits 1)
    (hsingle : g.IsSingle) (hapart : s.apart = 0) :
    ∃ m, p.toMatrix g = .ok m ∧ m.dimension = g.nodeCount ∧
      ∀ bits, bits.length = g.nodeCount → m.energy bits = .ok (
        s.placed * (selected g.nodeCount bits).card +
          s.crowded *
            (((selected g.nodeCount bits).card ^ 2 - (selected g.nodeCount bits).card) / 2) +
          (g.edges.map fun e => s.onEdge bits e.source e.target).sum) := by
  obtain ⟨m, hm, hmeasures⟩ := exists_selectionMatrix h hone hfits
  refine ⟨m, hm, hmeasures.dimension, fun bits hlen => ?_⟩
  rw [hmeasures.energy hlen, Placement.energyOn_eq_edges hsingle hapart]

end GraphQubo
