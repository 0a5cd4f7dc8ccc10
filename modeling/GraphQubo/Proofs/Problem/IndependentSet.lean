import Mathlib.Algebra.Order.BigOperators.Group.Finset
import Mathlib.Data.Finset.Card
import Mathlib.Tactic.Linarith
import GraphQubo.Proofs.Problem.Selection

/-!
# GraphQubo.Proofs.Problem.IndependentSet

The least energies of the independent set problem.

A selected node earns 1, and each edge within the selection costs 2.  So a selection without
an edge has minus its size as energy, and one with an edge has less energy without an end of
that edge: the end earns 1 less than the edge costs.  Dropping nodes this way ends in an
independent set, so only independent sets can have the least energy, and among those it is
the largest ones that have it.

* `energyOn_of_isIndependent`, `energyOn_erase_lt` — the energy with and without edges;
* `isIndependent_or_exists_lt` — what the dropping of nodes ends in;
* `maximumIndependentSet_isGround` — the assignments of least energy, and that energy.
-/

namespace GraphQubo

open Finset

namespace Graph

variable {g : Graph Rat} {S : Finset (Fin g.nodeCount)}

/-- No edge leads from a node of the set to another one, or to itself. -/
def IsIndependent (g : Graph Rat) (S : Finset (Fin g.nodeCount)) : Prop :=
  ∀ v ∈ S, ∀ w ∈ S, ¬g.Joined v w

instance (g : Graph Rat) (S : Finset (Fin g.nodeCount)) : Decidable (g.IsIndependent S) :=
  inferInstanceAs (Decidable (∀ _ ∈ _, _))

/-- An independent set that has as many nodes as any other one. -/
structure IsMaximumIndependent (g : Graph Rat) (S : Finset (Fin g.nodeCount)) : Prop where
  independent : g.IsIndependent S
  largest : ∀ T, g.IsIndependent T → T.card ≤ S.card

instance (g : Graph Rat) (S : Finset (Fin g.nodeCount)) : Decidable (g.IsMaximumIndependent S) :=
  decidable_of_iff (g.IsIndependent S ∧ ∀ T, g.IsIndependent T → T.card ≤ S.card)
    ⟨fun h => ⟨h.1, h.2⟩, fun h => ⟨h.1, h.2⟩⟩

/-- The empty set is independent. -/
theorem isIndependent_empty (g : Graph Rat) : g.IsIndependent ∅ := fun v hv =>
  absurd hv (notMem_empty v)

/-- There is a largest independent set, as there are finitely many. -/
theorem exists_isMaximumIndependent (g : Graph Rat) : ∃ S, g.IsMaximumIndependent S := by
  obtain ⟨S, hS, hlargest⟩ := exists_max_image (univ.filter g.IsIndependent) card
    ⟨∅, mem_filter.2 ⟨mem_univ _, g.isIndependent_empty⟩⟩
  exact ⟨S, (mem_filter.1 hS).2, fun T hT => hlargest T (mem_filter.2 ⟨mem_univ _, hT⟩)⟩

/-! ## Energies -/

/-- The strengths of the problem: 1 for a node, and 2 against an edge. -/
def independence : Placement := { placed := -1, joined := 2 }

/-- A selected node earns one, and nothing if it has a loop. -/
theorem own_independence (g : Graph Rat) (v : Nat) :
    independence.own g v = if g.Joined v v then 1 else -1 := by
  simp only [Placement.own, independence, zero_mul, add_zero]
  split <;> norm_num

/-- Two selected nodes cost two if an edge joins them. -/
theorem coupling_independence (g : Graph Rat) (v w : Nat) :
    independence.coupling g v w = if g.Joined v w then 2 else 0 := by
  simp only [Placement.coupling, independence, zero_add]

/-- The energy of an independent set is its size, negated. -/
theorem energyOn_of_isIndependent (h : g.IsIndependent S) :
    independence.energyOn g S = -S.card := by
  have hself : ∀ v ∈ S, ∀ w ∈ S, (if v ≤ w then independence.bond g v w else 0) =
      if v = w then -1 else 0 := by
    intro v hv w hw
    simp only [Placement.bond, own_independence, coupling_independence, h v hv v hv, h v hv w hw,
      if_false, Fin.val_inj]
    by_cases hvw : v = w
    · rw [if_pos hvw.le, if_pos hvw]
    · simp only [hvw, if_false, ite_self]
  rw [Placement.energyOn, pairSum, sum_congr rfl fun v hv => sum_congr rfl (hself v hv)]
  simp only [sum_ite_eq, sum_ite_mem, inter_self, sum_const, nsmul_eq_mul, mul_neg_one]

/-- A node that an edge joins to the selection costs more than it earns. -/
theorem energyOn_erase_lt {v w : Fin g.nodeCount} (hv : v ∈ S) (hw : w ∈ S)
    (hjoined : g.Joined v w) : independence.energyOn g (S.erase v) < independence.energyOn g S := by
  have hnonneg : ∀ u ∈ S.erase v, 0 ≤ independence.coupling g v u := by
    intro u _
    rw [coupling_independence]
    split <;> norm_num
  have hgain : 0 < independence.own g v + ∑ u ∈ S.erase v, independence.coupling g v u := by
    by_cases hwv : w = v
    · subst hwv
      have hsum := sum_nonneg hnonneg
      rw [own_independence, if_pos hjoined]
      linarith
    · have hsum := single_le_sum hnonneg (mem_erase.2 ⟨hwv, hw⟩)
      have hown : -1 ≤ independence.own g v := by
        rw [own_independence]
        split <;> norm_num
      rw [coupling_independence, if_pos hjoined] at hsum
      linarith
  rw [Placement.energyOn_erase hv]
  linarith

/-- Every selection is independent, or an independent one has less energy. -/
theorem isIndependent_or_exists_lt (S : Finset (Fin g.nodeCount)) :
    g.IsIndependent S ∨
      ∃ T, g.IsIndependent T ∧ independence.energyOn g T < independence.energyOn g S := by
  induction S using Finset.strongInduction with
  | H S ih =>
    by_cases hfree : g.IsIndependent S
    · exact .inl hfree
    simp only [IsIndependent, not_forall, not_not] at hfree
    obtain ⟨v, hv, w, hw, hjoined⟩ := hfree
    have hless := energyOn_erase_lt hv hw hjoined
    rcases ih (S.erase v) (erase_ssubset hv) with hT | ⟨T, hT, hlessT⟩
    · exact .inr ⟨S.erase v, hT, hless⟩
    · exact .inr ⟨T, hT, hlessT.trans hless⟩

/-- The selections of least energy are the largest independent sets. -/
theorem least_iff_isMaximumIndependent :
    (∀ T, independence.energyOn g S ≤ independence.energyOn g T) ↔ g.IsMaximumIndependent S := by
  have hexchange : ∀ T, (∃ I : { I // g.IsIndependent I }, T = I.1) ∨
      ∃ I : { I // g.IsIndependent I },
        independence.energyOn g I.1 < independence.energyOn g T := by
    intro T
    rcases isIndependent_or_exists_lt T with hT | ⟨I, hI, hless⟩
    · exact .inl ⟨⟨T, hT⟩, rfl⟩
    · exact .inr ⟨⟨I, hI⟩, hless⟩
  have hcard : ∀ {I J}, g.IsIndependent I → g.IsIndependent J →
      (independence.energyOn g I ≤ independence.energyOn g J ↔ J.card ≤ I.card) := by
    intro I J hI hJ
    rw [energyOn_of_isIndependent hI, energyOn_of_isIndependent hJ, neg_le_neg_iff, Nat.cast_le]
  rw [least_iff_of_exchange hexchange]
  constructor
  · rintro ⟨⟨I, hI⟩, rfl, hleast⟩
    exact ⟨hI, fun T hT => (hcard hI hT).1 (hleast ⟨T, hT⟩)⟩
  · rintro ⟨hS, hlargest⟩
    exact ⟨⟨S, hS⟩, rfl, fun J => (hcard hS J.2).2 (hlargest J.1 J.2)⟩

end Graph

/-- The assignments of least energy select the largest independent sets, and minus the number
of nodes of such a set is that energy. -/
theorem maximumIndependentSet_isGround {g : Graph Rat} (hfits : g.Fits 1) :
    ∃ m, Problem.maximumIndependentSet.toMatrix g = .ok m ∧ m.dimension = g.nodeCount ∧
      (∀ bits, m.IsGround bits ↔
        bits.length = g.nodeCount ∧ g.IsMaximumIndependent (selected g.nodeCount bits)) ∧
      (∃ bits, m.IsGround bits) ∧
      ∀ bits, m.IsGround bits → m.energy bits = .ok (-(selected g.nodeCount bits).card) := by
  obtain ⟨m, hm, hmeasures⟩ :=
    exists_selectionMatrix (p := .maximumIndependentSet) (s := Graph.independence) rfl rfl hfits
  have hground : ∀ bits, m.IsGround bits ↔
      bits.length = g.nodeCount ∧ g.IsMaximumIndependent (selected g.nodeCount bits) := by
    intro bits
    rw [hmeasures.isGround_iff, Graph.least_iff_isMaximumIndependent]
  refine ⟨m, hm, hmeasures.dimension, hground, ?_, fun bits hbits => ?_⟩
  · obtain ⟨S, hS⟩ := g.exists_isMaximumIndependent
    obtain ⟨bits, hlen, rfl⟩ := exists_selects S
    exact ⟨bits, (hground bits).2 ⟨hlen, hS⟩⟩
  · obtain ⟨hlen, hmax⟩ := (hground bits).1 hbits
    rw [hmeasures.energy hlen, Graph.energyOn_of_isIndependent hmax.independent]

/-- The node with the loop cannot be selected, so the other one is. -/
theorem maximumIndependentSet_isGround_pairWithLoop :
    ∃ m, Problem.maximumIndependentSet.toMatrix .pairWithLoop = .ok m ∧
      m.IsGround [false, true] ∧ ¬m.IsGround [true, false] ∧
      m.energy [false, true] = .ok (-1) := by
  obtain ⟨m, hm, -, hground, -, henergy⟩ :=
    maximumIndependentSet_isGround (g := .pairWithLoop) (by decide)
  have hother := (hground [false, true]).2 (by decide)
  exact ⟨m, hm, hother, mt (hground [true, false]).1 (by decide), henergy _ hother⟩

end GraphQubo
