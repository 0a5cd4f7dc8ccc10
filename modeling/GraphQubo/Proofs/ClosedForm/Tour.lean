import GraphQubo.Proofs.ClosedForm.Worth
import GraphQubo.Proofs.Problem.TravelingSalesperson
import GraphQubo.Proofs.Problem.HamiltonianCycle

/-!
# GraphQubo.Proofs.ClosedForm.Tour

The closed form of a tour.

The closed form squares the deviations of every row and column from one and adds the cost
of all steps around the positions.  This is the energy that a compiled tour measures, so
the two matrices have the same energies, and the compiled one folds to the closed form.

* `ClosedForm.exists_tour` — the matrix of the closed form measures the tour energies;
* `tours_fold_to_closedForm` — the compiled matrices fold to it, or both are refused.
-/

namespace GraphQubo

open Finset

/-! ## Sets of pairs, pair by pair -/

section

variable {n P : Nat}

theorem sum_eq_sum_sum_ite (s : Finset (Fin n × Fin P)) (f : Fin n × Fin P → Rat) :
    ∑ x ∈ s, f x = ∑ v, ∑ q, if (v, q) ∈ s then f (v, q) else 0 := by
  rw [← Fintype.sum_prod_type', sum_ite_mem, univ_inter]

/-- The visits of a node as a sum of bits. -/
theorem cast_visits (s : Finset (Fin n × Fin n)) (v : Fin n) :
    (visits s v : Rat) = ∑ j, if (v, j) ∈ s then 1 else 0 := by
  rw [visits, card_filter, Nat.cast_sum, sum_eq_sum_sum_ite, sum_eq_single_of_mem v (mem_univ v)]
  · simp
  · intro w _ hwv
    simp [hwv]

/-- The crowd at a position as a sum of bits. -/
theorem cast_crowd (s : Finset (Fin n × Fin n)) (j : Fin n) :
    (crowd s j : Rat) = ∑ v, if (v, j) ∈ s then 1 else 0 := by
  rw [crowd, card_filter, Nat.cast_sum, sum_eq_sum_sum_ite, sum_comm,
    sum_eq_single_of_mem j (mem_univ j)]
  · simp
  · intro i _ hij
    simp [hij]

/-- The cost of the steps as a sum of products of bits. -/
theorem stepSum_eq (cost : Fin n → Fin n → Rat) (s : Finset (Fin n × Fin n)) :
    stepSum cost s = ∑ u, ∑ v, ∑ j, cost u v *
      ((if (u, j) ∈ s then 1 else 0) * if (v, following j) ∈ s then 1 else 0) := by
  have hinner : ∀ u j, ∑ y ∈ s, (if following j = y.2 then cost u y.1 else 0) =
      ∑ v, if (v, following j) ∈ s then cost u v else 0 := by
    intro u j
    rw [sum_eq_sum_sum_ite]
    refine sum_congr rfl fun v _ => ?_
    rw [sum_eq_single_of_mem (following j) (mem_univ _) fun r _ hr => by simp [hr.symm], if_pos rfl]
  rw [stepSum, sum_eq_sum_sum_ite]
  refine sum_congr rfl fun u _ => ?_
  rw [sum_comm]
  refine sum_congr rfl fun j _ => ?_
  rw [hinner]
  by_cases h : (u, j) ∈ s <;> simp [h]

end

namespace ClosedForm

open GraphQubo.Polynomial

/-- The cost of a step as the closed form looks it up. -/
theorem stepCost?_getD {g : Graph Rat} {u v : Nat} (a : Rat) (lengthFactor : Option Rat)
    (hu : u < g.nodeCount) (hv : v < g.nodeCount) :
    (stepCost? g a lengthFactor u v).getD 0 = g.stepCost a (lengthFactor.getD 0) u v := by
  unfold stepCost? Graph.stepCost
  simp only [Graph.hasEdge_iff hu hv, weightOrZero_eq hu hv]
  by_cases harc : g.Arc u v
  · cases lengthFactor <;> simp [harc]
  · rw [if_neg harc, if_neg harc]
    split <;> rfl

/-- The steps from `u` to `v` at all positions; one that costs nothing is not added at all. -/
def addSteps (g : Graph Rat) (a : Rat) (lengthFactor : Option Rat) (u v : Nat)
    (p : Polynomial Rat) : Polynomial Rat :=
  (stepCost? g a lengthFactor u v).elim p fun cost =>
    sumOver (List.range g.nodeCount) (fun p j =>
      p.addProduct (Variable.number ⟨u, j⟩ g.nodeCount)
        (Variable.number ⟨v, (j + 1) % g.nodeCount⟩ g.nodeCount) cost) p

/-- The steps from one node to another, as terms of the closed form. -/
theorem adds_addSteps {g : Graph Rat} {u v : Nat} (a : Rat) (lengthFactor : Option Rat)
    (hu : u < g.nodeCount) (hv : v < g.nodeCount) :
    Adds (g.nodeCount * g.nodeCount) (addSteps g a lengthFactor u v) fun x =>
      ∑ j ∈ range g.nodeCount, g.stepCost a (lengthFactor.getD 0) u v *
        (x (Variable.number ⟨u, j⟩ g.nodeCount) *
          x (Variable.number ⟨v, (j + 1) % g.nodeCount⟩ g.nodeCount)) := by
  rw [← stepCost?_getD a lengthFactor hu hv]
  unfold addSteps
  cases stepCost? g a lengthFactor u v with
  | none => exact Adds.nothing.congr fun x _ => by simp
  | some cost =>
    exact adds_sumOver_range fun j hj => Adds.addProduct (Variable.number_lt hu hj)
      (Variable.number_lt hv (Nat.mod_lt _ (Nat.zero_lt_of_lt hj))) cost

/-- What the closed form of a tour is worth: the squared deviations of its rows and columns
from one, and its steps. -/
def tourWorth (n : Nat) (a : Rat) (cost : Nat → Nat → Rat) (x : Nat → Rat) : Rat :=
  ∑ v ∈ range n, a * (1 - ∑ j ∈ range n, x (Variable.number ⟨v, j⟩ n)) ^ 2 +
    ∑ j ∈ range n, a * (1 - ∑ v ∈ range n, x (Variable.number ⟨v, j⟩ n)) ^ 2 +
    ∑ u ∈ range n, ∑ v ∈ range n, ∑ j ∈ range n, cost u v *
      (x (Variable.number ⟨u, j⟩ n) * x (Variable.number ⟨v, (j + 1) % n⟩ n))

/-- Where nothing is set, every row and every column deviates by one. -/
theorem tourWorth_zero (n : Nat) (a : Rat) (cost : Nat → Nat → Rat) :
    tourWorth n a cost (fun _ => 0) = 2 * a * n := by
  simp only [tourWorth, sum_const_zero, sub_zero, one_pow, mul_one, mul_zero, add_zero, sum_const,
    card_range, nsmul_eq_mul]
  ring

/-- Counted from there, the worth is the energy of a tour. -/
theorem tourWorth_bitAt (n : Nat) (a : Rat) (cost : Nat → Nat → Rat) (bits : List Bool) :
    tourWorth n a cost (bitAt bits) - 2 * a * n =
      tourEnergy a (fun v w : Fin n => cost v w) (occupied n n bits) := by
  have hmark : ∀ v j : Fin n, bitAt bits (Variable.number ⟨v, j⟩ n) =
      if (v, j) ∈ occupied n n bits then 1 else 0 := fun v j => bitAt_number bits (v, j)
  have hnext : ∀ v j : Fin n, bitAt bits (Variable.number ⟨v, (j + 1) % n⟩ n) =
      if (v, following j) ∈ occupied n n bits then 1 else 0 := fun v j => hmark v (following j)
  rw [tourEnergy_eq, stepSum_eq, tourWorth]
  simp only [sum_range, hmark, hnext, ← cast_visits, ← cast_crowd, mul_add, mul_sum,
    sub_sq_comm (1 : Rat)]

/-- The closed form of a tour has a matrix that measures the tour energies. -/
theorem exists_tour (g : Graph Rat) (a : Rat) (lengthFactor : Option Rat) :
    ∃ m, tour g a lengthFactor = .ok m ∧ m.order = .rowMajor ∧ m.IsUpper ∧
      m.Measures (tourEnergy a
        fun v w : Fin g.nodeCount => g.stepCost a (lengthFactor.getD 0) v w) := by
  have hnodes := adds_sumOver_range fun v hv =>
    adds_oneHot (fun j (hj : j < g.nodeCount) => Variable.number_lt (n := g.nodeCount) hv hj) a
  have hplaces := adds_sumOver_range fun j hj =>
    adds_oneHot (fun v (hv : v < g.nodeCount) => Variable.number_lt (P := g.nodeCount) hv hj) a
  have hsteps := adds_sumOver_range fun u (hu : u < g.nodeCount) =>
    adds_sumOver_range fun v (hv : v < g.nodeCount) => adds_addSteps a lengthFactor hu hv
  obtain ⟨m, hm, hdim, horder, hupper, henergy⟩ :=
    (hsteps.comp (hplaces.comp hnodes)).exists_matrix
  refine ⟨m, Eq.trans ?_ hm, horder, hupper, hdim, fun bits hlen => ?_⟩
  · -- the closed form decides on the cost of a step inside its loops
    refine congrArg (Polynomial.toMatrix · _) (congrArg (sumOver _ · _) (funext₂ fun p u =>
      congrArg (sumOver _ · p) (funext₂ fun p v => ?_)))
    unfold addSteps
    cases stepCost? g a lengthFactor u v <;> rfl
  · have hworth := tourWorth_bitAt g.nodeCount a (g.stepCost a (lengthFactor.getD 0)) bits
    rw [← tourWorth_zero] at hworth
    rw [← hworth]
    exact henergy bits hlen

end ClosedForm

/-! ## The problems -/

/-- Matrices that measure the same fold to the same. -/
theorem Matrix.Measures.toUpperTriangular_eq {n P : Nat} {m m' : Matrix Rat}
    {energyOf : Finset (Fin n × Fin P) → Rat} (h : m.Measures energyOf)
    (h' : m'.Measures energyOf) : m.toUpperTriangular = m'.toUpperTriangular := by
  refine toUpperTriangular_eq_of_energy (h.dimension.trans h'.dimension.symm) fun bits hlen => ?_
  rw [h.energy bits (hlen.trans h.dimension), h'.energy bits (hlen.trans h.dimension)]

/-- Over no node there is one position, and nothing to compile. -/
theorem hamiltonianCycle_of_nodeCount_eq_zero {g : Graph Rat} (hn : g.nodeCount = 0) :
    ∃ m, Problem.hamiltonianCycle.toMatrix g = .ok m ∧ m.dimension = 0 := by
  have hfits : g.Fits (max g.nodeCount 1) := by
    rw [Graph.Fits, hn]
    decide
  have hpos : 0 < (Problem.hamiltonianCycle.layout g).positions := by
    simp [Problem.layout, Problem.positions]
  obtain ⟨plan, hplan⟩ := (isTour_tourConstraints 1).exists_plan hpos hfits rfl rfl
    fun h => absurd rfl h
  obtain ⟨m, hm, hdim, -⟩ := exists_generate hplan
  refine ⟨m, hm, hdim.trans ?_⟩
  rw [show (Problem.hamiltonianCycle.layout g).graph.nodeCount = 0 from hn, Nat.zero_mul]

/-- The compiled matrices of tours fold to their closed forms: for the shortest tour over two
nodes or more, and for any tour over any number of nodes.  Where an edge has no weight, the
shortest tour is refused both ways, by the name of the same edge. -/
theorem tours_fold_to_closedForm {g : Graph Rat} (hfits : g.Fits g.nodeCount) :
    (2 ≤ g.nodeCount → g.FullyWeighted →
      ∃ m, (Problem.travelingSalesperson 1).toMatrix g = .ok m ∧
        (Problem.travelingSalesperson 1).closedForm g = .ok m.toUpperTriangular) ∧
    (∃ m, Problem.hamiltonianCycle.toMatrix g = .ok m ∧
      Problem.hamiltonianCycle.closedForm g = .ok m.toUpperTriangular) ∧
    (∀ e ∈ g.edges, e.weight = none → ∃ f, g.SmallestUnweighted f ∧
      (Problem.travelingSalesperson 1).toMatrix g = .error (.unweightedEdge f.source f.target) ∧
      (Problem.travelingSalesperson 1).closedForm g =
        .error (.unweightedEdge f.source f.target)) := by
  refine ⟨fun hn hweights => ?_, ?_, fun e he hnone => ?_⟩
  · obtain ⟨W, hW, -, -⟩ := Graph.exists_maxWeight hweights
    obtain ⟨m, hm, hmeasures⟩ := exists_salespersonMatrix 1 hn hfits hweights hW
    obtain ⟨m', hm', horder, hupper, hmeasures'⟩ := ClosedForm.exists_tour g (1 * W + 1) (some 1)
    refine ⟨m, hm, ?_⟩
    rw [hmeasures.toUpperTriangular_eq hmeasures', hupper.toUpperTriangular_eq_self horder,
      Problem.closedForm, ClosedForm.travelingSalesperson, hW]
    exact hm'
  · obtain ⟨m', hm', horder, hupper, hmeasures'⟩ := ClosedForm.exists_tour g 1 none
    have hclosed : Problem.hamiltonianCycle.closedForm g = .ok m'.toUpperTriangular := by
      rw [hupper.toUpperTriangular_eq_self horder]
      exact hm'
    rcases Nat.eq_zero_or_pos g.nodeCount with hn | hn
    · obtain ⟨m, hm, hdim⟩ := hamiltonianCycle_of_nodeCount_eq_zero hn
      have hdim' : m'.dimension = 0 := by rw [hmeasures'.dimension, hn]
      refine ⟨m, hm, hclosed.trans (congrArg Except.ok ?_)⟩
      refine Matrix.toUpperTriangular_eq_of_energy (hdim'.trans hdim.symm) fun bits hlen => ?_
      rw [m'.energy_eq_ok hlen, m.energy_eq_ok (hlen.trans (hdim'.trans hdim.symm)), hdim, hdim']
      rfl
    · obtain ⟨m, hm, hmeasures⟩ := exists_measures_tourEnergy
        (Problem.layout_hamiltonianCycle_of_pos hn) rfl (isTour_tourConstraints 1) hn (.inr rfl)
        hfits fun h => absurd rfl h
      exact ⟨m, hm, hclosed.trans (congrArg Except.ok (hmeasures'.toUpperTriangular_eq hmeasures))⟩
  · obtain ⟨f, hf⟩ := Graph.exists_smallestUnweighted he hnone
    have herror := Graph.maxWeight_eq_error hf
    refine ⟨f, hf, ?_, ?_⟩
    · rw [Problem.toMatrix, Problem.configuration, herror]
      rfl
    · rw [Problem.closedForm, ClosedForm.travelingSalesperson, herror]
      rfl

/-- Over two nodes a step forward and the step back around share their cells, and a loop
takes part. -/
theorem tours_fold_to_closedForm_pairWithLoop :
    (∃ m, (Problem.travelingSalesperson 1).toMatrix .pairWithLoop = .ok m ∧
      (Problem.travelingSalesperson 1).closedForm .pairWithLoop = .ok m.toUpperTriangular) ∧
    ∃ m, Problem.hamiltonianCycle.toMatrix .pairWithLoop = .ok m ∧
      Problem.hamiltonianCycle.closedForm .pairWithLoop = .ok m.toUpperTriangular := by
  obtain ⟨hshortest, hany, -⟩ := tours_fold_to_closedForm (g := .pairWithLoop) (by decide)
  exact ⟨hshortest (by decide) (by decide), hany⟩

end GraphQubo
