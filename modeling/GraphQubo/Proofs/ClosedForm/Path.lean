import GraphQubo.Proofs.ClosedForm.Worth
import GraphQubo.Proofs.Problem.Path

/-!
# GraphQubo.Proofs.ClosedForm.Path

The closed form of a path.

The closed form rewards the ends, asks for one node at each position and one position for
each node, and scores the steps between ordered pairs of nodes, loops among them.  The
compiled constraints of a path split the same score between the couplings of one node and
those of two nodes.  Neither writes below the diagonal, so the two matrices are the same.

* `energyAt_path` — the energy of the compiled path, in the parts of the closed form;
* `ClosedForm.adds_pathEnds`, `ClosedForm.adds_pathSteps` — what these parts are worth;
* `longestPath_eq_closedForm` — the two matrices.
-/

namespace GraphQubo

open Finset GraphQubo.Polynomial

theorem sum_sum_ite_and {n P s p : Nat} (hs : s < n) (hp : p < P) (f : Nat → Nat → Rat) :
    ∑ v ∈ range n, ∑ q ∈ range P, (if s = v ∧ q = p then f v q else 0) = f s p := by
  simp only [ite_and, sum_ite_irrel, sum_const_zero, sum_ite_eq, sum_ite_eq', mem_range, hs, hp,
    if_true]

/-! ## The energy of the compiled path -/

/-- The score of a step: the weight of the edge for reward, the strength as penalty where
there is none. -/
def Graph.edgeScore (g : Graph Rat) (a : Rat) (v w : Nat) : Rat :=
  if g.Arc v w then -g.arcWeight v w else a

section Energy

variable {g : Graph Rat} {c : Constraints Rat} {a : Rat} {s t steps : Nat} {y : Nat → Nat → Rat}

/-- What the variables of one node add to the energy of a path configuration. -/
theorem nodePart_path (hc : c.IsPath a) (v : Nat) :
    (g.pathLayout s t steps).nodePart c y v =
      ∑ q ∈ range (steps + 1), ((if s = v ∧ q = 0 then -a * y v q else 0) +
        (if t = v ∧ q = steps then -a * y v q else 0) + -a * y v q) +
      ∑ q ∈ range (steps + 1), ∑ r ∈ range (steps + 1),
        (if q < r then a * (y v q * y v r) else 0) +
      g.edgeScore a v v * ∑ q ∈ range steps, y v q * y v (q + 1) := by
  have hvariable : ∀ q, (g.pathLayout s t steps).variableMeaning c v q * y v q =
      (if s = v ∧ q = 0 then -a * y v q else 0) +
        (if t = v ∧ q = steps then -a * y v q else 0) + -a * y v q := by
    intro q
    simp only [Layout.variableMeaning, Graph.pathLayout, hc.strength, pathStrength,
      Option.some.injEq, Nat.add_sub_cancel, ite_self, mul_zero, add_zero, add_mul, ite_mul,
      zero_mul]
  have hnode : ∀ q r, (if q < r then
      (g.pathLayout s t steps).nodeMeaning c v q r * (y v q * y v r) else 0) =
        (if q < r then a * (y v q * y v r) else 0) +
          if r = q + 1 then g.edgeScore a v v * (y v q * y v (q + 1)) else 0 := by
    intro q r
    simp only [Layout.nodeMeaning, Graph.pathLayout, hc.strength, pathStrength, neg_one_mul,
      zero_mul, ite_self, add_zero, Graph.edgeScore]
    by_cases hnext : r = q + 1
    · subst hnext
      simp only [Nat.lt_succ_self, if_true, add_mul]
    · simp only [hnext, if_false, add_zero]
  have hpositions : (g.pathLayout s t steps).positions = steps + 1 := rfl
  simp only [Layout.nodePart, hpositions, hvariable, hnode, sum_add_distrib, sum_next, mul_sum,
    Nat.add_sub_cancel]
  ring

/-- What the variables of two nodes add to it. -/
theorem pairPart_path (hc : c.IsPath a) (v w : Nat) :
    (g.pathLayout s t steps).pairPart c y v w =
      (if v < w then 2 * a * ∑ q ∈ range (steps + 1), y v q * y w q else 0) +
        if v < w then g.edgeScore a v w * ∑ q ∈ range steps, y v q * y w (q + 1) else 0 := by
  simp only [Layout.pairPart, Layout.positionMeaning, Layout.stepMeaning, Layout.cycleMeaning,
    Graph.pathLayout, hc.edges, hc.strength, pathStrength, Bool.false_eq_true, or_false, ite_self,
    zero_mul, add_zero, neg_one_mul, Nat.add_sub_cancel, ite_mul, Graph.edgeScore]

/-- The energy of a path: its ends, one node at each position, one position for each node,
and the scores of its steps. -/
theorem energyAt_path (hc : c.IsPath a) (hs : s < g.nodeCount) (ht : t < g.nodeCount) :
    (g.pathLayout s t steps).energyAt c y =
      -a * y s 0 + -a * y t steps +
      ∑ q ∈ range (steps + 1), ∑ v ∈ range g.nodeCount, (-a * y v q +
        ∑ w ∈ range g.nodeCount, if v < w then 2 * a * (y v q * y w q) else 0) +
      ∑ v ∈ range g.nodeCount, ∑ q ∈ range (steps + 1), ∑ r ∈ range (steps + 1),
        (if q < r then a * (y v q * y v r) else 0) +
      ∑ v ∈ range g.nodeCount, ∑ w ∈ range g.nodeCount,
        if v ≤ w then ∑ q ∈ range steps, g.edgeScore a v w * (y v q * y w (q + 1)) else 0 := by
  have hgraph : (g.pathLayout s t steps).graph.nodeCount = g.nodeCount := rfl
  have hstart := sum_sum_ite_and (P := steps + 1) hs (Nat.succ_pos steps) fun v q => -a * y v q
  have hterminal := sum_sum_ite_and (P := steps + 1) ht (Nat.lt_succ_self steps)
    fun v q => -a * y v q
  have hcrowds : ∑ q ∈ range (steps + 1), ∑ v ∈ range g.nodeCount, ∑ w ∈ range g.nodeCount,
      (if v < w then 2 * a * (y v q * y w q) else 0) =
        ∑ v ∈ range g.nodeCount, ∑ w ∈ range g.nodeCount,
          if v < w then 2 * a * ∑ q ∈ range (steps + 1), y v q * y w q else 0 := by
    rw [sum_pairs_comm]
    simp only [sum_ite_irrel, sum_const_zero, mul_sum]
  have hdiagonal : ∑ q ∈ range (steps + 1), ∑ v ∈ range g.nodeCount, -a * y v q =
      ∑ v ∈ range g.nodeCount, ∑ q ∈ range (steps + 1), -a * y v q := sum_comm
  rw [sum_sum_le_eq]
  simp only [Layout.energyAt, hgraph, nodePart_path hc, pairPart_path hc, ite_add_zero,
    ite_ne_ite_lt, sum_add_distrib, hstart, hterminal, hcrowds, hdiagonal, mul_sum]
  ring

end Energy

/-! ## The worth of the closed form -/

namespace ClosedForm

variable {g : Graph Rat} {n k s t steps : Nat} (a : Rat)

/-- The rewards of the two ends, as terms of the closed form. -/
theorem adds_pathEnds (hs : s < n) (ht : t < n) :
    Adds (n * (steps + 1)) (pathEnds a s t steps) fun x =>
      -a * x (Variable.number ⟨s, 0⟩ (steps + 1)) +
        -a * x (Variable.number ⟨t, steps⟩ (steps + 1)) :=
  (Adds.addLinear (Variable.number_lt ht (Nat.lt_succ_self steps)) (-a)).comp
    (Adds.addLinear (Variable.number_lt hs (Nat.succ_pos steps)) (-a))

/-- The penalty of two nodes at one position, as terms of the closed form. -/
theorem adds_onePerPosition :
    Adds (n * k) (onePerPosition a n k) fun x =>
      ∑ q ∈ range k, ∑ v ∈ range n, (-a * x (Variable.number ⟨v, q⟩ k) +
        ∑ w ∈ range n, if v < w then
          2 * a * (x (Variable.number ⟨v, q⟩ k) * x (Variable.number ⟨w, q⟩ k)) else 0) :=
  adds_sumOver_range fun _ hq => adds_sumOver_range fun _ hv =>
    (adds_sumOver_between fun _ _ hw =>
      Adds.addProduct (Variable.number_lt hv hq) (Variable.number_lt hw hq) (2 * a)).comp
      (Adds.addLinear (Variable.number_lt hv hq) (-a))

/-- The penalty of one node at two positions, as terms of the closed form. -/
theorem adds_onePerNode :
    Adds (n * k) (onePerNode a n k) fun x =>
      ∑ v ∈ range n, ∑ q ∈ range k, ∑ r ∈ range k,
        if q < r then a * (x (Variable.number ⟨v, q⟩ k) * x (Variable.number ⟨v, r⟩ k)) else 0 :=
  adds_sumOver_range fun _ hv => adds_sumOver_range fun _ hq =>
    adds_sumOver_between fun _ _ hr =>
      Adds.addProduct (Variable.number_lt hv hq) (Variable.number_lt hv hr) a

/-- The score of a step as the closed form looks it up. -/
theorem edgeScore_eq {v w : Nat} (hv : v < g.nodeCount) (hw : w < g.nodeCount) :
    (if g.hasEdge v w then -weightOrZero g v w else a) = g.edgeScore a v w := by
  simp only [Graph.hasEdge_iff hv hw, weightOrZero_eq hv hw, Graph.edgeScore]

/-- The score of each step, as terms of the closed form. -/
theorem adds_pathSteps :
    Adds (g.nodeCount * (steps + 1)) (pathSteps g a (steps + 1)) fun x =>
      ∑ v ∈ range g.nodeCount, ∑ w ∈ range g.nodeCount,
        if v ≤ w then ∑ q ∈ range steps, g.edgeScore a v w *
          (x (Variable.number ⟨v, q⟩ (steps + 1)) * x (Variable.number ⟨w, q + 1⟩ (steps + 1)))
        else 0 := by
  refine adds_sumOver_range fun v hv => adds_sumOver_between fun w _ hw => ?_
  rw [← edgeScore_eq a hv hw]
  exact adds_sumOver_range fun q hq =>
    Adds.addProduct (Variable.number_lt hv (Nat.lt_succ_of_lt hq))
      (Variable.number_lt hw (Nat.succ_lt_succ hq)) _

end ClosedForm

/-- Where every edge has a weight, the matrix of the longest path problem is its closed form,
whatever its loops and whichever its two ends. -/
theorem longestPath_eq_closedForm {g : Graph Rat} {s t steps : Nat} (hs : s < g.nodeCount)
    (ht : t < g.nodeCount) (hfits : g.Fits (steps + 1)) (hweights : g.FullyWeighted) :
    ∃ m, (Problem.longestPath s t steps).toMatrix g = .ok m ∧
      (Problem.longestPath s t steps).closedForm g = .ok m := by
  obtain ⟨W, hW, -, -⟩ := Graph.exists_maxWeight hweights
  obtain ⟨plan, hplan⟩ := exists_plan_path ⟨s, hs⟩ ⟨t, ht⟩ hfits hweights (steps * W)
  obtain ⟨m, hm, hclosed⟩ := ClosedForm.exists_closedForm hplan rfl rfl
    ((ClosedForm.adds_pathSteps _).comp ((ClosedForm.adds_onePerNode _).comp
      ((ClosedForm.adds_onePerPosition _).comp (ClosedForm.adds_pathEnds _ hs ht)))) fun x _ => by
      refine (energyAt_path (isPath_pathConstraints (steps * W)) hs ht).trans ?_
      simp only [mul_zero, add_zero, sum_const_zero, ite_self, sub_zero]
      rfl
  refine ⟨m, ?_, ?_⟩
  · rw [Problem.toMatrix, Problem.configuration, hW]
    exact hm
  · rw [Problem.closedForm, ClosedForm.longestPath, hW]
    exact hclosed

/-- A loop at the start: a step may stay there, and earns the weight of the loop. -/
theorem longestPath_eq_closedForm_pairWithLoop :
    ∃ m, (Problem.longestPath 0 1 2).toMatrix .pairWithLoop = .ok m ∧
      (Problem.longestPath 0 1 2).closedForm .pairWithLoop = .ok m :=
  longestPath_eq_closedForm (g := .pairWithLoop) (by decide) (by decide) (by decide) (by decide)

end GraphQubo
