import Mathlib.Algebra.Order.BigOperators.Group.Finset
import Mathlib.Algebra.Order.BigOperators.Ring.Finset
import GraphQubo.Proofs.Compile.Energy
import GraphQubo.Proofs.Problem.Accepted

/-!
# GraphQubo.Proofs.Problem.Path

The energy of a path between two nodes.

Over one position more than steps, the constraints of a path with strength `a` reward every
variable, the start node at the first position and the terminal node at the last one twice.
They punish a node at two positions and two nodes at one position.  A step is seen only if
it ascends: along an edge it earns its weight, without an edge it costs `a`.  A step down to
a smaller node brings nothing either way.

* `energyOf_eq_pathEnergy` — what compiles to a path has this energy;
* `pathEnergy_eq` — the energy by fixed ends, repeated nodes, crowded positions and steps;
* `pathEnergy_placement` — the energy where every position has one node;
* `exists_pathMatrix` — the longest path problem compiles, and its matrix measures these
  energies.
-/

namespace GraphQubo

open Finset

/-! ## What the constraints of a path add up to -/

/-- The strengths of a path: `a` for every violation, and a reward for each weight. -/
def pathStrength (a : Rat) : Penalty → Rat
  | .diagonal | .startNodeScore | .terminalNodeScore => -a
  | .onePositionManyNodes => 2 * a
  | .oneNodeManyPositions | .invalidTraversal | .invalidTraversalSelf => a
  | .edgeWeightsFactor => -1
  | _ => 0

/-- Steps are written in one direction, and all strengths are those of a path. -/
structure Constraints.IsPath (c : Constraints Rat) (a : Rat) : Prop where
  edges : c.doubleCountEdges = false
  strength : ∀ f, c.strength f = pathStrength a f

namespace Graph

variable (g : Graph Rat)

/-- What a step brings: only an ascending one, or one that stays, is seen at all. -/
def stepScore (a : Rat) (v w : Nat) : Rat :=
  if v < w then if g.Arc v w then -g.arcWeight v w else a else if v = w then a else 0

/-- One position more than steps, between two fixed nodes. -/
def pathLayout (s t steps : Nat) : Layout Rat := ⟨g, steps + 1, some s, some t⟩

end Graph

section Coupling

variable {n steps : Nat} (a : Rat) (s t : Fin n) (score : Fin n → Fin n → Rat)

/-- Whether a pair has the start node first or the terminal node last. -/
def IsEnd (x : Fin n × Fin (steps + 1)) : Prop := x = (s, 0) ∨ x = (t, Fin.last steps)

/-- The coupling of two pairs in a path. -/
def pathCoupling (x y : Fin n × Fin (steps + 1)) : Rat :=
  (if x = y then -a else 0) + (if x = y ∧ x = (s, 0) then -a else 0) +
    (if x = y ∧ x = (t, Fin.last steps) then -a else 0) +
    (if x.1 = y.1 ∧ x.2 < y.2 then a else 0) +
    (if x.2 = y.2 ∧ x.1 < y.1 then 2 * a else 0) +
    if (y.2 : Nat) = x.2 + 1 then score x.1 y.1 else 0

/-- On the diagonal only the reward of a variable counts, and of the two ends. -/
theorem pathCoupling_self (x : Fin n × Fin (steps + 1)) :
    pathCoupling a s t score x x =
      -a + (if x = (s, 0) then -a else 0) + if x = (t, Fin.last steps) then -a else 0 := by
  simp [pathCoupling]

/-- The energy of a set of pairs in a path. -/
def pathEnergy (X : Finset (Fin n × Fin (steps + 1))) : Rat :=
  pairSum (pathCoupling a s t score) X

end Coupling

section Meaning

variable {g : Graph Rat} {c : Constraints Rat} {a : Rat} {steps : Nat} (s t : Fin g.nodeCount)

/-- The diagonal cell of a variable, summed over the families of the configuration. -/
theorem meaning_variable_path (hc : c.IsPath a) (x : Fin g.nodeCount × Fin (steps + 1)) :
    (g.pathLayout s t steps).meaning c x.1 x.2 x.1 x.2 =
      -a + (if x = (s, 0) then -a else 0) + if x = (t, Fin.last steps) then -a else 0 := by
  have hfirst : ((s : Nat) = x.1 ∧ (x.2 : Nat) = 0) ↔ x = (s, 0) := by
    rw [Prod.ext_iff, Fin.ext_iff, Fin.ext_iff]
    exact and_congr_left' eq_comm
  have hlast : ((t : Nat) = x.1 ∧ (x.2 : Nat) = steps) ↔ x = (t, Fin.last steps) := by
    rw [Prod.ext_iff, Fin.ext_iff, Fin.ext_iff]
    exact and_congr_left' eq_comm
  simp only [Layout.meaning, Layout.variableMeaning, Graph.pathLayout, if_true, hc.strength,
    pathStrength, Option.some.injEq, Nat.add_sub_cancel, hfirst, hlast, ite_self, mul_zero]
  ring

/-- Without loops every cell of the configuration is the coupling of its two variables. -/
theorem meaning_eq_pathCoupling (hc : c.IsPath a) (hloops : ∀ v : Fin g.nodeCount, ¬g.Arc v v)
    (x y : Fin g.nodeCount × Fin (steps + 1)) :
    (g.pathLayout s t steps).meaning c x.1 x.2 y.1 y.2 =
      pathCoupling a s t (fun v w => g.stepScore a v w) x y := by
  by_cases hxy : x = y
  · subst hxy
    rw [meaning_variable_path s t hc, pathCoupling_self]
  · obtain ⟨v, q⟩ := x
    obtain ⟨w, r⟩ := y
    by_cases hvw : v = w
    · subst hvw
      have hqr : ¬q = r := fun h => hxy (h ▸ rfl)
      have hqr' : ¬(q : Nat) = r := fun h => hqr (Fin.ext h)
      simp only [Layout.meaning, Layout.nodeMeaning, Graph.pathLayout, hc.strength, pathStrength,
        pathCoupling, Graph.stepScore, hxy, hqr, hqr', hloops, if_true, if_false, false_and,
        true_and, and_false, lt_irrefl, Fin.lt_def, zero_add, add_zero]
      by_cases hlt : (q : Nat) < r
      · simp [hlt]
      · have hstep : ¬(r : Nat) = q + 1 := by omega
        simp [hlt, hstep]
    · have hvw' : ¬(v : Nat) = w := fun h => hvw (Fin.ext h)
      by_cases hqr : q = r
      · subst hqr
        have hstep : ¬(q : Nat) = q + 1 := by omega
        simp only [Layout.meaning, Layout.positionMeaning, Graph.pathLayout, hc.strength,
          pathStrength, pathCoupling, hxy, hvw, hvw', hstep, if_true, if_false, false_and,
          true_and, ite_self, lt_irrefl, Fin.lt_def, zero_add, add_zero]
      · have hqr' : ¬(q : Nat) = r := fun h => hqr (Fin.ext h)
        simp only [Layout.meaning, Layout.stepMeaning, Layout.cycleMeaning, Graph.pathLayout,
          hc.strength, hc.edges, pathStrength, pathCoupling, Graph.stepScore, hxy, hvw, hvw',
          hqr, hqr', if_false, false_and, ite_self, zero_mul, zero_add, Bool.false_eq_true,
          or_false, neg_one_mul]

/-- The energy of a set of variables is the sum of their couplings. -/
theorem energyOf_eq_pathEnergy (hc : c.IsPath a) (hloops : ∀ v : Fin g.nodeCount, ¬g.Arc v v)
    (X : Finset (Fin g.nodeCount × Fin (steps + 1))) :
    (g.pathLayout s t steps).energyOf c X =
      pathEnergy a s t (fun v w => g.stepScore a v w) X :=
  congrArg (fun q => pairSum q X) (funext₂ (meaning_eq_pathCoupling s t hc hloops))

end Meaning

/-! ## The energy by ends, repeats, crowds and steps -/

section Energy

variable {n steps : Nat} (a : Rat) (s t : Fin n) (score : Fin n → Fin n → Rat)

/-- How many of the two ends the set holds. -/
def endsHeld (X : Finset (Fin n × Fin (steps + 1))) : Nat :=
  (if (s, 0) ∈ X then 1 else 0) + if (t, Fin.last steps) ∈ X then 1 else 0

/-- How often a node of the set comes again at a later position. -/
def repeats (X : Finset (Fin n × Fin (steps + 1))) : Nat :=
  relatedPairs (fun x y => x.1 = y.1 ∧ x.2 < y.2) X

/-- How many pairs of nodes share a position. -/
def crowding (X : Finset (Fin n × Fin (steps + 1))) : Nat :=
  relatedPairs (fun x y => x.2 = y.2 ∧ x.1 < y.1) X

/-- The scores of all steps between pairs of the set. -/
def scoreSum (X : Finset (Fin n × Fin (steps + 1))) : Rat :=
  ∑ x ∈ X, ∑ y ∈ X, if (y.2 : Nat) = x.2 + 1 then score x.1 y.1 else 0

theorem sum_sum_ite_eq_and {α : Type} [DecidableEq α] (X : Finset α) (z : α) (k : Rat) :
    ∑ x ∈ X, ∑ y ∈ X, (if x = y ∧ x = z then k else 0) = if z ∈ X then k else 0 := by
  have hinner : ∀ x ∈ X, ∑ y ∈ X, (if x = y ∧ x = z then k else 0) = if x = z then k else 0 := by
    intro x hx
    by_cases hxz : x = z
    · simp only [hxz, and_true, if_true]
      rw [sum_ite_eq, if_pos (hxz ▸ hx)]
    · simp only [hxz, and_false, if_false, sum_const_zero]
  rw [sum_congr rfl hinner, sum_ite_eq']

/-- The energy counts repeated nodes, crowded positions, the steps taken and the ends that are held.
-/
theorem pathEnergy_eq (X : Finset (Fin n × Fin (steps + 1))) :
    pathEnergy a s t score X =
      a * (repeats X + 2 * crowding X) + scoreSum score X - a * (X.card + endsHeld s t X) := by
  have hself : ∑ x ∈ X, ∑ y ∈ X, (if x = y then -a else 0) = -a * X.card := by
    have hone : ∀ x ∈ X, ∑ y ∈ X, (if x = y then -a else 0) = -a := by
      intro x hx
      rw [sum_ite_eq, if_pos hx]
    rw [sum_congr rfl hone, sum_const, nsmul_eq_mul, mul_comm]
  have hends : (if (s, 0) ∈ X then -a else 0) + (if (t, Fin.last steps) ∈ X then -a else 0) =
      -a * (endsHeld s t X : Rat) := by
    unfold endsHeld
    split <;> split <;> push_cast <;> ring
  simp only [pathEnergy, pairSum, pathCoupling, sum_add_distrib]
  rw [hself, sum_sum_ite_eq_and, sum_sum_ite_eq_and, sum_sum_ite_eq_relatedPairs,
    sum_sum_ite_eq_relatedPairs, ← scoreSum, ← repeats, ← crowding]
  linarith

/-! ## One node at each position -/

variable {s t} in
/-- A placement holds an end if its first or its last node is the one asked for. -/
theorem endsHeld_placement (π : Fin (steps + 1) → Fin n) :
    endsHeld s t (placement π) =
      (if π 0 = s then 1 else 0) + if π (Fin.last steps) = t then 1 else 0 := by
  simp only [endsHeld, mem_placement]

/-- A placement repeats no node if and only if it is injective. -/
theorem repeats_placement_eq_zero_iff {π : Fin (steps + 1) → Fin n} :
    repeats (placement π) = 0 ↔ Function.Injective π := by
  simp only [repeats, relatedPairs_eq_zero_iff, mem_placement]
  constructor
  · intro h i j hij
    rcases lt_trichotomy i j with hlt | heq | hgt
    · exact absurd ⟨hij, hlt⟩ (h (π i, i) rfl (π j, j) rfl)
    · exact heq
    · exact absurd ⟨hij.symm, hgt⟩ (h (π j, j) rfl (π i, i) rfl)
  · rintro hinj x hx y hy ⟨hnode, hlt⟩
    exact hlt.ne (hinj ((hx.trans hnode).trans hy.symm))

/-- A placement puts one node at each position. -/
theorem crowding_placement (π : Fin (steps + 1) → Fin n) : crowding (placement π) = 0 := by
  simp only [crowding, relatedPairs_eq_zero_iff, mem_placement]
  rintro x hx y hy ⟨hposition, hlt⟩
  exact hlt.ne (hx.symm.trans ((congrArg π hposition).trans hy))

/-- A placement of `steps` steps sets one variable more than it has steps. -/
theorem card_placement (π : Fin (steps + 1) → Fin n) : (placement π).card = steps + 1 := by
  rw [placement, card_image_of_injective _ fun _ _ h => congrArg Prod.snd h, card_univ,
    Fintype.card_fin]

/-- The score of a sequence of nodes: that of its steps. -/
def walkScore (π : Fin (steps + 1) → Fin n) : Rat :=
  ∑ i : Fin steps, score (π i.castSucc) (π i.succ)

/-- The steps of a placement score what the walk through its nodes does. -/
theorem scoreSum_placement (π : Fin (steps + 1) → Fin n) :
    scoreSum score (placement π) = walkScore score π := by
  have hnext : ∀ (i : Fin steps) (j : Fin (steps + 1)),
      (j : Nat) = i.castSucc + 1 ↔ i.succ = j := by
    intro i j
    rw [Fin.ext_iff, Fin.val_succ, Fin.val_castSucc, eq_comm]
  have hlast : ∀ j : Fin (steps + 1), ¬(j : Nat) = (Fin.last steps) + 1 := by
    intro j
    have := j.isLt
    rw [Fin.val_last]
    omega
  simp only [scoreSum, sum_placement, walkScore]
  rw [Fin.sum_univ_castSucc]
  simp only [hnext, hlast, if_false, sum_const_zero, add_zero, sum_ite_eq, mem_univ, if_true]

/-- The energy of a sequence of nodes: `a` for each of its pairs, its right ends and its
repeats, and the score of its steps. -/
theorem pathEnergy_placement (π : Fin (steps + 1) → Fin n) :
    pathEnergy a s t score (placement π) =
      a * repeats (placement π) + walkScore score π -
        a * (steps + 1 + endsHeld s t (placement π)) := by
  rw [pathEnergy_eq, crowding_placement, card_placement, scoreSum_placement]
  push_cast
  ring

end Energy

/-! ## From the problem to the energy -/

/-- What the longest path problem sets for strength `a`. -/
def pathConstraints (a : Rat) : Constraints Rat :=
  Constraints.empty.setAll
    [(.diagonal, -a), (.startNodeScore, -a), (.terminalNodeScore, -a),
      (.onePositionManyNodes, 2 * a), (.oneNodeManyPositions, a), (.edgeWeightsFactor, -1),
      (.invalidTraversal, a), (.invalidTraversalSelf, a)]

theorem isPath_pathConstraints (a : Rat) : (pathConstraints a).IsPath a where
  edges := rfl
  strength f := by
    rw [Constraints.strength_eq]
    cases f <;> simp [pathConstraints, Constraints.setAll, Constraints.weights_set, pathStrength]

/-- With room for its matrix and weights on its edges, a path between two nodes is accepted. -/
theorem exists_plan_path {g : Graph Rat} {steps : Nat} (s t : Fin g.nodeCount)
    (hfits : g.Fits (steps + 1)) (hweights : g.FullyWeighted) (a : Rat) :
    ∃ p, (g.pathLayout s t steps).plan (pathConstraints a) = .ok p :=
  Layout.exists_plan steps.succ_pos hfits (fun _ hv => Option.some.inj hv ▸ s.isLt)
    (fun _ hv => Option.some.inj hv ▸ t.isLt) (fun _ h => by cases h) (fun _ h => by cases h)
    fun _ => hweights

/-- With room for its matrix, weights on its edges and no loops, the longest path problem
compiles with strength `steps · W`, where `W` is the largest weight. -/
theorem exists_pathMatrix {g : Graph Rat} {W : Rat} {steps : Nat} (s t : Fin g.nodeCount)
    (hfits : g.Fits (steps + 1)) (hloops : ∀ v : Fin g.nodeCount, ¬g.Arc v v)
    (hweights : g.FullyWeighted) (hW : g.maxWeight = .ok W) :
    ∃ m, (Problem.longestPath s t steps).toMatrix g = .ok m ∧
      m.Measures fun X : Finset (Fin g.nodeCount × Fin (steps + 1)) =>
        pathEnergy (steps * W) s t (fun v w => g.stepScore (steps * W) v w) X := by
  obtain ⟨plan, hplan⟩ := exists_plan_path s t hfits hweights (steps * W)
  obtain ⟨m, hm, hmeasures⟩ := exists_measures hplan
  refine ⟨m, ?_, ?_⟩
  · rw [Problem.toMatrix, Problem.configuration, hW]
    exact hm
  · rwa [funext (energyOf_eq_pathEnergy s t (isPath_pathConstraints (steps * W)) hloops)]
      at hmeasures

end GraphQubo
