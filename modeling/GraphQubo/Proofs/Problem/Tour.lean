import Mathlib.Algebra.Order.BigOperators.Group.Finset
import Mathlib.Algebra.Order.BigOperators.Ring.Finset
import GraphQubo.Proofs.Compile.Around
import GraphQubo.Proofs.Problem.Accepted

/-!
# GraphQubo.Proofs.Problem.Tour

The energy of a closed tour through all nodes.

Over as many positions as nodes, the constraints of a tour with strength `a` punish every
node that is not visited exactly once, every position that does not hold exactly one node,
and every step without an edge; a step along an edge costs its weight times a factor `b`.
The energy of a set of pairs is `a` times the squared deviations plus the cost of all steps
in it, less `2·a·n`.

* `energyOf_eq_tourEnergy` — what compiles to a tour has this energy;
* `tourEnergy_eq` — the energy by deviations and steps;
* `tourEnergy_perm` — the energy of a permutation: the cost of its steps, less `2·a·n`;
* `exists_tourMatrix` — a problem with the layout and the constraints of a tour compiles,
  and its matrix measures these energies.
-/

namespace GraphQubo

open Finset

/-! ## What the constraints of a tour add up to -/

/-- The strengths of a tour: `a` for every violation, `b` for the length. -/
def tourStrength (a b : Rat) : Penalty → Rat
  | .diagonal => -2 * a
  | .oneNodeManyPositions | .onePositionManyNodes => 2 * a
  | .invalidTraversal | .invalidTraversalCycles => a
  | .edgeWeightsFactor | .edgeWeightsCyclesFactor => b
  | _ => 0

/-- Both directions of a step are written, and all strengths are those of a tour. -/
structure Constraints.IsTour (c : Constraints Rat) (a b : Rat) : Prop where
  edges : c.doubleCountEdges = true
  cycles : c.doubleCountCycles = true
  strength : ∀ f, c.strength f = tourStrength a b f

/-- The strength of a family that is set is not zero. -/
theorem Constraints.IsTour.ne_zero_of_sets {c : Constraints Rat} {a b : Rat} (hc : c.IsTour a b)
    {f : Penalty} (h : c.Sets f) : tourStrength a b f ≠ 0 := by
  rw [← hc.strength f]
  exact strength_ne_zero h

/-- In a tour no position comes first. -/
theorem Constraints.IsTour.isCyclic {c : Constraints Rat} {a b : Rat} (hc : c.IsTour a b) :
    c.IsCyclic where
  start := Bool.eq_false_of_not_eq_true fun h => hc.ne_zero_of_sets (isEnabled_iff.1 h) rfl
  terminal := Bool.eq_false_of_not_eq_true fun h => hc.ne_zero_of_sets (isEnabled_iff.1 h) rfl
  staying := Bool.eq_false_of_not_eq_true fun h => hc.ne_zero_of_sets (isEnabled_iff.1 h) rfl
  walked := weight_eq_of_strength_eq (by rw [hc.strength, hc.strength]; rfl)
  jumped := weight_eq_of_strength_eq (by rw [hc.strength, hc.strength]; rfl)
  flags := hc.edges.trans hc.cycles.symm

/-- The cost of a step: its weight times `b` along an edge, `a` between two nodes that no
edge joins, and nothing for staying at a node without a loop. -/
def Graph.stepCost (g : Graph Rat) (a b : Rat) (v w : Nat) : Rat :=
  if g.Arc v w then b * g.arcWeight v w else if v = w then 0 else a

/-- With strengths that are not negative no step has a negative cost. -/
theorem Graph.stepCost_nonneg (g : Graph Rat) {a b : Rat} (ha : 0 ≤ a) (hb : 0 ≤ b)
    (v w : Nat) : 0 ≤ g.stepCost a b v w := by
  unfold stepCost
  exact ite_nonneg (mul_nonneg hb (g.arcWeight_nonneg v w)) (ite_nonneg le_rfl ha)

/-- As many positions as nodes, and no fixed node. -/
def Graph.tourLayout (g : Graph Rat) : Layout Rat := ⟨g, g.nodeCount, none, none⟩

section Meaning

variable {g : Graph Rat} {c : Constraints Rat} {a b : Rat}

/-- A step of a tour costs what its arc, or the lack of one, does. -/
theorem onwardMeaning_of_isTour (hc : c.IsTour a b) (v w : Nat) :
    g.tourLayout.onwardMeaning c v w = g.stepCost a b v w := by
  by_cases hvw : v = w
  · subst hvw
    simp only [Layout.onwardMeaning, Graph.stepCost, hc.strength, tourStrength, if_true]
    rfl
  · simp only [Layout.onwardMeaning, Layout.stepMeaning, Graph.stepCost, hc.edges, hc.strength,
      tourStrength, hvw, or_true, if_true, if_false]
    rfl

/-- What two nodes at one position add, or a node with itself. -/
theorem sharedMeaning_of_isTour (hc : c.IsTour a b) (v w : Nat) :
    g.tourLayout.sharedMeaning c v w = if v = w then -4 * a else 2 * a := by
  unfold Layout.sharedMeaning Layout.meaning
  by_cases hvw : v = w
  · subst hvw
    simp only [Layout.variableMeaning, hc.strength, tourStrength, if_true, ite_self]
    ring
  · simp only [hvw, Ne.symm hvw, if_true, if_false]
    rw [Layout.positionMeaning_add_swap hvw]
    simp only [hc.strength, tourStrength, ite_self, mul_zero, add_zero]

/-- What two pairs bring together in a tour. -/
theorem meaning_add_swap_of_isTour (hc : c.IsTour a b) (v w : Nat) (q r : Fin g.nodeCount) :
    g.tourLayout.meaning c v q w r + g.tourLayout.meaning c w r v q =
      if q = r then if v = w then -4 * a else 2 * a
      else (if v = w then 2 * a else 0) +
        ((if following q = r then g.stepCost a b v w else 0) +
          if following r = q then g.stepCost a b w v else 0) := by
  have hmeaning := Layout.meaning_add_swap (l := g.tourLayout) hc.isCyclic v w q r
  rwa [sharedMeaning_of_isTour hc, onwardMeaning_of_isTour hc, onwardMeaning_of_isTour hc,
    hc.strength] at hmeaning

end Meaning

/-! ## The energy by deviations and steps -/

section Energy

variable {n : Nat} (a : Rat) (cost : Fin n → Fin n → Rat)

/-- The coupling of two pairs in a tour, written the same way for both orders. -/
def tourCoupling (x y : Fin n × Fin n) : Rat :=
  (if x.1 = y.1 then a else 0) + (if x.2 = y.2 then a else 0) - (if x = y then 4 * a else 0) +
    if following x.2 = y.2 then cost x.1 y.1 else 0

/-- The energy of a set of pairs in a tour. -/
def tourEnergy (s : Finset (Fin n × Fin n)) : Rat := pairSum (tourCoupling a cost) s

/-- How many positions of the set the node has. -/
def visits (s : Finset (Fin n × Fin n)) (v : Fin n) : Nat := (s.filter fun x => x.1 = v).card

/-- How many nodes of the set the position has. -/
def crowd (s : Finset (Fin n × Fin n)) (q : Fin n) : Nat := (s.filter fun x => x.2 = q).card

/-- The cost of all steps between pairs of the set, around the positions. -/
def stepSum (s : Finset (Fin n × Fin n)) : Rat :=
  ∑ x ∈ s, ∑ y ∈ s, if following x.2 = y.2 then cost x.1 y.1 else 0

end Energy

/-- A single position is followed by itself; then a loop counts unless its length is free. -/
theorem energyOf_eq_tourEnergy {g : Graph Rat} {c : Constraints Rat} {a b : Rat}
    (hc : c.IsTour a b) (hn : 2 ≤ g.nodeCount ∨ b = 0)
    (s : Finset (Fin g.nodeCount × Fin g.nodeCount)) :
    g.tourLayout.energyOf c s = tourEnergy a (fun v w => g.stepCost a b v w) s := by
  refine pairSum_congr (fun x y => ?_) s
  obtain ⟨v, q⟩ := x
  obtain ⟨w, r⟩ := y
  have hwv : w = v ↔ v = w := eq_comm
  rw [meaning_add_swap_of_isTour hc]
  simp only [tourCoupling, Prod.mk.injEq, Fin.val_inj, hwv]
  by_cases hqr : q = r
  · subst hqr
    by_cases hvw : v = w
    · subst hvw
      have hloop : (if following q = q then g.stepCost a b v v else 0) = 0 := by
        rcases hn with hn | rfl
        · rw [if_neg (following_ne hn q)]
        · simp [Graph.stepCost]
      simp only [hloop, and_self, if_true]
      ring
    · simp only [hvw, following_ne (two_le_of_ne hvw), false_and, if_true, if_false]
      ring
  · have hrq : ¬r = q := fun h => hqr h.symm
    simp only [hqr, hrq, and_false, if_false]
    by_cases hvw : v = w
    · simp only [hvw, if_true]
      ring
    · simp only [hvw, if_false]
      ring

section Energy

variable {n : Nat} (a : Rat) (cost : Fin n → Fin n → Rat)

/-- Each variable is one visit. -/
theorem sum_visits (s : Finset (Fin n × Fin n)) : ∑ v, visits s v = s.card :=
  (card_eq_sum_card_fiberwise fun _ _ => mem_univ _).symm

/-- Each variable is at one position. -/
theorem sum_crowd (s : Finset (Fin n × Fin n)) : ∑ q, crowd s q = s.card :=
  (card_eq_sum_card_fiberwise fun _ _ => mem_univ _).symm

/-- Costs that are not negative have no negative sum. -/
theorem stepSum_nonneg {cost : Fin n → Fin n → Rat} (hcost : ∀ v w, 0 ≤ cost v w)
    (s : Finset (Fin n × Fin n)) : 0 ≤ stepSum cost s :=
  sum_nonneg fun x _ => sum_nonneg fun y _ => ite_nonneg (hcost x.1 y.1) le_rfl

/-- The energy of a set of pairs: `a` for the squared deviations of all visits and crowds
from one, and the cost of all steps. -/
theorem tourEnergy_eq (s : Finset (Fin n × Fin n)) :
    tourEnergy a cost s =
      a * (∑ v, ((visits s v : Rat) - 1) ^ 2 + ∑ q, ((crowd s q : Rat) - 1) ^ 2) +
        stepSum cost s - 2 * a * n := by
  have hnodes : ∑ x ∈ s, ∑ y ∈ s, (if x.1 = y.1 then a else 0) =
      a * ∑ v, (visits s v : Rat) ^ 2 := sum_sum_eq_image a s Prod.fst
  have hplaces : ∑ x ∈ s, ∑ y ∈ s, (if x.2 = y.2 then a else 0) =
      a * ∑ q, (crowd s q : Rat) ^ 2 := sum_sum_eq_image a s Prod.snd
  have hself : ∑ x ∈ s, ∑ y ∈ s, (if x = y then 4 * a else 0) = 4 * a * s.card := by
    have hone : ∀ x ∈ s, ∑ y ∈ s, (if x = y then 4 * a else 0) = 4 * a := by
      intro x hx
      rw [sum_ite_eq, if_pos hx]
    rw [sum_congr rfl hone, sum_const, nsmul_eq_mul]
    ring
  simp only [tourEnergy, pairSum, tourCoupling, sum_add_distrib, sum_sub_distrib]
  rw [hnodes, hplaces, hself, sum_deviation (sum_visits s), sum_deviation (sum_crowd s),
    stepSum]
  ring

/-! ## Permutations -/

/-- The cost of all steps of a permutation, from its last position back to its first. -/
def roundCost (σ : Equiv.Perm (Fin n)) : Rat := ∑ q, cost (σ q) (σ (following q))

/-- A permutation visits every node once. -/
theorem visits_perm (σ : Equiv.Perm (Fin n)) (v : Fin n) : visits (placement σ) v = 1 := by
  rw [visits, card_eq_one]
  refine ⟨(v, σ.symm v), Finset.ext fun x => ?_⟩
  rw [mem_filter, mem_placement, mem_singleton, Prod.ext_iff, Equiv.eq_symm_apply]
  constructor
  · rintro ⟨hσ, hv⟩
    exact ⟨hv, hσ.trans hv⟩
  · rintro ⟨hv, hσ⟩
    exact ⟨hσ.trans hv.symm, hv⟩

/-- A permutation puts one node at each position. -/
theorem crowd_perm (σ : Equiv.Perm (Fin n)) (q : Fin n) : crowd (placement σ) q = 1 := by
  rw [crowd, card_eq_one]
  refine ⟨(σ q, q), Finset.ext fun x => ?_⟩
  rw [mem_filter, mem_placement, mem_singleton, Prod.ext_iff]
  constructor
  · rintro ⟨hσ, rfl⟩
    exact ⟨hσ.symm, rfl⟩
  · rintro ⟨hσ, rfl⟩
    exact ⟨hσ.symm, rfl⟩

/-- The steps of a permutation cost what its round does. -/
theorem stepSum_perm (σ : Equiv.Perm (Fin n)) :
    stepSum cost (placement σ) = roundCost cost σ := by
  have hinner : ∀ q, ∑ r, (if following q = r then cost (σ q) (σ r) else 0) =
      cost (σ q) (σ (following q)) := by
    intro q
    rw [sum_ite_eq, if_pos (mem_univ _)]
  simp only [stepSum, sum_placement, hinner, roundCost]

/-- A permutation pays for its steps only. -/
theorem tourEnergy_perm (σ : Equiv.Perm (Fin n)) :
    tourEnergy a cost (placement σ) = roundCost cost σ - 2 * a * n := by
  simp [tourEnergy_eq, visits_perm, crowd_perm, stepSum_perm]

/-- Every node visited once and every position held by one node: a permutation. -/
theorem exists_perm {s : Finset (Fin n × Fin n)} (hvisits : ∀ v, visits s v = 1)
    (hcrowd : ∀ q, crowd s q = 1) : ∃ σ : Equiv.Perm (Fin n), s = placement σ := by
  have hsome : ∀ q, ∃ v, (v, q) ∈ s := by
    intro q
    obtain ⟨x, hx⟩ := card_eq_one.1 (hcrowd q)
    obtain ⟨hxs, rfl⟩ := mem_filter.1 (hx ▸ mem_singleton_self x)
    exact ⟨x.1, hxs⟩
  have hone : ∀ x ∈ s, ∀ y ∈ s, x.2 = y.2 → x = y := by
    intro x hx y hy hxy
    have hle := card_le_one.1 (hcrowd y.2).le
    exact hle x (mem_filter.2 ⟨hx, hxy⟩) y (mem_filter.2 ⟨hy, rfl⟩)
  obtain ⟨π, rfl⟩ := exists_placement hsome hone
  have hinj : Function.Injective π := by
    intro q r hqr
    have hle := card_le_one.1 (hvisits (π r)).le
    have hpair := hle (π q, q) (mem_filter.2 ⟨mem_placement.2 rfl, hqr⟩)
      (π r, r) (mem_filter.2 ⟨mem_placement.2 rfl, rfl⟩)
    exact (Prod.mk.inj hpair).2
  exact ⟨Equiv.ofBijective π (Finite.injective_iff_bijective.1 hinj), rfl⟩

end Energy

/-! ## From the problem to the energy -/

/-- The shared configuration of the tours has no costs for lengths. -/
theorem isTour_tourConstraints (a : Rat) : (Problem.tourConstraints a).IsTour a 0 where
  edges := rfl
  cycles := rfl
  strength f := by
    rw [Constraints.strength_eq]
    cases f <;> simp [Problem.tourConstraints, Constraints.setAll, Constraints.weights_set,
      tourStrength, whole_eq]

/-- With lengths it is the configuration of the traveling salesperson. -/
theorem isTour_travelingSalesperson (a b : Rat) :
    ((Problem.tourConstraints a).setAll
      [(.edgeWeightsFactor, b), (.edgeWeightsCyclesFactor, b)]).IsTour a b where
  edges := rfl
  cycles := rfl
  strength f := by
    rw [Constraints.strength_eq]
    cases f <;> simp [Problem.tourConstraints, Constraints.setAll, Constraints.weights_set,
      tourStrength, whole_eq]

/-- Over a layout with room and without fixed nodes, the constraints of a tour are accepted;
they read weights only where length counts. -/
theorem Constraints.IsTour.exists_plan {l : Layout Rat} {c : Constraints Rat} {a b : Rat}
    (hc : c.IsTour a b) (hpos : 0 < l.positions) (hfits : l.graph.Fits l.positions)
    (hstart : l.startNode = none) (hterminal : l.terminalNode = none)
    (hweights : b ≠ 0 → l.graph.FullyWeighted) : ∃ p, l.plan c = .ok p := by
  have hscore : ¬c.Sets .startNodeScore := fun h => hc.ne_zero_of_sets h rfl
  have hscore' : ¬c.Sets .terminalNodeScore := fun h => hc.ne_zero_of_sets h rfl
  have hreads : l.ReadsEdgeWeights c → l.graph.FullyWeighted := by
    rintro (h | ⟨h, -⟩)
    · exact hweights (hc.ne_zero_of_sets h)
    · exact hweights (hc.ne_zero_of_sets h)
  exact Layout.exists_plan hpos hfits (fun v hv => by rw [hstart] at hv; cases hv)
    (fun v hv => by rw [hterminal] at hv; cases hv) (fun h => absurd h hscore)
    (fun h => absurd h hscore') hreads

/-- With room for its matrix, and with weights where they count, a problem of tours
compiles to a matrix that measures the tour energies; over a single node if length is free. -/
theorem exists_measures_tourEnergy {g : Graph Rat} {p : Problem Rat} {c : Constraints Rat}
    {a b : Rat} (hlayout : p.layout g = g.tourLayout) (hconf : p.configuration g = .ok c)
    (hc : c.IsTour a b) (hpos : 0 < g.nodeCount) (hn : 2 ≤ g.nodeCount ∨ b = 0)
    (hfits : g.Fits g.nodeCount) (hweights : b ≠ 0 → g.FullyWeighted) :
    ∃ m, p.toMatrix g = .ok m ∧
      m.Measures (tourEnergy a fun v w : Fin g.nodeCount => g.stepCost a b v w) := by
  obtain ⟨plan, hplan⟩ := hc.exists_plan (l := g.tourLayout) hpos hfits rfl rfl hweights
  obtain ⟨m, hm, hmeasures⟩ := exists_measures hplan
  refine ⟨m, ?_, ?_⟩
  · rw [Problem.toMatrix, hconf, hlayout]
    exact hm
  · rwa [funext (energyOf_eq_tourEnergy hc hn)] at hmeasures

/-- Over two nodes or more the length may cost something. -/
theorem exists_tourMatrix {g : Graph Rat} {p : Problem Rat} {c : Constraints Rat} {a b : Rat}
    (hlayout : p.layout g = g.tourLayout) (hconf : p.configuration g = .ok c)
    (hc : c.IsTour a b) (hn : 2 ≤ g.nodeCount) (hfits : g.Fits g.nodeCount)
    (hweights : b ≠ 0 → g.FullyWeighted) :
    ∃ m, p.toMatrix g = .ok m ∧
      m.Measures (tourEnergy a fun v w : Fin g.nodeCount => g.stepCost a b v w) :=
  exists_measures_tourEnergy hlayout hconf hc (Nat.zero_lt_of_lt hn) (.inl hn) hfits hweights

end GraphQubo
