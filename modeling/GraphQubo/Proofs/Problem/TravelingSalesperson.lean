import Mathlib.Data.Fintype.Perm
import GraphQubo.Proofs.Problem.Tour

/-!
# GraphQubo.Proofs.Problem.TravelingSalesperson

Traveling salesperson over graphs in which every two nodes are joined.

A tour with a step cost below `a` between any two nodes can be repaired pair by pair.  Of
two pairs with one node or one position, either can be dropped without raising the energy;
a node without a position fits any position without a node, and brings more than its two
steps cost.  So an assignment that is no permutation has more energy than some permutation,
and among the permutations the shortest one has the least.

* `field_tourCoupling` — what one more pair brings;
* `perm_or_exists_lt` — the exchange argument;
* `travelingSalesperson_isGround` — the assignments of least energy are the shortest tours.
-/

namespace GraphQubo

open Finset

section Exchange

variable {n : Nat} {a : Rat} {cost : Fin n → Fin n → Rat}

/-! ## What one more pair brings -/

variable (cost) in
/-- The cost of the steps between a pair and the pairs of a set. -/
def stepsAt (s : Finset (Fin n × Fin n)) (x : Fin n × Fin n) : Rat :=
  ∑ y ∈ s, (if following x.2 = y.2 then cost x.1 y.1 else 0) +
    ∑ y ∈ s, if following y.2 = x.2 then cost y.1 x.1 else 0

/-- What a variable adds: its conflicts and the steps at it. -/
theorem field_tourCoupling (hn : 2 ≤ n) {s : Finset (Fin n × Fin n)} {x : Fin n × Fin n}
    (hx : x ∉ s) :
    field (tourCoupling a cost) s x =
      2 * a * (visits s x.1 + crowd s x.2 - 1) + stepsAt cost s x := by
  have hcoupling : ∀ y ∈ s, tourCoupling a cost x y + tourCoupling a cost y x =
      (if y.1 = x.1 then 2 * a else 0) + (if y.2 = x.2 then 2 * a else 0) +
        ((if following x.2 = y.2 then cost x.1 y.1 else 0) +
          if following y.2 = x.2 then cost y.1 x.1 else 0) := by
    intro y hy
    have hne : ¬x = y := fun h => hx (h ▸ hy)
    have hne' : ¬y = x := fun h => hx (h ▸ hy)
    simp only [tourCoupling, hne, hne', if_false, eq_comm (a := x.1), eq_comm (a := x.2)]
    by_cases hnode : y.1 = x.1 <;> by_cases hposition : y.2 = x.2 <;>
      simp only [hnode, hposition, if_true, if_false] <;> ring
  have hself : tourCoupling a cost x x = -2 * a := by
    simp only [tourCoupling, following_ne hn, if_true, if_false]
    ring
  rw [field, hself, sum_congr rfl hcoupling]
  simp only [sum_add_distrib, sum_ite_eq_card, stepsAt, visits, crowd]
  ring

/-- Costs that are not negative have no negative sum at a variable. -/
theorem stepsAt_nonneg (hcost : ∀ v w, 0 ≤ cost v w) (s : Finset (Fin n × Fin n))
    (x : Fin n × Fin n) : 0 ≤ stepsAt cost s x :=
  add_nonneg (sum_nonneg fun y _ => ite_nonneg (hcost x.1 y.1) le_rfl)
    (sum_nonneg fun y _ => ite_nonneg (hcost y.1 x.1) le_rfl)

/-! ## Dropping one of two pairs in conflict -/

/-- No two pairs of the set have one node or one position. -/
def ConflictFree (s : Finset (Fin n × Fin n)) : Prop :=
  ∀ x ∈ s, ∀ y ∈ s, x.1 = y.1 ∨ x.2 = y.2 → x = y

/-- A variable that shares a node or a position with another has a conflict. -/
theorem one_le_conflicts {s : Finset (Fin n × Fin n)} {x y : Fin n × Fin n} (hy : y ∈ s)
    (hxy : x.1 = y.1 ∨ x.2 = y.2) : 1 ≤ visits s x.1 + crowd s x.2 := by
  rcases hxy with hnode | hposition
  · have hvisits : 0 < visits s x.1 := card_pos.2 ⟨y, mem_filter.2 ⟨hy, hnode.symm⟩⟩
    omega
  · have hcrowd : 0 < crowd s x.2 := card_pos.2 ⟨y, mem_filter.2 ⟨hy, hposition.symm⟩⟩
    omega

/-- A pair in conflict with `k + 1` others costs at least `2·a·k`. -/
theorem le_tourEnergy_erase (hn : 2 ≤ n) (ha : 0 ≤ a) (hcost : ∀ v w, 0 ≤ cost v w)
    {s : Finset (Fin n × Fin n)} {x : Fin n × Fin n} (hx : x ∈ s) {k : Nat}
    (hk : k + 1 ≤ visits (s.erase x) x.1 + crowd (s.erase x) x.2) :
    tourEnergy a cost (s.erase x) + 2 * a * k ≤ tourEnergy a cost s := by
  have hsteps := stepsAt_nonneg hcost (s.erase x) x
  have hconflicts : (k : Rat) ≤ visits (s.erase x) x.1 + crowd (s.erase x) x.2 - 1 := by
    have : ((k + 1 : Nat) : Rat) ≤ (visits (s.erase x) x.1 + crowd (s.erase x) x.2 : Nat) :=
      Nat.cast_le.2 hk
    push_cast at this
    linarith
  have hprice := mul_le_mul_of_nonneg_left hconflicts (mul_nonneg zero_le_two ha)
  rw [tourEnergy, tourEnergy, pairSum_erase _ hx, field_tourCoupling hn (notMem_erase x s)]
  linarith

/-! ## Placing a node that has no position -/

/-- Without conflicts no node is visited twice. -/
theorem ConflictFree.visits_le_one {s : Finset (Fin n × Fin n)} (h : ConflictFree s)
    (v : Fin n) : visits s v ≤ 1 := by
  refine card_le_one.2 fun x hx y hy => ?_
  obtain ⟨hx, hxv⟩ := mem_filter.1 hx
  obtain ⟨hy, hyv⟩ := mem_filter.1 hy
  exact h x hx y hy (.inl (hxv.trans hyv.symm))

/-- Without conflicts no position is held twice. -/
theorem ConflictFree.crowd_le_one {s : Finset (Fin n × Fin n)} (h : ConflictFree s)
    (q : Fin n) : crowd s q ≤ 1 := by
  refine card_le_one.2 fun x hx y hy => ?_
  obtain ⟨hx, hxq⟩ := mem_filter.1 hx
  obtain ⟨hy, hyq⟩ := mem_filter.1 hy
  exact h x hx y hy (.inr (hxq.trans hyq.symm))

/-- A sum over at most one member stays below what bounds each value. -/
theorem sum_ite_lt {α : Type} {s : Finset α} {p : α → Prop} [DecidablePred p] {f : α → Rat}
    {k : Rat} (hk : 0 < k) (hone : ∀ x ∈ s, ∀ y ∈ s, p x → p y → x = y)
    (hlt : ∀ x ∈ s, p x → f x < k) : ∑ x ∈ s, (if p x then f x else 0) < k := by
  rcases sum_ite_of_subsingleton hone f with h | ⟨x, hx, hpx, h⟩
  · exact h.trans_lt hk
  · exact h.trans_lt (hlt x hx hpx)

/-- A node and a position that are free have no conflict. -/
theorem no_conflicts {s : Finset (Fin n × Fin n)} {x : Fin n × Fin n}
    (hvisits : visits s x.1 = 0) (hcrowd : crowd s x.2 = 0) :
    ∀ y ∈ s, ¬(x.1 = y.1 ∨ x.2 = y.2) := by
  intro y hy hxy
  have hone := one_le_conflicts hy hxy
  omega

/-- A node without a position fits a position without a node. -/
theorem ConflictFree.insert {s : Finset (Fin n × Fin n)} (h : ConflictFree s)
    {x : Fin n × Fin n} (hvisits : visits s x.1 = 0) (hcrowd : crowd s x.2 = 0) :
    ConflictFree (insert x s) := by
  have hfresh := no_conflicts hvisits hcrowd
  intro y hy z hz hyz
  rcases mem_insert.1 hy with rfl | hys <;> rcases mem_insert.1 hz with rfl | hzs
  · rfl
  · exact absurd hyz (hfresh z hzs)
  · exact absurd (hyz.imp Eq.symm Eq.symm) (hfresh y hys)
  · exact h y hys z hzs hyz

/-- It brings more than its two steps cost. -/
theorem ConflictFree.tourEnergy_insert_lt (hn : 2 ≤ n) (ha : 0 < a)
    (hlt : ∀ v w, v ≠ w → cost v w < a) {s : Finset (Fin n × Fin n)} (h : ConflictFree s)
    {x : Fin n × Fin n} (hvisits : visits s x.1 = 0) (hcrowd : crowd s x.2 = 0) :
    tourEnergy a cost (Insert.insert x s) < tourEnergy a cost s := by
  have hnode : ∀ y ∈ s, x.1 ≠ y.1 := fun y hy hxy =>
    no_conflicts hvisits hcrowd y hy (.inl hxy)
  have hx : x ∉ s := fun hx => hnode x hx rfl
  have hnext : ∑ y ∈ s, (if following x.2 = y.2 then cost x.1 y.1 else 0) < a :=
    sum_ite_lt ha (fun y hy z hz hxy hxz => h y hy z hz (.inr (hxy.symm.trans hxz)))
      fun y hy _ => hlt _ _ (hnode y hy)
  have hprevious : ∑ y ∈ s, (if following y.2 = x.2 then cost y.1 x.1 else 0) < a :=
    sum_ite_lt ha
      (fun y hy z hz hxy hxz => h y hy z hz (.inr (following_injective (hxy.trans hxz.symm))))
      fun y hy _ => hlt _ _ (hnode y hy).symm
  rw [tourEnergy, tourEnergy, pairSum_insert _ hx, field_tourCoupling hn hx, hvisits, hcrowd,
    stepsAt, Nat.cast_zero]
  linarith

/-- Counts that come to less than their number are zero somewhere. -/
theorem exists_eq_zero {f : Fin n → Nat} (h : ∑ i, f i < n) : ∃ i, f i = 0 := by
  by_contra hall
  have hone : ∀ i ∈ univ, 1 ≤ f i := fun i _ => Nat.one_le_iff_ne_zero.2 fun h0 => hall ⟨i, h0⟩
  have hle := card_nsmul_le_sum univ f 1 hone
  rw [card_univ, Fintype.card_fin, smul_eq_mul, mul_one] at hle
  exact absurd h (Nat.not_lt.2 hle)

/-- Counts of at most one that come to their number are all one. -/
theorem forall_eq_one {f : Fin n → Nat} (hle : ∀ i, f i ≤ 1) (h : n ≤ ∑ i, f i) :
    ∀ i, f i = 1 := by
  have hsum : ∑ i, f i = ∑ _i : Fin n, 1 := by
    refine le_antisymm (sum_le_sum fun i _ => hle i) ?_
    simpa using h
  exact fun i => (sum_eq_sum_iff_of_le fun i _ => hle i).1 hsum i (mem_univ i)

/-- Without conflicts, a set that is no permutation lacks a node and a position. -/
theorem ConflictFree.perm_or_lacks {s : Finset (Fin n × Fin n)} (h : ConflictFree s) :
    (∃ σ : Equiv.Perm (Fin n), s = placement σ) ∨
      ∃ x : Fin n × Fin n, visits s x.1 = 0 ∧ crowd s x.2 = 0 := by
  rcases Nat.lt_or_ge s.card n with hlt | hge
  · obtain ⟨v, hv⟩ := exists_eq_zero ((sum_visits s).trans_lt hlt)
    obtain ⟨q, hq⟩ := exists_eq_zero ((sum_crowd s).trans_lt hlt)
    exact .inr ⟨(v, q), hv, hq⟩
  · exact .inl (exists_perm (forall_eq_one h.visits_le_one (hge.trans_eq (sum_visits s).symm))
      (forall_eq_one h.crowd_le_one (hge.trans_eq (sum_crowd s).symm)))

/-! ## The exchange argument -/

/-- Without conflicts, placing the missing nodes one by one ends at a permutation. -/
theorem ConflictFree.perm_or_exists_lt (hn : 2 ≤ n) (ha : 0 < a)
    (hlt : ∀ v w, v ≠ w → cost v w < a) {s : Finset (Fin n × Fin n)} (h : ConflictFree s) :
    (∃ σ : Equiv.Perm (Fin n), s = placement σ) ∨
      ∃ σ : Equiv.Perm (Fin n), tourEnergy a cost (placement σ) < tourEnergy a cost s := by
  -- every set of pairs has room for fewer and fewer further pairs
  induction hk : sᶜ.card using Nat.strongRecOn generalizing s with
  | ind k ih =>
    subst hk
    rcases h.perm_or_lacks with hperm | ⟨x, hvisits, hcrowd⟩
    · exact .inl hperm
    · have hx : x ∉ s := fun hx => no_conflicts hvisits hcrowd x hx (.inl rfl)
      have hless := h.tourEnergy_insert_lt hn ha hlt hvisits hcrowd
      have hroom : (Insert.insert x s)ᶜ.card < sᶜ.card := by
        rw [compl_insert]
        exact card_erase_lt_of_mem (mem_compl.2 hx)
      rcases ih _ hroom (h.insert hvisits hcrowd) rfl with ⟨σ, hσ⟩ | ⟨σ, hσ⟩
      · exact .inr ⟨σ, hσ ▸ hless⟩
      · exact .inr ⟨σ, hσ.trans hless⟩

/-- Every set of pairs that is no permutation has more energy than some permutation. -/
theorem perm_or_exists_lt (hn : 2 ≤ n) (ha : 0 < a) (hcost : ∀ v w, 0 ≤ cost v w)
    (hlt : ∀ v w, v ≠ w → cost v w < a) (s : Finset (Fin n × Fin n)) :
    (∃ σ : Equiv.Perm (Fin n), s = placement σ) ∨
      ∃ σ : Equiv.Perm (Fin n), tourEnergy a cost (placement σ) < tourEnergy a cost s := by
  -- a conflict is resolved by dropping a pair, so the sets get smaller
  induction s using Finset.strongInduction with
  | H s ih =>
    by_cases hfree : ConflictFree s
    · exact hfree.perm_or_exists_lt hn ha hlt
    · simp only [ConflictFree, not_forall] at hfree
      obtain ⟨x, hx, y, hy, hxy, hne⟩ := hfree
      have hy' : y ∈ s.erase x := mem_erase.2 ⟨fun h => hne h.symm, hy⟩
      right
      rcases ih _ (erase_ssubset hx) with ⟨σ, hσ⟩ | ⟨σ, hσ⟩
      · -- the pair stands against both a pair with its node and one with its position
        have htwo : 1 + 1 ≤ visits (s.erase x) x.1 + crowd (s.erase x) x.2 := by
          rw [hσ, visits_perm, crowd_perm]
        have hless := le_tourEnergy_erase hn ha.le hcost hx htwo
        refine ⟨σ, ?_⟩
        rw [hσ] at hless
        push_cast at hless
        linarith
      · have hless := le_tourEnergy_erase hn ha.le hcost hx (one_le_conflicts hy' hxy)
        refine ⟨σ, ?_⟩
        push_cast at hless
        linarith

/-- The sets of least energy are the permutations of least cost. -/
theorem least_iff_perm (hn : 2 ≤ n) (ha : 0 < a) (hcost : ∀ v w, 0 ≤ cost v w)
    (hlt : ∀ v w, v ≠ w → cost v w < a) {s : Finset (Fin n × Fin n)} :
    (∀ t, tourEnergy a cost s ≤ tourEnergy a cost t) ↔
      ∃ σ : Equiv.Perm (Fin n), s = placement σ ∧ ∀ τ, roundCost cost σ ≤ roundCost cost τ := by
  rw [least_iff_of_exchange (perm_or_exists_lt hn ha hcost hlt)]
  simp only [tourEnergy_perm, sub_le_sub_iff_right]

end Exchange

/-! ## The energy of a permutation -/

namespace Graph

variable (g : Graph Rat)

/-- The length of a closed tour through the nodes in the order of `σ`; a step without an
edge has none. -/
def tourLength (σ : Equiv.Perm (Fin g.nodeCount)) : Rat :=
  ∑ q, g.arcWeight (σ q) (σ (following q))

/-- How many steps of the closed tour have no edge. -/
def missingSteps (σ : Equiv.Perm (Fin g.nodeCount)) : Nat :=
  (univ.filter fun q => ¬g.Arc (σ q) (σ (following q))).card

/-- No order of the nodes gives a shorter closed tour. -/
def IsShortestTour (σ : Equiv.Perm (Fin g.nodeCount)) : Prop :=
  ∀ τ, g.tourLength σ ≤ g.tourLength τ

instance (σ : Equiv.Perm (Fin g.nodeCount)) : Decidable (g.IsShortestTour σ) :=
  inferInstanceAs (Decidable (∀ _, _))

variable {g}

/-- Where there is no arc there is no weight. -/
theorem arcWeight_eq_zero {v w : Nat} (h : ¬g.Arc v w) : g.arcWeight v w = 0 := by
  have hnone : g.edges.find? (g.walks v w) = none := by
    rw [List.find?_eq_none]
    exact fun e he hwalks => h ⟨e, he, hwalks⟩
  rw [arcWeight, arcWeight?, hnone]
  rfl

/-- A round costs its length and what its missing steps cost. -/
theorem roundCost_stepCost (hn : 2 ≤ g.nodeCount) (a b : Rat)
    (σ : Equiv.Perm (Fin g.nodeCount)) :
    roundCost (fun v w => g.stepCost a b v w) σ = b * g.tourLength σ + a * g.missingSteps σ := by
  have hstep : ∀ q, g.stepCost a b (σ q) (σ (following q)) =
      b * g.arcWeight (σ q) (σ (following q)) +
        if ¬g.Arc (σ q) (σ (following q)) then a else 0 := by
    intro q
    have hne : (σ q : Nat) ≠ σ (following q) := fun h =>
      following_ne hn q (σ.injective (Fin.ext h)).symm
    unfold stepCost
    by_cases harc : g.Arc (σ q) (σ (following q))
    · simp [harc]
    · simp [harc, hne, arcWeight_eq_zero harc]
  rw [roundCost, sum_congr rfl fun q _ => hstep q, sum_add_distrib, sum_ite_eq_card, ← mul_sum,
    tourLength, missingSteps]
  ring

end Graph

/-! ## The problem -/

theorem Problem.layout_travelingSalesperson {g : Graph Rat} {b : Rat} (hn : 2 ≤ g.nodeCount) :
    (Problem.travelingSalesperson b).layout g = g.tourLayout := by
  have hmax : max g.nodeCount 1 = g.nodeCount := by omega
  simp only [layout, positions, startNode, terminalNode, hmax, Graph.tourLayout]

/-- The problem compiles, with strength `b · W + 1` where `W` is the largest weight. -/
theorem exists_salespersonMatrix {g : Graph Rat} {W : Rat} (b : Rat) (hn : 2 ≤ g.nodeCount)
    (hfits : g.Fits g.nodeCount) (hweights : g.FullyWeighted) (hW : g.maxWeight = .ok W) :
    ∃ m, (Problem.travelingSalesperson b).toMatrix g = .ok m ∧
      m.Measures (tourEnergy (b * W + 1)
        fun v w : Fin g.nodeCount => g.stepCost (b * W + 1) b v w) := by
  refine exists_tourMatrix (Problem.layout_travelingSalesperson hn) ?_
    (isTour_travelingSalesperson (b * W + 1) b) hn hfits fun _ => hweights
  rw [Problem.configuration, hW]
  rfl

/-- What an assignment costs that encodes a permutation: its length, and the strength for
each missing step. -/
theorem Matrix.Measures.energy_perm {g : Graph Rat} {m : Matrix Rat} {a b : Rat}
    (h : m.Measures (tourEnergy a fun v w : Fin g.nodeCount => g.stepCost a b v w))
    (hn : 2 ≤ g.nodeCount) {bits : List Bool} {σ : Equiv.Perm (Fin g.nodeCount)}
    (hσ : Encodes bits σ) :
    m.energy bits =
      .ok (b * g.tourLength σ + a * g.missingSteps σ - 2 * a * g.nodeCount) := by
  obtain ⟨hlen, hset⟩ := encodes_iff.1 hσ
  rw [h.energy bits hlen, hset, tourEnergy_perm, Graph.roundCost_stepCost hn]

/-- Where every two nodes are joined, the assignments of least energy encode the shortest
closed tours. -/
theorem travelingSalesperson_isGround {g : Graph Rat} {b : Rat} (hn : 2 ≤ g.nodeCount)
    (hfits : g.Fits g.nodeCount) (hweights : g.FullyWeighted)
    (hcomplete : ∀ v w : Fin g.nodeCount, v ≠ w → g.Arc v w) (hb : 0 < b) :
    ∃ W m, g.maxWeight = .ok W ∧ (Problem.travelingSalesperson b).toMatrix g = .ok m ∧
      m.dimension = g.nodeCount * g.nodeCount ∧
      (∀ bits, m.IsGround bits ↔ ∃ σ : Equiv.Perm (Fin g.nodeCount),
        Encodes bits σ ∧ g.IsShortestTour σ) ∧
      ∀ bits (σ : Equiv.Perm (Fin g.nodeCount)), Encodes bits σ → g.IsShortestTour σ →
        m.energy bits = .ok (b * g.tourLength σ - 2 * (b * W + 1) * g.nodeCount) := by
  obtain ⟨W, hW, hpos, hmax⟩ := Graph.exists_maxWeight hweights
  obtain ⟨m, hm, hmeasures⟩ := exists_salespersonMatrix b hn hfits hweights hW
  have hnone : ∀ σ : Equiv.Perm (Fin g.nodeCount), g.missingSteps σ = 0 := by
    intro σ
    rw [Graph.missingSteps, card_eq_zero, filter_eq_empty_iff]
    intro q _ hmissing
    exact hmissing (hcomplete _ _ fun h => following_ne hn q (σ.injective h).symm)
  have hround : ∀ σ : Equiv.Perm (Fin g.nodeCount),
      roundCost (fun v w => g.stepCost (b * W + 1) b v w) σ = b * g.tourLength σ := by
    intro σ
    rw [Graph.roundCost_stepCost hn, hnone, Nat.cast_zero, mul_zero, add_zero]
  have ha : 0 < b * W + 1 := add_pos_of_nonneg_of_pos (mul_nonneg hb.le hpos) one_pos
  have hcost : ∀ v w : Fin g.nodeCount, 0 ≤ g.stepCost (b * W + 1) b v w := fun v w =>
    g.stepCost_nonneg ha.le hb.le v w
  have hlt : ∀ v w : Fin g.nodeCount, v ≠ w → g.stepCost (b * W + 1) b v w < b * W + 1 := by
    intro v w hvw
    rw [Graph.stepCost, if_pos (hcomplete v w hvw)]
    have hle := mul_le_mul_of_nonneg_left (hmax v w) hb.le
    linarith
  refine ⟨W, m, hW, hm, hmeasures.dimension, fun bits => ?_, fun bits σ hσ _ => ?_⟩
  · rw [hmeasures.isGround_iff, least_iff_perm hn ha hcost hlt]
    simp only [hround, mul_le_mul_iff_right₀ hb, encodes_iff, and_assoc, exists_and_left,
      Graph.IsShortestTour]
  · rw [hmeasures.energy_perm hn hσ, hnone, Nat.cast_zero, mul_zero, add_zero]

/-- Three nodes, two apart one way round and one apart the other way round. -/
def Graph.twoWayRing : Graph Rat where
  directed := true
  nodeCount := 3
  edges := [⟨0, 1, some 1⟩, ⟨0, 2, some 2⟩, ⟨1, 0, some 2⟩, ⟨1, 2, some 1⟩, ⟨2, 0, some 1⟩,
    ⟨2, 1, some 2⟩]
  nodeCount_lt := Graph.three_lt_nodeLimit
  sorted := by decide
  bounded := by decide
  oriented := by decide
  weighted := Graph.weighted_of_all (by decide)

/-- The way round of length three is a ground state. -/
theorem travelingSalesperson_isGround_twoWayRing :
    ∃ m, (Problem.travelingSalesperson 1).toMatrix .twoWayRing = .ok m ∧
      m.IsGround [true, false, false, false, true, false, false, false, true] ∧
      m.energy [true, false, false, false, true, false, false, false, true] = .ok (-15) := by
  obtain ⟨W, m, hW, hm, -, hground, henergy⟩ := travelingSalesperson_isGround
    (g := .twoWayRing) (b := 1) (by decide) (by decide) (by decide) (by decide) one_pos
  obtain rfl : (2 : Rat) = W := Except.ok.inj hW
  have hencodes : Encodes [true, false, false, false, true, false, false, false, true]
      (Equiv.refl (Fin Graph.twoWayRing.nodeCount)) := by decide
  have hshortest : Graph.twoWayRing.IsShortestTour (.refl _) := by decide +kernel
  refine ⟨m, hm, (hground _).2 ⟨_, hencodes, hshortest⟩, ?_⟩
  rw [henergy _ _ hencodes hshortest]
  decide +kernel

end GraphQubo
