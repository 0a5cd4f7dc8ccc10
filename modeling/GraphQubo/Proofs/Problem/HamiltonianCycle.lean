import GraphQubo.Proofs.Problem.Tour

/-!
# GraphQubo.Proofs.Problem.HamiltonianCycle

The least energy of the Hamiltonian cycle problem.

Without a length to pay for, nothing lowers the energy of a tour below `-2·n`: every
deviation is a square and every step without an edge costs one.  The bound is met where
all of them vanish, that is by the closed tours along edges and by nothing else.

* `tourEnergy_ge`, `tourEnergy_eq_least_iff` — the bound for a tour with any costs;
* `hamiltonianCycle_energy` — the bound for the assignments of the problem.
-/

namespace GraphQubo

open Finset

section Least

variable {n : Nat} {a : Rat} {cost : Fin n → Fin n → Rat}

/-- No set of pairs has less energy than a tour whose steps cost nothing. -/
theorem tourEnergy_ge (ha : 0 ≤ a) (hcost : ∀ v w, 0 ≤ cost v w) (s : Finset (Fin n × Fin n)) :
    -2 * a * n ≤ tourEnergy a cost s := by
  have hdev := mul_nonneg ha
    (add_nonneg (sum_deviation_nonneg (visits s)) (sum_deviation_nonneg (crowd s)))
  have hstep := stepSum_nonneg hcost s
  rw [tourEnergy_eq]
  linarith

/-- And only such tours have as little. -/
theorem tourEnergy_eq_least_iff (ha : 0 < a) (hcost : ∀ v w, 0 ≤ cost v w)
    {s : Finset (Fin n × Fin n)} :
    tourEnergy a cost s = -2 * a * n ↔
      ∃ σ : Equiv.Perm (Fin n), s = placement σ ∧ ∀ q, cost (σ q) (σ (following q)) = 0 := by
  constructor
  · intro h
    have hvisits := sum_deviation_nonneg (visits s)
    have hcrowd := sum_deviation_nonneg (crowd s)
    have hstep := stepSum_nonneg hcost s
    have hdev := mul_nonneg ha.le (add_nonneg hvisits hcrowd)
    rw [tourEnergy_eq] at h
    have hzero : ∑ v, ((visits s v : Rat) - 1) ^ 2 + ∑ q, ((crowd s q : Rat) - 1) ^ 2 = 0 := by
      rcases mul_eq_zero.1 (le_antisymm (by linarith) hdev) with h0 | h0
      · exact absurd h0 ha.ne'
      · exact h0
    obtain ⟨σ, rfl⟩ := exists_perm (sum_deviation_eq_zero_iff.1 (by linarith))
      (sum_deviation_eq_zero_iff.1 (by linarith))
    have hround : roundCost cost σ = 0 := by
      rw [← stepSum_perm]
      linarith
    refine ⟨σ, rfl, fun q => ?_⟩
    exact (sum_eq_zero_iff_of_nonneg fun q _ => hcost _ _).1 hround q (mem_univ q)
  · rintro ⟨σ, rfl, hfree⟩
    have hround : roundCost cost σ = 0 := sum_eq_zero fun q _ => hfree q
    rw [tourEnergy_perm, hround]
    ring

end Least

/-- Where the length does not count, a step to another node is free along an edge only. -/
theorem Graph.stepCost_eq_zero_iff (g : Graph Rat) {v w : Nat} (hvw : v ≠ w) :
    g.stepCost 1 0 v w = 0 ↔ g.Arc v w := by
  unfold stepCost
  by_cases harc : g.Arc v w
  · simp [harc]
  · simp [harc, hvw]

/-- Unless there is no node at all, a tour has as many positions as nodes. -/
theorem Problem.layout_hamiltonianCycle_of_pos {g : Graph Rat} (hpos : 0 < g.nodeCount) :
    Problem.hamiltonianCycle.layout g = g.tourLayout := by
  have hmax : max g.nodeCount 1 = g.nodeCount := by omega
  simp only [layout, positions, startNode, terminalNode, hmax, Graph.tourLayout]

theorem Problem.layout_hamiltonianCycle {g : Graph Rat} (hn : 2 ≤ g.nodeCount) :
    Problem.hamiltonianCycle.layout g = g.tourLayout :=
  layout_hamiltonianCycle_of_pos (Nat.zero_lt_of_lt hn)

/-- No assignment of the Hamiltonian cycle problem has an energy below `-2·n`, and those
that have it encode the closed tours along edges. -/
theorem hamiltonianCycle_energy {g : Graph Rat} (hn : 2 ≤ g.nodeCount)
    (hfits : g.Fits g.nodeCount) :
    ∃ m, Problem.hamiltonianCycle.toMatrix g = .ok m ∧
      m.dimension = g.nodeCount * g.nodeCount ∧
      ∀ bits, bits.length = g.nodeCount * g.nodeCount →
        ∃ e, m.energy bits = .ok e ∧ -2 * (g.nodeCount : Rat) ≤ e ∧
          (e = -2 * (g.nodeCount : Rat) ↔ ∃ σ : Equiv.Perm (Fin g.nodeCount),
            Encodes bits σ ∧ ∀ q, g.Arc (σ q) (σ (following q))) := by
  obtain ⟨m, hm, hmeasures⟩ := exists_tourMatrix (Problem.layout_hamiltonianCycle hn) rfl
    (isTour_tourConstraints 1) hn hfits fun h => absurd rfl h
  have hcost : ∀ v w : Fin g.nodeCount, 0 ≤ g.stepCost 1 0 v w := fun v w =>
    g.stepCost_nonneg zero_le_one (le_refl 0) v w
  refine ⟨m, hm, hmeasures.dimension, fun bits hlen => ⟨_, hmeasures.energy bits hlen, ?_, ?_⟩⟩
  · have hge := tourEnergy_ge zero_le_one hcost (occupied g.nodeCount g.nodeCount bits)
    rwa [mul_one] at hge
  · have hiff := tourEnergy_eq_least_iff one_pos hcost
      (s := occupied g.nodeCount g.nodeCount bits)
    rw [mul_one] at hiff
    rw [hiff]
    refine exists_congr fun σ => and_congr ?_ (forall_congr' fun q => ?_)
    · rw [encodes_iff, and_iff_right hlen]
    · have hne : σ (following q) ≠ σ q := fun h => following_ne hn q (σ.injective h)
      exact g.stepCost_eq_zero_iff fun h => hne (Fin.ext h).symm

/-- Three nodes in a ring that is walked one way, without weights. -/
def Graph.oneWayRing : Graph Rat where
  directed := true
  nodeCount := 3
  edges := [⟨0, 1, none⟩, ⟨1, 2, none⟩, ⟨2, 0, none⟩]
  nodeCount_lt := Graph.three_lt_nodeLimit
  sorted := by decide
  bounded := by decide
  oriented := by decide
  weighted := by simp

/-- Walked the right way round the ring is a tour; the other way round it is none. -/
theorem hamiltonianCycle_energy_oneWayRing :
    ∃ m, Problem.hamiltonianCycle.toMatrix .oneWayRing = .ok m ∧
      m.energy [true, false, false, false, true, false, false, false, true] = .ok (-6) ∧
      ∀ e, m.energy [true, false, false, false, false, true, false, true, false] = .ok e →
        -6 < e := by
  obtain ⟨m, hm, -, henergy⟩ := hamiltonianCycle_energy (g := .oneWayRing) (by decide) (by decide)
  refine ⟨m, hm, ?_, fun e he => ?_⟩
  · obtain ⟨e, he, -, hiff⟩ :=
      henergy [true, false, false, false, true, false, false, false, true] rfl
    have htour : e = -2 * ((3 : Nat) : Rat) := hiff.2 ⟨.refl _, by decide, by decide⟩
    rw [he, htour]
    norm_num
  · obtain ⟨e', he', hge, hiff⟩ :=
      henergy [true, false, false, false, false, true, false, true, false] rfl
    obtain rfl : e' = e := Except.ok.inj (he'.symm.trans he)
    have hne : e' ≠ -2 * ((3 : Nat) : Rat) := by
      intro heq
      obtain ⟨σ, ⟨-, hσ⟩, harcs⟩ := hiff.1 heq
      have h₀ : σ ⟨0, by decide⟩ = ⟨0, by decide⟩ := (hσ _ _).1 rfl
      have h₁ : σ ⟨1, by decide⟩ = ⟨2, by decide⟩ := (hσ _ _).1 rfl
      have harc : Graph.oneWayRing.Arc (σ ⟨0, by decide⟩) (σ ⟨1, by decide⟩) :=
        harcs ⟨0, by decide⟩
      rw [h₀, h₁] at harc
      exact absurd harc (by decide)
    have hlt : -2 * ((3 : Nat) : Rat) < e' := lt_of_le_of_ne hge hne.symm
    norm_num at hlt
    exact hlt

end GraphQubo
