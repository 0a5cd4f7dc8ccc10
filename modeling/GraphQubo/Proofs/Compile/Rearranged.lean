import GraphQubo.Proofs.Compile.Energy

/-!
# GraphQubo.Proofs.Compile.Rearranged

Assignments whose pairs of a node and a position have changed places.

An energy is a sum of couplings over the ordered pairs of what an assignment sets.  If two
matrices couple the pairs of variables alike, the one before and the other after a
permutation of the variables, then the rearranged assignment has the energy of the first
one.

* `Carries.occupied_eq` — what the rearranged assignment sets;
* `Matrix.Measures.energy_of_carries` — it has the same energy.
-/

namespace GraphQubo

open Finset

variable {n P : Nat} {σ : Equiv.Perm (Fin n × Fin P)} {bits bits' : List Bool}

/-- The second assignment sets `σ x` where the first one sets `x`. -/
def Carries (σ : Equiv.Perm (Fin n × Fin P)) (bits bits' : List Bool) : Prop :=
  bits.length = n * P ∧ bits'.length = n * P ∧
    ∀ x, bits'[Variable.number ⟨(σ x).1, (σ x).2⟩ P]? = bits[Variable.number ⟨x.1, x.2⟩ P]?

/-- The carried assignment occupies what the variables are carried to. -/
theorem Carries.occupied_eq (h : Carries σ bits bits') :
    occupied n P bits' = (occupied n P bits).map σ.toEmbedding := by
  ext y
  obtain ⟨x, rfl⟩ := σ.surjective y
  rw [mem_map_equiv, Equiv.symm_apply_apply]
  simp only [occupied, mem_filter, mem_univ, true_and, h.2.2 x]

/-- Where all couplings are carried over, so is the energy. -/
theorem Matrix.Measures.energy_of_carries {m m' : Matrix Rat}
    {q q' : Fin n × Fin P → Fin n × Fin P → Rat} (hm : m.Measures (pairSum q))
    (hm' : m'.Measures (pairSum q'))
    (hq : ∀ x y, q' (σ x) (σ y) + q' (σ y) (σ x) = q x y + q y x) (h : Carries σ bits bits') :
    ∃ e, m.energy bits = .ok e ∧ m'.energy bits' = .ok e := by
  refine ⟨_, hm.energy bits h.1, ?_⟩
  rw [hm'.energy bits' h.2.1, h.occupied_eq, pairSum_map]
  exact congrArg Except.ok (pairSum_congr hq _)

end GraphQubo
