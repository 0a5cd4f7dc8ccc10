import Mathlib.Algebra.BigOperators.Fin
import Mathlib.Algebra.Notation.Lemmas
import Mathlib.Algebra.Order.Ring.Rat
import Mathlib.Tactic.Linarith
import GraphQubo.Proofs.Compile.CellMeaning
import GraphQubo.Proofs.Matrix.ExactEnergy
import GraphQubo.Proofs.Matrix.PairSum

/-!
# GraphQubo.Proofs.Compile.Energy

The energy of an assignment, said of the variables that it sets.

An assignment over `n` nodes and `P` positions sets a finite set of pairs of a node and a
position.  In exact arithmetic its energy is the sum of the meanings of all cells between
two set variables, so a set of pairs has an energy of its own and the numbers of the
variables play no part.

* `exists_measures` — the matrix of an accepted configuration measures its sets of pairs;
* `Matrix.Measures.isGround_iff` — an assignment of least energy is a set of least energy;
* `sum_placement` — sets in which every position has one node.
-/

namespace GraphQubo

open Finset

/-! ## Sets of pairs and assignments -/

section

variable {n P : Nat}

/-- The pairs of a node and a position that an assignment sets. -/
def occupied (n P : Nat) (bits : List Bool) : Finset (Fin n × Fin P) :=
  univ.filter fun x => bits[Variable.number ⟨x.1, x.2⟩ P]? = some true

/-- The assignment that sets the given pairs. -/
def bitsOf (s : Finset (Fin n × Fin P)) : List Bool :=
  List.ofFn fun i => decide (finProdFinEquiv.symm i ∈ s)

/-- The number of a pair is its place among all pairs. -/
theorem number_eq_finProdFinEquiv (x : Fin n × Fin P) :
    Variable.number ⟨x.1, x.2⟩ P = (finProdFinEquiv x : Nat) := by
  simp only [Variable.number, finProdFinEquiv_apply_val]
  ring

/-- There is one bit for each variable. -/
theorem length_bitsOf (s : Finset (Fin n × Fin P)) : (bitsOf s).length = n * P := by
  simp [bitsOf]

/-- Every set of pairs is what some assignment sets. -/
theorem occupied_bitsOf (s : Finset (Fin n × Fin P)) : occupied n P (bitsOf s) = s := by
  ext x
  have hnumber : Variable.number ⟨x.1, x.2⟩ P < n * P := Variable.number_lt x.1.isLt x.2.isLt
  have hlt : Variable.number ⟨x.1, x.2⟩ P < (bitsOf s).length := by rwa [length_bitsOf]
  have hplace : finProdFinEquiv.symm ⟨Variable.number ⟨x.1, x.2⟩ P, hnumber⟩ = x := by
    rw [Equiv.symm_apply_eq]
    exact Fin.ext (number_eq_finProdFinEquiv x)
  rw [occupied, mem_filter, List.getElem?_eq_getElem hlt]
  simp only [bitsOf, List.getElem_ofFn, hplace]
  simp

/-- A sum over all variables, taken node by node and position by position. -/
theorem sum_numbers (f : Nat → Rat) :
    ∑ i ∈ range (n * P), f i = ∑ x : Fin n × Fin P, f (Variable.number ⟨x.1, x.2⟩ P) := by
  rw [sum_range, ← finProdFinEquiv.sum_comp]
  exact sum_congr rfl fun x _ => by rw [number_eq_finProdFinEquiv]

/-- The bit of a variable tells whether it is occupied. -/
theorem bitAt_number (bits : List Bool) (x : Fin n × Fin P) :
    bitAt bits (Variable.number ⟨x.1, x.2⟩ P) = if x ∈ occupied n P bits then 1 else 0 := by
  simp only [bitAt_eq, occupied, mem_filter, mem_univ, true_and]

/-- Summing over all variables with their bits is summing over the set ones. -/
theorem sum_bitAt_mul (bits : List Bool) (f : Nat → Rat) :
    ∑ i ∈ range (n * P), bitAt bits i * f i =
      ∑ x ∈ occupied n P bits, f (Variable.number ⟨x.1, x.2⟩ P) := by
  rw [sum_numbers, ← sum_filter_add_sum_filter_not univ (· ∈ occupied n P bits)]
  have hset : ∀ x ∈ univ.filter (· ∈ occupied n P bits),
      bitAt bits (Variable.number ⟨x.1, x.2⟩ P) * f (Variable.number ⟨x.1, x.2⟩ P) =
        f (Variable.number ⟨x.1, x.2⟩ P) := by
    intro x hx
    rw [bitAt_number, if_pos (mem_filter.1 hx).2, one_mul]
  have hunset : ∀ x ∈ univ.filter (· ∉ occupied n P bits),
      bitAt bits (Variable.number ⟨x.1, x.2⟩ P) * f (Variable.number ⟨x.1, x.2⟩ P) = 0 := by
    intro x hx
    rw [bitAt_number, if_neg (mem_filter.1 hx).2, zero_mul]
  rw [sum_congr rfl hset, sum_eq_zero hunset, add_zero, filter_univ_mem]

end

/-! ## Energies -/

namespace Matrix

/-- An assignment has an energy, and no assignment has a smaller one. -/
def IsGround (m : Matrix Rat) (bits : List Bool) : Prop :=
  ∃ e, m.energy bits = .ok e ∧ ∀ bits' e', m.energy bits' = .ok e' → e ≤ e'

/-- The matrix is over `n` nodes and `P` positions, and an assignment has the energy of
the set of pairs that it sets. -/
structure Measures {n P : Nat} (m : Matrix Rat) (energyOf : Finset (Fin n × Fin P) → Rat) :
    Prop where
  dimension : m.dimension = n * P
  energy : ∀ bits, bits.length = n * P → m.energy bits = .ok (energyOf (occupied n P bits))

namespace Measures

variable {n P : Nat} {m : Matrix Rat} {energyOf : Finset (Fin n × Fin P) → Rat}

/-- When an energy is answered, and which. -/
theorem energy_eq_ok_iff (h : m.Measures energyOf) {bits : List Bool} {e : Rat} :
    m.energy bits = .ok e ↔ bits.length = n * P ∧ energyOf (occupied n P bits) = e := by
  constructor
  · intro he
    have hlen : bits.length = n * P := (length_of_energy_eq_ok he).trans h.dimension
    exact ⟨hlen, Except.ok.inj ((h.energy bits hlen).symm.trans he)⟩
  · rintro ⟨hlen, rfl⟩
    exact h.energy bits hlen

/-- The assignments of least energy set the sets of least energy. -/
theorem isGround_iff (h : m.Measures energyOf) {bits : List Bool} :
    m.IsGround bits ↔
      bits.length = n * P ∧ ∀ s, energyOf (occupied n P bits) ≤ energyOf s := by
  simp only [IsGround, h.energy_eq_ok_iff]
  constructor
  · rintro ⟨e, ⟨hlen, rfl⟩, hleast⟩
    refine ⟨hlen, fun s => hleast (bitsOf s) _ ⟨length_bitsOf s, ?_⟩⟩
    rw [occupied_bitsOf]
  · rintro ⟨hlen, hleast⟩
    refine ⟨_, ⟨hlen, rfl⟩, ?_⟩
    rintro bits' e' ⟨-, rfl⟩
    exact hleast _

end Measures

end Matrix

/-- Where a bound on the energy is met under a condition only, the condition gives the energy. -/
theorem Matrix.energy_eq_of_met {m : Matrix Rat} {bits : List Bool} {bound : Rat} {P : Prop}
    (h : ∃ e, m.energy bits = .ok e ∧ bound ≤ e ∧ (e = bound ↔ P)) (hP : P) :
    m.energy bits = .ok bound := by
  obtain ⟨e, he, -, hiff⟩ := h
  rw [he, hiff.2 hP]

/-- An energy that does not reach its bound is above it. -/
theorem Matrix.lt_of_energy_eq_ok {m : Matrix Rat} {bits : List Bool} {bound e : Rat} {P : Prop}
    (h : ∃ e, m.energy bits = .ok e ∧ bound ≤ e ∧ (e = bound ↔ P)) (hP : ¬P)
    (he : m.energy bits = .ok e) : bound < e := by
  obtain ⟨e', he', hge, hiff⟩ := h
  obtain rfl : e' = e := Except.ok.inj (he'.symm.trans he)
  exact lt_of_le_of_ne hge fun heq => hP (hiff.1 heq.symm)

/-- Where every value that is not of a family lies above one that is, the least values are
the least of the family. -/
theorem least_iff_of_exchange {α ι : Type} {E : α → Rat} {f : ι → α}
    (h : ∀ x, (∃ i, x = f i) ∨ ∃ i, E (f i) < E x) {x : α} :
    (∀ y, E x ≤ E y) ↔ ∃ i, x = f i ∧ ∀ j, E (f i) ≤ E (f j) := by
  constructor
  · intro hleast
    rcases h x with ⟨i, rfl⟩ | ⟨i, hless⟩
    · exact ⟨i, rfl, fun j => hleast (f j)⟩
    · exact absurd (hleast (f i)) (not_le.2 hless)
  · rintro ⟨i, rfl, hleast⟩ y
    rcases h y with ⟨j, rfl⟩ | ⟨j, hless⟩
    · exact hleast j
    · exact (hleast j).trans hless.le

/-- The strength of a family is its weight, zero if unset. -/
theorem Constraints.strength_eq (c : Constraints Rat) (f : Penalty) :
    c.strength f = (c.weights f).getD 0 := by
  unfold strength weight
  cases c.weights f with
  | none => rfl
  | some w =>
    rw [Option.filter_some]
    by_cases hw : w = 0
    · subst hw
      rfl
    · have hzero : Coefficient.isZero w = false := beq_false_of_ne hw
      simp [hzero]

/-- A family that is not enabled has no strength. -/
theorem Constraints.strength_of_not_isEnabled (c : Constraints Rat) {f : Penalty}
    (h : ¬c.isEnabled f = true) : c.strength f = 0 := by
  rw [isEnabled, Option.isSome_iff_ne_none, not_not] at h
  rw [strength, h]
  rfl

theorem whole_eq (n : Nat) : (Coefficient.whole n : Rat) = n := rfl

/-- A family that is set has a strength. -/
theorem Constraints.strength_ne_zero {c : Constraints Rat} {f : Penalty} (h : c.Sets f) :
    c.strength f ≠ 0 := by
  obtain ⟨w, hw, hzero⟩ := h
  rw [strength_eq, hw]
  rintro rfl
  simp [Coefficient.isZero, Coefficient.same] at hzero

/-- Families of the same strength have the same weight. -/
theorem Constraints.weight_eq_of_strength_eq {c : Constraints Rat} {f f' : Penalty}
    (h : c.strength f = c.strength f') : c.weight f = c.weight f' := by
  have hweight : ∀ f, c.weight f = if c.strength f = 0 then none else some (c.strength f) := by
    intro f
    by_cases hf : c.isEnabled f = true
    · have hne := strength_ne_zero (isEnabled_iff.1 hf)
      obtain ⟨w, hw⟩ := Option.isSome_iff_exists.1 hf
      rw [if_neg hne, strength, hw]
      rfl
    · rw [if_pos (c.strength_of_not_isEnabled hf)]
      rwa [isEnabled, Option.isSome_iff_ne_none, not_not] at hf
  rw [hweight, hweight, h]

/-- Two nodes at one position bring the same together in both orders. -/
theorem Layout.positionMeaning_add_swap {l : Layout Rat} {c : Constraints Rat} {v w : Nat}
    (hvw : v ≠ w) :
    l.positionMeaning c v w + l.positionMeaning c w v =
      c.strength .onePositionManyNodes + (if c.doubleCountEdges = true then 2 else 1) *
        if l.graph.Joined v w then c.strength .edges else c.strength .nonEdges := by
  have hjoined : l.graph.Joined w v ↔ l.graph.Joined v w := Graph.joined_comm
  have hgt : w < v ↔ ¬v < w := by omega
  unfold positionMeaning
  simp only [hjoined, hgt]
  generalize (if l.graph.Joined v w then c.strength .edges else c.strength .nonEdges) = k
  by_cases hlt : v < w
  · simp only [hlt, true_or, not_true, false_or, if_true, if_false]
    split <;> ring
  · simp only [hlt, not_false_eq_true, true_or, false_or, if_true, if_false]
    split <;> ring

/-- The energy of a set of pairs over a layout: the meanings of all cells between them. -/
def Layout.energyOf (l : Layout Rat) (c : Constraints Rat) :
    Finset (Fin l.graph.nodeCount × Fin l.positions) → Rat :=
  pairSum fun x y => l.meaning c x.1 x.2 y.1 y.2

/-- What compiles over a layout measures the sets of pairs of the layout. -/
theorem exists_measures {l : Layout Rat} {c : Constraints Rat} {p : Plan Rat}
    (h : l.plan c = .ok p) : ∃ m, l.generate c = .ok m ∧ m.Measures (l.energyOf c) := by
  obtain ⟨m, hm, hdim, -, hcells⟩ := exists_generate_meaning h
  refine ⟨m, hm, hdim, fun bits hlen => ?_⟩
  have hcell : ∀ x y : Fin l.graph.nodeCount × Fin l.positions,
      m.cell (Variable.number ⟨x.1, x.2⟩ l.positions)
        (Variable.number ⟨y.1, y.2⟩ l.positions) = l.meaning c x.1 x.2 y.1 y.2 := by
    intro x y
    exact hcells _ _ _ _ x.1.isLt y.1.isLt x.2.isLt y.2.isLt
  have hinner : ∀ i, ∑ j ∈ range (l.graph.nodeCount * l.positions),
      m.cell i j * bitAt bits j = ∑ y ∈ occupied l.graph.nodeCount l.positions bits,
        m.cell i (Variable.number ⟨y.1, y.2⟩ l.positions) := by
    intro i
    rw [← sum_bitAt_mul bits (m.cell i)]
    exact sum_congr rfl fun j _ => mul_comm _ _
  rw [m.energy_eq_ok (hlen.trans hdim.symm), hdim]
  simp only [← mul_sum, hinner]
  rw [sum_bitAt_mul bits]
  simp only [hcell]
  rfl

/-! ## One node at each position -/

section

variable {n P : Nat}

/-- The assignment says of every position which node is there, namely `π` of it. -/
def Encodes (bits : List Bool) (π : Fin P → Fin n) : Prop :=
  bits.length = n * P ∧ ∀ (v : Fin n) (q : Fin P),
    bits[Variable.number ⟨v, q⟩ P]? = some true ↔ π q = v

instance (bits : List Bool) (π : Fin P → Fin n) : Decidable (Encodes bits π) :=
  inferInstanceAs (Decidable (_ ∧ _))

/-- The pairs in which every position has the node that `π` says. -/
def placement (π : Fin P → Fin n) : Finset (Fin n × Fin P) := univ.image fun q => (π q, q)

/-- A placement holds the variables of its own nodes. -/
theorem mem_placement {π : Fin P → Fin n} {x : Fin n × Fin P} :
    x ∈ placement π ↔ π x.2 = x.1 := by
  obtain ⟨v, q⟩ := x
  simp [placement]

/-- An assignment encodes a placement if it occupies just this. -/
theorem encodes_iff {bits : List Bool} {π : Fin P → Fin n} :
    Encodes bits π ↔ bits.length = n * P ∧ occupied n P bits = placement π := by
  simp only [Encodes, Finset.ext_iff, occupied, mem_filter, mem_univ, true_and, mem_placement,
    Prod.forall]

/-- An assignment encodes one sequence at most. -/
theorem Encodes.unique {bits : List Bool} {π τ : Fin P → Fin n} (hπ : Encodes bits π)
    (hτ : Encodes bits τ) : π = τ :=
  funext fun q => ((hπ.2 (τ q) q).1 ((hτ.2 (τ q) q).2 rfl))

theorem encodes_bitsOf (π : Fin P → Fin n) : Encodes (bitsOf (placement π)) π :=
  encodes_iff.2 ⟨length_bitsOf _, occupied_bitsOf _⟩

/-- A sum over the pairs of `π` is a sum over the positions. -/
theorem sum_placement (π : Fin P → Fin n) (f : Fin n × Fin P → Rat) :
    ∑ x ∈ placement π, f x = ∑ q, f (π q, q) :=
  sum_image fun _ _ _ _ h => congrArg Prod.snd h

/-- A set with a node at every position, and with one only, is that of a function. -/
theorem exists_placement {s : Finset (Fin n × Fin P)} (hsome : ∀ q, ∃ v, (v, q) ∈ s)
    (hone : ∀ x ∈ s, ∀ y ∈ s, x.2 = y.2 → x = y) : ∃ π, s = placement π := by
  choose π hπ using hsome
  refine ⟨π, Finset.ext fun x => ?_⟩
  rw [mem_placement]
  constructor
  · intro hx
    exact congrArg Prod.fst (hone _ (hπ x.2) _ hx rfl)
  · intro hx
    have h := hπ x.2
    rwa [hx] at h

end

end GraphQubo
