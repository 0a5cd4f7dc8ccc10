import Mathlib.Data.Fintype.EquivFin
import Mathlib.Data.Fintype.Perm
import Mathlib.Order.Fin.Basic
import GraphQubo.Proofs.Compile.Rearranged
import GraphQubo.Proofs.Graph.Reversed

/-!
# GraphQubo.Proofs.Compile.Around

Positions on a circle: no position comes first.

A step from the last position to the first is a family of its own, with a weight and a flag
of its own.  Where it has those of the steps before it, and where nothing is said of the
first or the last position alone, two variables bring together what depends on their nodes
and on which of the positions follows the other one.

* `following` — the next position, around the end;
* `Layout.meaning_add_swap` — what two variables bring together;
* `Layout.keepsEnergies` — positions may change places if that keeps which of them follow
  each other; `keepsEnergies_turned` and `keepsEnergies_reversed` are such changes.
-/

namespace GraphQubo

open Finset

/-! ## Around the positions -/

/-- The position after `q`; the first one comes after the last. -/
def following {n : Nat} (q : Fin n) : Fin n := ⟨(q + 1) % n, Nat.mod_lt _ q.pos⟩

/-- The position that follows is the next one, or the first after the last. -/
theorem following_eq_iff {n : Nat} {q r : Fin n} :
    following q = r ↔ (r : Nat) = q + 1 ∨ ((q : Nat) = n - 1 ∧ (r : Nat) = 0) := by
  have hq := q.isLt
  have hr := r.isLt
  rw [Fin.ext_iff, following]
  rcases Nat.lt_or_ge (q + 1) n with h | h
  · simp only [Nat.mod_eq_of_lt h]
    omega
  · have hlast : (q : Nat) + 1 = n := by omega
    simp only [hlast, Nat.mod_self]
    omega

/-- Different positions are followed by different ones. -/
theorem following_injective {n : Nat} : Function.Injective (following : Fin n → Fin n) := by
  intro q q' h
  have hq := following_eq_iff.1 h
  have hq' := following_eq_iff.1 (rfl : following q' = following q')
  have hlt := q.isLt
  have hlt' := q'.isLt
  rw [Fin.ext_iff]
  omega

/-- With two positions or more none follows itself. -/
theorem following_ne {n : Nat} (hn : 2 ≤ n) (q : Fin n) : following q ≠ q := by
  intro h
  have := following_eq_iff.1 h
  omega

/-- Two different nodes or positions are there only if there are two of them. -/
theorem two_le_of_ne {n : Nat} {i j : Fin n} (h : i ≠ j) : 2 ≤ n := by
  have hij := Fin.val_ne_of_ne h
  omega

/-- All positions move on by one. -/
noncomputable def turn (n : Nat) : Equiv.Perm (Fin n) :=
  Equiv.ofBijective following (Finite.injective_iff_bijective.1 following_injective)

theorem turn_apply {n : Nat} (q : Fin n) : turn n q = following q := rfl

/-- Moving on `k` times is adding `k`, around the end. -/
theorem turn_pow_val {n : Nat} (k : Nat) (q : Fin n) : ((turn n ^ k) q : Nat) = (q + k) % n := by
  induction k with
  | zero => simp [Nat.mod_eq_of_lt q.isLt]
  | succ k ih =>
    rw [pow_succ', Equiv.Perm.mul_apply, turn_apply]
    simp only [following, ih, Nat.mod_add_mod, Nat.add_assoc]

/-- Turning keeps which position follows which. -/
theorem following_turn_pow {n : Nat} (k : Nat) (q : Fin n) :
    following ((turn n ^ k) q) = (turn n ^ k) (following q) := by
  rw [← turn_apply, ← turn_apply, ← Equiv.Perm.mul_apply, ← Equiv.Perm.mul_apply,
    (Commute.self_pow (turn n) k).eq]

/-- Read backwards, the next position is the one before. -/
theorem following_rev_eq_iff {n : Nat} {q r : Fin n} :
    following q.rev = r.rev ↔ following r = q := by
  have hq := q.isLt
  have hr := r.isLt
  rw [following_eq_iff, following_eq_iff, Fin.val_rev, Fin.val_rev]
  omega

/-! ## What two variables bring together -/

/-- Nothing is said of the first position, the last one, or of staying at a node; the step
around the end has the weights and the flag of the steps before it. -/
structure Constraints.IsCyclic {K : Type} [Coefficient K] (c : Constraints K) : Prop where
  start : c.isEnabled .startNodeScore = false
  terminal : c.isEnabled .terminalNodeScore = false
  staying : c.isEnabled .invalidTraversalSelf = false
  walked : c.weight .edgeWeightsFactor = c.weight .edgeWeightsCyclesFactor
  jumped : c.weight .invalidTraversal = c.weight .invalidTraversalCycles
  flags : c.doubleCountEdges = c.doubleCountCycles

namespace Layout

variable {l : Layout Rat} {c : Constraints Rat}

/-- What one node or two nodes bring together at one position. -/
def sharedMeaning (l : Layout Rat) (c : Constraints Rat) (v w : Nat) : Rat :=
  l.meaning c v 0 w 0 + l.meaning c w 0 v 0

/-- What is brought by `v` at one position and `w` at the next. -/
def onwardMeaning (l : Layout Rat) (c : Constraints Rat) (v w : Nat) : Rat :=
  if v = w then
    if l.graph.Arc v v then c.strength .edgeWeightsFactor * l.graph.arcWeight v v else 0
  else l.stepMeaning c v w

/-- The diagonal cell of a node is the same at all positions. -/
theorem variableMeaning_of_isCyclic (hc : c.IsCyclic) (v q : Nat) :
    l.variableMeaning c v q = l.variableMeaning c v 0 := by
  have hstart := c.strength_of_not_isEnabled (Bool.eq_false_iff.1 hc.start)
  have hterminal := c.strength_of_not_isEnabled (Bool.eq_false_iff.1 hc.terminal)
  simp only [variableMeaning, hstart, hterminal, ite_self]

/-- The step from the last to the first position counts as any other. -/
theorem cycleMeaning_of_isCyclic (hc : c.IsCyclic) (v w : Nat) :
    l.cycleMeaning c v w = l.stepMeaning c v w := by
  simp only [cycleMeaning, stepMeaning, Constraints.strength, hc.walked, hc.jumped, hc.flags]

/-- Between two nodes only steps to the following position count. -/
theorem meaning_step_of_isCyclic (hc : c.IsCyclic) {v w : Nat} (hvw : v ≠ w)
    {q r : Fin l.positions} (hqr : q ≠ r) :
    l.meaning c v q w r = if following q = r then l.stepMeaning c v w else 0 := by
  have hqr' : ¬(q : Nat) = r := fun h => hqr (Fin.ext h)
  have hroom := two_le_of_ne hqr
  simp only [meaning, hvw, hqr', if_false, cycleMeaning_of_isCyclic hc, following_eq_iff, hroom,
    and_true]
  by_cases hnext : (r : Nat) = q + 1
  · simp [hnext]
  · simp [hnext]

/-- Both cells of one node at two positions, taken together. -/
theorem meaning_node_of_isCyclic (hc : c.IsCyclic) (v : Nat) {q r : Fin l.positions}
    (hqr : q ≠ r) :
    l.meaning c v q v r + l.meaning c v r v q =
      c.strength .oneNodeManyPositions +
        ((if following q = r then l.onwardMeaning c v v else 0) +
          if following r = q then l.onwardMeaning c v v else 0) := by
  wlog hlt : q < r generalizing q r
  · have hgt : r < q := lt_of_le_of_ne (not_lt.1 hlt) (Ne.symm hqr)
    rw [add_comm, this (Ne.symm hqr) hgt, add_comm (ite (following r = q) _ _)]
  have hlt' : (q : Nat) < r := hlt
  have hq := q.isLt
  have hr := r.isLt
  have hroom := two_le_of_ne hqr
  have hnext : following q = r ↔ (r : Nat) = q + 1 := by rw [following_eq_iff]; omega
  have hwrap : following r = q ↔ (q : Nat) = 0 ∧ (r : Nat) = l.positions - 1 := by
    rw [following_eq_iff]; omega
  have hne : ¬(q : Nat) = r := by omega
  have hne' : ¬(r : Nat) = q := by omega
  have hle : ¬(r : Nat) < q := by omega
  have hstaying := c.strength_of_not_isEnabled (Bool.eq_false_iff.1 hc.staying)
  have hwalked : c.strength .edgeWeightsCyclesFactor = c.strength .edgeWeightsFactor :=
    congrArg (Option.getD · 0) hc.walked.symm
  simp only [meaning, nodeMeaning, onwardMeaning, hne, hne', hle, hlt', hnext, hwrap, hstaying,
    hwalked, hroom, if_true, if_false, true_and]
  by_cases harc : l.graph.Arc v v
  · simp [harc, add_assoc]
  · simp [harc]

/-- Two variables bring together what depends on their nodes and on which of their
positions follows the other one. -/
theorem meaning_add_swap (hc : c.IsCyclic) (v w : Nat) (q r : Fin l.positions) :
    l.meaning c v q w r + l.meaning c w r v q =
      if q = r then l.sharedMeaning c v w
      else (if v = w then c.strength .oneNodeManyPositions else 0) +
        ((if following q = r then l.onwardMeaning c v w else 0) +
          if following r = q then l.onwardMeaning c w v else 0) := by
  by_cases hqr : q = r
  · subst hqr
    rw [if_pos rfl]
    by_cases hvw : v = w
    · subst hvw
      simp only [sharedMeaning, meaning, if_true, variableMeaning_of_isCyclic hc v q]
    · simp only [sharedMeaning, meaning, hvw, Ne.symm hvw, if_true, if_false]
  · have hrq : ¬r = q := fun h => hqr h.symm
    rw [if_neg hqr]
    by_cases hvw : v = w
    · subst hvw
      rw [meaning_node_of_isCyclic hc v hqr, if_pos rfl]
    · have hwv : ¬w = v := fun h => hvw h.symm
      rw [meaning_step_of_isCyclic hc hvw hqr, meaning_step_of_isCyclic hc hwv hrq]
      simp only [onwardMeaning, hvw, hwv, if_false, zero_add]

/-- Over an undirected graph a step written both ways is the same in both directions. -/
theorem onwardMeaning_comm (hflag : c.doubleCountEdges = true) (hd : l.graph.directed = false)
    (v w : Nat) : l.onwardMeaning c v w = l.onwardMeaning c w v := by
  have hsame := Graph.reversed_of_undirected hd
  have harc : l.graph.Arc v w ↔ l.graph.Arc w v := by
    rw [← Graph.arc_reversed_iff, hsame]
  have hweight : l.graph.arcWeight v w = l.graph.arcWeight w v := by
    rw [← Graph.arcWeight_reversed, hsame]
  unfold onwardMeaning
  by_cases hvw : v = w
  · rw [hvw]
  · simp only [hvw, Ne.symm hvw, if_false, stepMeaning, hflag, or_true, if_true, harc, hweight]

end Layout

/-! ## Positions that change places -/

/-- An assignment keeps its energy when every node moves from its positions `q` to the
positions `f q`. -/
def Matrix.KeepsEnergies (m : Matrix Rat) (n P : Nat) (f : Nat → Nat) : Prop :=
  ∀ bits bits' : List Bool, bits.length = n * P → bits'.length = n * P →
    (∀ v < n, ∀ q < P, bits'[Variable.number ⟨v, f q⟩ P]? = bits[Variable.number ⟨v, q⟩ P]?) →
    ∃ e, m.energy bits = .ok e ∧ m.energy bits' = .ok e

namespace Layout

variable {l : Layout Rat} {c : Constraints Rat} {m : Matrix Rat}

/-- Positions that change places keep all energies if two nodes bring at the new positions
what they bring at the old ones. -/
theorem keepsEnergies (hm : m.Measures (l.energyOf c)) (σ : Equiv.Perm (Fin l.positions))
    {f : Nat → Nat} (hf : ∀ q, ((σ q : Nat)) = f q)
    (hσ : ∀ (v w : Nat) (q r : Fin l.positions),
      l.meaning c v (σ q) w (σ r) + l.meaning c w (σ r) v (σ q) =
        l.meaning c v q w r + l.meaning c w r v q) :
    m.KeepsEnergies l.graph.nodeCount l.positions f := by
  intro bits bits' hlen hlen' hbits
  have hcarries : Carries ((Equiv.refl (Fin l.graph.nodeCount)).prodCongr σ) bits bits' := by
    refine ⟨hlen, hlen', fun x => ?_⟩
    have hx := hbits x.1 x.1.isLt x.2 x.2.isLt
    rwa [← hf] at hx
  exact hm.energy_of_carries hm (fun x y => hσ x.1 y.1 x.2 y.2) hcarries

/-- All positions may move on by the same number. -/
theorem keepsEnergies_turned (hc : c.IsCyclic) (hm : m.Measures (l.energyOf c)) (k : Nat) :
    m.KeepsEnergies l.graph.nodeCount l.positions fun q => (q + k) % l.positions := by
  refine keepsEnergies hm (turn l.positions ^ k) (turn_pow_val k) fun v w q r => ?_
  simp only [meaning_add_swap hc, following_turn_pow, EmbeddingLike.apply_eq_iff_eq]

/-- All positions may be read backwards if steps are the same in both directions. -/
theorem keepsEnergies_reversed (hc : c.IsCyclic) (hflag : c.doubleCountEdges = true)
    (hd : l.graph.directed = false) (hm : m.Measures (l.energyOf c)) :
    m.KeepsEnergies l.graph.nodeCount l.positions fun q => l.positions - 1 - q := by
  have hrev : ∀ q : Fin l.positions, (Fin.revPerm q : Nat) = l.positions - 1 - q := by
    intro q
    rw [Fin.revPerm_apply, Fin.val_rev, Nat.sub_sub, Nat.add_comm]
  refine keepsEnergies hm Fin.revPerm hrev fun v w q r => ?_
  simp only [meaning_add_swap hc, Fin.revPerm_apply, following_rev_eq_iff, Fin.rev_inj]
  rw [onwardMeaning_comm hflag hd w v, add_comm (ite (following r = q) _ _)]

end Layout

end GraphQubo
