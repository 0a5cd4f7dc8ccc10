import Mathlib.Algebra.Order.BigOperators.Group.Finset
import Mathlib.Data.Finset.Card
import Mathlib.Tactic.Linarith
import GraphQubo.Proofs.Problem.Selection

/-!
# GraphQubo.Proofs.Problem.DensestSubgraph

The least energies of the densest subgraph problem.

Over `n` nodes a selection `S` has energy `n (|S| - k)^2 - n k^2`, less one for each edge
between its nodes.  In a selection of more than `k` nodes each node is joined to fewer than `n`
others, so dropping one costs less than the size gains; in a selection of fewer than `k` a
further node only adds edges.  Both ways the size comes closer to `k` and the energy falls, so
only selections of `k` nodes can have the least energy, and among those it is the ones with the
most edges that have it.

* `energyOn_gathering` — the energy by size and edges;
* `gathering_erase_lt`, `gathering_insert_lt` — one node less, and one node more;
* `card_eq_or_exists_lt` — what such steps end in;
* `densestSubgraph_isGround` — the assignments of least energy, and that energy.
-/

namespace GraphQubo

open Finset

namespace Graph

variable {g : Graph Rat} {k : Nat} {S : Finset (Fin g.nodeCount)}

/-- The number of edges with both ends in the set. -/
def edgesWithin (g : Graph Rat) (S : Finset (Fin g.nodeCount)) : Nat :=
  g.edges.countP fun e => (∃ v ∈ S, (v : Nat) = e.source) ∧ ∃ w ∈ S, (w : Nat) = e.target

/-- A set of `k` nodes with as many edges between them as any other one has. -/
structure IsDensest (g : Graph Rat) (k : Nat) (S : Finset (Fin g.nodeCount)) : Prop where
  card : S.card = k
  densest : ∀ T : Finset (Fin g.nodeCount), T.card = k → g.edgesWithin T ≤ g.edgesWithin S

instance (g : Graph Rat) (k : Nat) (S : Finset (Fin g.nodeCount)) : Decidable (g.IsDensest k S) :=
  decidable_of_iff (S.card = k ∧ ∀ T : Finset (Fin g.nodeCount), T.card = k →
    g.edgesWithin T ≤ g.edgesWithin S) ⟨fun h => ⟨h.1, h.2⟩, fun h => ⟨h.1, h.2⟩⟩

/-- Where there are `k` nodes, some `k` of them are densest. -/
theorem exists_isDensest (hk : k ≤ g.nodeCount) : ∃ S, g.IsDensest k S := by
  obtain ⟨T, -, hT⟩ := exists_subset_card_eq (s := (univ : Finset (Fin g.nodeCount)))
    (hk.trans_eq (card_fin _).symm)
  obtain ⟨S, hS, hmost⟩ := exists_max_image (univ.filter fun S => S.card = k) g.edgesWithin
    ⟨T, mem_filter.2 ⟨mem_univ T, hT⟩⟩
  exact ⟨S, (mem_filter.1 hS).2, fun T hT => hmost T (mem_filter.2 ⟨mem_univ T, hT⟩)⟩

/-! ## Energies -/

/-- The strengths of the problem: `n` for the square of what the size misses, without its
constant, and an edge earns 1. -/
def gathering (g : Graph Rat) (k : Nat) : Placement :=
  { placed := g.nodeCount - 2 * g.nodeCount * k, crowded := 2 * g.nodeCount, joined := -1 }

/-- An edge within the selection earns one. -/
theorem onEdge_gathering (g : Graph Rat) (k : Nat) (bits : List Bool) (v w : Nat) :
    (g.gathering k).onEdge bits v w = -if Selects bits v ∧ Selects bits w then 1 else 0 := by
  rw [Placement.onEdge, bitAt_eq_selects, bitAt_eq_selects, gathering]
  by_cases hv : Selects bits v <;> by_cases hw : Selects bits w <;> norm_num [hv, hw]

/-- The edges earn one for each that lies within the selection. -/
theorem sum_onEdge_gathering (g : Graph Rat) (k : Nat) (bits : List Bool)
    (es : List (Edge Rat)) :
    (es.map fun e => (g.gathering k).onEdge bits e.source e.target).sum =
      -(es.countP fun e => Selects bits e.source ∧ Selects bits e.target : Nat) := by
  induction es with
  | nil => simp
  | cons e es ih =>
    rw [List.map_cons, List.sum_cons, ih, onEdge_gathering, List.countP_cons]
    push_cast [decide_eq_true_eq]
    ring

/-- The edges within a selection, counted over the stored edges. -/
theorem edgesWithin_selected (g : Graph Rat) (bits : List Bool) :
    g.edgesWithin (selected g.nodeCount bits) =
      g.edges.countP fun e => Selects bits e.source ∧ Selects bits e.target := by
  have hend : ∀ x < g.nodeCount,
      (∃ v ∈ selected g.nodeCount bits, (v : Nat) = x) ↔ Selects bits x := by
    intro x hx
    constructor
    · rintro ⟨v, hv, rfl⟩
      exact mem_selected.1 hv
    · intro hselects
      exact ⟨⟨x, hx⟩, mem_selected.2 hselects, rfl⟩
  refine List.countP_congr fun e he => ?_
  simp only [decide_eq_true_eq, hend _ (g.bounded e he).1, hend _ (g.bounded e he).2]

/-- The energy of a selection, by its size and its edges. -/
theorem energyOn_gathering (hd : g.directed = false) (k : Nat) (S : Finset (Fin g.nodeCount)) :
    (g.gathering k).energyOn g S =
      g.nodeCount * ((S.card : Rat) - k) ^ 2 - g.nodeCount * k * k - g.edgesWithin S := by
  obtain ⟨bits, -, rfl⟩ := exists_selects S
  rw [Placement.energyOn_eq_edges (isSingle_of_undirected hd) rfl, sum_onEdge_gathering,
    edgesWithin_selected]
  simp only [gathering]
  ring

/-! ## One node less, one node more -/

theorem own_gathering (hloopless : ∀ v, ¬g.Joined v v) (k v : Nat) :
    (g.gathering k).own g v = g.nodeCount - 2 * g.nodeCount * k := by
  simp only [Placement.own, gathering, zero_mul, add_zero, if_neg (hloopless v)]

/-- Bounds for the coupling of two nodes, whether joined or not. -/
theorem coupling_gathering (g : Graph Rat) (k v w : Nat) :
    2 * (g.nodeCount : Rat) - 1 ≤ (g.gathering k).coupling g v w ∧
      (g.gathering k).coupling g v w ≤ 2 * g.nodeCount := by
  simp only [Placement.coupling, gathering]
  split <;> constructor <;> linarith

/-- A selection that is too large has less energy without any of its nodes: the node is joined
to fewer than `n` others. -/
theorem gathering_erase_lt (hloopless : ∀ v, ¬g.Joined v v) {v : Fin g.nodeCount} (hv : v ∈ S)
    (hlarge : k < S.card) :
    (g.gathering k).energyOn g (S.erase v) < (g.gathering k).energyOn g S := by
  have hothers : ((S.erase v).card : Rat) * (2 * g.nodeCount - 1) ≤
      ∑ w ∈ S.erase v, (g.gathering k).coupling g v w := by
    rw [← nsmul_eq_mul]
    exact card_nsmul_le_sum _ _ _ fun w _ => (g.coupling_gathering k v w).1
  have hcard : (S.erase v).card + 1 = S.card := card_erase_add_one hv
  have hsize : S.card ≤ g.nodeCount := S.card_le_univ.trans_eq (Fintype.card_fin _)
  have hrest : ((S.erase v).card : Rat) + 1 ≤ g.nodeCount := by exact_mod_cast hcard.trans_le hsize
  have hk : (k : Rat) ≤ (S.erase v).card := by exact_mod_cast Nat.lt_succ_iff.1 (hcard ▸ hlarge)
  have hproduct := mul_le_mul_of_nonneg_left hk (Nat.cast_nonneg (α := Rat) g.nodeCount)
  rw [Placement.energyOn_erase hv, own_gathering hloopless]
  linarith

/-- A selection that is too small has less energy with any further node. -/
theorem gathering_insert_lt (hloopless : ∀ v, ¬g.Joined v v) {v : Fin g.nodeCount} (hv : v ∉ S)
    (hsmall : S.card < k) :
    (g.gathering k).energyOn g (insert v S) < (g.gathering k).energyOn g S := by
  have hothers : ∑ w ∈ S, (g.gathering k).coupling g v w ≤ (S.card : Rat) * (2 * g.nodeCount) := by
    rw [← nsmul_eq_mul]
    exact sum_le_card_nsmul _ _ _ fun w _ => (g.coupling_gathering k v w).2
  have hnodes : (1 : Rat) ≤ g.nodeCount := by exact_mod_cast v.pos
  have hk : (S.card : Rat) + 1 ≤ k := by exact_mod_cast hsmall
  have hproduct := mul_le_mul_of_nonneg_left hk (Nat.cast_nonneg (α := Rat) g.nodeCount)
  rw [Placement.energyOn_erase (mem_insert_self v S), erase_insert hv, own_gathering hloopless]
  linarith

/-- Every selection has `k` nodes, or one of `k` nodes has less energy. -/
theorem card_eq_or_exists_lt (hloopless : ∀ v, ¬g.Joined v v) (hk : k ≤ g.nodeCount)
    (S : Finset (Fin g.nodeCount)) :
    S.card = k ∨
      ∃ T, T.card = k ∧ (g.gathering k).energyOn g T < (g.gathering k).energyOn g S := by
  -- on how far the size is from `k`, from above or from below
  induction hfar : (S.card - k) + (k - S.card) generalizing S with
  | zero => exact .inl (by omega)
  | succ far ih =>
    obtain ⟨T, hcloser, hless⟩ : ∃ T : Finset (Fin g.nodeCount),
        (T.card - k) + (k - T.card) = far ∧
          (g.gathering k).energyOn g T < (g.gathering k).energyOn g S := by
      rcases Nat.lt_or_ge k S.card with hlarge | hsmall
      · obtain ⟨v, hv⟩ := card_pos.1 (Nat.zero_lt_of_lt hlarge)
        have hcard := card_erase_add_one hv
        exact ⟨S.erase v, by omega, gathering_erase_lt hloopless hv hlarge⟩
      · have hlack : S.card < (univ : Finset (Fin g.nodeCount)).card := by
          rw [card_fin]
          omega
        obtain ⟨v, -, hv⟩ := exists_mem_notMem_of_card_lt_card hlack
        have hcard := card_insert_of_notMem hv
        exact ⟨insert v S, by omega, gathering_insert_lt hloopless hv (by omega)⟩
    rcases ih T hcloser with hT | ⟨U, hU, hlessU⟩
    · exact .inr ⟨T, hT, hless⟩
    · exact .inr ⟨U, hU, hlessU.trans hless⟩

/-- The selections of least energy are the densest ones of `k` nodes. -/
theorem least_iff_isDensest (hd : g.directed = false) (hloopless : ∀ v, ¬g.Joined v v)
    (hk : k ≤ g.nodeCount) :
    (∀ T, (g.gathering k).energyOn g S ≤ (g.gathering k).energyOn g T) ↔ g.IsDensest k S := by
  have hexchange : ∀ T, (∃ I : { I : Finset (Fin g.nodeCount) // I.card = k }, T = I.1) ∨
      ∃ I : { I : Finset (Fin g.nodeCount) // I.card = k },
        (g.gathering k).energyOn g I.1 < (g.gathering k).energyOn g T := by
    intro T
    rcases card_eq_or_exists_lt hloopless hk T with hT | ⟨I, hI, hless⟩
    · exact .inl ⟨⟨T, hT⟩, rfl⟩
    · exact .inr ⟨⟨I, hI⟩, hless⟩
  have hedges : ∀ {I J : Finset (Fin g.nodeCount)}, I.card = k → J.card = k →
      ((g.gathering k).energyOn g I ≤ (g.gathering k).energyOn g J ↔
        g.edgesWithin J ≤ g.edgesWithin I) := by
    intro I J hI hJ
    rw [energyOn_gathering hd, energyOn_gathering hd, hI, hJ, sub_le_sub_iff_left, Nat.cast_le]
  rw [least_iff_of_exchange hexchange]
  constructor
  · rintro ⟨⟨I, hI⟩, rfl, hleast⟩
    exact ⟨hI, fun T hT => (hedges hI hT).1 (hleast ⟨T, hT⟩)⟩
  · rintro ⟨hS, hdensest⟩
    exact ⟨⟨S, hS⟩, rfl, fun J => (hedges hS J.2).2 (hdensest J.1 J.2)⟩

/-- Three nodes all joined, and a fourth joined to one of them. -/
def triangleWithTail : Graph Rat where
  directed := false
  nodeCount := 4
  edges := [⟨0, 1, none⟩, ⟨0, 2, none⟩, ⟨1, 2, none⟩, ⟨2, 3, none⟩]
  nodeCount_lt := four_lt_nodeLimit
  sorted := by decide
  bounded := by decide
  oriented := by decide
  weighted := by simp

end Graph

/-- The assignments of least energy select the `k` nodes with the most edges between them, and
that energy is `-n k k` less the number of these edges. -/
theorem densestSubgraph_isGround {g : Graph Rat} {k : Nat} (hd : g.directed = false)
    (hloopless : ∀ e ∈ g.edges, e.source ≠ e.target) (hfits : g.Fits 1) (hk : k ≤ g.nodeCount) :
    ∃ m, (Problem.densestSubgraph k).toMatrix g = .ok m ∧ m.dimension = g.nodeCount ∧
      (∀ bits, m.IsGround bits ↔
        bits.length = g.nodeCount ∧ g.IsDensest k (selected g.nodeCount bits)) ∧
      (∃ bits, m.IsGround bits) ∧
      ∀ bits, m.IsGround bits → m.energy bits =
        .ok (-g.nodeCount * k * k - g.edgesWithin (selected g.nodeCount bits)) := by
  have hsimple : g.IsSimple := ⟨hloopless, fun h => absurd (hd.symm.trans h) Bool.false_ne_true⟩
  obtain ⟨m, hm, hmeasures⟩ :=
    exists_selectionMatrix (p := .densestSubgraph k) (s := g.gathering k) rfl rfl hfits
  have hground : ∀ bits, m.IsGround bits ↔
      bits.length = g.nodeCount ∧ g.IsDensest k (selected g.nodeCount bits) := by
    intro bits
    rw [hmeasures.isGround_iff, Graph.least_iff_isDensest hd hsimple.not_joined_self hk]
  refine ⟨m, hm, hmeasures.dimension, hground, ?_, fun bits hbits => ?_⟩
  · obtain ⟨S, hS⟩ := Graph.exists_isDensest hk
    obtain ⟨bits, hlen, rfl⟩ := exists_selects S
    exact ⟨bits, (hground bits).2 ⟨hlen, hS⟩⟩
  · obtain ⟨hlen, hdensest⟩ := (hground bits).1 hbits
    rw [hmeasures.energy hlen, Graph.energyOn_gathering hd, hdensest.card]
    refine congrArg Except.ok ?_
    ring

/-- Of three nodes only the triangle has three edges, so it is the one ground state. -/
theorem densestSubgraph_isGround_triangleWithTail :
    ∃ m, (Problem.densestSubgraph 3).toMatrix .triangleWithTail = .ok m ∧
      m.IsGround [true, true, true, false] ∧ ¬m.IsGround [false, true, true, true] ∧
      ¬m.IsGround [true, true, true, true] ∧
      m.energy [true, true, true, false] = .ok (-39) := by
  obtain ⟨m, hm, -, hground, -, henergy⟩ :=
    densestSubgraph_isGround (g := .triangleWithTail) (k := 3) rfl (by decide) (by decide)
      (by decide)
  have htriangle := (hground [true, true, true, false]).2 (by decide)
  have hedges : Graph.triangleWithTail.edgesWithin (selected 4 [true, true, true, false]) = 3 := by
    decide
  refine ⟨m, hm, htriangle, mt (hground [false, true, true, true]).1 (by decide),
    mt (hground [true, true, true, true]).1 (by decide), ?_⟩
  rw [henergy _ htriangle]
  change Except.ok (-((4 : Nat) : Rat) * (3 : Nat) * (3 : Nat) -
    (Graph.triangleWithTail.edgesWithin (selected 4 [true, true, true, false]) : Nat)) = _
  rw [hedges]
  norm_num

end GraphQubo
