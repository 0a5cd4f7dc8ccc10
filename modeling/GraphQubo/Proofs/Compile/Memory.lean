import GraphQubo.Problem
import GraphQubo.Proofs.Compile.Filling
import Mathlib.Algebra.Group.Nat.Defs

/-!
# GraphQubo.Proofs.Compile.Memory

When there is memory for a matrix, and what happens to a plan without it.

A plan accepts a matrix whose cells can be counted in a word, so of any side below `2^32`.  A block
of memory holds the cells of a matrix of side below `2^30` (`hasRoom_iff`).  Between the two lie the
layouts that are accepted and not compiled.  Nothing else can fail after a plan: every addition
lands in the rows of its node, and every weight that is looked up is there.

* `Layout.compileInMemory_eq`, `Problem.toMatrixInMemory_eq` — compiling in memory is compiling and
  then asking whether there is room for the matrix, so what is known of the one holds of the other;
* `accepted_fails_only_without_room` — what an accepted layout ends with, and the bounds that let
  everything else go through;
* `accepted_fails_oneNode` — a layout that is accepted and has no room.
-/

namespace GraphQubo

variable {K : Type}

/-! ## Memory -/

/-- A block of memory holds the cells of a matrix of side below `2^30`. -/
theorem hasRoom_iff {n : Nat} : HasRoom n ↔ n < 2 ^ 30 := by
  unfold HasRoom cellBytes blockLimit
  constructor
  · intro h
    by_contra hge
    have hcells := Nat.mul_le_mul (Nat.le_of_not_lt hge) (Nat.le_of_not_lt hge)
    omega
  · intro h
    have hle : n ≤ 2 ^ 30 - 1 := Nat.le_pred_of_lt h
    have hcells := Nat.mul_le_mul hle hle
    omega

namespace Matrix

/-- A matrix of side below `2^30` gets its block. -/
theorem checkRoom_of_lt {n : Nat} (h : n < 2 ^ 30) :
    (checkRoom n : Except (Error K) Unit) = .ok () :=
  if_pos (hasRoom_iff.2 h)

/-- A greater one is refused. -/
theorem checkRoom_of_le {n : Nat} (h : 2 ^ 30 ≤ n) :
    (checkRoom n : Except (Error K) Unit) = .error (.noRoom n) :=
  if_neg fun hfits => Nat.not_lt.2 h (hasRoom_iff.1 hfits)

/-- The matrix, if there is memory for it. -/
def withRoom (m : Matrix K) : Except (Error K) (Matrix K) := do
  checkRoom m.dimension
  return m

theorem withRoom_of_lt {m : Matrix K} (h : m.dimension < 2 ^ 30) : m.withRoom = .ok m := by
  rw [withRoom, checkRoom_of_lt h]
  rfl

theorem withRoom_of_le {m : Matrix K} (h : 2 ^ 30 ≤ m.dimension) :
    m.withRoom = .error (.noRoom m.dimension) := by
  rw [withRoom, checkRoom_of_le h]
  rfl

end Matrix

variable [Coefficient K] {l : Layout K} {c : Constraints K}

namespace Layout

/-- A plan that is refused refuses the compilation, with the same error. -/
theorem compileInMemory_of_error {e : Error K} (h : l.plan c = .error e) (parallel : Bool) :
    l.compileInMemory c parallel = .error e := by
  rw [compileInMemory, h]
  rfl

/-- With memory the plan is filled, and both ways of filling it are the same. -/
theorem compileInMemory_of_lt {p : Plan K} (h : l.plan c = .ok p) (hroom : p.dimension < 2 ^ 30)
    (parallel : Bool) : l.compileInMemory c parallel = p.fill := by
  rw [compileInMemory, h]
  simp only [bind, Except.bind, Matrix.checkRoom_of_lt hroom]
  cases parallel with
  | false => rfl
  | true => exact Plan.fillParallel_eq_fill (plan_eq_ok h).2.2

/-- Without memory nothing is filled. -/
theorem compileInMemory_of_le {p : Plan K} (h : l.plan c = .ok p) (hroom : 2 ^ 30 ≤ p.dimension)
    (parallel : Bool) : l.compileInMemory c parallel = .error (.noRoom p.dimension) := by
  rw [compileInMemory, h]
  simp only [bind, Except.bind, Matrix.checkRoom_of_le hroom]

/-- Compiling in memory is compiling and then asking for room: the plan knows the side of the
matrix, and nothing fails between the two. -/
theorem compileInMemory_eq (l : Layout K) (c : Constraints K) (parallel : Bool) :
    l.compileInMemory c parallel = l.generate c >>= Matrix.withRoom := by
  cases h : l.plan c with
  | error e =>
    rw [compileInMemory_of_error h, generate, h]
    rfl
  | ok p =>
    obtain ⟨m, hm, hacc⟩ := Plan.exists_fill (plan_eq_ok h).2.2
    have hdimension : m.dimension = p.dimension := hacc.dimension
    have hgenerate : l.generate c = .ok m := by
      rw [generate, h]
      exact hm
    rw [hgenerate]
    show l.compileInMemory c parallel = m.withRoom
    rcases Nat.lt_or_ge p.dimension (2 ^ 30) with hroom | hroom
    · rw [compileInMemory_of_lt h hroom, hm, Matrix.withRoom_of_lt (hdimension ▸ hroom)]
    · rw [compileInMemory_of_le h hroom, Matrix.withRoom_of_le (hdimension ▸ hroom), hdimension]

end Layout

/-- A problem is compiled in memory by asking for room for its matrix. -/
theorem Problem.toMatrixInMemory_eq (p : Problem K) (g : Graph K) :
    p.toMatrixInMemory g = p.toMatrix g >>= Matrix.withRoom := by
  unfold toMatrixInMemory toMatrix
  cases p.configuration g with
  | error => rfl
  | ok c => exact (p.layout g).compileInMemory_eq c false

/-! ## After the plan -/

/-- Once all checks have passed, only memory can be missing.  The bands are the rows of the nodes,
the numbers of all variables are 64-bit words, no edge lacks a weight that is read, and every
addition lands in the rows of its node and can be made there.  If the side of the matrix is below
`2^30`, both ways of filling it end with the same matrix, of this side; otherwise both end without
one, as the cells do not fit into a block of memory. -/
theorem accepted_fails_only_without_room {p : Plan K} (h : l.plan c = .ok p) :
    p.layout = l ∧ p.dimension = l.graph.nodeCount * l.positions ∧
      rowBands (l.graph.nodeCount * l.positions) l.positions =
        (List.range l.graph.nodeCount).map (fun k => ⟨k * l.positions, (k + 1) * l.positions⟩) ∧
      (∀ v < l.graph.nodeCount, ∀ q < l.positions,
        p.number v q < l.graph.nodeCount * l.positions ∧ p.number v q < wordLimit) ∧
      (∀ v < l.graph.nodeCount, ∀ t ∈ p.terms, t.penalty.readsEdgeWeights = true →
        ∀ edge ∈ (NodeView.of l.graph v).successors, edge.2.isSome = true) ∧
      (∀ v < l.graph.nodeCount, ∃ as, p.additions v = .ok as ∧ ∀ a ∈ as, p.Lands v a ∧
        (∀ m : Matrix K, m.dimension = p.dimension →
          ∃ m', (p.ownRows v).add m a.row a.col a.value = .ok m') ∧
        ∀ b : Band K, b.rows = p.ownRows v → b.width = p.dimension →
          ∃ b', b.add a.row a.col a.value = .ok b') ∧
      (l.graph.nodeCount * l.positions < 2 ^ 30 → ∃ m, l.generateInMemory c = .ok m ∧
        l.generateParallelInMemory c = .ok m ∧
          m.dimension = l.graph.nodeCount * l.positions) ∧
      (2 ^ 30 ≤ l.graph.nodeCount * l.positions →
        l.generateInMemory c = .error (.noRoom (l.graph.nodeCount * l.positions)) ∧
          l.generateParallelInMemory c = .error (.noRoom (l.graph.nodeCount * l.positions))) := by
  obtain ⟨rfl, -, hp⟩ := plan_eq_ok h
  refine ⟨rfl, hp.dimension, rowBands_mul _ hp.positions_pos, fun v hv q hq => ?_,
    fun v hv t ht hreads edge hedge => Plan.weight_isSome_of_mem_successors hp hv ht hreads hedge,
    fun v hv => ?_, fun hroom => ?_, fun hroom => ?_⟩
  · have hlt := Plan.number_lt hp hv hq
    rw [← hp.dimension]
    exact ⟨hlt, Nat.lt_trans hlt hp.fits⟩
  · refine ⟨p.written v, Plan.additions_eq_ok hp hv, fun a ha => ?_⟩
    have hlands := Plan.lands_of_mem_written hp hv ha
    exact ⟨hlands, hlands.adds hp hv⟩
  · obtain ⟨m, hm, hacc⟩ := Plan.exists_fill hp
    have hmemory := Layout.compileInMemory_of_lt h (hp.dimension ▸ hroom)
    exact ⟨m, (hmemory false).trans hm, (hmemory true).trans hm, hacc.dimension.trans hp.dimension⟩
  · have hmemory := Layout.compileInMemory_of_le h (hp.dimension ▸ hroom)
    rw [hp.dimension] at hmemory
    exact ⟨hmemory false, hmemory true⟩

theorem accepted_fails_only_without_room_pairWithLoop :
    ∃ p, Layout.pairWithLoop.plan .ones = .ok p ∧
      (∀ v < 2, ∃ as, p.additions v = .ok as ∧ ∀ a ∈ as, p.Lands v a) ∧
      ∃ m, Layout.pairWithLoop.generateInMemory .ones = .ok m ∧ m.dimension = 4 := by
  obtain ⟨p, hp⟩ : ∃ p, Layout.pairWithLoop.plan .ones = .ok p := ⟨_, rfl⟩
  obtain ⟨-, -, -, -, -, hadds, hroom, -⟩ := accepted_fails_only_without_room hp
  obtain ⟨m, hm, -, hdimension⟩ := hroom (by decide)
  refine ⟨p, hp, fun v hv => ?_, m, hm, hdimension⟩
  obtain ⟨as, has, hall⟩ := hadds v hv
  exact ⟨as, has, fun a ha => (hall a ha).1⟩

theorem one_lt_nodeLimit : 1 < nodeLimit := by decide

/-- A single node without edges. -/
def Graph.oneNode : Graph Float where
  directed := false
  nodeCount := 1
  edges := []
  nodeCount_lt := one_lt_nodeLimit
  sorted := .nil
  bounded := by simp
  oriented := by simp
  weighted := by simp

/-- The node can occupy `2^31` positions: there are `2^62` cells. -/
def Layout.oneNode : Layout Float := ⟨.oneNode, 2147483648, none, none⟩

/-- The layout is accepted with nothing to compile, and no way of compiling ends with a matrix. -/
theorem accepted_fails_oneNode :
    (∃ p, Layout.oneNode.plan .empty = .ok p) ∧
      Layout.oneNode.generateInMemory .empty = .error (.noRoom 2147483648) ∧
        Layout.oneNode.generateParallelInMemory .empty = .error (.noRoom 2147483648) :=
  ⟨⟨_, rfl⟩, rfl, rfl⟩

end GraphQubo
