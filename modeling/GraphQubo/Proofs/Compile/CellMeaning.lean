import Mathlib.Algebra.BigOperators.Group.List.Basic
import Mathlib.Algebra.Ring.Rat
import GraphQubo.Proofs.Compile.Families

/-!
# GraphQubo.Proofs.Compile.CellMeaning

What every cell of the matrix means, in exact arithmetic.

Exact sums can be taken in any order, so a cell is the sum over all families of what
each brings to it.  A family without a weight brings nothing, and neither does one that
is left out, so the sum ranges over all thirteen.

* `generate_cells` — a cell as a sum over the families;
* `Layout.meaning` — a cell by cases: one variable, two positions of one node, two nodes
  at one position, a step to the next position, a step from the last to the first;
* `cell_meaning` — the two agree.
-/

namespace GraphQubo

/-! ## Sums in exact arithmetic -/

/-- Without rounding a cell holds the sum of what it received. -/
theorem addAll_eq_sum (x : Rat) (vs : List Rat) : addAll x vs = x + vs.sum := by
  induction vs generalizing x with
  | nil => simp
  | cons v vs ih => rw [addAll_cons, ih, List.sum_cons, add_assoc]

theorem sum_flatMap {α : Type} (xs : List α) (f : α → List Rat) :
    (xs.flatMap f).sum = (xs.map fun x => (f x).sum).sum := by
  rw [List.flatMap_def, List.sum_flatten, List.map_map]
  rfl

theorem sum_ite_singleton (C : Prop) [Decidable C] (y : Rat) :
    (if C then [y] else []).sum = if C then y else 0 := by
  split <;> simp

/-- Values that come from one position each add up, whichever position that is. -/
theorem sum_flatMap_origin {α : Type} (n : Nat) {ts : List α} {o : α → Nat}
    (ho : ∀ t ∈ ts, o t < n) (f : α → List Rat) :
    ((List.range n).flatMap fun x => ts.flatMap fun t => if x = o t then f t else []).sum =
      (ts.map fun t => (f t).sum).sum := by
  induction ts with
  | nil =>
    have hnil : ((List.range n).flatMap fun _ => ([] : List Rat)) = [] :=
      List.flatMap_eq_nil_iff.2 fun _ _ => rfl
    simp only [List.flatMap_nil, hnil, List.map_nil, List.sum_nil]
  | cons t ts ih =>
    have hone : ((List.range n).flatMap fun x => if x = o t then f t else []) = f t := by
      have hmem : o t ∈ List.range n := List.mem_range.2 (ho t List.mem_cons_self)
      rw [flatMap_eq_of_owner List.nodup_range hmem fun x _ hx => if_neg hx, if_pos rfl]
    have hrest := ih fun t' ht' => ho t' (List.mem_cons_of_mem _ ht')
    rw [List.map_cons, List.sum_cons, ← hrest, ← hone]
    rw [sum_flatMap, sum_flatMap, sum_flatMap, ← List.sum_map_add]
    simp only [List.flatMap_cons, List.sum_append]

/-! ## A cell as a sum over the families -/

/-- The strength of a family: its weight, zero if it has none. -/
def Constraints.strength (c : Constraints Rat) (f : Penalty) : Rat := (c.weight f).getD 0

/-- A family with its strength. -/
def Constraints.term (c : Constraints Rat) (f : Penalty) : Term Rat :=
  ⟨f, c.strength f, c.doubleCounts f⟩

/-- What a family adds to a cell. -/
def Layout.gain (l : Layout Rat) (t : Term Rat) (v q w r : Nat) : Rat :=
  (l.reach t v q w r).sum

/-- Without strength a family brings only zeros. -/
theorem Layout.gain_of_weight_eq_zero (l : Layout Rat) {t : Term Rat} (ht : t.weight = 0)
    (v q w r : Nat) : l.gain t v q w r = 0 := by
  unfold gain reach
  cases hpen : t.penalty <;> simp only [] <;> split <;> simp [ht]

/-- A family that is left out reaches no cell. -/
theorem Layout.gain_of_leavesOut {l : Layout Rat} {t : Term Rat}
    (h : l.leavesOut t.penalty = true) (v q w r : Nat) : l.gain t v q w r = 0 := by
  unfold leavesOut at h
  rw [Bool.and_eq_true, beq_iff_eq] at h
  have hsteps : ¬l.Steps t.penalty v q w r := by
    rw [Steps, if_pos h.1, Wraps, h.2]
    omega
  unfold gain reach
  cases hpen : t.penalty with
  | edgeWeightsCyclesFactor | invalidTraversalCycles =>
    rw [hpen] at hsteps
    simp [hsteps]
  | _ => simp [hpen, Penalty.wrapsAround] at h

/-- The sum over the families that are compiled is the sum over all families. -/
theorem sum_terms (l : Layout Rat) (c : Constraints Rat) (v q w r : Nat) :
    ((l.terms c).map fun t => l.gain t v q w r).sum =
      (Penalty.all.map fun f => l.gain (c.term f) v q w r).sum := by
  rw [Layout.terms_eq_filterMap]
  induction Penalty.all with
  | nil => rfl
  | cons f fs ih =>
    rw [List.map_cons, List.sum_cons, ← ih]
    cases hout : l.leavesOut f with
    | true =>
      rw [List.filterMap_cons_none (by simp [hout]),
        Layout.gain_of_leavesOut (t := c.term f) hout, zero_add]
    | false =>
      cases hw : c.weight f with
      | none =>
        have hzero : (c.term f).weight = 0 := by
          rw [Constraints.term, Constraints.strength, hw]
          rfl
        rw [List.filterMap_cons_none (by simp [hout, hw]), l.gain_of_weight_eq_zero hzero,
          zero_add]
      | some x =>
        have hterm : c.term f = ⟨f, x, c.doubleCounts f⟩ := by
          rw [Constraints.term, Constraints.strength, hw]
          rfl
        rw [hterm, List.filterMap_cons_some (by simp [hout, hw]; rfl), List.map_cons,
          List.sum_cons]

/-- A step comes from a position of the layout. -/
theorem Layout.origin_lt (l : Layout Rat) (f : Penalty) {q : Nat} (hq : q < l.positions) :
    l.origin f q < l.positions := by
  unfold origin
  split <;> omega

/-- Every cell of the matrix is the sum of what the families bring to it. -/
theorem generate_cells {l : Layout Rat} {c : Constraints Rat} {p : Plan Rat}
    (h : l.plan c = .ok p) :
    ∃ m, l.generate c = .ok m ∧ m.dimension = l.graph.nodeCount * l.positions ∧
      ∀ v q w r, v < l.graph.nodeCount → w < l.graph.nodeCount → q < l.positions →
        r < l.positions →
        m.get? (Variable.number ⟨v, q⟩ l.positions) (Variable.number ⟨w, r⟩ l.positions) =
          some (Penalty.all.map fun f => l.gain (c.term f) v q w r).sum := by
  obtain ⟨m, hm, hdim, -, hcells⟩ := exists_generate h
  refine ⟨m, hm, hdim, fun v q w r hv hw hq hr => ?_⟩
  rw [hcells v q w r hv hw hq hr, Layout.received, addAll_eq_sum, zero_add,
    sum_flatMap_origin _ fun t _ => l.origin_lt t.penalty hq]
  exact congrArg some (sum_terms l c v q w r)

/-! ## Cells by cases -/

namespace Layout

variable (l : Layout Rat) (c : Constraints Rat)

/-- The diagonal cell of "`v` at `q`". -/
def variableMeaning (v q : Nat) : Rat :=
  (if l.startNode = some v ∧ q = 0 then c.strength .startNodeScore else 0) +
    (if l.terminalNode = some v ∧ q = l.positions - 1 then c.strength .terminalNodeScore else 0) +
    c.strength .diagonal + l.graph.degree v * c.strength .nodesWithEdges +
    (if l.graph.Arc v v then c.strength .edges else 0)

/-- The cell of one node at two positions, `q` before `r`. -/
def nodeMeaning (v q r : Nat) : Rat :=
  c.strength .oneNodeManyPositions +
    (if r = q + 1 then
      if l.graph.Arc v v then c.strength .edgeWeightsFactor * l.graph.arcWeight v v
      else c.strength .invalidTraversalSelf
    else 0) +
    (if 2 ≤ l.positions ∧ q = 0 ∧ r = l.positions - 1 ∧ l.graph.Arc v v then
      c.strength .edgeWeightsCyclesFactor * l.graph.arcWeight v v else 0)

/-- The cell of two nodes at one position. -/
def positionMeaning (v w : Nat) : Rat :=
  (if v < w then c.strength .onePositionManyNodes else 0) +
    (if v < w ∨ c.doubleCountEdges = true then
      if l.graph.Joined v w then c.strength .edges else c.strength .nonEdges
    else 0)

/-- The cell of a step between two nodes, from one position to the next. -/
def stepMeaning (v w : Nat) : Rat :=
  if v < w ∨ c.doubleCountEdges = true then
    if l.graph.Arc v w then c.strength .edgeWeightsFactor * l.graph.arcWeight v w
    else c.strength .invalidTraversal
  else 0

/-- The cell of a step between two nodes, from the last position to the first. -/
def cycleMeaning (v w : Nat) : Rat :=
  if v < w ∨ c.doubleCountCycles = true then
    if l.graph.Arc v w then c.strength .edgeWeightsCyclesFactor * l.graph.arcWeight v w
    else c.strength .invalidTraversalCycles
  else 0

/-- The cell of "`v` at `q`" and "`w` at `r`". -/
def meaning (v q w r : Nat) : Rat :=
  if v = w then
    if q = r then l.variableMeaning c v q
    else if q < r then l.nodeMeaning c v q r
    else 0
  else if q = r then l.positionMeaning c v w
  else if r = q + 1 then l.stepMeaning c v w
  else if q = l.positions - 1 ∧ r = 0 ∧ 2 ≤ l.positions then l.cycleMeaning c v w
  else 0

/-! ### The cases add up -/

/-- What the families add to a diagonal cell. -/
theorem sum_gain_variable (v q : Nat) :
    (Penalty.all.map fun f => l.gain (c.term f) v q v q).sum = l.variableMeaning c v q := by
  have hwraps : ¬((2 ≤ l.positions ∧ q = 0 ∧ q = l.positions - 1) ∧ l.graph.Arc v v) := by omega
  simp [Penalty.all, gain, reach, Constraints.term, sum_ite_singleton, Steps, Wraps,
    Penalty.wrapsAround, writesPair_iff, Graph.joined_self, hwraps, variableMeaning, add_assoc]

/-- What they add to a cell of one node and two positions. -/
theorem sum_gain_node {v q r : Nat} (hqr : q ≠ r) :
    (Penalty.all.map fun f => l.gain (c.term f) v q v r).sum =
      if q < r then l.nodeMeaning c v q r else 0 := by
  simp only [Penalty.all, List.map_cons, List.map_nil, List.sum_cons, List.sum_nil, gain, reach,
    Constraints.term, sum_ite_singleton, Steps, Wraps, Penalty.wrapsAround, writesPair_iff,
    nodeMeaning, hqr]
  by_cases hlt : q < r
  · by_cases harc : l.graph.Arc v v
    · simp [hlt, harc, mul_comm, add_assoc]
    · simp [hlt, harc]
  · have hnext : ¬r = q + 1 := by omega
    have hwraps : ¬(q = 0 ∧ r = l.positions - 1) := by omega
    simp [hlt, hnext, hwraps]

/-- The other triangle is written where the flag says so. -/
theorem pair_iff {v w : Nat} (hvw : v ≠ w) (doubled : Bool) :
    (v < w ∨ (doubled = true ∧ w < v)) ↔ (v < w ∨ doubled = true) := by
  have hlt : w < v ↔ ¬v < w := by omega
  rw [hlt]
  tauto

/-- What they add to a cell of two nodes and one position. -/
theorem sum_gain_position {v w : Nat} (hvw : v ≠ w) (q : Nat) :
    (Penalty.all.map fun f => l.gain (c.term f) v q w q).sum = l.positionMeaning c v w := by
  have hwraps : ¬(2 ≤ l.positions ∧ q = l.positions - 1 ∧ q = 0) := by omega
  simp only [Penalty.all, List.map_cons, List.map_nil, List.sum_cons, List.sum_nil, gain, reach,
    Constraints.term, sum_ite_singleton, Steps, Wraps, Penalty.wrapsAround, writesPair_iff,
    pair_iff hvw, Constraints.doubleCounts, positionMeaning, hvw]
  by_cases hjoined : l.graph.Joined v w
  · simp [hjoined, hwraps]
  · simp [hjoined, hwraps]

/-- What they add to a cell of two nodes and two positions. -/
theorem sum_gain_step {v w q r : Nat} (hvw : v ≠ w) (hqr : q ≠ r) :
    (Penalty.all.map fun f => l.gain (c.term f) v q w r).sum =
      (if r = q + 1 then l.stepMeaning c v w else 0) +
        if q = l.positions - 1 ∧ r = 0 ∧ 2 ≤ l.positions then l.cycleMeaning c v w else 0 := by
  simp only [Penalty.all, List.map_cons, List.map_nil, List.sum_cons, List.sum_nil, gain, reach,
    Constraints.term, sum_ite_singleton, Steps, Wraps, Penalty.wrapsAround, writesPair_iff,
    pair_iff hvw, Constraints.doubleCounts, stepMeaning, cycleMeaning, hvw, hqr]
  have hwraps : (2 ≤ l.positions ∧ q = l.positions - 1 ∧ r = 0) ↔
      (q = l.positions - 1 ∧ r = 0 ∧ 2 ≤ l.positions) := by tauto
  by_cases harc : l.graph.Arc v w
  · simp [harc, hwraps, ite_and, mul_comm]
  · simp [harc, hwraps, ite_and]

/-- The cases add up to what all families bring to the cell. -/
theorem sum_gain (v q w r : Nat) :
    (Penalty.all.map fun f => l.gain (c.term f) v q w r).sum = l.meaning c v q w r := by
  unfold meaning
  by_cases hvw : v = w
  · subst hvw
    by_cases hqr : q = r
    · subst hqr
      simp only [if_true]
      exact l.sum_gain_variable c v q
    · simp only [if_true, hqr, if_false]
      exact l.sum_gain_node c hqr
  · by_cases hqr : q = r
    · subst hqr
      simp only [hvw, if_true, if_false]
      exact l.sum_gain_position c hvw q
    · simp only [hvw, hqr, if_false]
      rw [l.sum_gain_step c hvw hqr]
      by_cases hnext : r = q + 1
      · have hwraps : ¬(q = l.positions - 1 ∧ r = 0 ∧ 2 ≤ l.positions) := by omega
        rw [if_pos hnext, if_pos hnext, if_neg hwraps, add_zero]
      · simp only [hnext, if_false, zero_add]

end Layout

/-- An accepted configuration compiles row after row, to cells that hold their meaning. -/
theorem exists_generate_meaning {l : Layout Rat} {c : Constraints Rat} {p : Plan Rat}
    (h : l.plan c = .ok p) :
    ∃ m, l.generate c = .ok m ∧ m.dimension = l.graph.nodeCount * l.positions ∧
      m.order = .rowMajor ∧
      ∀ v w q r, v < l.graph.nodeCount → w < l.graph.nodeCount → q < l.positions →
        r < l.positions →
        m.cell (Variable.number ⟨v, q⟩ l.positions) (Variable.number ⟨w, r⟩ l.positions) =
          l.meaning c v q w r := by
  obtain ⟨m, hm, hdim, hcells⟩ := generate_cells h
  obtain ⟨m', hm', -, horder, -⟩ := exists_generate h
  obtain rfl := Except.ok.inj (hm.symm.trans hm')
  refine ⟨m, hm, hdim, horder, fun v w q r hv hw hq hr => ?_⟩
  rw [Matrix.cell, hcells v q w r hv hw hq hr, l.sum_gain c]
  rfl

/-- In exact arithmetic every cell of the matrix means what its case says. -/
theorem cell_meaning {l : Layout Rat} {c : Constraints Rat} {p : Plan Rat}
    (h : l.plan c = .ok p) :
    ∃ m, l.generate c = .ok m ∧ m.dimension = l.graph.nodeCount * l.positions ∧
      ∀ v w q r, v < l.graph.nodeCount → w < l.graph.nodeCount → q < l.positions →
        r < l.positions →
        m.get? (Variable.number ⟨v, q⟩ l.positions) (Variable.number ⟨w, r⟩ l.positions) =
          some (l.meaning c v q w r) := by
  obtain ⟨m, hm, hdim, hcells⟩ := generate_cells h
  refine ⟨m, hm, hdim, fun v w q r hv hw hq hr => ?_⟩
  rw [hcells v q w r hv hw hq hr, l.sum_gain c]

/-- Cells of two joined nodes, one with a loop, in the configuration of ones. -/
theorem cell_meaning_pairWithLoop :
    ∃ m, Layout.pairWithLoop.generate .ones = .ok m ∧ m.get? 0 0 = some 5 ∧
      m.get? 0 1 = some 11 ∧ m.get? 0 3 = some 3 ∧ m.get? 1 2 = some 3 := by
  obtain ⟨p, hp⟩ : ∃ p, Layout.pairWithLoop.plan .ones = .ok p := ⟨_, rfl⟩
  obtain ⟨m, hm, -, hcells⟩ := cell_meaning hp
  have hnode : 0 < 2 ∧ 1 < 2 := by decide
  have hmeaning : Layout.pairWithLoop.meaning .ones 0 0 0 0 = 5 ∧
      Layout.pairWithLoop.meaning .ones 0 0 0 1 = 11 ∧
      Layout.pairWithLoop.meaning .ones 0 0 1 1 = 3 ∧
      Layout.pairWithLoop.meaning .ones 0 1 1 0 = 3 := by decide +kernel
  obtain ⟨h₀, h₁, h₂, h₃⟩ := hmeaning
  refine ⟨m, hm, ?_, ?_, ?_, ?_⟩
  · rw [← h₀]
    exact hcells 0 0 0 0 hnode.1 hnode.1 hnode.1 hnode.1
  · rw [← h₁]
    exact hcells 0 0 0 1 hnode.1 hnode.1 hnode.1 hnode.2
  · rw [← h₂]
    exact hcells 0 1 0 1 hnode.1 hnode.2 hnode.1 hnode.2
  · rw [← h₃]
    exact hcells 0 1 1 0 hnode.1 hnode.2 hnode.2 hnode.1

end GraphQubo
