import GraphQubo.Proofs.Compile.Filling

/-!
# GraphQubo.Proofs.Compile.Families

What each family brings to a cell.

The cell of two variables, "`v` at `q`" and "`w` at `r`", is reached by a family from one
position only: from `q`, or from the last position if the family wraps around.
`Layout.reach` are the values that it then brings; it mentions neither the order in which
nodes and positions are compiled nor the numbers of variables.

* `valuesAt_map_of_unique` — a list that can reach a cell with one element only;
* `valuesAt_share` — what a family adds at one position, cell by cell;
* `valuesAt_written` — what a node adds to a cell;
* `exists_generate` — the cells of the matrix, each with the values that it receives.
-/

namespace GraphQubo

variable {K : Type}

/-! ## Lists that reach a cell once -/

theorem valuesAt_singleton (a : Addition K) (i j : Nat) :
    valuesAt [a] i j = if a.row = i ∧ a.col = j then [a.value] else [] := by
  rw [valuesAt_cons, valuesAt_nil]

theorem valuesAt_if (C : Prop) [Decidable C] (a : Addition K) (i j : Nat) :
    valuesAt (if C then [a] else []) i j =
      if C ∧ a.row = i ∧ a.col = j then [a.value] else [] := by
  by_cases hC : C
  · simp only [hC, if_true, true_and, valuesAt_singleton]
  · simp only [hC, if_false, false_and, valuesAt_nil]

/-- Of additions that are listed without repeats, and of which only that for `o` can
fall into the cell, the cell receives the value for `o`. -/
theorem valuesAt_map_of_unique {α : Type} [DecidableEq α] {xs : List α} (hnodup : xs.Nodup)
    {f : α → Addition K} {o : α} {i j : Nat} {C : Prop} [Decidable C]
    (h : ∀ x ∈ xs, ((f x).row = i ∧ (f x).col = j) ↔ x = o ∧ C) :
    valuesAt (xs.map f) i j = if o ∈ xs ∧ C then [(f o).value] else [] := by
  have hflat : valuesAt (xs.map f) i j = xs.flatMap fun x => valuesAt [f x] i j := by
    rw [← valuesAt_flatMap, List.map_eq_flatMap]
  have hone : ∀ x ∈ xs, valuesAt [f x] i j = if x = o ∧ C then [(f x).value] else [] := by
    intro x hx
    rw [valuesAt_singleton]
    simp only [h x hx]
  rw [hflat]
  by_cases ho : o ∈ xs
  · rw [flatMap_eq_of_owner hnodup ho, hone o ho]
    · simp only [ho, true_and]
    · intro x hx hne
      rw [hone x hx, if_neg fun hc : x = o ∧ C => hne hc.1]
  · rw [if_neg fun hc : o ∈ xs ∧ C => ho hc.1]
    apply List.flatMap_eq_nil_iff.2
    intro x hx
    rw [hone x hx, if_neg fun hc : x = o ∧ C => ho (hc.1 ▸ hx)]

/-- The same value, once for each element of a list. -/
theorem valuesAt_map_const {α : Type} (xs : List α) (a : Addition K) (i j : Nat) :
    valuesAt (xs.map fun _ => a) i j =
      if a.row = i ∧ a.col = j then List.replicate xs.length a.value else [] := by
  induction xs with
  | nil => simp
  | cons x xs ih =>
    rw [List.map_cons, valuesAt_cons, ih]
    by_cases h : a.row = i ∧ a.col = j
    · simp only [h, and_self, if_true, List.length_cons, List.replicate_succ]
    · simp only [h, if_false]

variable [Coefficient K]

/-! ## What a family brings to a cell -/

theorem writesPair_iff {v w : Nat} {doubled : Bool} :
    writesPair v w doubled = true ↔ v < w ∨ (doubled = true ∧ w < v) := by
  simp [writesPair]

namespace Layout

/-- Whether the cell of "`v` at `q`" and "`w` at `r`" is that of a step from the last
position to the first; a step that stays at its node is written above the diagonal. -/
def Wraps (l : Layout K) (v q w r : Nat) : Prop :=
  2 ≤ l.positions ∧ if v = w then q = 0 ∧ r = l.positions - 1 else q = l.positions - 1 ∧ r = 0

/-- Whether the cell is that of a step of the family. -/
def Steps (l : Layout K) (f : Penalty) (v q w r : Nat) : Prop :=
  if f.wrapsAround then l.Wraps v q w r else r = q + 1

instance (l : Layout K) (v q w r : Nat) : Decidable (l.Wraps v q w r) :=
  inferInstanceAs (Decidable (_ ∧ _))

instance (l : Layout K) (f : Penalty) (v q w r : Nat) : Decidable (l.Steps f v q w r) :=
  inferInstanceAs (Decidable (if f.wrapsAround then l.Wraps v q w r else r = q + 1))

/-- The values that a family brings to the cell of "`v` at `q`" and "`w` at `r`". -/
def reach (l : Layout K) (t : Term K) (v q w r : Nat) : List K :=
  match t.penalty with
  | .startNodeScore =>
    if v = w ∧ q = r ∧ l.startNode = some v ∧ q = 0 then [t.weight] else []
  | .terminalNodeScore =>
    if v = w ∧ q = r ∧ l.terminalNode = some v ∧ q = l.positions - 1 then [t.weight] else []
  | .diagonal => if v = w ∧ q = r then [t.weight] else []
  | .nodesWithEdges => if v = w ∧ q = r then .replicate (l.graph.degree v) t.weight else []
  | .oneNodeManyPositions => if v = w ∧ q < r then [t.weight] else []
  | .onePositionManyNodes => if q = r ∧ v < w then [t.weight] else []
  | .edges =>
    if q = r ∧ l.graph.Joined v w ∧ (v = w ∨ writesPair v w t.doubled) then [t.weight] else []
  | .nonEdges =>
    if q = r ∧ ¬l.graph.Joined v w ∧ writesPair v w t.doubled then [t.weight] else []
  | .edgeWeightsFactor | .edgeWeightsCyclesFactor =>
    if l.Steps t.penalty v q w r ∧ l.graph.Arc v w ∧ (v = w ∨ writesPair v w t.doubled) then
      [l.graph.arcWeight v w * t.weight] else []
  | .invalidTraversal | .invalidTraversalCycles =>
    if l.Steps t.penalty v q w r ∧ ¬l.graph.Arc v w ∧ writesPair v w t.doubled then
      [t.weight] else []
  | .invalidTraversalSelf =>
    if r = q + 1 ∧ ¬l.graph.Arc v v ∧ v = w then [t.weight] else []

/-- The position from which a family reaches a cell in the row of position `q`. -/
def origin (l : Layout K) (f : Penalty) (q : Nat) : Nat :=
  if f.wrapsAround then l.positions - 1 else q

theorem origin_of_isStep_eq_false (l : Layout K) {f : Penalty} (h : f.isStep = false) (q : Nat) :
    l.origin f q = q := by
  have hwraps : f.wrapsAround = false := by cases f <;> first | rfl | cases h
  rw [origin, hwraps, if_neg Bool.false_ne_true]

end Layout

namespace Plan

variable {p : Plan K} {v q w r x : Nat}

/-- The cell of an addition to the variables of two nodes. -/
theorem cell_iff (hp : p.Sound) {w' q' r' : Nat} (hq : q < p.layout.positions)
    (hq' : q' < p.layout.positions) (hr : r < p.layout.positions)
    (hr' : r' < p.layout.positions) :
    (p.number v q' = p.number v q ∧ p.number w' r' = p.number w r) ↔
      w' = w ∧ q' = q ∧ r' = r := by
  rw [number_inj hp hq' hq, number_inj hp hr' hr]
  simp only [true_and]
  exact and_left_comm

/-- The cell of a step along an edge. -/
theorem stepTo_iff (hp : p.Sound) {w' q' r' : Nat} (y : K) (hq : q < p.layout.positions)
    (hq' : q' < p.layout.positions) (hr : r < p.layout.positions)
    (hr' : r' < p.layout.positions) :
    ((p.stepTo v q' r' w' y).row = p.number v q ∧ (p.stepTo v q' r' w' y).col = p.number w r) ↔
      w' = w ∧ if v = w then min q' r' = q ∧ max q' r' = r else q' = q ∧ r' = r := by
  unfold stepTo
  by_cases hv : v = w'
  · subst hv
    obtain ⟨hmin, hmax⟩ := min_max_number hp v q' r'
    simp only [if_true, hmin, hmax]
    rw [cell_iff hp hq (by omega) hr (by omega)]
    by_cases hw : v = w <;> simp [hw]
  · simp only [hv, if_false]
    rw [cell_iff hp hq hq' hr hr']
    constructor
    · rintro ⟨rfl, h⟩
      exact ⟨rfl, by rwa [if_neg hv]⟩
    · rintro ⟨rfl, h⟩
      exact ⟨rfl, by rwa [if_neg hv] at h⟩

@[simp] theorem value_stepTo (p : Plan K) (v q r w : Nat) (y : K) :
    (p.stepTo v q r w y).value = y := by
  unfold stepTo
  split <;> rfl

/-! ## What a family adds at one position -/

/-- A family that does not wrap around steps to the next position, one that does from
the last position to the first. -/
theorem stepFrom?_eq (hp : p.Sound) (f : Penalty) (hx : x < p.layout.positions) :
    p.stepFrom? f x =
      if f.wrapsAround then if x = p.layout.positions - 1 then some 0 else none
      else if x + 1 < p.layout.positions then some (x + 1) else none := by
  have hlast : x < p.layout.positions - 1 ↔ x + 1 < p.layout.positions := by omega
  simp only [stepFrom?, lastPosition_eq hp, hlast]

/-- Whether a step from position `x` to `x'` falls into the cell of "`v` at `q`" and
"`w` at `r`". -/
def Meets (x x' v q w r : Nat) : Prop :=
  if v = w then min x x' = q ∧ max x x' = r else x = q ∧ x' = r

instance (x x' v q w r : Nat) : Decidable (Meets x x' v q w r) :=
  inferInstanceAs (Decidable (if v = w then min x x' = q ∧ max x x' = r else x = q ∧ x' = r))

/-- The steps of a family meet its cells, and each from one position only. -/
theorem exists_step_iff (hp : p.Sound) {f : Penalty}
    (hwraps : f.wrapsAround = true → 2 ≤ p.layout.positions) (hr : r < p.layout.positions)
    (hx : x < p.layout.positions) :
    (∃ x', p.stepFrom? f x = some x' ∧ Meets x x' v q w r) ↔
      x = p.layout.origin f q ∧ p.layout.Steps f v q w r := by
  unfold Layout.origin Layout.Steps Layout.Wraps Meets
  rw [stepFrom?_eq hp f hx]
  cases hf : f.wrapsAround with
  | true =>
    have htwo := hwraps hf
    by_cases hlast : x = p.layout.positions - 1
    · by_cases hvw : v = w
      · simp [hlast, hvw, htwo]
        omega
      · simp [hlast, hvw, htwo]
        omega
    · simp [hlast]
  | false =>
    by_cases hnext : x + 1 < p.layout.positions
    · by_cases hvw : v = w
      · simp [hnext, hvw]
        omega
      · simp [hnext, hvw]
        omega
    · simp [hnext]
      omega

/-- Steps along edges to a position `x'` reach the cells of the nodes that an edge
leads to. -/
theorem valuesAt_steps (hp : p.Sound) (hv : v < p.layout.graph.nodeCount)
    (hw : w < p.layout.graph.nodeCount) {x' : Nat} (t : Term K) (hq : q < p.layout.positions)
    (hr : r < p.layout.positions) (hx : x < p.layout.positions) (hx' : x' < p.layout.positions) :
    valuesAt (((p.layout.graph.neighbors v .outgoing).filter fun w =>
        v = w || writesPair v w t.doubled).map fun w =>
          p.stepTo v x x' w (p.layout.graph.arcWeight v w * t.weight))
        (p.number v q) (p.number w r) =
      if Meets x x' v q w r ∧ p.layout.graph.Arc v w ∧ (v = w ∨ writesPair v w t.doubled) then
        [p.layout.graph.arcWeight v w * t.weight] else [] := by
  have hnodup := (p.layout.graph.nodup_neighbors v .outgoing).filter fun w =>
    v = w || writesPair v w t.doubled
  rw [valuesAt_map_of_unique hnodup fun w' _ => stepTo_iff hp _ hq hx hr hx', value_stepTo]
  apply if_congr _ rfl rfl
  rw [List.mem_filter, Graph.mem_neighbors_outgoing hv]
  simp only [hw, true_and, Bool.or_eq_true, decide_eq_true_eq]
  exact and_comm

/-- Steps to a position `x'` that no edge allows reach the cells of the other nodes. -/
theorem valuesAt_jumps (hp : p.Sound) (hv : v < p.layout.graph.nodeCount)
    (hw : w < p.layout.graph.nodeCount) {x' : Nat} (t : Term K) (hq : q < p.layout.positions)
    (hr : r < p.layout.positions) (hx : x < p.layout.positions) (hx' : x' < p.layout.positions) :
    valuesAt (((p.layout.graph.nonNeighbors v .outgoing).filter fun w =>
        writesPair v w t.doubled).map fun w => ⟨p.number v x, p.number w x', t.weight⟩)
        (p.number v q) (p.number w r) =
      if Meets x x' v q w r ∧ ¬p.layout.graph.Arc v w ∧ writesPair v w t.doubled then
        [t.weight] else [] := by
  have hnodup := (p.layout.graph.nodup_nonNeighbors v .outgoing).filter fun w =>
    writesPair v w t.doubled
  rw [valuesAt_map_of_unique hnodup fun w' _ => cell_iff hp hq hx hr hx']
  apply if_congr _ rfl rfl
  rw [List.mem_filter, Graph.mem_nonNeighbors_outgoing hv, writesPair_iff, Meets]
  have hne : v < w ∨ (t.doubled = true ∧ w < v) → w ≠ v ∧ ¬v = w := by omega
  by_cases hpair : v < w ∨ (t.doubled = true ∧ w < v)
  · simp only [hpair, hne hpair, hw, if_false]
    tauto
  · simp only [hpair, and_false, false_and]

/-- What is added for the step of a family reaches a cell from one position only. -/
theorem valuesAt_forStep (hp : p.Sound) {f : Penalty}
    (hwraps : f.wrapsAround = true → 2 ≤ p.layout.positions) (hr : r < p.layout.positions)
    (hx : x < p.layout.positions) {add : Nat → List (Addition K)} {C : Prop} [Decidable C] {y : K}
    (hadd : ∀ x' < p.layout.positions, valuesAt (add x') (p.number v q) (p.number w r) =
      if Meets x x' v q w r ∧ C then [y] else []) :
    valuesAt (p.forStep f x add) (p.number v q) (p.number w r) =
      if x = p.layout.origin f q then if p.layout.Steps f v q w r ∧ C then [y] else []
      else [] := by
  have hstep := exists_step_iff (v := v) (w := w) (q := q) hp hwraps hr hx
  rw [forStep, ← ite_and]
  cases hnext : p.stepFrom? f x with
  | none =>
    simp only [hnext, reduceCtorEq, false_and, exists_false, false_iff] at hstep
    rw [if_neg fun h => hstep ⟨h.1, h.2.1⟩, valuesAt_nil]
  | some x' =>
    simp only [hnext, Option.some.injEq, exists_eq_left'] at hstep
    rw [hadd x' (stepFrom?_lt hp hnext)]
    apply if_congr _ rfl rfl
    rw [hstep, and_assoc]

/-- The families between two nodes at one position: what a node adds for the nodes
listed in `others`. -/
theorem valuesAt_others (hp : p.Sound) {others : List Nat} (hnodup : others.Nodup) (y : K)
    (hq : q < p.layout.positions) (hr : r < p.layout.positions) (hx : x < p.layout.positions) :
    valuesAt (others.map fun w => ⟨p.number v x, p.number w x, y⟩) (p.number v q) (p.number w r) =
      if x = q then if q = r ∧ w ∈ others then [y] else [] else [] := by
  rw [valuesAt_map_of_unique hnodup fun w' _ => cell_iff hp hq hx hr hx, ← ite_and]
  apply if_congr _ rfl rfl
  grind

/-- The families of one variable: what a node adds to the variable that it is at. -/
theorem valuesAt_itself (hp : p.Sound) (C : Prop) [Decidable C] (y : K)
    (hq : q < p.layout.positions) (hr : r < p.layout.positions) (hx : x < p.layout.positions) :
    valuesAt (if C then [⟨p.number v x, p.number v x, y⟩] else []) (p.number v q) (p.number w r) =
      if x = q then if v = w ∧ q = r ∧ C then [y] else [] else [] := by
  rw [valuesAt_if, ← ite_and]
  apply if_congr _ rfl rfl
  rw [cell_iff hp hq hx hr hx]
  grind

/-- The families that are not about steps between nodes reach a cell from its own row. -/
theorem valuesAt_share_place (hp : p.Sound) {t : Term K} (hstep : t.penalty.isStep = false)
    (hv : v < p.layout.graph.nodeCount) (hw : w < p.layout.graph.nodeCount)
    (hq : q < p.layout.positions) (hr : r < p.layout.positions) (hx : x < p.layout.positions) :
    valuesAt (p.share v x t) (p.number v q) (p.number w r) =
      if x = q then p.layout.reach t v q w r else [] := by
  have hlast := lastPosition_eq hp
  cases hpen : t.penalty with
  | startNodeScore =>
    simp only [share, contribution, Layout.reach, hpen]
    rw [valuesAt_itself hp _ t.weight hq hr hx]
    grind
  | terminalNodeScore =>
    simp only [share, contribution, Layout.reach, hpen, hlast]
    rw [valuesAt_itself hp _ t.weight hq hr hx]
    grind
  | diagonal =>
    simp only [share, contribution, Layout.reach, hpen]
    have h := valuesAt_itself (v := v) (w := w) hp True t.weight hq hr hx
    simpa using h
  | nodesWithEdges =>
    simp only [share, contribution, Layout.reach, hpen]
    rw [valuesAt_map_const, ← ite_and]
    apply if_congr _ rfl rfl
    rw [cell_iff hp hq hx hr hx]
    grind
  | oneNodeManyPositions =>
    simp only [share, contribution, Layout.reach, hpen, hlast]
    have hlater : ∀ y ∈ List.range' (x + 1) (p.layout.positions - 1 - x),
        (p.number v x = p.number v q ∧ p.number v y = p.number w r) ↔ y = r ∧ v = w ∧ x = q := by
      intro y hy
      have hy := List.mem_range'_1.1 hy
      rw [cell_iff hp hq hx hr (by omega)]
      tauto
    rw [valuesAt_map_of_unique List.nodup_range' hlater, ← ite_and]
    apply if_congr _ rfl rfl
    rw [List.mem_range'_1]
    omega
  | onePositionManyNodes =>
    simp only [share, contribution, Layout.reach, hpen]
    rw [valuesAt_others hp List.nodup_range' t.weight hq hr hx]
    simp only [List.mem_range'_1]
    grind
  | edges =>
    simp only [share, contribution, Layout.reach, hpen, NodeView.of]
    rw [valuesAt_others hp ((p.layout.graph.nodup_neighbors v .any).filter _) t.weight hq hr hx]
    simp only [List.mem_filter, Graph.mem_neighbors_any hv]
    grind
  | nonEdges =>
    simp only [share, contribution, Layout.reach, hpen, NodeView.of]
    rw [valuesAt_others hp ((p.layout.graph.nodup_nonNeighbors v .any).filter _) t.weight hq hr hx]
    simp only [List.mem_filter, Graph.mem_nonNeighbors_any hv]
    grind [writesPair_iff]
  | invalidTraversalSelf =>
    simp only [share, contribution, Layout.reach, hpen, hlast]
    rw [valuesAt_if, ← ite_and]
    apply if_congr _ rfl rfl
    have hloop : (NodeView.of p.layout.graph v).hasSelfLoop = false ↔ ¬p.layout.graph.Arc v v := by
      rw [← Graph.hasSelfLoop_iff hv, Bool.not_eq_true]
      rfl
    rw [hloop]
    by_cases hnext : x < p.layout.positions - 1
    · rw [cell_iff hp hq hx hr (by omega)]
      grind
    · grind
  | _ => simp [hpen, Penalty.isStep] at hstep

/-- The families of steps between nodes reach a cell from where the step begins. -/
theorem valuesAt_share_step (hp : p.Sound) {t : Term K} (ht : t ∈ p.terms)
    (hstep : t.penalty.isStep = true) (hv : v < p.layout.graph.nodeCount)
    (hw : w < p.layout.graph.nodeCount) (hq : q < p.layout.positions)
    (hr : r < p.layout.positions) (hx : x < p.layout.positions) :
    valuesAt (p.share v x t) (p.number v q) (p.number w r) =
      if x = p.layout.origin t.penalty q then p.layout.reach t v q w r else [] := by
  have hwraps := hp.wraps t ht
  cases hreads : t.penalty.readsEdgeWeights with
  | true =>
    rw [share_stepsAlongEdges hp hv x ht hreads, stepsAlongEdges,
      valuesAt_forStep hp hwraps hr hx fun x' hx' => valuesAt_steps hp hv hw t hq hr hx hx']
    unfold Layout.reach
    cases hpen : t.penalty with
    | edgeWeightsFactor | edgeWeightsCyclesFactor => rfl
    | _ => simp [hpen, Penalty.readsEdgeWeights] at hreads
  | false =>
    rw [share_stepsBesideEdges p v x hstep hreads, stepsBesideEdges,
      valuesAt_forStep hp hwraps hr hx fun x' hx' => valuesAt_jumps hp hv hw t hq hr hx hx']
    unfold Layout.reach
    cases hpen : t.penalty with
    | invalidTraversal | invalidTraversalCycles => rfl
    | edgeWeightsFactor | edgeWeightsCyclesFactor =>
      simp [hpen, Penalty.readsEdgeWeights] at hreads
    | _ => simp [hpen, Penalty.isStep] at hstep

/-- The cell of "`v` at `q`" and "`w` at `r`" is reached by a family from one position,
with the values of `Layout.reach`. -/
theorem valuesAt_share (hp : p.Sound) {t : Term K} (ht : t ∈ p.terms)
    (hv : v < p.layout.graph.nodeCount) (hw : w < p.layout.graph.nodeCount)
    (hq : q < p.layout.positions) (hr : r < p.layout.positions) (hx : x < p.layout.positions) :
    valuesAt (p.share v x t) (p.number v q) (p.number w r) =
      if x = p.layout.origin t.penalty q then p.layout.reach t v q w r else [] := by
  cases hstep : t.penalty.isStep with
  | true => exact valuesAt_share_step hp ht hstep hv hw hq hr hx
  | false =>
    rw [p.layout.origin_of_isStep_eq_false hstep]
    exact valuesAt_share_place hp hstep hv hw hq hr hx

/-- What a node adds to a cell, position by position and family by family. -/
theorem valuesAt_written (hp : p.Sound) (hv : v < p.layout.graph.nodeCount)
    (hw : w < p.layout.graph.nodeCount) (hq : q < p.layout.positions)
    (hr : r < p.layout.positions) :
    valuesAt (p.written v) (p.number v q) (p.number w r) =
      (List.range p.layout.positions).flatMap fun x => p.terms.flatMap fun t =>
        if x = p.layout.origin t.penalty q then p.layout.reach t v q w r else [] := by
  rw [written, valuesAt_flatMap]
  apply List.flatMap_congr
  intro x hx
  rw [valuesAt_flatMap]
  apply List.flatMap_congr
  intro t ht
  exact valuesAt_share hp ht hv hw hq hr (List.mem_range.1 hx)

end Plan

/-- The values that the cell of "`v` at `q`" and "`w` at `r`" receives, in order. -/
def Layout.received (l : Layout K) (c : Constraints K) (v q w r : Nat) : List K :=
  (List.range l.positions).flatMap fun x => (l.terms c).flatMap fun t =>
    if x = l.origin t.penalty q then l.reach t v q w r else []

/-- An accepted configuration compiles, and every cell holds what it receives. -/
theorem exists_generate {l : Layout K} {c : Constraints K} {p : Plan K} (h : l.plan c = .ok p) :
    ∃ m, l.generate c = .ok m ∧ m.dimension = l.graph.nodeCount * l.positions ∧
      m.order = .rowMajor ∧
      ∀ v q w r, v < l.graph.nodeCount → w < l.graph.nodeCount → q < l.positions →
        r < l.positions →
        m.get? (Variable.number ⟨v, q⟩ l.positions) (Variable.number ⟨w, r⟩ l.positions) =
          some (addAll 0 (l.received c v q w r)) := by
  obtain ⟨rfl, hterms, hp⟩ := plan_eq_ok h
  obtain ⟨m, hm, hacc⟩ := Plan.exists_fill hp
  refine ⟨m, ?_, hacc.dimension.trans hp.dimension, hacc.order, fun v q w r hv hw hq hr => ?_⟩
  · rw [Layout.generate, h]
    exact hm
  · have hcell := Plan.get?_fill hp hm hv (Plan.holds_number hp hq) (Plan.number_lt hp hv hq)
      (Plan.number_lt hp hw hr)
    have hnumber : ∀ v q, Variable.number ⟨v, q⟩ p.layout.positions = p.number v q :=
      fun v q => (Plan.number_eq hp v q).symm
    rw [hnumber, hnumber, hcell, Plan.valuesAt_written hp hv hw hq hr, Layout.received, hterms]

end GraphQubo
