import GraphQubo.Compile.Generate
import GraphQubo.Proofs.Compile.Refusal
import GraphQubo.Proofs.Graph.Arc

/-!
# GraphQubo.Proofs.Compile.OwnRows

Every node adds to its own rows, and to columns of the matrix.

Over `n` nodes and `P` positions the rows of node `v` are `v · P` up to
`(v + 1) · P`.  Of a plan all of whose checks have passed:

* `nodeRows_eq` — the bands of `P` rows are the rows of the `n` nodes, in order;
* `additions_eq_ok` — no node fails: the families that read edge weights find all of
  them;
* `writes_of_mem_written` — what a node adds lies in its own rows, and in columns that
  are numbers of variables.
-/

namespace GraphQubo

variable {K : Type}

/-- Computations that all succeed give the list of their results. -/
theorem mapM_eq_ok {ε α β : Type} {f : α → Except ε β} {g : α → β} {xs : List α}
    (h : ∀ x ∈ xs, f x = .ok (g x)) : xs.mapM f = .ok (xs.map g) := by
  induction xs with
  | nil => rfl
  | cons x xs ih =>
    rw [List.mapM_cons, h x List.mem_cons_self, ih fun y hy => h y (List.mem_cons_of_mem _ hy)]
    rfl

/-- A traversal whose elements all succeed, each with a result that is known. -/
theorem exists_mapM {ε α β : Type} {f : α → Except ε β} {R : α → β → Prop} {l : List α}
    (h : ∀ x ∈ l, ∃ y, f x = .ok y ∧ R x y) :
    ∃ ys, l.mapM f = .ok ys ∧ ys.length = l.length ∧
      ∀ (i : Nat) x, l[i]? = some x → ∃ y, ys[i]? = some y ∧ R x y := by
  induction l with
  | nil => exact ⟨[], rfl, rfl, by simp⟩
  | cons x l ih =>
    obtain ⟨y, hy, hR⟩ := h x List.mem_cons_self
    obtain ⟨ys, hys, hlen, hget⟩ := ih fun z hz => h z (List.mem_cons_of_mem _ hz)
    refine ⟨y :: ys, ?_, by simp [hlen], fun i z hz => ?_⟩
    · rw [List.mapM_cons, hy, hys]
      rfl
    · cases i with
      | zero => exact ⟨y, rfl, Option.some.inj hz ▸ hR⟩
      | succ i => exact hget i z hz

/-- A matrix of `n · k` rows splits into `n` bands of `k` rows. -/
theorem rowBands_mul (n : Nat) {k : Nat} (hk : 0 < k) :
    rowBands (n * k) k = (List.range n).map fun b => ⟨b * k, (b + 1) * k⟩ := by
  have hmax : max k 1 = k := Nat.max_eq_left hk
  have hcount : (n * k + k - 1) / k = n := by
    rw [Nat.add_sub_assoc hk, Nat.mul_comm, Nat.mul_add_div hk, Nat.div_eq_of_lt (by omega),
      Nat.add_zero]
  unfold rowBands
  simp only [hmax, hcount]
  refine List.map_congr_left fun b hb => ?_
  have hle : (b + 1) * k ≤ n * k := Nat.mul_le_mul_right k (List.mem_range.1 hb)
  rw [Nat.min_eq_left hle]

/-- Whether a family is about steps from one node to another. -/
def Penalty.isStep : Penalty → Bool
  | edgeWeightsFactor | edgeWeightsCyclesFactor | invalidTraversal | invalidTraversalCycles => true
  | _ => false

variable [Coefficient K]

namespace Plan

/-! ## Numbers of variables -/

section

variable {p : Plan K}

/-- Variables are numbered node after node. -/
theorem number_eq (hp : p.Sound) (v q : Nat) : p.number v q = v * p.layout.positions + q := by
  rw [number, Numbering.number, Variable.number, hp.positions]

theorem Sound.positions_pos (hp : p.Sound) : 0 < p.layout.positions :=
  hp.positions ▸ p.numbering.positive

/-- The last position in terms of the layout. -/
theorem lastPosition_eq (hp : p.Sound) : p.lastPosition = p.layout.positions - 1 := by
  rw [lastPosition, Numbering.lastPosition, hp.positions]

/-- Different variables have different numbers. -/
theorem number_inj (hp : p.Sound) {v w q r : Nat} (hq : q < p.layout.positions)
    (hr : r < p.layout.positions) : p.number v q = p.number w r ↔ v = w ∧ q = r := by
  rw [number_eq hp, number_eq hp]
  exact Matrix.line_inj hq hr

/-- The number of a variable is a row of the matrix. -/
theorem number_lt (hp : p.Sound) {v q : Nat} (hv : v < p.layout.graph.nodeCount)
    (hq : q < p.layout.positions) : p.number v q < p.dimension := by
  rw [number, Numbering.number, hp.positions, hp.dimension]
  exact Variable.number_lt hv hq

/-- The upper of two numbers of one node is that of the later position. -/
theorem min_max_number (hp : p.Sound) (v q r : Nat) :
    min (p.number v q) (p.number v r) = p.number v (min q r) ∧
      max (p.number v q) (p.number v r) = p.number v (max q r) := by
  simp only [number_eq hp]
  omega

/-! ## The rows of a node -/

/-- The rows that belong to a node. -/
def ownRows (p : Plan K) (v : Nat) : RowRange :=
  ⟨v * p.layout.positions, (v + 1) * p.layout.positions⟩

/-- The rows of a node, as an interval. -/
theorem holds_ownRows {v row : Nat} :
    (p.ownRows v).Holds row ↔
      v * p.layout.positions ≤ row ∧ row < v * p.layout.positions + p.layout.positions := by
  simp only [RowRange.Holds, ownRows, Nat.add_mul, Nat.one_mul]

/-- A variable of a node has its row among those of the node. -/
theorem holds_number (hp : p.Sound) {v q : Nat} (hq : q < p.layout.positions) :
    (p.ownRows v).Holds (p.number v q) := by
  rw [holds_ownRows, number_eq hp]
  omega

/-- Rows of different nodes are different. -/
theorem eq_of_holds {v w row : Nat} (hv : (p.ownRows v).Holds row)
    (hw : (p.ownRows w).Holds row) : v = w := by
  have hlt := Nat.lt_of_le_of_lt hv.1 hw.2
  have hlt' := Nat.lt_of_le_of_lt hw.1 hv.2
  have hle := Nat.lt_of_mul_lt_mul_right hlt
  have hle' := Nat.lt_of_mul_lt_mul_right hlt'
  omega

/-- The bands that the nodes fill are the rows of the nodes, in order. -/
theorem nodeRows_eq (hp : p.Sound) :
    p.nodeRows = (List.range p.layout.graph.nodeCount).map fun v => ⟨v, p.ownRows v⟩ := by
  rw [nodeRows, hp.dimension, hp.positions, rowBands_mul _ hp.positions_pos]
  refine List.ext_getElem (by simp) fun i hi hi' => ?_
  simp [ownRows]

/-- The nodes of a plan, each with its own rows. -/
theorem mem_nodeRows (hp : p.Sound) {v : NodeRows} :
    v ∈ p.nodeRows ↔ v.node < p.layout.graph.nodeCount ∧ v.rows = p.ownRows v.node := by
  rw [nodeRows_eq hp, List.mem_map]
  constructor
  · rintro ⟨w, hw, rfl⟩
    exact ⟨List.mem_range.1 hw, rfl⟩
  · rintro ⟨hv, hrows⟩
    exact ⟨v.node, List.mem_range.2 hv, hrows ▸ rfl⟩

/-- Every node is filled once. -/
theorem nodup_nodeRows (hp : p.Sound) : p.nodeRows.Nodup := by
  rw [nodeRows_eq hp]
  exact List.pairwise_map.2 (List.nodup_range.imp fun h heq => h (congrArg NodeRows.node heq))

/-! ## What a node adds -/

/-- What one family adds for a node at a position; nothing where that fails. -/
def share (p : Plan K) (v q : Nat) (t : Term K) : List (Addition K) :=
  match p.contribution (.of p.layout.graph v) v q t with
  | .ok as => as
  | .error _ => []

/-- Everything that a node adds, position by position and family by family. -/
def written (p : Plan K) (v : Nat) : List (Addition K) :=
  (List.range p.layout.positions).flatMap fun q => p.terms.flatMap (p.share v q)

/-- The addition for a step from `v` at position `q` to `w` at position `r`, in the
upper of the two cells if the step stays at its node. -/
def stepTo (p : Plan K) (v q r w : Nat) (value : K) : Addition K :=
  if v = w then ⟨min (p.number v q) (p.number w r), max (p.number v q) (p.number w r), value⟩
  else ⟨p.number v q, p.number w r, value⟩

/-- What is added for the step that a family makes from a position, if it makes one. -/
def forStep (p : Plan K) (f : Penalty) (q : Nat) (add : Nat → List (Addition K)) :
    List (Addition K) :=
  match p.stepFrom? f q with
  | none => []
  | some r => add r

/-- What a family adds that walks edges and multiplies with their weights. -/
def stepsAlongEdges (p : Plan K) (v q : Nat) (t : Term K) : List (Addition K) :=
  p.forStep t.penalty q fun r =>
    ((p.layout.graph.neighbors v .outgoing).filter fun w =>
      v = w || writesPair v w t.doubled).map fun w =>
        p.stepTo v q r w (p.layout.graph.arcWeight v w * t.weight)

/-- What a family adds that looks for steps between nodes that no edge joins. -/
def stepsBesideEdges (p : Plan K) (v q : Nat) (t : Term K) : List (Addition K) :=
  p.forStep t.penalty q fun r =>
    ((p.layout.graph.nonNeighbors v .outgoing).filter fun w =>
      writesPair v w t.doubled).map fun w => ⟨p.number v q, p.number w r, t.weight⟩

/-- Where every edge has a weight, no step along an edge fails. -/
theorem contribution_stepsAlongEdges {v : Nat} {t : Term K}
    (hall : p.layout.graph.firstUnweighted? = none) (hv : v < p.layout.graph.nodeCount) (q : Nat)
    (hreads : t.penalty.readsEdgeWeights = true) :
    p.contribution (.of p.layout.graph v) v q t = .ok (p.stepsAlongEdges v q t) := by
  have hsteps : ∀ r, ((p.layout.graph.weightedSuccessors v).filter fun edge =>
        v = edge.1 || writesPair v edge.1 t.doubled).mapM (p.walked v q t.weight r) =
      .ok (((p.layout.graph.neighbors v .outgoing).filter fun w =>
        v = w || writesPair v w t.doubled).map fun w =>
          p.stepTo v q r w (p.layout.graph.arcWeight v w * t.weight)) := by
    intro r
    rw [Graph.weightedSuccessors_eq hv, List.filter_map, List.mapM_map]
    refine mapM_eq_ok fun w hw => ?_
    have harc := ((Graph.mem_neighbors_outgoing hv).1 (List.mem_filter.1 hw).1).2
    simp only [Function.comp_apply, Graph.arcWeight?_eq_some hall harc, walked, stepTo]
  unfold contribution stepsAlongEdges forStep
  cases hpen : t.penalty with
  | edgeWeightsFactor | edgeWeightsCyclesFactor =>
    simp only [NodeView.of]
    cases p.stepFrom? _ q with
    | none => rfl
    | some r => exact hsteps r
  | _ => simp [hpen, Penalty.readsEdgeWeights] at hreads

/-- What a term contributes at a position, without the lookup that could fail. -/
theorem contribution_eq_ok (hp : p.Sound) {v : Nat} (hv : v < p.layout.graph.nodeCount) (q : Nat)
    {t : Term K} (ht : t ∈ p.terms) :
    p.contribution (.of p.layout.graph v) v q t = .ok (p.share v q t) := by
  have hok : ∃ as, p.contribution (.of p.layout.graph v) v q t = .ok as := by
    cases hreads : t.penalty.readsEdgeWeights with
    | true => exact ⟨_, contribution_stepsAlongEdges (hp.weighted t ht hreads) hv q hreads⟩
    | false =>
      unfold contribution
      cases hpen : t.penalty with
      | edgeWeightsFactor | edgeWeightsCyclesFactor =>
        simp [hpen, Penalty.readsEdgeWeights] at hreads
      | invalidTraversal | invalidTraversalCycles =>
        simp only
        split <;> exact ⟨_, rfl⟩
      | _ => exact ⟨_, rfl⟩
  obtain ⟨as, has⟩ := hok
  rw [share, has]

/-- The additions of a node are found without a failure. -/
theorem additions_eq_ok (hp : p.Sound) {v : Nat} (hv : v < p.layout.graph.nodeCount) :
    p.additions v = .ok (p.written v) := by
  have hat : ∀ q, p.additionsAt (.of p.layout.graph v) v q =
      .ok (p.terms.flatMap (p.share v q)) := by
    intro q
    rw [additionsAt, mapM_eq_ok fun t ht => contribution_eq_ok hp hv q ht]
    rw [List.flatMap_def]
    rfl
  rw [additions, mapM_eq_ok fun q _ => hat q, hp.positions, written, List.flatMap_def]
  rfl

/-! ## Where a node writes -/

/-- The addition lies in a row of the node, and in the column of some variable. -/
def Writes (p : Plan K) (v : Nat) (a : Addition K) : Prop :=
  (∃ q < p.layout.positions, a.row = p.number v q) ∧
    ∃ w < p.layout.graph.nodeCount, ∃ r < p.layout.positions, a.col = p.number w r

/-- A pair of variables may be written from the node of the first. -/
theorem writes_mk {v w q r : Nat} (x : K) (hq : q < p.layout.positions)
    (hw : w < p.layout.graph.nodeCount) (hr : r < p.layout.positions) :
    p.Writes v ⟨p.number v q, p.number w r, x⟩ :=
  ⟨⟨q, hq, rfl⟩, w, hw, r, hr, rfl⟩

/-- A step leads to a position of the layout. -/
theorem stepFrom?_lt (hp : p.Sound) {f : Penalty} {q r : Nat} (h : p.stepFrom? f q = some r) :
    r < p.layout.positions := by
  have hpos := hp.positions_pos
  unfold stepFrom? at h
  rw [lastPosition_eq hp] at h
  split at h
  · split at h <;> cases h
    exact hpos
  · split at h <;> cases h
    omega

/-- So may a step to another variable, in whichever order its cell is written. -/
theorem writes_stepTo (hp : p.Sound) {v w q r : Nat} (x : K) (hq : q < p.layout.positions)
    (hw : w < p.layout.graph.nodeCount) (hr : r < p.layout.positions) :
    p.Writes v (p.stepTo v q r w x) := by
  unfold stepTo
  split
  · rename_i h
    subst h
    obtain ⟨hmin, hmax⟩ := min_max_number hp v q r
    rw [hmin, hmax]
    exact writes_mk x (by omega) hw (by omega)
  · exact writes_mk x hq hw hr

/-- An addition for a step has a position that the step leads to. -/
theorem exists_of_mem_forStep (hp : p.Sound) {f : Penalty} {q : Nat}
    {add : Nat → List (Addition K)} {a : Addition K} (ha : a ∈ p.forStep f q add) :
    ∃ r < p.layout.positions, a ∈ add r := by
  unfold forStep at ha
  cases hr : p.stepFrom? f q with
  | none => simp [hr] at ha
  | some r =>
    rw [hr] at ha
    exact ⟨r, stepFrom?_lt hp hr, ha⟩

theorem writes_of_mem_stepsAlongEdges (hp : p.Sound) {v q : Nat} {t : Term K} {a : Addition K}
    (hv : v < p.layout.graph.nodeCount) (hq : q < p.layout.positions)
    (ha : a ∈ p.stepsAlongEdges v q t) : p.Writes v a := by
  obtain ⟨r, hr, ha⟩ := exists_of_mem_forStep hp ha
  obtain ⟨w, hw, rfl⟩ := List.mem_map.1 ha
  have hwn := ((Graph.mem_neighbors_outgoing hv).1 (List.mem_filter.1 hw).1).1
  exact writes_stepTo hp _ hq hwn hr

theorem writes_of_mem_stepsBesideEdges (hp : p.Sound) {v q : Nat} {t : Term K} {a : Addition K}
    (hv : v < p.layout.graph.nodeCount) (hq : q < p.layout.positions)
    (ha : a ∈ p.stepsBesideEdges v q t) : p.Writes v a := by
  obtain ⟨r, hr, ha⟩ := exists_of_mem_forStep hp ha
  obtain ⟨w, hw, rfl⟩ := List.mem_map.1 ha
  have hwn := ((Graph.mem_nonNeighbors_outgoing hv).1 (List.mem_filter.1 hw).1).1
  exact writes_mk _ hq hwn hr

theorem share_stepsAlongEdges (hp : p.Sound) {v : Nat} (hv : v < p.layout.graph.nodeCount)
    (q : Nat) {t : Term K} (ht : t ∈ p.terms) (hreads : t.penalty.readsEdgeWeights = true) :
    p.share v q t = p.stepsAlongEdges v q t := by
  rw [share, contribution_stepsAlongEdges (hp.weighted t ht hreads) hv q hreads]

theorem share_stepsBesideEdges (p : Plan K) (v q : Nat) {t : Term K}
    (hstep : t.penalty.isStep = true) (hreads : t.penalty.readsEdgeWeights = false) :
    p.share v q t = p.stepsBesideEdges v q t := by
  unfold share contribution stepsBesideEdges forStep
  cases hpen : t.penalty with
  | invalidTraversal | invalidTraversalCycles =>
    simp only [NodeView.of]
    cases p.stepFrom? _ q <;> rfl
  | edgeWeightsFactor | edgeWeightsCyclesFactor => simp [hpen, Penalty.readsEdgeWeights] at hreads
  | _ => simp [hpen, Penalty.isStep] at hstep

/-- Every addition of a family may be written from its node. -/
theorem writes_of_mem_share (hp : p.Sound) {v q : Nat} {t : Term K} {a : Addition K}
    (hv : v < p.layout.graph.nodeCount) (hq : q < p.layout.positions) (ht : t ∈ p.terms)
    (ha : a ∈ p.share v q t) : p.Writes v a := by
  have hlast := lastPosition_eq hp
  cases hpen : t.penalty with
  | edgeWeightsFactor | edgeWeightsCyclesFactor =>
    have hreads : t.penalty.readsEdgeWeights = true := by rw [hpen]; rfl
    rw [share_stepsAlongEdges hp hv q ht hreads] at ha
    exact writes_of_mem_stepsAlongEdges hp hv hq ha
  | invalidTraversal | invalidTraversalCycles =>
    have hstep : t.penalty.isStep = true := by rw [hpen]; rfl
    have hreads : t.penalty.readsEdgeWeights = false := by rw [hpen]; rfl
    rw [share_stepsBesideEdges p v q hstep hreads] at ha
    exact writes_of_mem_stepsBesideEdges hp hv hq ha
  | startNodeScore | terminalNodeScore =>
    simp only [share, contribution, hpen] at ha
    split at ha
    · rw [List.mem_singleton.1 ha]
      exact writes_mk _ hq hv hq
    · cases ha
  | diagonal =>
    simp only [share, contribution, hpen] at ha
    rw [List.mem_singleton.1 ha]
    exact writes_mk _ hq hv hq
  | nodesWithEdges =>
    simp only [share, contribution, hpen] at ha
    obtain ⟨_, -, rfl⟩ := List.mem_map.1 ha
    exact writes_mk _ hq hv hq
  | oneNodeManyPositions =>
    simp only [share, contribution, hpen] at ha
    obtain ⟨r, hr, rfl⟩ := List.mem_map.1 ha
    have hr := List.mem_range'_1.1 hr
    exact writes_mk _ hq hv (by omega)
  | onePositionManyNodes =>
    simp only [share, contribution, hpen] at ha
    obtain ⟨w, hw, rfl⟩ := List.mem_map.1 ha
    have hw := List.mem_range'_1.1 hw
    exact writes_mk _ hq (by omega) hq
  | edges =>
    simp only [share, contribution, hpen, NodeView.of] at ha
    obtain ⟨w, hw, rfl⟩ := List.mem_map.1 ha
    have hwn := ((Graph.mem_neighbors_any hv).1 (List.mem_filter.1 hw).1).1
    exact writes_mk _ hq hwn hq
  | nonEdges =>
    simp only [share, contribution, hpen, NodeView.of] at ha
    obtain ⟨w, hw, rfl⟩ := List.mem_map.1 ha
    have hwn := ((Graph.mem_nonNeighbors_any hv).1 (List.mem_filter.1 hw).1).1
    exact writes_mk _ hq hwn hq
  | invalidTraversalSelf =>
    simp only [share, contribution, hpen] at ha
    split at ha
    · rw [List.mem_singleton.1 ha]
      exact writes_mk _ hq hv (by omega)
    · cases ha

/-- Every addition of a node may be written from it. -/
theorem writes_of_mem_written (hp : p.Sound) {v : Nat} {a : Addition K}
    (hv : v < p.layout.graph.nodeCount) (ha : a ∈ p.written v) : p.Writes v a := by
  obtain ⟨q, hq, ha⟩ := List.mem_flatMap.1 ha
  obtain ⟨t, ht, ha⟩ := List.mem_flatMap.1 ha
  exact writes_of_mem_share hp hv (List.mem_range.1 hq) ht ha

/-- What a node writes lies in its rows and in a column of the matrix. -/
theorem Writes.inRange (hp : p.Sound) {v : Nat} {a : Addition K}
    (hv : v < p.layout.graph.nodeCount) (h : p.Writes v a) :
    (p.ownRows v).Holds a.row ∧ a.row < p.dimension ∧ a.col < p.dimension := by
  obtain ⟨⟨q, hq, hrow⟩, w, hw, r, hr, hcol⟩ := h
  rw [hrow, hcol]
  exact ⟨holds_number hp hq, number_lt hp hv hq, number_lt hp hw hr⟩

end

end Plan

end GraphQubo
