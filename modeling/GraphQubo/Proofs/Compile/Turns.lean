import GraphQubo.Proofs.Compile.Doubling
import Mathlib.Algebra.BigOperators.Intervals
import Mathlib.Algebra.BigOperators.Ring.Finset
import Mathlib.Algebra.Order.BigOperators.Group.Finset

/-!
# GraphQubo.Proofs.Compile.Turns

The estimate of the work counts the turns of the innermost loops.

For each node, position and family an innermost loop runs over a list of nodes or positions,
and most of its turns write a cell.  `Plan.turns` is that list and `Plan.admits` tells which
turns write.

* `exists_share_eq` — what is written, turn by turn;
* `turnsOf_eq` — the turns of one family as a closed formula;
* `saturatingSum_eq` — sums that stop at the largest word stop at most once;
* `steps_eq` — over an accepted layout no count on the way to the estimate is cut off;
* `estimateWork_counts_turns` — the estimate, and how many additions are made.
-/

namespace GraphQubo

open Finset

variable {K : Type} [Coefficient K]

/-! ## Sums that stop at the largest word -/

/-- A number that is a word is counted as it is. -/
theorem saturate_of_lt {n : Nat} (h : n < wordLimit) : saturate n = n :=
  Nat.min_eq_left (Nat.le_sub_one_of_lt h)

/-- Stopping a sum of counts on the way changes nothing but where the whole sum stops. -/
theorem saturatingSum_eq (counts : List Nat) : saturatingSum counts = saturate counts.sum := by
  have hfrom : ∀ total < wordLimit,
      counts.foldl (fun total n => saturate (total + saturate n)) total =
        saturate (total + counts.sum) := by
    induction counts with
    | nil => exact fun total htotal => (saturate_of_lt htotal).symm
    | cons n counts ih =>
      intro total htotal
      rw [List.foldl_cons, ih _ (by unfold saturate wordLimit; omega), List.sum_cons]
      unfold saturate wordLimit at *
      omega
  rw [saturatingSum, hfrom 0 (by decide), Nat.zero_add]

/-- A node has no more neighbours than there are nodes. -/
theorem Graph.length_neighbors_le (g : Graph K) (v : Nat) (adjacency : Adjacency) :
    (g.neighbors v adjacency).length ≤ g.nodeCount := by
  rw [neighbors_eq_filter]
  exact (List.length_filter_le _ _).trans_eq List.length_range

/-- A node has no more non-neighbours than there are nodes. -/
theorem Graph.length_nonNeighbors_le (g : Graph K) (v : Nat) (adjacency : Adjacency) :
    (g.nonNeighbors v adjacency).length ≤ g.nodeCount :=
  (List.length_filter_le _ _).trans_eq List.length_range

/-! ## Turns -/

namespace Plan

/-- What the innermost loop of a family runs over, for a node at a position. -/
def turns (p : Plan K) (v q : Nat) (t : Term K) : List Nat :=
  let g := p.layout.graph
  match t.penalty with
  | .startNodeScore => if p.layout.startNode = some v ∧ q = 0 then [v] else []
  | .terminalNodeScore =>
    if p.layout.terminalNode = some v ∧ q = p.lastPosition then [v] else []
  | .diagonal => [v]
  | .nodesWithEdges | .edges => g.neighbors v .any
  | .oneNodeManyPositions => List.range' (q + 1) (p.lastPosition - q)
  | .onePositionManyNodes => List.range' (v + 1) (g.nodeCount - (v + 1))
  | .nonEdges => g.nonNeighbors v .any
  | .edgeWeightsFactor | .edgeWeightsCyclesFactor =>
    if (p.stepFrom? t.penalty q).isSome then g.neighbors v .outgoing else []
  | .invalidTraversal | .invalidTraversalCycles =>
    if (p.stepFrom? t.penalty q).isSome then g.nonNeighbors v .outgoing else []
  | .invalidTraversalSelf => if q < p.lastPosition then [v] else []

/-- Whether a turn writes a cell. -/
def admits (p : Plan K) (v : Nat) (t : Term K) (w : Nat) : Bool :=
  match t.penalty with
  | .edges | .edgeWeightsFactor | .edgeWeightsCyclesFactor => v = w || writesPair v w t.doubled
  | .nonEdges | .invalidTraversal | .invalidTraversalCycles => writesPair v w t.doubled
  | .invalidTraversalSelf => !p.layout.graph.hasSelfLoop v
  | _ => true

/-- How many turns the innermost loop of a family takes over all nodes and positions. -/
def turnsOf (p : Plan K) (t : Term K) : Nat :=
  ∑ v ∈ range p.layout.graph.nodeCount, ∑ q ∈ range p.layout.positions, (p.turns v q t).length

/-- How many turns the innermost loops take, node by node, position by position and family by
family. -/
def allTurns (p : Plan K) : Nat :=
  ∑ v ∈ range p.layout.graph.nodeCount, ∑ q ∈ range p.layout.positions,
    (p.terms.map fun t => (p.turns v q t).length).sum

variable {p : Plan K}

/-- Each turn that is admitted writes one cell, and nothing else is written. -/
theorem exists_share_eq (hp : p.Sound) {v : Nat} (hv : v < p.layout.graph.nodeCount) (q : Nat)
    {t : Term K} (ht : t ∈ p.terms) :
    ∃ f : Nat → Addition K, p.share v q t = ((p.turns v q t).filter (p.admits v t)).map f := by
  unfold turns admits
  cases hpen : t.penalty with
  | edgeWeightsFactor | edgeWeightsCyclesFactor =>
    have hreads : t.penalty.readsEdgeWeights = true := by rw [hpen]; rfl
    rw [share_stepsAlongEdges hp hv q ht hreads]
    unfold stepsAlongEdges forStep
    simp only [hpen]
    cases p.stepFrom? _ q with
    | none => exact ⟨fun w => p.stepTo v q q w 0, rfl⟩
    | some r => exact ⟨_, rfl⟩
  | invalidTraversal | invalidTraversalCycles =>
    rw [share_stepsBesideEdges p v q (by rw [hpen]; rfl) (by rw [hpen]; rfl)]
    unfold stepsBesideEdges forStep
    simp only [hpen]
    cases p.stepFrom? _ q with
    | none => exact ⟨fun w => p.stepTo v q q w 0, rfl⟩
    | some r => exact ⟨_, rfl⟩
  | invalidTraversalSelf =>
    simp only [share, contribution, hpen, NodeView.of]
    refine ⟨fun w => ⟨p.number v q, p.number w (q + 1), t.weight⟩, ?_⟩
    by_cases hq : q < p.lastPosition <;> by_cases hloop : p.layout.graph.hasSelfLoop v <;>
      simp [hq, hloop]
  | startNodeScore | terminalNodeScore =>
    simp only [share, contribution, hpen]
    refine ⟨fun w => ⟨p.number w q, p.number w q, t.weight⟩, ?_⟩
    split <;> rfl
  | diagonal => exact ⟨fun w => ⟨p.number w q, p.number w q, t.weight⟩, by
      simp [share, contribution, hpen]⟩
  | nodesWithEdges => exact ⟨fun _ => ⟨p.number v q, p.number v q, t.weight⟩, by
      simp [share, contribution, hpen, NodeView.of]⟩
  | oneNodeManyPositions => exact ⟨fun r => ⟨p.number v q, p.number v r, t.weight⟩, by
      simp [share, contribution, hpen]⟩
  | onePositionManyNodes => exact ⟨fun w => ⟨p.number v q, p.number w q, t.weight⟩, by
      simp [share, contribution, hpen]⟩
  | edges | nonEdges => exact ⟨fun w => ⟨p.number v q, p.number w q, t.weight⟩, by
      simp [share, contribution, hpen, NodeView.of]⟩

/-! ## Counting turns -/

/-- What a node contributes to the number of turns that a family takes at it. -/
def nodeShare (p : Plan K) (v : Nat) : Penalty → Nat
  | .startNodeScore => if p.layout.startNode = some v then 1 else 0
  | .terminalNodeScore => if p.layout.terminalNode = some v then 1 else 0
  | .diagonal | .oneNodeManyPositions | .invalidTraversalSelf => 1
  | .nodesWithEdges | .edges => p.layout.graph.degree v
  | .onePositionManyNodes => p.layout.graph.nodeCount - 1 - v
  | .nonEdges => (p.layout.graph.nonNeighbors v .any).length
  | .edgeWeightsFactor | .edgeWeightsCyclesFactor => (p.layout.graph.neighbors v .outgoing).length
  | .invalidTraversal | .invalidTraversalCycles =>
    (p.layout.graph.nonNeighbors v .outgoing).length

/-- What a position contributes to the number of turns that a family takes at it. -/
def positionShare (p : Plan K) (q : Nat) : Penalty → Nat
  | .startNodeScore => if q = 0 then 1 else 0
  | .terminalNodeScore => if q = p.layout.positions - 1 then 1 else 0
  | .oneNodeManyPositions => p.layout.positions - 1 - q
  | .edgeWeightsFactor | .invalidTraversal | .invalidTraversalSelf =>
    if q < p.layout.positions - 1 then 1 else 0
  | .edgeWeightsCyclesFactor | .invalidTraversalCycles =>
    if q = p.layout.positions - 1 then 1 else 0
  | _ => 1

/-- The turns of a family at a position, as a product of two shares. -/
theorem length_turns (hp : p.Sound) (v q : Nat) (t : Term K) :
    (p.turns v q t).length = p.nodeShare v t.penalty * p.positionShare q t.penalty := by
  have hlast := lastPosition_eq hp
  unfold turns nodeShare positionShare stepFrom?
  cases t.penalty with
  | startNodeScore | terminalNodeScore =>
    simp only [hlast]
    split <;> split <;> split <;> simp_all
  | oneNodeManyPositions => simp [hlast]
  | onePositionManyNodes =>
    simp only [List.length_range', Nat.mul_one]
    omega
  | invalidTraversalSelf =>
    simp only [hlast]
    split <;> rfl
  | edgeWeightsFactor | edgeWeightsCyclesFactor | invalidTraversal | invalidTraversalCycles =>
    simp only [hlast, Penalty.wrapsAround, if_true, if_false, Bool.false_eq_true]
    split <;> simp
  | _ => simp [Graph.degree]

/-- The turns of a family are a total over the nodes times a total over the positions. -/
theorem turnsOf_eq (hp : p.Sound) (t : Term K) :
    p.turnsOf t = (∑ v ∈ range p.layout.graph.nodeCount, p.nodeShare v t.penalty) *
      ∑ q ∈ range p.layout.positions, p.positionShare q t.penalty := by
  rw [turnsOf, sum_mul_sum]
  exact sum_congr rfl fun v _ => sum_congr rfl fun q _ => length_turns hp v q t

/-- The turns of a plan, family by family. -/
theorem allTurns_eq (p : Plan K) : p.allTurns = (p.terms.map p.turnsOf).sum := by
  unfold allTurns
  induction p.terms with
  | nil => simp
  | cons t ts ih => simp only [List.map_cons, List.sum_cons, sum_add_distrib, ih, turnsOf]

/-! ## Nothing is cut off -/

theorem sum_le_sq {n : Nat} {f : Nat → Nat} (h : ∀ i < n, f i ≤ n) : ∑ i ∈ range n, f i ≤ n * n := by
  have hle := sum_le_card_nsmul (range n) f n fun i hi => h i (mem_range.1 hi)
  rwa [card_range, nsmul_eq_mul, Nat.cast_id] at hle

/-- The share of a node is at most the number of nodes. -/
theorem nodeShare_le (p : Plan K) {v : Nat} (hv : v < p.layout.graph.nodeCount) (f : Penalty) :
    p.nodeShare v f ≤ p.layout.graph.nodeCount := by
  cases f with
  | startNodeScore | terminalNodeScore =>
    simp only [nodeShare]
    split <;> omega
  | nodesWithEdges | edges | edgeWeightsFactor | edgeWeightsCyclesFactor =>
    exact p.layout.graph.length_neighbors_le v _
  | nonEdges | invalidTraversal | invalidTraversalCycles =>
    exact p.layout.graph.length_nonNeighbors_le v _
  | _ => simp only [nodeShare]; omega

/-- The share of a position is at most the number of positions. -/
theorem positionShare_le (p : Plan K) {q : Nat} (hq : q < p.layout.positions) (f : Penalty) :
    p.positionShare q f ≤ p.layout.positions := by
  cases f <;> simp only [positionShare] <;> (try split) <;> omega

/-- A family takes no more turns than the matrix has cells. -/
theorem turnsOf_le (hp : p.Sound) (t : Term K) : p.turnsOf t ≤ p.dimension * p.dimension := by
  have hnodes := sum_le_sq fun v hv => p.nodeShare_le hv t.penalty
  have hpositions := sum_le_sq fun q hq => p.positionShare_le hq t.penalty
  rw [turnsOf_eq hp, hp.dimension, Nat.mul_mul_mul_comm]
  exact Nat.mul_le_mul hnodes hpositions

/-! ## The estimate -/

theorem sum_range_last_sub (n : Nat) : ∑ i ∈ range n, (n - 1 - i) = n * (n - 1) / 2 := by
  rw [sum_range_reflect fun i => i, sum_range_id]

theorem sum_range_eq_one {n a : Nat} (h : a < n) : ∑ i ∈ range n, (if i = a then 1 else 0) = 1 := by
  rw [sum_ite_eq' (range n) a, if_pos (mem_range.2 h)]

theorem sum_range_lt_last (n : Nat) :
    ∑ i ∈ range n, (if i < n - 1 then 1 else 0) = n - 1 := by
  have hfilter : (range n).filter (· < n - 1) = range (n - 1) := by
    ext i
    simp only [mem_filter, mem_range]
    omega
  rw [← card_filter, hfilter, card_range]

/-- The total of counts of which none exceeds the number of nodes. -/
theorem saturatingSum_nodes (g : Graph K) {f : Nat → Nat} (hf : ∀ v < g.nodeCount, f v ≤ g.nodeCount) :
    saturatingSum (g.nodes.map f) = ∑ v ∈ range g.nodeCount, f v := by
  have hsum : (g.nodes.map f).sum = ∑ v ∈ range g.nodeCount, f v := rfl
  have hle := sum_le_sq hf
  have hsq : g.nodeCount * g.nodeCount < wordLimit :=
    Nat.mul_lt_mul'' g.nodeCount_lt g.nodeCount_lt
  rw [saturatingSum_eq, hsum, saturate_of_lt (hle.trans_lt hsq)]

/-- The totals of a graph are what the nodes contribute, all of it. -/
theorem degrees_eq (p : Plan K) :
    Degrees.of p.layout.graph =
      { adjacent := ∑ v ∈ range p.layout.graph.nodeCount, p.nodeShare v .edges
        successors := ∑ v ∈ range p.layout.graph.nodeCount, p.nodeShare v .edgeWeightsFactor
        nonAdjacent := ∑ v ∈ range p.layout.graph.nodeCount, p.nodeShare v .nonEdges
        nonSuccessors := ∑ v ∈ range p.layout.graph.nodeCount, p.nodeShare v .invalidTraversal } := by
  have htotal : ∀ f, ∑ v ∈ range p.layout.graph.nodeCount, p.nodeShare v f =
      saturatingSum (p.layout.graph.nodes.map fun v => p.nodeShare v f) := fun f =>
    (saturatingSum_nodes _ fun v hv => p.nodeShare_le hv f).symm
  simp only [htotal]
  rfl

/-- The pairs of `k` things, where their ordered pairs are a word. -/
theorem pairCount_eq {k : Nat} (h : k * k < wordLimit) : pairCount k = k * (k - 1) / 2 := by
  have hle : k * (k - 1) ≤ k * k := Nat.mul_le_mul_left k (Nat.sub_le k 1)
  rw [pairCount, saturate_of_lt (hle.trans_lt h)]

/-- Without nodes the count of pairs of positions may stop, but counts for nothing. -/
theorem mul_pairCount_positions (hp : p.Sound) :
    p.layout.graph.nodeCount * pairCount p.layout.positions =
      p.layout.graph.nodeCount * (p.layout.positions * (p.layout.positions - 1) / 2) := by
  rcases Nat.eq_zero_or_pos p.layout.graph.nodeCount with hn | hn
  · rw [hn, Nat.zero_mul, Nat.zero_mul]
  · have hle : p.layout.positions ≤ p.dimension := hp.dimension ▸ Nat.le_mul_of_pos_left _ hn
    rw [pairCount_eq ((Nat.mul_le_mul hle hle).trans_lt hp.cells_fit)]

/-- A score that is compiled has its node. -/
structure HasNode (p : Plan K) (f : Penalty) : Prop where
  start : f = .startNodeScore → ∃ v < p.layout.graph.nodeCount, p.layout.startNode = some v
  terminal : f = .terminalNodeScore →
    ∃ v < p.layout.graph.nodeCount, p.layout.terminalNode = some v

/-- The closed formula of a family counts its turns. -/
theorem steps_eq (hp : p.Sound) {t : Term K} (hnode : p.HasNode t.penalty) :
    (Degrees.of p.layout.graph).steps p.layout.graph.nodeCount p.layout.positions t.penalty =
      p.turnsOf t := by
  have hpos := hp.positions_pos
  have hfits : saturate (p.turnsOf t) = p.turnsOf t :=
    saturate_of_lt ((turnsOf_le hp t).trans_lt hp.cells_fit)
  have hone : ∑ q ∈ range p.layout.positions, (if q = p.layout.positions - 1 then 1 else 0) = 1 :=
    sum_range_eq_one (Nat.sub_one_lt_of_lt hpos)
  have hsteps := sum_range_lt_last p.layout.positions
  rw [turnsOf_eq hp] at hfits ⊢
  rw [degrees_eq]
  obtain ⟨hstart, hterminal⟩ := hnode
  cases hpen : t.penalty with
  | startNodeScore =>
    obtain ⟨s, hs, hsome⟩ := hstart hpen
    simp only [Degrees.steps, nodeShare, positionShare, hsome, Option.some.injEq, eq_comm (a := s)]
    rw [sum_range_eq_one hs, sum_range_eq_one hpos]
  | terminalNodeScore =>
    obtain ⟨s, hs, hsome⟩ := hterminal hpen
    simp only [Degrees.steps, nodeShare, positionShare, hsome, Option.some.injEq, eq_comm (a := s)]
    rw [sum_range_eq_one hs, hone]
  | oneNodeManyPositions =>
    simp only [hpen, nodeShare, positionShare, sum_const, card_range, nsmul_one, Nat.cast_id,
      sum_range_last_sub] at hfits ⊢
    rw [Degrees.steps, mul_pairCount_positions hp, hfits]
  | onePositionManyNodes =>
    have hsq : p.layout.graph.nodeCount * p.layout.graph.nodeCount < wordLimit :=
      Nat.mul_lt_mul'' p.layout.graph.nodeCount_lt p.layout.graph.nodeCount_lt
    simp only [hpen, nodeShare, positionShare, sum_const, card_range, nsmul_one, Nat.cast_id,
      sum_range_last_sub] at hfits ⊢
    rw [Degrees.steps, pairCount_eq hsq, Nat.mul_comm, hfits]
  | edgeWeightsCyclesFactor | invalidTraversalCycles =>
    simp only [positionShare, hone, Nat.mul_one]
    rfl
  | edgeWeightsFactor | invalidTraversal | invalidTraversalSelf =>
    simp only [hpen, nodeShare, positionShare, hsteps, sum_const, card_range, nsmul_one,
      Nat.cast_id] at hfits ⊢
    exact hfits
  | _ =>
    simp only [hpen, nodeShare, positionShare, sum_const, card_range, nsmul_one,
      Nat.cast_id] at hfits ⊢
    exact hfits

/-- The estimate is the number of turns, stopped at the largest word. -/
theorem work_eq (hp : p.Sound) (hnodes : ∀ t ∈ p.terms, p.HasNode t.penalty) :
    p.work = saturate p.allTurns := by
  have hsteps : (p.terms.map fun t => (Degrees.of p.layout.graph).steps p.layout.graph.nodeCount
      p.numbering.positions t.penalty) = p.terms.map p.turnsOf := by
    rw [hp.positions]
    exact List.map_congr_left fun t ht => steps_eq hp (hnodes t ht)
  rw [work, hsteps, saturatingSum_eq, allTurns_eq]

/-! ## The additions -/

/-- Everything that is added, node by node. -/
theorem mapM_additions (hp : p.Sound) :
    (p.nodeRows.mapM fun v => p.additions v.node) =
      .ok (p.nodeRows.map fun v => p.written v.node) :=
  mapM_eq_ok fun _ hv => additions_eq_ok hp ((mem_nodeRows hp).1 hv).1

/-- The additions of a node, counted position by position. -/
theorem length_written (p : Plan K) (v : Nat) :
    (p.written v).length = ∑ q ∈ range p.layout.positions,
      (p.terms.map fun t => (p.share v q t).length).sum := by
  simp only [written, List.length_flatMap]
  rfl

/-- How many additions are made. -/
theorem length_flatten_written (hp : p.Sound) :
    (p.nodeRows.map fun v => p.written v.node).flatten.length =
      ∑ v ∈ range p.layout.graph.nodeCount, ∑ q ∈ range p.layout.positions,
        (p.terms.map fun t => (p.share v q t).length).sum := by
  rw [nodeRows_eq hp, List.map_map, List.length_flatten, List.map_map]
  show ∑ v ∈ range p.layout.graph.nodeCount, (p.written v).length = _
  exact sum_congr rfl fun v _ => p.length_written v

/-- A turn adds at most once. -/
theorem length_share_le (hp : p.Sound) {v : Nat} (hv : v < p.layout.graph.nodeCount) (q : Nat)
    {t : Term K} (ht : t ∈ p.terms) : (p.share v q t).length ≤ (p.turns v q t).length := by
  obtain ⟨f, hf⟩ := exists_share_eq hp hv q ht
  rw [hf, List.length_map]
  exact List.length_filter_le _ _

/-- Every pair that can be written both ways is, and no walked self loop is passed over. -/
structure WritesAll (p : Plan K) (t : Term K) : Prop where
  doubled : t.penalty ∈ Penalty.linearPairs ++ Penalty.cyclicPairs → t.doubled = true
  loopless : t.penalty = .invalidTraversalSelf →
    ∀ v < p.layout.graph.nodeCount, p.layout.graph.hasSelfLoop v = false

/-- A family that writes at every turn admits each of them. -/
theorem admits_of_mem_turns {t : Term K} (h : p.WritesAll t) {v q w : Nat}
    (hv : v < p.layout.graph.nodeCount) (hw : w ∈ p.turns v q t) : p.admits v t w = true := by
  have hpair : w ≠ v → writesPair v w true = true := by
    unfold writesPair
    simp only [Bool.true_and, Bool.or_eq_true, decide_eq_true_eq]
    omega
  unfold admits
  cases hpen : t.penalty with
  | edges | edgeWeightsFactor | edgeWeightsCyclesFactor =>
    have hdoubled := h.doubled (by rw [hpen]; decide)
    by_cases hwv : w = v <;> simp [hdoubled, hwv, hpair]
  | nonEdges =>
    have hdoubled := h.doubled (by rw [hpen]; decide)
    simp only [turns, hpen, Graph.mem_nonNeighbors_any hv] at hw
    rw [hdoubled]
    exact hpair hw.2.1
  | invalidTraversal | invalidTraversalCycles =>
    have hdoubled := h.doubled (by rw [hpen]; decide)
    simp only [turns, hpen] at hw
    split at hw
    · rw [hdoubled]
      exact hpair ((Graph.mem_nonNeighbors_outgoing hv).1 hw).2.1
    · cases hw
  | invalidTraversalSelf => simp [h.loopless hpen v hv]
  | _ => rfl

/-- Where every turn is admitted, every turn adds. -/
theorem length_share_eq (hp : p.Sound) {v : Nat} (hv : v < p.layout.graph.nodeCount) (q : Nat)
    {t : Term K} (ht : t ∈ p.terms) (h : p.WritesAll t) :
    (p.share v q t).length = (p.turns v q t).length := by
  obtain ⟨f, hf⟩ := exists_share_eq hp hv q ht
  rw [hf, List.length_map, List.filter_eq_self.2 fun w hw => admits_of_mem_turns h hv hw]

/-- There are no more additions than turns. -/
theorem length_flatten_written_le (hp : p.Sound) :
    (p.nodeRows.map fun v => p.written v.node).flatten.length ≤ p.allTurns := by
  rw [length_flatten_written hp, allTurns]
  refine sum_le_sum fun v hv => sum_le_sum fun q _ => List.sum_le_sum fun t ht => ?_
  exact length_share_le hp (mem_range.1 hv) q ht

/-- There are as many if every family writes at each turn. -/
theorem length_flatten_written_eq (hp : p.Sound) (hall : ∀ t ∈ p.terms, p.WritesAll t) :
    (p.nodeRows.map fun v => p.written v.node).flatten.length = p.allTurns := by
  rw [length_flatten_written hp, allTurns]
  refine sum_congr rfl fun v hv => sum_congr rfl fun q _ => congrArg List.sum ?_
  exact List.map_congr_left fun t ht => length_share_eq hp (mem_range.1 hv) q ht (hall t ht)

end Plan

/-! ## The estimate and the additions -/

/-- A term for an end comes with the node of this end. -/
theorem Layout.hasNode_of_mem_terms {l : Layout K} {c : Constraints K} {p : Plan K}
    (h : l.plan c = .ok p) {t : Term K} (ht : t ∈ p.terms) : p.HasNode t.penalty := by
  obtain ⟨rfl, hterms, -⟩ := plan_eq_ok h
  have hadmits := Layout.exists_plan_iff.1 ⟨p, h⟩
  have hset := Constraints.isEnabled_iff.1 (Layout.isEnabled_of_mem_terms (hterms ▸ ht))
  constructor
  · intro hpen
    obtain ⟨v, hv⟩ := Option.ne_none_iff_exists'.1 (hadmits.startScore (hpen ▸ hset))
    exact ⟨v, hadmits.start v hv, hv⟩
  · intro hpen
    obtain ⟨v, hv⟩ := Option.ne_none_iff_exists'.1 (hadmits.terminalScore (hpen ▸ hset))
    exact ⟨v, hadmits.terminal v hv, hv⟩

/-- The estimate of the work is the number of turns that the innermost loops take, stopped at
the largest word.  A turn that is admitted adds once, any other one adds nothing.  So no more
additions than turns are made, and as many if every pair is written both ways and no self loop
makes a turn pass without writing. -/
theorem estimateWork_counts_turns {l : Layout K} {c : Constraints K} {p : Plan K}
    (h : l.plan c = .ok p) :
    l.estimateWork c = .ok (min (wordLimit - 1) p.allTurns) ∧
      (∀ v < l.graph.nodeCount, ∀ q, ∀ t ∈ p.terms, ∃ f : Nat → Addition K,
        p.contribution (.of l.graph v) v q t =
          .ok (((p.turns v q t).filter (p.admits v t)).map f)) ∧
      ∃ (added : List (List (Addition K))) (m : Matrix K),
        (p.nodeRows.mapM fun v => p.additions v.node) = .ok added ∧
          l.generate c = .ok m ∧ (Matrix.zeros p.dimension).Accumulates added.flatten m ∧
          added.flatten.length ≤ p.allTurns ∧
          ((∀ f ∈ Penalty.linearPairs ++ Penalty.cyclicPairs, c.isEnabled f = true →
              l.leavesOut f = false → c.doubleCounts f = true) →
            (c.isEnabled .invalidTraversalSelf = true →
              ∀ v < l.graph.nodeCount, l.graph.hasSelfLoop v = false) →
            added.flatten.length = p.allTurns) := by
  have hnodes := fun t ht => Layout.hasNode_of_mem_terms h (t := t) ht
  obtain ⟨rfl, hterms, hp⟩ := plan_eq_ok h
  obtain ⟨m, hm, hacc⟩ := Plan.exists_fill hp
  have hadded := Plan.mapM_additions hp
  have hle := Plan.length_flatten_written_le hp
  refine ⟨?_, fun v hv q t ht => ?_, _, m, hadded, ?_, hacc, hle, fun hdoubled hloopless => ?_⟩
  · rw [Nat.min_comm, Layout.estimateWork, h]
    exact congrArg Except.ok (Plan.work_eq hp hnodes)
  · obtain ⟨f, hf⟩ := Plan.exists_share_eq hp hv q ht
    exact ⟨f, hf ▸ Plan.contribution_eq_ok hp hv q ht⟩
  · rw [Layout.generate, h]
    exact hm
  · have hall : ∀ t ∈ p.terms, p.WritesAll t := by
      intro t ht
      rw [hterms] at ht
      obtain ⟨hout, -, hflag⟩ := Layout.mem_terms_iff.1 ht
      have henabled := Layout.isEnabled_of_mem_terms ht
      exact ⟨fun hpair => hflag.trans (hdoubled _ hpair henabled hout),
        fun hpen => hloopless (hpen ▸ henabled)⟩
    exact Plan.length_flatten_written_eq hp hall

/-- Every family but the one about staying at a node, all pairs written both ways. -/
def Constraints.onesButStaying : Constraints Rat := Constraints.ones.clear .invalidTraversalSelf

/-- The estimate tells the number of additions, with a self loop in the graph. -/
theorem estimateWork_counts_turns_pairWithLoop :
    ∃ (p : Plan Rat) (added : List (List (Addition Rat))),
      Layout.pairWithLoop.plan .onesButStaying = .ok p ∧
        Layout.pairWithLoop.estimateWork .onesButStaying = .ok 28 ∧
        (p.nodeRows.mapM fun v => p.additions v.node) = .ok added ∧
        added.flatten.length = 28 := by
  obtain ⟨p, hp⟩ : ∃ p, Layout.pairWithLoop.plan .onesButStaying = .ok p := ⟨_, rfl⟩
  obtain ⟨hwork, -, added, m, hadded, -, -, -, hall⟩ := estimateWork_counts_turns hp
  have hestimate : Layout.pairWithLoop.estimateWork .onesButStaying = .ok 28 := rfl
  have hturns : min (wordLimit - 1) p.allTurns = 28 := Except.ok.inj (hwork.symm.trans hestimate)
  have hdoubled : ∀ f ∈ Penalty.linearPairs ++ Penalty.cyclicPairs,
      Constraints.onesButStaying.doubleCounts f = true := by decide
  have hunset : Constraints.onesButStaying.isEnabled .invalidTraversalSelf = false := rfl
  refine ⟨p, added, hp, hestimate, hadded, ?_⟩
  rw [hall (fun f hf _ _ => hdoubled f hf) fun hset => absurd (hunset.symm.trans hset) nofun]
  unfold wordLimit at hturns
  omega

end GraphQubo
