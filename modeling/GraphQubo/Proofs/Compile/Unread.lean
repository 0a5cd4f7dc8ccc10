import GraphQubo.Compile.Work
import GraphQubo.Proofs.Compile.Filling
import GraphQubo.Proofs.Graph.Shape

/-!
# GraphQubo.Proofs.Compile.Unread

What is not read leaves no trace.

A weight of zero, a family that wraps around a single position, a flag without its families,
a node without its score and an edge weight that no family multiplies with are there in the
input, but no check and no cell depends on them.  So two inputs that agree on the rest have
the same answers, whatever the addition of coefficients is like.

* `Plan.Alike` — plans that agree on what their families read: what each node writes, the
  matrix and the count of steps are the same;
* `Layout.AgreesWith` — inputs that agree on what is read: they are refused alike, or their
  plans are alike;
* `unread_leaves_no_trace` — all answers of such inputs are the same.
-/

namespace GraphQubo

variable {K : Type} [Coefficient K]

/-! ## Plans that read the same -/

namespace Plan

/-- The same families over the same variables.  Edge weights, the start node and the terminal
node are the same if a family reads them. -/
structure Alike (p p' : Plan K) : Prop where
  numbering : p.numbering = p'.numbering
  dimension : p.dimension = p'.dimension
  terms : p.terms = p'.terms
  shape : p.layout.graph.SameShape p'.layout.graph
  weights : (∃ t ∈ p.terms, t.penalty.readsEdgeWeights = true) →
    p.layout.graph = p'.layout.graph
  start : (∃ t ∈ p.terms, t.penalty = .startNodeScore) → p.layout.startNode = p'.layout.startNode
  terminal : (∃ t ∈ p.terms, t.penalty = .terminalNodeScore) →
    p.layout.terminalNode = p'.layout.terminalNode

namespace Alike

variable {p p' : Plan K} {v : Nat}

/-- Every family adds the same for a node at a position. -/
theorem contribution_eq (h : p.Alike p') (hv : v < p.layout.graph.nodeCount) (q : Nat)
    {t : Term K} (ht : t ∈ p.terms) :
    p.contribution (.of p.layout.graph v) v q t = p'.contribution (.of p'.layout.graph v) v q t := by
  have hnumber : p.number = p'.number := by
    funext v q
    rw [number, number, h.numbering]
  have hlast : p.lastPosition = p'.lastPosition := congrArg Numbering.lastPosition h.numbering
  have hstep : p.stepFrom? = p'.stepFrom? := by
    funext f q
    rw [stepFrom?, stepFrom?, hlast]
  unfold contribution
  cases hpen : t.penalty with
  | startNodeScore => simp only [h.start ⟨t, ht, hpen⟩, hnumber]
  | terminalNodeScore => simp only [h.terminal ⟨t, ht, hpen⟩, hnumber, hlast]
  | edgeWeightsFactor | edgeWeightsCyclesFactor =>
    have hgraph := h.weights ⟨t, ht, by rw [hpen]; rfl⟩
    have hwalked : p.walked = p'.walked := by
      funext v q x r edge
      unfold walked
      rw [hnumber]
    simp only [hgraph, hstep, hwalked]
  | invalidTraversalSelf =>
    have hloop : (NodeView.of p.layout.graph v).hasSelfLoop =
        (NodeView.of p'.layout.graph v).hasSelfLoop := h.shape.hasSelfLoop_eq hv
    simp only [hnumber, hlast, hloop]
  | _ =>
    simp only [NodeView.of, hnumber, hlast, hstep, h.shape.nodeCount, h.shape.neighbors_eq v,
      h.shape.nonNeighbors_eq v]

/-- Every node writes the same. -/
theorem written_eq (h : p.Alike p') (hp : p.Sound) (hp' : p'.Sound)
    (hv : v < p.layout.graph.nodeCount) : p.written v = p'.written v := by
  have hpositions : p.layout.positions = p'.layout.positions := by
    rw [← hp.positions, ← hp'.positions, h.numbering]
  rw [written, written, ← hpositions, ← h.terms]
  refine List.flatMap_congr fun q _ => List.flatMap_congr fun t ht => ?_
  rw [share, share, h.contribution_eq hv q ht]

/-- Plans that are alike fill the same nodes. -/
theorem nodeRows_eq (h : p.Alike p') : p.nodeRows = p'.nodeRows := by
  rw [nodeRows, nodeRows, h.dimension, h.numbering]

/-- Plans that are alike give the same matrix. -/
theorem fill_eq (h : p.Alike p') (hp : p.Sound) (hp' : p'.Sound) : p.fill = p'.fill := by
  obtain ⟨m, hm, hacc⟩ := exists_fill hp
  obtain ⟨m', hm', hacc'⟩ := exists_fill hp'
  have hwritten : (p.nodeRows.flatMap fun v => p.written v.node) =
      p'.nodeRows.flatMap fun v => p'.written v.node := by
    rw [← h.nodeRows_eq]
    exact List.flatMap_congr fun v hv => h.written_eq hp hp' ((mem_nodeRows hp).1 hv).1
  rw [hm, hm']
  rw [← h.dimension, ← hwritten] at hacc'
  exact congrArg Except.ok (hacc.unique hacc' fun _ _ _ => rfl)

/-- They give the same matrix side by side. -/
theorem fillParallel_eq (h : p.Alike p') (hp : p.Sound) (hp' : p'.Sound) :
    p.fillParallel = p'.fillParallel := by
  rw [fillParallel_eq_fill hp, fillParallel_eq_fill hp', h.fill_eq hp hp']

end Alike

end Plan

/-- Degrees are totals over lists of nodes, so weights do not count. -/
theorem Graph.SameShape.degrees_eq {g g' : Graph K} (h : g.SameShape g') :
    Degrees.of g = Degrees.of g' := by
  unfold Degrees.of
  congr 2
  · exact h.map_nodes_eq fun v _ => congrArg List.length (h.neighbors_eq v .any)
  · exact h.map_nodes_eq fun v _ => congrArg List.length (h.neighbors_eq v .outgoing)
  · exact h.map_nodes_eq fun v _ => congrArg List.length (h.nonNeighbors_eq v .any)
  · exact h.map_nodes_eq fun v _ => congrArg List.length (h.nonNeighbors_eq v .outgoing)

/-- They take the same number of steps. -/
theorem Plan.Alike.work_eq {p p' : Plan K} (h : p.Alike p') : p.work = p'.work := by
  simp only [work, h.shape.degrees_eq, h.shape.nodeCount, h.numbering, h.terms]

/-! ## Inputs that read the same -/

namespace Layout

/-- A fixed node is the same on both sides if its score is enabled; if not, it is absent or in
range on either side. -/
def NodesAgree (n : Nat) (scored : Bool) (node node' : Option Nat) : Prop :=
  if scored = true then node = node'
  else (∀ v, node = some v → v < n) ∧ ∀ v, node' = some v → v < n

/-- The inputs agree on everything that is read: positions, the edges without their weights,
the families that are compiled with their weights and flags, and what these families read. -/
structure AgreesWith (l : Layout K) (c : Constraints K) (l' : Layout K) (c' : Constraints K) :
    Prop where
  positions : l.positions = l'.positions
  shape : l.graph.SameShape l'.graph
  finite : ∀ f w, c.weights f = some w → Coefficient.isFinite w = true
  finite' : ∀ f w, c'.weights f = some w → Coefficient.isFinite w = true
  weight : ∀ f, l.leavesOut f = false → c.weight f = c'.weight f
  flag : ∀ f, l.leavesOut f = false → c.isEnabled f = true → c.doubleCounts f = c'.doubleCounts f
  start : NodesAgree l.graph.nodeCount (c.isEnabled .startNodeScore) l.startNode l'.startNode
  terminal :
    NodesAgree l.graph.nodeCount (c.isEnabled .terminalNodeScore) l.terminalNode l'.terminalNode
  edges : l.ReadsEdgeWeights c → ∀ e, e ∈ l.graph.edges ↔ e ∈ l'.graph.edges

/-- Weights that all are finite pass their check. -/
theorem checkWeights_of_finite {c : Constraints K}
    (h : ∀ f w, c.weights f = some w → Coefficient.isFinite w = true) :
    checkWeights c = .ok () := by
  rw [checkWeights, Constraints.firstNonFinite?_eq_none_iff.2 h]

namespace NodesAgree

variable {n : Nat} {scored : Bool} {node node' : Option Nat}

theorem eq_of_scored (h : NodesAgree n scored node node') (hscored : scored = true) :
    node = node' := by
  rwa [NodesAgree, if_pos hscored] at h

/-- A missing node counts under its score only. -/
theorem isNone_iff (h : NodesAgree n scored node node') :
    (scored = true ∧ node.isNone = true) ↔ (scored = true ∧ node'.isNone = true) :=
  and_congr_right fun hscored => by rw [h.eq_of_scored hscored]

/-- A node in range passes its check, and so does none. -/
theorem checkNode?_eq {l l' : Layout K} (h : NodesAgree l.graph.nodeCount scored node node')
    (hcount : l.graph.nodeCount = l'.graph.nodeCount) : l.checkNode? node = l'.checkNode? node' := by
  have hsame : ∀ node, l.checkNode? node = l'.checkNode? node := by
    intro node
    cases node with
    | none => rfl
    | some v => simp only [checkNode?, Graph.checkNode, hcount]
  have hok : ∀ node, (∀ v, node = some v → v < l.graph.nodeCount) → l.checkNode? node = .ok () := by
    intro node hnode
    cases node with
    | none => rfl
    | some v => exact if_pos (hnode v rfl)
  rw [← hsame]
  by_cases hscored : scored = true
  · rw [h.eq_of_scored hscored]
  · rw [NodesAgree, if_neg hscored] at h
    rw [hok node h.1, hok node' h.2]

end NodesAgree

namespace AgreesWith

variable {l l' : Layout K} {c c' : Constraints K}

/-- Both compile the same families. -/
theorem terms_eq (h : l.AgreesWith c l' c') : l.terms c = l'.terms c' := by
  have hout : ∀ f, l.leavesOut f = l'.leavesOut f := by
    intro f
    rw [leavesOut, leavesOut, h.positions]
  rw [terms_eq_filterMap, terms_eq_filterMap]
  refine List.filterMap_congr fun f _ => ?_
  rw [← hout]
  cases hf : l.leavesOut f with
  | true => rfl
  | false =>
    rw [← h.weight f hf]
    cases hw : c.weight f with
    | none => rfl
    | some w =>
      rw [h.flag f hf (by rw [Constraints.isEnabled, hw]; rfl)]

/-- A family that is not left out is enabled in both configurations or in neither. -/
theorem isEnabled_eq (h : l.AgreesWith c l' c') {f : Penalty} (hf : l.leavesOut f = false) :
    c.isEnabled f = c'.isEnabled f := by
  rw [Constraints.isEnabled, Constraints.isEnabled, h.weight f hf]

/-- All checks but the one on edge weights have the same answer. -/
theorem accept_eq (h : l.AgreesWith c l' c') : l.accept c = l'.accept c' := by
  have hstart : c.isEnabled .startNodeScore = c'.isEnabled .startNodeScore := h.isEnabled_eq rfl
  have hterminal : c.isEnabled .terminalNodeScore = c'.isEnabled .terminalNodeScore :=
    h.isEnabled_eq rfl
  have hscores : l.checkScores c = l'.checkScores c' := by
    unfold checkScores
    rw [← hstart, ← hterminal]
    exact if_congr h.start.isNone_iff rfl (if_congr h.terminal.isNone_iff rfl rfl)
  unfold accept
  rw [checkWeights_of_finite h.finite, checkWeights_of_finite h.finite', ← h.positions,
    ← h.shape.nodeCount, h.start.checkNode?_eq h.shape.nodeCount,
    h.terminal.checkNode?_eq h.shape.nodeCount, hscores]

/-- If a family of one side reads edge weights, the graphs are the same. -/
theorem graph_eq (h : l.AgreesWith c l' c') (hpos : 0 < l.positions)
    (hreads : ∃ t ∈ l.terms c, t.penalty.readsEdgeWeights = true) : l.graph = l'.graph := by
  have htwo : l.positions ≠ 1 ↔ 2 ≤ l.positions := by omega
  have hany := any_terms_iff.1 (List.any_eq_true.2 hreads)
  rw [htwo] at hany
  exact h.shape.eq_of_mem_iff (h.edges hany)

/-- Both ask for the same edge weights, and miss the same. -/
theorem checkEdgeWeights_eq (h : l.AgreesWith c l' c') (hpos : 0 < l.positions) :
    l.checkEdgeWeights (l.terms c) = l'.checkEdgeWeights (l'.terms c') := by
  rw [checkEdgeWeights, checkEdgeWeights, ← h.terms_eq]
  by_cases hreads : ((l.terms c).any fun t => t.penalty.readsEdgeWeights) = true
  · rw [h.graph_eq hpos (List.any_eq_true.1 hreads)]
  · rw [if_neg hreads, if_neg hreads]

/-- Both inputs are refused for the same reason, or both have plans that read the same. -/
theorem plan_alike (h : l.AgreesWith c l' c') :
    (∃ e, l.plan c = .error e ∧ l'.plan c' = .error e) ∨
      ∃ p p', l.plan c = .ok p ∧ l'.plan c' = .ok p' ∧ p.Alike p' := by
  unfold plan
  rw [← h.accept_eq]
  cases haccept : l.accept c with
  | error e => exact .inl ⟨e, rfl, rfl⟩
  | ok a =>
    obtain ⟨m, n⟩ := a
    have hpos : 0 < l.positions := (accept_eq_ok haccept).1 ▸ m.positive
    simp only [bind, Except.bind, ← h.checkEdgeWeights_eq hpos]
    cases l.checkEdgeWeights (l.terms c) with
    | error e => exact .inl ⟨e, rfl, rfl⟩
    | ok _ =>
      refine .inr ⟨_, _, rfl, rfl, rfl, rfl, h.terms_eq, h.shape, h.graph_eq hpos, ?_, ?_⟩
      · rintro ⟨t, ht, hpen⟩
        exact h.start.eq_of_scored (hpen ▸ isEnabled_of_mem_terms ht)
      · rintro ⟨t, ht, hpen⟩
        exact h.terminal.eq_of_scored (hpen ▸ isEnabled_of_mem_terms ht)

end AgreesWith

end Layout

/-- Inputs that agree on what is read are refused with the same error, or they have the same
matrix, filled in turn or side by side, and the same count of steps. -/
theorem unread_leaves_no_trace {l l' : Layout K} {c c' : Constraints K}
    (h : l.AgreesWith c l' c') :
    l.generate c = l'.generate c' ∧ l.generateParallel c = l'.generateParallel c' ∧
      l.estimateWork c = l'.estimateWork c' := by
  unfold Layout.generate Layout.generateParallel Layout.estimateWork
  rcases h.plan_alike with ⟨e, he, he'⟩ | ⟨p, p', hp, hp', halike⟩
  · rw [he, he']
    exact ⟨rfl, rfl, rfl⟩
  · obtain ⟨-, -, hsound⟩ := plan_eq_ok hp
    obtain ⟨-, -, hsound'⟩ := plan_eq_ok hp'
    rw [hp, hp']
    exact ⟨halike.fill_eq hsound hsound', halike.fillParallel_eq hsound hsound',
      congrArg Except.ok halike.work_eq⟩

/-- The pair of nodes with a loop, without weights. -/
def Graph.barePairWithLoop : Graph Rat :=
  { Graph.pairWithLoop with
    edges := [⟨0, 0, none⟩, ⟨0, 1, none⟩]
    sorted := by decide
    bounded := by decide
    oriented := by decide
    weighted := by simp }

/-- Weights for nodes and edges, and nothing else. -/
def Constraints.tidy : Constraints Rat := Constraints.empty.setAll [(.diagonal, 1), (.edges, 1)]

/-- The same with a weight of zero, a cyclic weight and its flag. -/
def Constraints.cluttered : Constraints Rat :=
  { (Constraints.tidy.set .edgeWeightsFactor 0).set .edgeWeightsCyclesFactor 7 with
    doubleCountCycles := true }

/-- Over a single position the cyclic weight and its flag, the weight of zero, a node without
its score and all edge weights may go. -/
theorem unread_leaves_no_trace_pairWithLoop :
    ∃ m, Layout.generate ⟨.pairWithLoop, 1, some 1, none⟩ .cluttered = .ok m ∧
      Layout.generate ⟨.barePairWithLoop, 1, none, some 0⟩ .tidy = .ok m ∧
      Layout.estimateWork ⟨.pairWithLoop, 1, some 1, none⟩ .cluttered = .ok 5 ∧
      Layout.estimateWork ⟨.barePairWithLoop, 1, none, some 0⟩ .tidy = .ok 5 := by
  have hagree : Layout.AgreesWith ⟨.pairWithLoop, 1, some 1, none⟩ .cluttered
      ⟨.barePairWithLoop, 1, none, some 0⟩ .tidy := by
    refine ⟨rfl, ⟨rfl, rfl, fun v w => ?_⟩, fun _ _ _ => rfl, fun _ _ _ => rfl, fun f hf => ?_,
      fun f hf hset => ?_, ?_, ?_, fun hreads => absurd hreads ?_⟩
    · simp [Graph.pairWithLoop, Graph.barePairWithLoop]
    · revert hf
      cases f <;> decide
    · revert hf hset
      cases f <;> decide
    · rw [Layout.NodesAgree, if_neg (by decide)]
      simp [Graph.pairWithLoop]
    · rw [Layout.NodesAgree, if_neg (by decide)]
      simp [Graph.pairWithLoop]
    · rw [Layout.ReadsEdgeWeights, ← Constraints.isEnabled_iff, ← Constraints.isEnabled_iff]
      decide
  obtain ⟨hsame, -, hwork⟩ := unread_leaves_no_trace hagree
  obtain ⟨m, hm⟩ : ∃ m, Layout.generate ⟨.barePairWithLoop, 1, none, some 0⟩ .tidy = .ok m :=
    ⟨_, rfl⟩
  have hcount : Layout.estimateWork ⟨.barePairWithLoop, 1, none, some 0⟩ .tidy = .ok 5 := by
    decide +kernel
  exact ⟨m, hsame.trans hm, hm, hwork.trans hcount, hcount⟩

end GraphQubo
