import Mathlib.Data.List.Basic
import GraphQubo.Variable
import GraphQubo.Proofs.Graph.Arc

/-!
# GraphQubo.Proofs.Graph.OutOfRange

What the queries answer for numbers that are no nodes of the graph.

Edges are looked up by identifiers, the low 32 bits of a number.  A number below `2^32` that is no
node is the identifier of no node either, and no query finds an edge at it.  A larger number has
the identifier of some smaller one.  Where that is a node with an edge, the queries answer for the
number as if it were the node.

* `Graph.Silent` — no query finds an edge at a number;
* `Graph.silent_iff_untouched` — this is so if and only if the identifier has no edge;
* `Graph.not_silent_oneArc` — a number that is no node and has a neighbour;
* `outOfRange_answers` — the answers for every number that is no node.
-/

namespace GraphQubo

variable {K : Type}

/-- Whether the edge has the node as an end. -/
def Edge.touches (node : Nat) (e : Edge K) : Bool :=
  e.source == node || e.target == node

/-- An edge has the ends that it leads between. -/
theorem Edge.leads_touches {a b : Nat} {e : Edge K} (h : e.leads a b = true) :
    e.touches a = true ∧ e.touches b = true := by
  obtain ⟨rfl, rfl⟩ := Edge.leads_iff.1 h
  simp [Edge.touches]

/-- Both numbers are among the ends that are looked up. -/
theorem orient_cases (directed : Bool) (a b : Nat) :
    orient directed a b = (a, b) ∨ orient directed a b = (b, a) := by
  unfold orient
  cases directed with
  | true => exact .inl rfl
  | false =>
    rcases Nat.le_total a b with h | h
    · exact .inl (by simp [h])
    · exact .inr (by simp [h])

/-- Cutting a number twice is cutting it once. -/
theorem identifier_identifier (node : Nat) : identifier (identifier node) = identifier node :=
  Nat.mod_mod _ _

variable [Coefficient K]

namespace Graph

/-- No query finds an edge at the number. -/
structure Silent (g : Graph K) (node : Nat) : Prop where
  neighbors : ∀ adjacency, g.neighbors node adjacency = []
  weightedSuccessors : g.weightedSuccessors node = []
  degree : g.degree node = 0
  hasSelfLoop : g.hasSelfLoop node = false
  hasEdge : ∀ other, g.hasEdge node other = false ∧ g.hasEdge other node = false
  isAdjacent : ∀ other adjacency,
    g.isAdjacent node other adjacency = false ∧ g.isAdjacent other node adjacency = false
  nonNeighbors : ∀ adjacency, g.nonNeighbors node adjacency = g.nodes

/-- No edge is at the identifier of the number. -/
def Untouched (g : Graph K) (node : Nat) : Prop :=
  ∀ e ∈ g.edges, e.touches (identifier node) = false

variable {g : Graph K} {node : Nat}

/-! ## Numbers whose identifier has no edge -/

namespace Untouched

/-- No edge leads to or from a node that is untouched. -/
theorem not_leads (h : g.Untouched node) {a b : Nat} {e : Edge K} (he : e ∈ g.edges)
    (hnode : a = identifier node ∨ b = identifier node) : e.leads a b = false := by
  refine Bool.eq_false_iff.2 fun hleads => ?_
  obtain ⟨ha, hb⟩ := Edge.leads_touches hleads
  rcases hnode with rfl | rfl
  · exact Bool.false_ne_true ((h e he).symm.trans ha)
  · exact Bool.false_ne_true ((h e he).symm.trans hb)

/-- No edge joins it to anything. -/
theorem joins_eq_false (h : g.Untouched node) {a b : Nat}
    (hnode : a = identifier node ∨ b = identifier node) (adjacency : Adjacency) :
    joins g.directed adjacency g.edges a b = false := by
  refine Bool.eq_false_iff.2 fun hjoins => ?_
  obtain ⟨e, he, hleads | hleads⟩ := exists_of_joins hjoins
  · exact Bool.false_ne_true ((h.not_leads he hnode).symm.trans hleads)
  · exact Bool.false_ne_true ((h.not_leads he hnode.symm).symm.trans hleads)

/-- No edge is found at such a node. -/
theorem hasEdge_eq_false (h : g.Untouched node) {a b : Nat} (hnode : a = node ∨ b = node) :
    g.hasEdge a b = false := by
  rw [hasEdge, Option.isSome_eq_false_iff, Option.isNone_iff_eq_none]
  refine List.find?_eq_none.2 fun e he => Bool.eq_false_iff.1 (h.not_leads he ?_)
  rcases orient_cases g.directed a b with hends | hends
  · rw [hends]
    exact hnode.imp (congrArg identifier) (congrArg identifier)
  · rw [hends]
    exact hnode.symm.imp (congrArg identifier) (congrArg identifier)

/-- Nothing is adjacent to it. -/
theorem isAdjacent_eq_false (h : g.Untouched node) {a b : Nat} (hnode : a = node ∨ b = node) :
    ∀ adjacency, g.isAdjacent a b adjacency = false
  | .outgoing => h.hasEdge_eq_false hnode
  | .any => by
    rw [isAdjacent, isSome_findEitherWay? _ g.directed]
    exact h.joins_eq_false (hnode.imp (congrArg identifier) (congrArg identifier)) .any

/-- It has no neighbours. -/
theorem neighbors_eq_nil (h : g.Untouched node) (adjacency : Adjacency) :
    g.neighbors node adjacency = [] := by
  rw [neighbors_eq_filter]
  exact List.filter_eq_nil_iff.2 fun w _ => Bool.eq_false_iff.1 (h.joins_eq_false (.inl rfl) _)

/-- All nodes are listed as none of its neighbours. -/
theorem nonNeighbors_eq (h : g.Untouched node) (hout : g.nodeCount ≤ node)
    (adjacency : Adjacency) : g.nonNeighbors node adjacency = g.nodes := by
  rw [nonNeighbors_eq_filter]
  refine List.filter_eq_self.2 fun w hw => ?_
  have hne : w ≠ node := Nat.ne_of_lt (Nat.lt_of_lt_of_le (List.mem_range.1 hw) hout)
  rw [h.joins_eq_false (.inl rfl), bne_iff_ne.2 hne]
  rfl

/-- An untouched node outside the graph is silent in every query. -/
theorem silent (h : g.Untouched node) (hout : g.nodeCount ≤ node) : g.Silent node where
  neighbors := h.neighbors_eq_nil
  weightedSuccessors := by
    rw [Graph.weightedSuccessors, h.neighbors_eq_nil]
    rfl
  degree := by
    rw [Graph.degree, h.neighbors_eq_nil]
    rfl
  hasSelfLoop := h.hasEdge_eq_false (.inl rfl)
  hasEdge _ := ⟨h.hasEdge_eq_false (.inl rfl), h.hasEdge_eq_false (.inr rfl)⟩
  isAdjacent _ adjacency :=
    ⟨h.isAdjacent_eq_false (.inl rfl) adjacency, h.isAdjacent_eq_false (.inr rfl) adjacency⟩
  nonNeighbors := h.nonNeighbors_eq hout

end Untouched

/-! ## Numbers that share an identifier -/

/-- Neighbours are those of the identifier. -/
theorem neighbors_identifier (g : Graph K) (node : Nat) (adjacency : Adjacency) :
    g.neighbors (identifier node) adjacency = g.neighbors node adjacency := by
  rw [neighbors, identifier_identifier, neighbors]

/-- A number without neighbours has the identifier of a node without edges, or of none. -/
theorem untouched_of_neighbors_eq_nil (h : g.neighbors node .any = []) : g.Untouched node := by
  intro e he
  refine Bool.eq_false_iff.2 fun htouches => ?_
  have hbounded := g.bounded e he
  have hends : e.source = identifier node ∨ e.target = identifier node := by
    simpa [Edge.touches] using htouches
  have hlt : identifier node < g.nodeCount := by omega
  rw [← neighbors_identifier] at h
  have hnone : ∀ w, ¬(w < g.nodeCount ∧ g.Joined (identifier node) w) := by
    intro w hw
    rw [← mem_neighbors_any hlt, h] at hw
    exact List.not_mem_nil hw
  rcases hends with hsource | htarget
  · refine hnone e.target ⟨hbounded.2, .inl ⟨e, he, ?_⟩⟩
    exact (walks_iff g).2 (.inl ⟨hsource, rfl⟩)
  · refine hnone e.source ⟨hbounded.1, .inr ⟨e, he, ?_⟩⟩
    exact (walks_iff g).2 (.inl ⟨rfl, htarget⟩)

/-- Outside the graph a node is silent if and only if it is untouched. -/
theorem silent_iff_untouched (hout : g.nodeCount ≤ node) : g.Silent node ↔ g.Untouched node :=
  ⟨fun h => untouched_of_neighbors_eq_nil (h.neighbors .any), fun h => h.silent hout⟩

/-- A node whose low 32 bits are no node of the graph is untouched. -/
theorem untouched_of_le_identifier (h : g.nodeCount ≤ identifier node) : g.Untouched node := by
  intro e he
  have hbounded := g.bounded e he
  have hsource : e.source ≠ identifier node := by omega
  have htarget : e.target ≠ identifier node := by omega
  simp [Edge.touches, hsource, htarget]

theorem two_lt_nodeLimit : 2 < nodeLimit := by decide

/-- Two nodes and an arc from the first to the second. -/
def oneArc : Graph Float where
  directed := true
  nodeCount := 2
  edges := [⟨0, 1, none⟩]
  nodeCount_lt := two_lt_nodeLimit
  sorted := by decide
  bounded := by decide
  oriented := by decide
  weighted := by simp

/-- The number `2^32` is no node, and has the identifier of the first one.  Numbers below `2^64` can
be asked for. -/
theorem not_silent_oneArc :
    (oneArc.nodeCount ≤ 4294967296 ∧ 4294967296 < wordLimit) ∧ ¬oneArc.Silent 4294967296 := by
  refine ⟨by decide, fun h => ?_⟩
  have huntouched := (silent_iff_untouched (by decide)).1 h
  exact absurd (huntouched ⟨0, 1, none⟩ List.mem_cons_self) (by decide)

end Graph

/-- What the queries answer for a number that is no node of the graph.

No query finds an edge at it if and only if its identifier has none, and so for every number below
`2^32`.  Where the identifier has an edge the number has the neighbours, the degree and the
adjacent nodes of the identifier.  The weight of an edge at the number is refused either way. -/
theorem outOfRange_answers {g : Graph K} {node : Nat} (hout : g.nodeCount ≤ node) :
    (g.Silent node ↔ ∀ e ∈ g.edges, e.source ≠ identifier node ∧ e.target ≠ identifier node) ∧
    (node < nodeLimit → g.Silent node) ∧
    (∀ adjacency, g.neighbors node adjacency = g.neighbors (identifier node) adjacency) ∧
    g.degree node = g.degree (identifier node) ∧
    (∀ other, g.isAdjacent node other .any = g.isAdjacent (identifier node) other .any ∧
      g.isAdjacent other node .any = g.isAdjacent other (identifier node) .any) ∧
    ∀ other, g.edgeWeight node other = .error (.nodeOutOfRange node g.nodeCount) := by
  have hneighbors := fun adjacency => (g.neighbors_identifier node adjacency).symm
  refine ⟨?_, fun hlt => ?_, hneighbors, congrArg List.length (hneighbors .any), fun other => ?_,
    fun other => ?_⟩
  · rw [Graph.silent_iff_untouched hout]
    simp [Graph.Untouched, Edge.touches]
  · have hsame : identifier node = node := Nat.mod_eq_of_lt hlt
    exact (Graph.untouched_of_le_identifier (hsame.symm ▸ hout)).silent hout
  · simp only [Graph.isAdjacent, identifier_identifier, and_self]
  · rw [Graph.edgeWeight, Graph.checkNode, if_neg (Nat.not_lt.2 hout)]
    rfl

/-- Next to the two nodes of one arc, the third number has no edges and `2^32` has the neighbour of
the first node. -/
theorem outOfRange_answers_oneArc :
    Graph.oneArc.Silent 2 ∧ Graph.oneArc.neighbors 4294967296 .any = [1] := by
  refine ⟨(outOfRange_answers (by decide)).2.1 (by decide), ?_⟩
  rw [(outOfRange_answers (by decide)).2.2.1 .any]
  rfl

end GraphQubo
