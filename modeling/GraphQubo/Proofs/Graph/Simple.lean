import GraphQubo.Proofs.Graph.Building
import GraphQubo.Proofs.Matrix.PairSum

/-!
# GraphQubo.Proofs.Graph.Simple

Sums over the edges of a graph, and over the neighbours of its nodes.

Where two nodes have one edge at most, a sum over the edges is a sum over the pairs of joined
nodes, taken in ascending order, and one over the loops.  The degree of a node counts the pairs
that it is in; a loop is one edge and counts once, though both of its ends are at the node.

* `eq_of_ends` — two edges with the same ends are one;
* `sum_joined_eq`, `sum_degree_mul` — sums over the neighbours of all nodes;
* `IsSingle.sum_edges_eq` — sums over the edges;
* `IsSimple.sum_edges_eq`, `IsSimple.sum_neighbors_eq` — the same where there is no loop.
-/

namespace GraphQubo.Graph

open Finset

variable {K : Type} [Coefficient K]

/-- No edge is a loop, and of two nodes in a directed graph at most one has an arc to the
other. -/
structure IsSimple (g : Graph K) : Prop where
  loopless : ∀ e ∈ g.edges, e.source ≠ e.target
  oneArc : g.directed = true →
    ∀ e ∈ g.edges, ∀ f ∈ g.edges, e.source = f.target → e.target ≠ f.source

instance (g : Graph K) : Decidable g.IsSimple :=
  decidable_of_iff ((∀ e ∈ g.edges, e.source ≠ e.target) ∧ (g.directed = true →
    ∀ e ∈ g.edges, ∀ f ∈ g.edges, e.source = f.target → e.target ≠ f.source))
    ⟨fun h => ⟨h.1, h.2⟩, fun h => ⟨h.1, h.2⟩⟩

/-! ## Edges by their ends -/

/-- No edge is stored twice. -/
theorem nodup_edges (g : Graph K) : g.edges.Nodup := by
  refine g.sorted.imp fun h heq => ?_
  subst heq
  unfold Edge.Precedes at h
  omega

/-- Two stored edges with the same ends are the same. -/
theorem eq_of_ends {g : Graph K} {e f : Edge K} (he : e ∈ g.edges) (hf : f ∈ g.edges)
    (hsource : e.source = f.source) (htarget : e.target = f.target) : e = f :=
  Edge.apart_of_pairwise g.sorted e he f hf hsource htarget

/-- Two nodes are joined if an edge has them as its ends. -/
theorem joined_iff_exists {g : Graph K} {v w : Nat} :
    g.Joined v w ↔ ∃ e ∈ g.edges,
      (e.source = v ∧ e.target = w) ∨ (e.source = w ∧ e.target = v) := by
  rw [joined_iff_any, List.any_eq_true]
  simp only [Bool.or_eq_true, Edge.leads_iff]

/-! ## Sums over joined pairs -/

/-- A sum over the neighbours of all nodes meets a loop once and every pair twice. -/
theorem sum_joined_eq (g : Graph K) (f : Nat → Nat → Rat) :
    ∑ v ∈ range g.nodeCount, ∑ w ∈ range g.nodeCount, (if g.Joined v w then f v w else 0) =
      ∑ v ∈ range g.nodeCount, (if g.Joined v v then f v v else 0) +
        ∑ v ∈ range g.nodeCount, ∑ w ∈ range g.nodeCount,
          if v < w then if g.Joined v w then f v w + f w v else 0 else 0 := by
  have hboth : ∀ v w, (if g.Joined v w then f v w else 0) + (if g.Joined w v then f w v else 0) =
      if g.Joined v w then f v w + f w v else 0 := by
    intro v w
    simp only [joined_comm (v := w), ite_add_zero]
  rw [sum_sum_eq_lt]
  simp only [hboth]

/-- A sum over the neighbours, as a sum over all nodes. -/
theorem sum_map_neighbors {g : Graph K} {v : Nat} (hv : v < g.nodeCount) (f : Nat → Rat) :
    ((g.neighbors v .any).map f).sum =
      ∑ w ∈ range g.nodeCount, if g.Joined v w then f w else 0 := by
  have hset : (g.neighbors v .any).toFinset = (range g.nodeCount).filter (g.Joined v) := by
    ext w
    rw [List.mem_toFinset, mem_neighbors_any hv, mem_filter, mem_range]
  rw [← List.sum_toFinset _ (g.nodup_neighbors v .any), hset, sum_filter]

/-- The degree of a node counts the nodes joined to it. -/
theorem cast_degree {g : Graph K} {v : Nat} (hv : v < g.nodeCount) :
    (g.degree v : Rat) = ∑ w ∈ range g.nodeCount, if g.Joined v w then 1 else 0 := by
  rw [← sum_map_neighbors hv]
  simp [degree]

/-- Summed over the nodes, degrees count a loop once and every pair for both of its nodes. -/
theorem sum_degree_mul (g : Graph K) (f : Nat → Rat) :
    ∑ v ∈ range g.nodeCount, (g.degree v : Rat) * f v =
      ∑ v ∈ range g.nodeCount, (if g.Joined v v then f v else 0) +
        ∑ v ∈ range g.nodeCount, ∑ w ∈ range g.nodeCount,
          if v < w then if g.Joined v w then f v + f w else 0 else 0 := by
  rw [← g.sum_joined_eq fun v _ => f v]
  refine sum_congr rfl fun v hv => ?_
  rw [cast_degree (mem_range.1 hv), sum_mul]
  simp only [ite_mul, one_mul, zero_mul]

/-! ## Sums over edges -/

/-- Of two nodes, or of a node and itself, at most one edge joins them. -/
def IsSingle (g : Graph K) : Prop :=
  ∀ e ∈ g.edges, ∀ f ∈ g.edges, e.source = f.target → e.target = f.source → e = f

/-- An undirected edge is stored one way only. -/
theorem isSingle_of_undirected {g : Graph K} (hd : g.directed = false) : g.IsSingle := by
  intro e he f hf hsource htarget
  have hle := g.oriented hd e he
  have hle' := g.oriented hd f hf
  exact eq_of_ends he hf (by omega) (by omega)

/-- A sum over the edges, of values that do not depend on the direction, is one over the
joined pairs in ascending order. -/
theorem IsSingle.sum_edges_eq {g : Graph K} (h : g.IsSingle) {f : Nat → Nat → Rat}
    (hsymm : ∀ v w, f v w = f w v) :
    (g.edges.map fun e => f e.source e.target).sum =
      ∑ v ∈ range g.nodeCount, (if g.Joined v v then f v v else 0) +
        ∑ v ∈ range g.nodeCount, ∑ w ∈ range g.nodeCount,
          if v < w then if g.Joined v w then f v w else 0 else 0 := by
  let pairs := (range g.nodeCount ×ˢ range g.nodeCount).filter fun x =>
    x.1 ≤ x.2 ∧ g.Joined x.1 x.2
  have hpairs : ∑ v ∈ range g.nodeCount, ∑ w ∈ range g.nodeCount,
      (if v ≤ w then if g.Joined v w then f v w else 0 else 0) = ∑ x ∈ pairs, f x.1 x.2 := by
    simp only [pairs, sum_filter, sum_product, ite_and]
  have hle := sum_sum_le_eq g.nodeCount fun v w => if g.Joined v w then f v w else 0
  rw [← hle, hpairs]
  change ∑ e ∈ (⟨g.edges, g.nodup_edges⟩ : Finset (Edge K)), f e.source e.target = _
  refine sum_bij (fun e _ => (min e.source e.target, max e.source e.target)) (fun e he => ?_)
    (fun e he e' he' hends => ?_) (fun x hx => ?_) fun e _ => ?_
  · have hb := g.bounded e he
    simp only [pairs, mem_filter, mem_product, mem_range]
    refine ⟨by omega, by omega, joined_iff_exists.2 ⟨e, he, ?_⟩⟩
    omega
  · obtain ⟨hmin, hmax⟩ := Prod.mk.inj hends
    by_cases hsame : e.source = e'.source
    · exact eq_of_ends he he' hsame (by omega)
    · exact h e he e' he' (by omega) (by omega)
  · simp only [pairs, mem_filter, mem_product, mem_range] at hx
    obtain ⟨e, he, hends⟩ := joined_iff_exists.1 hx.2.2
    refine ⟨e, he, Prod.ext ?_ ?_⟩ <;> simp only [] <;> omega
  · rcases Nat.le_total e.source e.target with hle | hle
    · rw [Nat.min_eq_left hle, Nat.max_eq_right hle]
    · rw [Nat.min_eq_right hle, Nat.max_eq_left hle, hsymm]

/-! ## Simple graphs -/

namespace IsSimple

variable {g : Graph K}

/-- No edge leads back along another one. -/
theorem not_back (h : g.IsSimple) {e f : Edge K} (he : e ∈ g.edges) (hf : f ∈ g.edges) :
    ¬(e.source = f.target ∧ e.target = f.source) := by
  rintro ⟨hsource, htarget⟩
  cases hd : g.directed with
  | true => exact h.oneArc hd e he f hf hsource htarget
  | false =>
    have hloop := h.loopless e he
    have hle := g.oriented hd e he
    have hle' := g.oriented hd f hf
    omega

/-- A simple graph has no loop. -/
theorem not_joined_self (h : g.IsSimple) (v : Nat) : ¬g.Joined v v := by
  rintro hv
  obtain ⟨e, he, hends⟩ := joined_iff_exists.1 hv
  exact h.loopless e he (by omega)

/-- No edge leads back along another one, so there is one edge each. -/
theorem isSingle (h : g.IsSimple) : g.IsSingle := fun _ he _ hf hsource htarget =>
  absurd ⟨hsource, htarget⟩ (h.not_back he hf)

theorem sum_loops_eq_zero (h : g.IsSimple) (f : Nat → Rat) :
    ∑ v ∈ range g.nodeCount, (if g.Joined v v then f v else 0) = 0 :=
  sum_eq_zero fun v _ => if_neg (h.not_joined_self v)

/-- A sum over the edges, of values that do not depend on the direction. -/
theorem sum_edges_eq (h : g.IsSimple) {f : Nat → Nat → Rat} (hsymm : ∀ v w, f v w = f w v) :
    (g.edges.map fun e => f e.source e.target).sum =
      ∑ v ∈ range g.nodeCount, ∑ w ∈ range g.nodeCount,
        if v < w then if g.Joined v w then f v w else 0 else 0 := by
  rw [h.isSingle.sum_edges_eq hsymm, h.sum_loops_eq_zero fun v => f v v, zero_add]

/-- A sum over the neighbours of all nodes meets every pair twice. -/
theorem sum_neighbors_eq (h : g.IsSimple) (f : Nat → Nat → Rat) :
    ∑ v ∈ range g.nodeCount, ∑ w ∈ range g.nodeCount, (if g.Joined v w then f v w else 0) =
      ∑ v ∈ range g.nodeCount, ∑ w ∈ range g.nodeCount,
        if v < w then if g.Joined v w then f v w + f w v else 0 else 0 := by
  rw [sum_joined_eq, h.sum_loops_eq_zero fun v => f v v, zero_add]

/-- Summed over the nodes, degrees count every pair for both of its nodes. -/
theorem sum_degree_mul (h : g.IsSimple) (f : Nat → Rat) :
    ∑ v ∈ range g.nodeCount, (g.degree v : Rat) * f v =
      ∑ v ∈ range g.nodeCount, ∑ w ∈ range g.nodeCount,
        if v < w then if g.Joined v w then f v + f w else 0 else 0 := by
  rw [g.sum_degree_mul, h.sum_loops_eq_zero f, zero_add]

end IsSimple

end GraphQubo.Graph
