import Mathlib.Data.List.Perm.Basic
import GraphQubo.Graph.Query
import GraphQubo.Proofs.Ascending

/-!
# GraphQubo.Proofs.Graph.Walk

What walks along the arcs of a graph list.

A walk from a node meets another one if and only if some arc joins the two in the sense that is
asked for (`mem_walk`).  It can meet a node twice, and in the order of the arcs; sorted and rid of
repetitions the result is the nodes of the graph, in their order, that pass the test.  So it does
not depend on the order in which arcs are stored.

* `neighbors_eq_filter`, `nonNeighbors_eq_filter` — the lists as tests of all nodes;
* `dedup_sort_walk_of_perm` — the same neighbours for every order of the arcs;
* `isSome_findEitherWay?` — a look-up in both directions as the same test.
-/

namespace GraphQubo.Graph

open Ascending

variable {K : Type}

/-- Whether one of the arcs joins two identifiers in the given sense. -/
def joins (directed : Bool) (adjacency : Adjacency) (arcs : List (Edge K)) (a b : Nat) : Bool :=
  match adjacency, directed with
  | .outgoing, true => arcs.any (Edge.leads a b)
  | _, _ => arcs.any fun e => e.leads a b || e.leads b a

/-- In an undirected graph every edge leaves both of its ends. -/
theorem joins_undirected (adjacency : Adjacency) (arcs : List (Edge K)) (a : Nat) :
    joins false adjacency arcs a = joins false .any arcs a := by
  cases adjacency <;> rfl

/-- An arc that joins two identifiers leads from one of them to the other. -/
theorem exists_of_joins {directed : Bool} {adjacency : Adjacency} {arcs : List (Edge K)}
    {a b : Nat} (h : joins directed adjacency arcs a b = true) :
    ∃ e ∈ arcs, e.leads a b = true ∨ e.leads b a = true := by
  unfold joins at h
  split at h
  · obtain ⟨e, he, hleads⟩ := List.any_eq_true.1 h
    exact ⟨e, he, .inl hleads⟩
  · obtain ⟨e, he, hleads⟩ := List.any_eq_true.1 h
    exact ⟨e, he, Bool.or_eq_true _ _ ▸ hleads⟩

/-- The targets that are met are those of the arcs that leave. -/
theorem mem_leaving {arcs : List (Edge K)} {a b : Nat} :
    b ∈ (arcs.filter fun e => e.source == a).map Edge.target ↔
      ∃ e ∈ arcs, e.leads a b = true := by
  simp only [List.mem_map, List.mem_filter, beq_iff_eq, Edge.leads_iff, and_assoc]

/-- The sources that are met are those of the arcs that enter, but for a loop. -/
theorem mem_entering {arcs : List (Edge K)} {a b : Nat} :
    b ∈ (arcs.filter fun e => e.target == a && e.source != a).map Edge.source ↔
      b ≠ a ∧ ∃ e ∈ arcs, e.leads b a = true := by
  simp only [List.mem_map, List.mem_filter, Bool.and_eq_true, beq_iff_eq, bne_iff_ne,
    Edge.leads_iff]
  constructor
  · rintro ⟨e, ⟨he, htarget, hne⟩, rfl⟩
    exact ⟨hne, e, he, rfl, htarget⟩
  · rintro ⟨hne, e, he, rfl, htarget⟩
    exact ⟨e, ⟨he, htarget, hne⟩, rfl⟩

/-- A walk meets the nodes that some arc joins to its start.  The loop that it passes over on the
way in was met on the way out. -/
theorem mem_walk {directed : Bool} {adjacency : Adjacency} {arcs : List (Edge K)} {a b : Nat} :
    b ∈ walk directed adjacency arcs a ↔ joins directed adjacency arcs a b = true := by
  have hboth : b ∈ (arcs.filter fun e => e.source == a).map Edge.target ++
      (arcs.filter fun e => e.target == a && e.source != a).map Edge.source ↔
        (arcs.any fun e => e.leads a b || e.leads b a) = true := by
    rw [List.mem_append, mem_leaving, mem_entering]
    simp only [List.any_eq_true, Bool.or_eq_true, and_or_left, exists_or]
    refine or_congr_right' fun hout => and_iff_right_of_imp ?_
    rintro hin rfl
    exact hout hin
  cases adjacency with
  | any => exact hboth
  | outgoing =>
    cases directed with
    | false => exact hboth
    | true => exact mem_leaving.trans List.any_eq_true.symm

/-- Whether some arc joins two identifiers does not depend on the order of the arcs. -/
theorem joins_of_perm {arcs arcs' : List (Edge K)} (h : arcs.Perm arcs') (directed : Bool)
    (adjacency : Adjacency) (a b : Nat) :
    joins directed adjacency arcs a b = joins directed adjacency arcs' a b := by
  unfold joins
  split <;> rw [h.any_eq]

/-- So what is listed does not depend on it either. -/
theorem dedup_sort_walk_of_perm {arcs arcs' : List (Edge K)} (h : arcs.Perm arcs')
    (directed : Bool) (adjacency : Adjacency) (a : Nat) :
    dedup (sort (walk directed adjacency arcs a)) =
      dedup (sort (walk directed adjacency arcs' a)) := by
  refine eq_of_mem_iff (pairwise_dedup_sort _) (pairwise_dedup_sort _) fun b => ?_
  rw [mem_dedup_sort, mem_dedup_sort, mem_walk, mem_walk, joins_of_perm h]

/-- A look-up in both directions finds an arc if and only if one joins the two. -/
theorem isSome_findEitherWay? (arcs : List (Edge K)) (directed : Bool) (a b : Nat) :
    (findEitherWay? arcs a b).isSome = joins directed .any arcs a b := by
  rw [Bool.eq_iff_iff, findEitherWay?, Option.isSome_or, Bool.or_eq_true, List.find?_isSome,
    List.find?_isSome]
  simp only [joins, List.any_eq_true, Bool.or_eq_true, and_or_left, exists_or]

variable [Coefficient K] (g : Graph K)

theorem ascending_nodes : g.nodes.Pairwise (· < ·) := List.pairwise_lt_range

/-- Arcs join nodes of the graph only. -/
theorem mem_nodes_of_joins {directed : Bool} {adjacency : Adjacency} {a b : Nat}
    (h : joins directed adjacency g.edges a b = true) : b ∈ g.nodes := by
  obtain ⟨e, he, hends⟩ := exists_of_joins h
  have hbounded := g.bounded e he
  rw [nodes, List.mem_range]
  rcases hends with hends | hends
  · exact (Edge.leads_iff.1 hends).2 ▸ hbounded.2
  · exact (Edge.leads_iff.1 hends).1 ▸ hbounded.1

theorem ascending_neighbors (node : Nat) (adjacency : Adjacency) :
    (g.neighbors node adjacency).Pairwise (· < ·) := pairwise_dedup_sort _

/-- The neighbours are the nodes that pass the test, in ascending order. -/
theorem neighbors_eq_filter (node : Nat) (adjacency : Adjacency) :
    g.neighbors node adjacency =
      g.nodes.filter (joins g.directed adjacency g.edges (identifier node)) := by
  refine eq_of_mem_iff (g.ascending_neighbors node adjacency) (g.ascending_nodes.filter _)
    fun b => ?_
  rw [neighbors, mem_dedup_sort, mem_walk, List.mem_filter, iff_and_self]
  exact g.mem_nodes_of_joins

/-- The others are those that do not pass it. -/
theorem nonNeighbors_eq_filter (node : Nat) (adjacency : Adjacency) :
    g.nonNeighbors node adjacency = g.nodes.filter fun other =>
      other != node && !joins g.directed adjacency g.edges (identifier node) other := by
  refine List.filter_congr fun other hother => ?_
  congr 2
  rw [Bool.eq_iff_iff, search_iff ((g.ascending_neighbors node adjacency).imp Nat.le_of_lt),
    neighbors_eq_filter, List.mem_filter, and_iff_right hother]

end GraphQubo.Graph
