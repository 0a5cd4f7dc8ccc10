import GraphQubo.Proofs.Graph.Arc

/-!
# GraphQubo.Proofs.Graph.Reversed

The graph with every arc reversed.

An undirected edge is walked both ways already, so an undirected graph is its own
reverse.  The edges of a directed one are led the other way and put in order again; as no
two of them have the same ends, none is lost.

* `arc_reversed_iff`, `arcWeight?_reversed` — every arc, with its weight, leads back;
* `exists_mem_of_mem_reversed` — every weight is that of an edge that was there.
-/

namespace GraphQubo

variable {K : Type}

namespace Edge

/-- The edge, led the other way. -/
def flip (e : Edge K) : Edge K := ⟨e.target, e.source, e.weight⟩

/-- The edges put in order, the first of those with the same ends. -/
def sort (es : List (Edge K)) : List (Edge K) := es.foldr insert []

/-- Sorting brings in no edge. -/
theorem mem_of_mem_sort {e : Edge K} {es : List (Edge K)} (h : e ∈ sort es) : e ∈ es := by
  induction es with
  | nil => exact h
  | cons f es ih =>
    rcases mem_of_mem_insert h with rfl | h
    · exact List.mem_cons_self
    · exact List.mem_cons_of_mem _ (ih h)

/-- Sorted edges are in the order in which a graph stores them, one for each pair of ends. -/
theorem pairwise_sort (es : List (Edge K)) : (sort es).Pairwise Precedes := by
  induction es with
  | nil => exact .nil
  | cons f es ih => exact pairwise_insert ih

/-- Under every pair of ends the same edge is found before and after. -/
theorem find?_sort (a b : Nat) (es : List (Edge K)) :
    (sort es).find? (leads a b) = es.find? (leads a b) := by
  induction es with
  | nil => rfl
  | cons f es ih =>
    have hinsert : (sort (f :: es)).find? (leads a b) =
        if f.leads a b then some f else (sort es).find? (leads a b) := find?_insert a b f (sort es)
    rw [hinsert, ih, List.find?_cons]
    cases f.leads a b <;> rfl

end Edge

variable [Coefficient K]

namespace Graph

/-- The graph with every arc reversed. -/
def reversed (g : Graph K) : Graph K :=
  { g with
    edges := if g.directed then Edge.sort (g.edges.map Edge.flip) else g.edges
    sorted := by
      split
      · exact Edge.pairwise_sort _
      · exact g.sorted
    bounded := by
      intro e he
      split at he
      · obtain ⟨f, hf, rfl⟩ := List.mem_map.1 (Edge.mem_of_mem_sort he)
        exact (g.bounded f hf).symm
      · exact g.bounded e he
    oriented := by
      intro hd e he
      rw [if_neg (by simp [hd])] at he
      exact g.oriented hd e he
    weighted := by
      intro e he
      split at he
      · obtain ⟨f, hf, rfl⟩ := List.mem_map.1 (Edge.mem_of_mem_sort he)
        exact g.weighted f hf
      · exact g.weighted e he }

variable {g : Graph K}

/-- Nothing is turned around in an undirected graph. -/
theorem reversed_of_undirected (h : g.directed = false) : g.reversed = g := by
  obtain ⟨directed, nodeCount, edges, _, _, _, _, _⟩ := g
  subst h
  rfl

/-- An edge of the reversed graph carries the weight of an edge of the graph. -/
theorem exists_mem_of_mem_reversed {e : Edge K} (h : e ∈ g.reversed.edges) :
    ∃ f ∈ g.edges, e.weight = f.weight := by
  simp only [reversed] at h
  split at h
  · obtain ⟨f, hf, rfl⟩ := List.mem_map.1 (Edge.mem_of_mem_sort h)
    exact ⟨f, hf, rfl⟩
  · exact ⟨e, h, rfl⟩

/-- The edge that is walked from `v` to `w` in the reversed graph is the one that is
walked from `w` to `v`. -/
theorem find?_walks_reversed (v w : Nat) :
    (g.reversed.edges.find? (g.reversed.walks v w)).map Edge.weight =
      (g.edges.find? (g.walks w v)).map Edge.weight := by
  cases hd : g.directed with
  | false =>
    rw [reversed_of_undirected hd]
    have hsame : g.walks v w = g.walks w v := by
      funext e
      simp [walks, hd, Bool.or_comm]
    rw [hsame]
  | true =>
    have hwalks : ∀ a b, g.walks a b = Edge.leads a b := by
      intro a b
      funext e
      simp [walks, hd]
    have hwalks' : g.reversed.walks v w = Edge.leads v w := by
      funext e
      simp [walks, reversed, hd]
    have hflip : (Edge.leads v w ∘ Edge.flip : Edge K → Bool) = Edge.leads w v := by
      funext e
      exact Bool.and_comm _ _
    rw [hwalks', hwalks]
    simp only [reversed, hd, if_true]
    rw [Edge.find?_sort, List.find?_map, hflip, Option.map_map]
    rfl

theorem arc_iff_find? {v w : Nat} :
    g.Arc v w ↔ ((g.edges.find? (g.walks v w)).map Edge.weight).isSome = true := by
  rw [Option.isSome_map, List.find?_isSome]
  rfl

/-- The arcs of the reversed graph are those of the graph, from target to source. -/
theorem arc_reversed_iff {v w : Nat} : g.reversed.Arc v w ↔ g.Arc w v := by
  rw [arc_iff_find?, arc_iff_find?, find?_walks_reversed]

/-- Being joined does not depend on the direction. -/
theorem joined_reversed_iff {v w : Nat} : g.reversed.Joined v w ↔ g.Joined v w := by
  rw [Joined, Joined, arc_reversed_iff, arc_reversed_iff, or_comm]

theorem arcWeight?_eq_join (v w : Nat) :
    g.arcWeight? v w = ((g.edges.find? (g.walks v w)).map Edge.weight).join := by
  rw [arcWeight?]
  cases g.edges.find? (g.walks v w) <;> rfl

/-- A reversed arc keeps its weight, or stays without one. -/
theorem arcWeight?_reversed (v w : Nat) : g.reversed.arcWeight? v w = g.arcWeight? w v := by
  rw [arcWeight?_eq_join, arcWeight?_eq_join, find?_walks_reversed]

theorem arcWeight_reversed (v w : Nat) : g.reversed.arcWeight v w = g.arcWeight w v := by
  rw [arcWeight, arcWeight, arcWeight?_reversed]

end Graph

end GraphQubo
