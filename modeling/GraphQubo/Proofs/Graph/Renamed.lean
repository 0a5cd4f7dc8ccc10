import Mathlib.Algebra.BigOperators.Fin
import GraphQubo.Proofs.Graph.Building
import GraphQubo.Proofs.Graph.Simple

/-!
# GraphQubo.Proofs.Graph.Renamed

The graph with its nodes renamed.

A permutation gives every node another number.  Undirected edges are stored from the smaller
end to the larger one, so a renamed edge may be stored the other way round, and the edges are
listed in another order.  What the edges say of the nodes stays the same.

* `ofEdges_renamed` — the renamed edges build the renamed graph;
* `arc_renamed_iff`, `joined_renamed_iff`, `arcWeight_renamed` — every edge, with its weight,
  joins the renamed nodes;
* `degree_renamed` — a renamed node has as many neighbours.
-/

namespace GraphQubo

open Finset

variable {K : Type}

/-! ## Renaming nodes and edges -/

section

variable {n : Nat} (π : Equiv.Perm (Fin n))

/-- The new number of a node; other numbers stay. -/
def newName (v : Nat) : Nat := if h : v < n then π ⟨v, h⟩ else v

@[simp] theorem newName_val (v : Fin n) : newName π v = π v := by
  rw [newName, dif_pos v.isLt]

/-- A new name is a node of the graph. -/
theorem newName_lt {v : Nat} (h : v < n) : newName π v < n := by
  rw [newName, dif_pos h]
  exact (π ⟨v, h⟩).isLt

/-- Only nodes of the graph get names of nodes. -/
theorem newName_lt_iff {v : Nat} : newName π v < n ↔ v < n := by
  refine ⟨fun h => ?_, newName_lt π⟩
  by_contra hv
  rw [newName, dif_neg hv] at h
  exact hv h

/-- Different nodes keep different names. -/
theorem newName_injective : Function.Injective (newName π) := by
  intro v w h
  by_cases hv : v < n
  · have hw : w < n := (newName_lt_iff π).1 (h ▸ newName_lt π hv)
    rw [newName, newName, dif_pos hv, dif_pos hw] at h
    exact Fin.mk.inj (π.injective (Fin.ext h))
  · have hw : ¬w < n := fun hw => hv ((newName_lt_iff π).1 (h ▸ newName_lt π hw))
    rwa [newName, newName, dif_neg hv, dif_neg hw] at h

/-- The edge between the renamed ends. -/
def Edge.renamed (e : Edge K) : Edge K := ⟨newName π e.source, newName π e.target, e.weight⟩

end

variable [Coefficient K]

namespace Graph

variable {g : Graph K}

/-- The ends of the edges differ after renaming as they did before. -/
theorem apart_renamed (g : Graph K) (π : Equiv.Perm (Fin g.nodeCount)) :
    Edge.Apart (g.edges.map fun e => (e.renamed π).stored g.directed) := by
  intro e he f hf hsource htarget
  obtain ⟨e', he', rfl⟩ := List.mem_map.1 he
  obtain ⟨f', hf', rfl⟩ := List.mem_map.1 hf
  have hends := orient_eq_iff.1 (Prod.ext hsource htarget)
  simp only [Edge.renamed, (newName_injective π).eq_iff] at hends
  have hsame : e' = f' := by
    rcases hends with ⟨hs, ht⟩ | ⟨hd, hs, ht⟩
    · exact eq_of_ends he' hf' hs ht
    · -- both are stored ascending, so exchanged ends are those of a loop
      have hle := g.oriented hd e' he'
      have hle' := g.oriented hd f' hf'
      exact eq_of_ends he' hf' (by omega) (by omega)
  rw [hsame]

/-- A renamed edge is as valid as the edge. -/
theorem valid_renamed (g : Graph K) (π : Equiv.Perm (Fin g.nodeCount)) {e : Edge K}
    (he : e ∈ g.edges) : (e.renamed π).Valid g.nodeCount where
  source := newName_lt π (g.bounded e he).1
  target := newName_lt π (g.bounded e he).2
  weight := g.weighted e he

/-- The graph with its nodes renamed. -/
def renamed (g : Graph K) (π : Equiv.Perm (Fin g.nodeCount)) : Graph K :=
  { g with
    edges := Edge.sort (g.edges.map fun e => (e.renamed π).stored g.directed)
    sorted := Edge.pairwise_sort _
    bounded := by
      intro e he
      obtain ⟨f, hf, rfl⟩ := List.mem_map.1 (Edge.mem_of_mem_sort he)
      exact orient_lt g.directed (g.valid_renamed π hf).source (g.valid_renamed π hf).target
    oriented := by
      intro hd e he
      obtain ⟨f, hf, rfl⟩ := List.mem_map.1 (Edge.mem_of_mem_sort he)
      simp only [Edge.stored, orient, hd, Bool.false_eq_true, if_false]
      omega
    weighted := by
      intro e he
      obtain ⟨f, hf, rfl⟩ := List.mem_map.1 (Edge.mem_of_mem_sort he)
      exact g.weighted f hf }

/-- The renamed edges, put into a graph one by one, build the renamed graph. -/
theorem ofEdges_renamed (g : Graph K) (π : Equiv.Perm (Fin g.nodeCount)) :
    ofEdges g.directed g.nodeCount (g.edges.map (Edge.renamed π)) = .ok (g.renamed π) := by
  have hvalid : ∀ e ∈ g.edges.map (Edge.renamed π), e.Valid g.nodeCount := by
    intro e he
    obtain ⟨f, hf, rfl⟩ := List.mem_map.1 he
    exact g.valid_renamed π hf
  obtain ⟨g', hbuild, hdirected, hcount, hedges⟩ :=
    exists_ofEdges g.directed g.nodeCount_lt hvalid
  rw [hbuild]
  refine congrArg Except.ok (ext_edges hdirected hcount ?_)
  rw [hedges, List.map_map]
  exact (Edge.sort_congr (g.apart_renamed π) fun e => List.mem_reverse.symm).symm

/-! ## What the edges say of renamed nodes -/

variable (π : Equiv.Perm (Fin g.nodeCount))

/-- The edge that is walked between two nodes is the one stored under their ends. -/
theorem find?_walks_eq {v w : Nat} (hv : v < g.nodeCount) (hw : w < g.nodeCount) :
    g.edges.find? (g.walks v w) =
      g.edges.find? (Edge.leads (orient g.directed v w).1 (orient g.directed v w).2) := by
  obtain ⟨hsource, htarget⟩ := orient_lt g.directed hv hw
  rw [← find?_eq hv hw, find?, identifier_of_lt hsource, identifier_of_lt htarget]

/-- Two nodes are walked along the same edge, under their old names and the new ones. -/
theorem find?_walks_renamed {v w : Nat} (hv : v < g.nodeCount) (hw : w < g.nodeCount) :
    ((g.renamed π).edges.find? ((g.renamed π).walks (newName π v) (newName π w))).map Edge.weight =
      (g.edges.find? (g.walks v w)).map Edge.weight := by
  let ends := orient g.directed (newName π v) (newName π w)
  have hleads : ∀ e ∈ g.edges,
      Edge.leads ends.1 ends.2 ((e.renamed π).stored g.directed) = g.walks v w e := by
    intro e _
    have hends : orient g.directed (newName π e.source) (newName π e.target) = ends ↔ _ :=
      orient_eq_iff
    simp only [Prod.ext_iff, (newName_injective π).eq_iff] at hends
    rw [Bool.eq_iff_iff, Edge.leads_iff, walks_iff]
    exact hends
  have hfind : g.edges.find? (Edge.leads ends.1 ends.2 ∘ fun e => (e.renamed π).stored g.directed) =
      g.edges.find? (g.walks v w) := List.find?_congr hleads
  rw [find?_walks_eq (g := g.renamed π) (newName_lt π hv) (newName_lt π hw)]
  simp only [renamed]
  rw [Edge.find?_sort, List.find?_map, Option.map_map, hfind]
  rfl

/-- Renaming keeps the arcs. -/
theorem arc_renamed_iff {v w : Nat} (hv : v < g.nodeCount) (hw : w < g.nodeCount) :
    (g.renamed π).Arc (newName π v) (newName π w) ↔ g.Arc v w := by
  rw [arc_iff_find?, arc_iff_find?, find?_walks_renamed π hv hw]

/-- Renaming keeps which nodes are joined. -/
theorem joined_renamed_iff {v w : Nat} (hv : v < g.nodeCount) (hw : w < g.nodeCount) :
    (g.renamed π).Joined (newName π v) (newName π w) ↔ g.Joined v w := by
  rw [Joined, Joined, arc_renamed_iff π hv hw, arc_renamed_iff π hw hv]

/-- Renaming keeps the weights. -/
theorem arcWeight_renamed {v w : Nat} (hv : v < g.nodeCount) (hw : w < g.nodeCount) :
    (g.renamed π).arcWeight (newName π v) (newName π w) = g.arcWeight v w := by
  rw [arcWeight, arcWeight, arcWeight?_eq_join, arcWeight?_eq_join, find?_walks_renamed π hv hw]

/-- A renamed node has as many neighbours. -/
theorem degree_renamed {v : Nat} (hv : v < g.nodeCount) :
    (g.renamed π).degree (newName π v) = g.degree v := by
  have hjoined : ∀ w : Fin g.nodeCount,
      (g.renamed π).Joined (newName π v) (π w) ↔ g.Joined v w := by
    intro w
    rw [← newName_val π w]
    exact joined_renamed_iff π hv w.isLt
  have hcast : ((g.renamed π).degree (newName π v) : Rat) = g.degree v := by
    rw [cast_degree (g := g.renamed π) (newName_lt π hv), cast_degree hv, sum_range, sum_range]
    calc ∑ w : Fin g.nodeCount, (if (g.renamed π).Joined (newName π v) w then (1 : Rat) else 0)
        = ∑ w : Fin g.nodeCount, if (g.renamed π).Joined (newName π v) (π w) then 1 else 0 :=
          (Equiv.sum_comp π _).symm
      _ = ∑ w : Fin g.nodeCount, if g.Joined v w then 1 else 0 := by simp only [hjoined]
  exact_mod_cast hcast

/-- The edges keep their weights. -/
theorem exists_mem_of_mem_renamed {e : Edge K} (h : e ∈ (g.renamed π).edges) :
    ∃ f ∈ g.edges, e.weight = f.weight := by
  obtain ⟨f, hf, rfl⟩ := List.mem_map.1 (Edge.mem_of_mem_sort h)
  exact ⟨f, hf, rfl⟩

end Graph

end GraphQubo
