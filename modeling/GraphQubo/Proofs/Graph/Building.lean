import Mathlib.Data.List.Pairwise
import Mathlib.Data.List.Sort
import GraphQubo.Proofs.Graph.Reversed

/-!
# GraphQubo.Proofs.Graph.Building

The graph that is built from a list of edges.

Each edge is turned the way the graph stores it and put at its place.  An edge that is
added later takes the place of one with the same ends, so the graph holds the edges of the
list, last one first, each pair of ends once, in order.

* `exists_ofEdges` — a list of valid edges builds a graph, and these are its edges;
  `ofEdges_eq_ok_iff` — no other list builds one;
* `Edge.mem_sort_iff`, `Edge.sort_congr` — edges with different ends are all kept, whatever
  their order;
* `Edge.mem_sort_reverse_iff` — of edges with the same ends the last one is kept.
-/

namespace GraphQubo

variable {K : Type}

/-! ## Edges in order -/

namespace Edge

/-- Whether no two edges of a list have the same ends. -/
def Apart (es : List (Edge K)) : Prop :=
  ∀ e ∈ es, ∀ f ∈ es, e.source = f.source → e.target = f.target → e = f

/-- In a sorted list no two edges have the same ends. -/
theorem apart_of_pairwise {es : List (Edge K)} (h : es.Pairwise Precedes) : Apart es := by
  have hends : es.Pairwise fun e f => e.source ≠ f.source ∨ e.target ≠ f.target := by
    refine h.imp fun hef => ?_
    unfold Precedes at hef
    omega
  have hsymm : Std.Symm fun e f : Edge K => e.source ≠ f.source ∨ e.target ≠ f.target :=
    ⟨fun _ _ h => h.imp Ne.symm Ne.symm⟩
  intro e he f hf hsource htarget
  by_contra hne
  exact (hends.forall he hf hne).elim (fun h => h hsource) fun h => h htarget

/-- Where no two edges have the same ends, an edge is in the list if it is found there. -/
theorem Apart.mem_iff_find? {es : List (Edge K)} (h : Apart es) {e : Edge K} :
    e ∈ es ↔ es.find? (leads e.source e.target) = some e := by
  constructor
  · intro he
    have hsome : (es.find? (leads e.source e.target)).isSome :=
      List.find?_isSome.2 ⟨e, he, leads_iff.2 ⟨rfl, rfl⟩⟩
    obtain ⟨f, hf⟩ := Option.isSome_iff_exists.1 hsome
    have hends := leads_iff.1 (List.find?_some hf)
    have hsame : f = e := h f (List.mem_of_find?_eq_some hf) e he hends.1 hends.2
    rw [hf, hsame]
  · exact List.mem_of_find?_eq_some

/-- A sorted list holds, for each pair of ends, the first edge that has them. -/
theorem mem_sort_iff_find? {es : List (Edge K)} {e : Edge K} :
    e ∈ sort es ↔ es.find? (leads e.source e.target) = some e := by
  rw [← find?_sort]
  exact (apart_of_pairwise (pairwise_sort es)).mem_iff_find?

/-- Edges with different ends are all kept. -/
theorem mem_sort_iff {es : List (Edge K)} (h : Apart es) {e : Edge K} :
    e ∈ sort es ↔ e ∈ es := by
  rw [mem_sort_iff_find?, h.mem_iff_find?]

/-- Sorted lists with the same edges are the same. -/
theorem eq_of_mem_iff {es fs : List (Edge K)} (hes : es.Pairwise Precedes)
    (hfs : fs.Pairwise Precedes) (h : ∀ e, e ∈ es ↔ e ∈ fs) : es = fs := by
  have : Std.Asymm (Precedes : Edge K → Edge K → Prop) :=
    ⟨fun e f hef hfe => by unfold Precedes at hef hfe; omega⟩
  exact List.Pairwise.eq_of_mem_iff hes hfs h

/-- Where all ends differ, the order in which edges are listed does not count. -/
theorem sort_congr {es fs : List (Edge K)} (hes : Apart es) (h : ∀ e, e ∈ es ↔ e ∈ fs) :
    sort es = sort fs := by
  have hfs : Apart fs := fun e he f hf => hes e ((h e).2 he) f ((h f).2 hf)
  refine eq_of_mem_iff (pairwise_sort es) (pairwise_sort fs) fun e => ?_
  rw [mem_sort_iff hes, mem_sort_iff hfs, h]

/-- The edge as a graph stores it. -/
def stored (directed : Bool) (e : Edge K) : Edge K :=
  ⟨(orient directed e.source e.target).1, (orient directed e.source e.target).2, e.weight⟩

/-- The edge is how the last of the edges with its ends is stored. -/
def LastOf (directed : Bool) (es : List (Edge K)) (e : Edge K) : Prop :=
  ∃ before f after, es = before ++ f :: after ∧ e = f.stored directed ∧
    ∀ f' ∈ after, (f'.stored directed).source = e.source →
      (f'.stored directed).target ≠ e.target

theorem mem_sort_reverse_iff {directed : Bool} {es : List (Edge K)} {e : Edge K} :
    e ∈ sort (es.map (stored directed)).reverse ↔ LastOf directed es e := by
  rw [mem_sort_iff_find?, List.find?_eq_some_iff_append]
  simp only [leads_iff, and_self, true_and, Bool.not_eq_true', ← Bool.not_eq_true, not_and,
    List.reverse_eq_iff, List.reverse_append, List.reverse_cons, List.append_assoc,
    List.singleton_append]
  constructor
  · rintro ⟨after, before, hes, hafter⟩
    obtain ⟨before', rest, rfl, -, hrest⟩ := List.map_eq_append_iff.1 hes
    obtain ⟨f, after', rfl, rfl, hmap⟩ := List.map_eq_cons_iff.1 hrest
    refine ⟨before', f, after', rfl, rfl, fun f' hf' => hafter (f'.stored directed) ?_⟩
    rw [← List.mem_reverse, ← hmap]
    exact List.mem_map_of_mem hf'
  · rintro ⟨before, f, after, rfl, rfl, hafter⟩
    refine ⟨(after.map (stored directed)).reverse, (before.map (stored directed)).reverse, ?_, ?_⟩
    · simp only [List.map_append, List.map_cons, List.reverse_reverse]
    · intro x hx
      obtain ⟨f', hf', rfl⟩ := List.mem_map.1 (List.mem_reverse.1 hx)
      exact hafter f' hf'

/-- Whether the edge may be put into a graph over `n` nodes. -/
structure Valid [Coefficient K] (n : Nat) (e : Edge K) : Prop where
  source : e.source < n
  target : e.target < n
  weight : ∀ w, e.weight = some w → validWeight w = true

end Edge

/-- Ends are stored alike if they are the same, or, in an undirected graph, exchanged. -/
theorem orient_eq_iff {directed : Bool} {a b a' b' : Nat} :
    orient directed a b = orient directed a' b' ↔
      (a = a' ∧ b = b') ∨ (directed = false ∧ a = b' ∧ b = a') := by
  unfold orient
  cases directed with
  | true => simp
  | false =>
    simp only [Bool.false_eq_true, if_false, Prod.mk.injEq, true_and]
    omega

theorem orient_lt (directed : Bool) {a b n : Nat} (ha : a < n) (hb : b < n) :
    (orient directed a b).1 < n ∧ (orient directed a b).2 < n := by
  unfold orient
  cases directed with
  | true => exact ⟨ha, hb⟩
  | false =>
    simp only [Bool.false_eq_true, if_false]
    omega

variable [Coefficient K]

namespace Graph

theorem ext_edges {g g' : Graph K} (hdirected : g.directed = g'.directed)
    (hnodeCount : g.nodeCount = g'.nodeCount) (hedges : g.edges = g'.edges) : g = g' := by
  cases g
  cases g'
  cases hdirected
  cases hnodeCount
  cases hedges
  rfl

/-- A valid edge takes its place among those that are there. -/
theorem exists_addEdge {g : Graph K} {e : Edge K} (h : e.Valid g.nodeCount) :
    ∃ g', g.addEdge e = .ok g' ∧ g'.directed = g.directed ∧ g'.nodeCount = g.nodeCount ∧
      g'.edges = Edge.insert (e.stored g.directed) g.edges := by
  obtain ⟨source, target, weight⟩ := e
  obtain ⟨hs, ht, hw⟩ := h
  unfold addEdge
  rw [dif_pos hs, dif_pos ht]
  cases weight with
  | none => exact ⟨_, rfl, rfl, rfl, rfl⟩
  | some w =>
    have hvalid : validWeight w = true := hw w rfl
    simp only [hvalid, dite_true]
    exact ⟨_, rfl, rfl, rfl, rfl⟩

/-- Valid edges take their places one after the other. -/
theorem exists_foldlM_addEdge {es : List (Edge K)} {g : Graph K}
    (h : ∀ e ∈ es, e.Valid g.nodeCount) :
    ∃ g', es.foldlM addEdge g = .ok g' ∧ g'.directed = g.directed ∧
      g'.nodeCount = g.nodeCount ∧
      g'.edges = (es.map (Edge.stored g.directed)).foldl (fun fs e => Edge.insert e fs) g.edges := by
  induction es generalizing g with
  | nil => exact ⟨g, rfl, rfl, rfl, rfl⟩
  | cons e es ih =>
    obtain ⟨g₁, hadd, hdirected, hcount, hedges⟩ := exists_addEdge (h e List.mem_cons_self)
    have hrest : ∀ f ∈ es, f.Valid g₁.nodeCount := fun f hf =>
      hcount ▸ h f (List.mem_cons_of_mem e hf)
    obtain ⟨g₂, hfold, hdirected', hcount', hedges'⟩ := ih hrest
    refine ⟨g₂, ?_, hdirected'.trans hdirected, hcount'.trans hcount, ?_⟩
    · rw [List.foldlM_cons, hadd]
      exact hfold
    · rw [hedges', hdirected, hedges]
      rfl

/-- A list of valid edges builds a graph.  It holds the last edge for each pair of ends, the
way it is stored. -/
theorem exists_ofEdges (directed : Bool) {n : Nat} {es : List (Edge K)} (hn : n < nodeLimit)
    (h : ∀ e ∈ es, e.Valid n) :
    ∃ g, ofEdges directed n es = .ok g ∧ g.directed = directed ∧ g.nodeCount = n ∧
      g.edges = Edge.sort (es.map (Edge.stored directed)).reverse := by
  obtain ⟨g₀, hempty, hdirected, hcount, hedges⟩ :
      ∃ g : Graph K, edgeless directed n = .ok g ∧ g.directed = directed ∧ g.nodeCount = n ∧
        g.edges = [] := by
    unfold edgeless
    rw [dif_pos hn]
    exact ⟨_, rfl, rfl, rfl, rfl⟩
  obtain ⟨g, hfold, hdirected', hcount', hedges'⟩ := exists_foldlM_addEdge (hcount ▸ h)
  refine ⟨g, ?_, hdirected'.trans hdirected, hcount'.trans hcount, ?_⟩
  · rw [ofEdges, hempty]
    exact hfold
  · rw [hedges', hdirected, hedges, Edge.sort, List.foldr_reverse]

/-- An edge that a graph takes is valid. -/
theorem valid_of_addEdge {g g' : Graph K} {e : Edge K} (h : g.addEdge e = .ok g') :
    e.Valid g.nodeCount := by
  obtain ⟨source, target, weight⟩ := e
  unfold addEdge at h
  by_cases hs : source < g.nodeCount
  · by_cases ht : target < g.nodeCount
    · rw [dif_pos hs, dif_pos ht] at h
      cases weight with
      | none => exact ⟨hs, ht, fun w hw => by cases hw⟩
      | some w =>
        by_cases hvalid : validWeight w = true
        · exact ⟨hs, ht, fun w' hw => Option.some.inj hw ▸ hvalid⟩
        · simp [hvalid] at h
    · simp [hs, ht] at h
  · simp [hs] at h

theorem valid_of_foldlM_addEdge {es : List (Edge K)} {g g' : Graph K}
    (h : es.foldlM addEdge g = .ok g') : ∀ e ∈ es, e.Valid g.nodeCount := by
  induction es generalizing g with
  | nil => exact fun e he => absurd he List.not_mem_nil
  | cons e es ih =>
    rw [List.foldlM_cons] at h
    cases hadd : g.addEdge e with
    | error => rw [hadd] at h; cases h
    | ok g₁ =>
      have hvalid := valid_of_addEdge hadd
      obtain ⟨g₂, hadd', -, hcount, -⟩ := exists_addEdge hvalid
      obtain rfl : g₁ = g₂ := Except.ok.inj (hadd.symm.trans hadd')
      rw [hadd] at h
      intro f hf
      rcases List.mem_cons.1 hf with rfl | hf
      · exact hvalid
      · exact hcount ▸ ih h f hf

/-- Edges build a graph when all of them are valid, and it holds the last one for each pair of
ends. -/
theorem ofEdges_eq_ok_iff {directed : Bool} {n : Nat} {es : List (Edge K)} {g : Graph K} :
    ofEdges directed n es = .ok g ↔
      (n < nodeLimit ∧ ∀ e ∈ es, e.Valid n) ∧ g.directed = directed ∧ g.nodeCount = n ∧
        g.edges = Edge.sort (es.map (Edge.stored directed)).reverse := by
  constructor
  · intro h
    have hvalid : n < nodeLimit ∧ ∀ e ∈ es, e.Valid n := by
      by_cases hn : n < nodeLimit
      · rw [ofEdges, edgeless, dif_pos hn] at h
        exact ⟨hn, valid_of_foldlM_addEdge h⟩
      · rw [ofEdges, edgeless, dif_neg hn] at h
        cases h
    obtain ⟨g', hbuild, hg'⟩ := exists_ofEdges directed hvalid.1 hvalid.2
    obtain rfl : g = g' := Except.ok.inj (h.symm.trans hbuild)
    exact ⟨hvalid, hg'⟩
  · rintro ⟨hvalid, hdirected, hcount, hedges⟩
    obtain ⟨g', hbuild, hdirected', hcount', hedges'⟩ := exists_ofEdges directed hvalid.1 hvalid.2
    rw [hbuild]
    exact congrArg Except.ok (ext_edges (hdirected'.trans hdirected.symm)
      (hcount'.trans hcount.symm) (hedges'.trans hedges.symm))

end Graph

end GraphQubo
