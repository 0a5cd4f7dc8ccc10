import Mathlib.Data.List.Dedup
import Mathlib.Data.List.Induction
import GraphQubo.Proofs.Graph.Building
import GraphQubo.Proofs.Graph.Weight

/-!
# GraphQubo.Proofs.Graph.LastWins

Building a graph is filling a map from pairs of ends to weights, and fails at the first edge with
a fault.

The key of an edge is the pair of its ends, in ascending order where the graph is undirected.  A
store of arcs in the order of their arrival holds one arc for each key: an edge with a new key is
put behind the others, one with a known key replaces what is there.  The graph has the arcs of this
store, in the order of their ends, so it does not matter in which order edges with different keys
arrive.

* `Edge.Fault` — what keeps an edge out of a graph;
* `foldlM_addEdge_eq_error_iff` — the first fault is reported;
* `perm_arcs` — the edges of a graph are the arcs of the store;
* `ofEdges_eq_of_filter_eq` — only the order of edges with one key counts;
* `ofEdges_lastWins` — all of this for the graph that is built.
-/

namespace GraphQubo

open Coefficient (isFinite below)

variable {K : Type}

namespace Edge

/-! ## Keys -/

/-- The ends of an edge. -/
def ends (e : Edge K) : Nat × Nat := (e.source, e.target)

/-- The ends that an edge is stored under. -/
def key (directed : Bool) (e : Edge K) : Nat × Nat := orient directed e.source e.target

theorem ends_stored (directed : Bool) (e : Edge K) :
    (e.stored directed).ends = e.key directed := rfl

/-- An edge leads between two nodes if these are its ends in order. -/
theorem leads_iff_ends {a b : Nat} {e : Edge K} : e.leads a b = true ↔ e.ends = (a, b) := by
  rw [leads_iff, ends, Prod.mk.injEq]

theorem apart_of_nodup_ends {es : List (Edge K)} (h : (es.map ends).Nodup) : Apart es :=
  fun _ he _ hf hsource htarget => List.inj_on_of_nodup_map h he hf (Prod.ext hsource htarget)

/-- Edges in order have different ends. -/
theorem nodup_ends_of_pairwise {es : List (Edge K)} (h : es.Pairwise Precedes) :
    (es.map ends).Nodup := by
  refine List.pairwise_map.2 (h.imp fun hef heq => ?_)
  obtain ⟨hsource, htarget⟩ := Prod.mk.inj heq
  unfold Precedes at hef
  omega

/-! ## A store of arcs in the order of their arrival -/

/-- Puts an edge in the place of the arc with its ends, or behind all arcs if there is none. -/
def update (e : Edge K) : List (Edge K) → List (Edge K)
  | [] => [e]
  | f :: rest => if f.ends = e.ends then e :: rest else f :: update e rest

/-- The arcs of a store after edges have arrived one by one. -/
def arcs (directed : Bool) (es : List (Edge K)) : List (Edge K) :=
  es.foldl (fun store e => (e.stored directed).update store) []

/-- The last edge is put into the store of those before it. -/
theorem arcs_concat (directed : Bool) (es : List (Edge K)) (e : Edge K) :
    arcs directed (es ++ [e]) = (e.stored directed).update (arcs directed es) := by
  rw [arcs, List.foldl_append]
  rfl

/-- After an update the edge is found under its ends, and under all other ends what was found
before. -/
theorem find?_update (a b : Nat) (e : Edge K) (store : List (Edge K)) :
    (update e store).find? (leads a b) =
      if e.leads a b then some e else store.find? (leads a b) := by
  induction store with
  | nil =>
    rw [update, List.find?_singleton]
    rfl
  | cons f rest ih =>
    unfold update
    split
    · rename_i hends
      have hiff : f.leads a b = e.leads a b := by
        rw [Bool.eq_iff_iff, leads_iff_ends, leads_iff_ends, hends]
      rw [List.find?_cons, List.find?_cons, hiff]
      cases e.leads a b <;> rfl
    · rename_i hends
      rw [List.find?_cons, List.find?_cons, ih]
      cases hf : f.leads a b with
      | false => rfl
      | true =>
        have he : ¬e.leads a b = true := fun he =>
          hends ((leads_iff_ends.1 hf).trans (leads_iff_ends.1 he).symm)
        simp [he]

/-- Putting an edge into a store adds its ends. -/
theorem mem_ends_update_iff {k : Nat × Nat} {e : Edge K} {store : List (Edge K)} :
    k ∈ (update e store).map ends ↔ k = e.ends ∨ k ∈ store.map ends := by
  induction store with
  | nil => simp [update]
  | cons f rest ih =>
    unfold update
    split
    · rename_i hends
      rw [List.map_cons, List.map_cons, List.mem_cons, List.mem_cons, hends, or_self_left]
    · rw [List.map_cons, List.map_cons, List.mem_cons, List.mem_cons, ih, or_left_comm]

/-- A store keeps one edge for each pair of ends. -/
theorem nodup_ends_update {e : Edge K} {store : List (Edge K)} (h : (store.map ends).Nodup) :
    ((update e store).map ends).Nodup := by
  induction store with
  | nil => exact List.nodup_singleton _
  | cons f rest ih =>
    obtain ⟨hf, hrest⟩ := List.nodup_cons.1 h
    unfold update
    split
    · rename_i hends
      rw [List.map_cons, ← hends]
      exact h
    · rename_i hends
      refine List.nodup_cons.2 ⟨fun hmem => ?_, ih hrest⟩
      exact (mem_ends_update_iff.1 hmem).elim hends hf

/-- The store has one edge for each pair of ends. -/
theorem nodup_ends_arcs (directed : Bool) (es : List (Edge K)) :
    ((arcs directed es).map ends).Nodup := by
  induction es using List.reverseRecOn with
  | nil => exact List.nodup_nil
  | append_singleton es e ih =>
    rw [arcs_concat]
    exact nodup_ends_update ih

/-- The store has an arc for every key. -/
theorem mem_ends_arcs {directed : Bool} {es : List (Edge K)} {k : Nat × Nat} :
    k ∈ (arcs directed es).map ends ↔ k ∈ es.map (key directed) := by
  induction es using List.reverseRecOn with
  | nil => rfl
  | append_singleton es e ih =>
    rw [arcs_concat, mem_ends_update_iff, ih, List.map_append, List.mem_append, or_comm,
      List.map_singleton, List.mem_singleton, ends_stored]

/-- Under every pair of ends the store has the last edge that arrived there. -/
theorem find?_arcs (a b : Nat) (directed : Bool) (es : List (Edge K)) :
    (arcs directed es).find? (leads a b) =
      (es.map (stored directed)).reverse.find? (leads a b) := by
  induction es using List.reverseRecOn with
  | nil => rfl
  | append_singleton es e ih =>
    rw [arcs_concat, find?_update, ih, List.map_append, List.reverse_append, List.map_singleton,
      List.reverse_singleton, List.singleton_append, List.find?_cons]
    cases (e.stored directed).leads a b <;> rfl

/-- A graph has the arcs of the store. -/
theorem perm_arcs (directed : Bool) (es : List (Edge K)) :
    (sort (es.map (stored directed)).reverse).Perm (arcs directed es) := by
  have hsorted := nodup_ends_of_pairwise (pairwise_sort (es.map (stored directed)).reverse)
  have harcs := nodup_ends_arcs directed es
  refine (List.perm_ext_iff_of_nodup hsorted.of_map harcs.of_map).2 fun e => ?_
  rw [mem_sort_iff_find?, (apart_of_nodup_ends harcs).mem_iff_find?, find?_arcs]

/-! ## The order of arrival -/

/-- Which edge is found under a pair of ends depends on the edges with this key. -/
theorem find?_stored_eq (directed : Bool) (es : List (Edge K)) (a b : Nat) :
    (es.map (stored directed)).reverse.find? (leads a b) =
      ((es.filter fun e => e.key directed = (a, b)).map (stored directed)).reverse.head? := by
  have hkey : (leads a b ∘ stored directed : Edge K → Bool) =
      fun e : Edge K => decide (e.key directed = (a, b)) := by
    funext e
    rw [Bool.eq_iff_iff, Function.comp_apply, leads_iff_ends, ends_stored, decide_eq_true_eq]
  rw [← List.head?_filter, List.filter_reverse, List.filter_map, hkey]

/-- Edges with different keys may arrive in any order. -/
theorem sort_stored_congr {directed : Bool} {es fs : List (Edge K)}
    (h : ∀ k, (fs.filter fun e => e.key directed = k) = es.filter fun e => e.key directed = k) :
    sort (fs.map (stored directed)).reverse = sort (es.map (stored directed)).reverse := by
  refine eq_of_mem_iff (pairwise_sort _) (pairwise_sort _) fun e => ?_
  rw [mem_sort_iff_find?, mem_sort_iff_find?, find?_stored_eq, find?_stored_eq, h]

theorem mem_of_filter_eq {directed : Bool} {es fs : List (Edge K)}
    (h : ∀ k, (fs.filter fun e => e.key directed = k) = es.filter fun e => e.key directed = k)
    {e : Edge K} (he : e ∈ fs) : e ∈ es := by
  have hmem : e ∈ fs.filter fun f => f.key directed = e.key directed :=
    List.mem_filter.2 ⟨he, decide_eq_true rfl⟩
  rw [h] at hmem
  exact (List.mem_filter.1 hmem).1

end Edge

variable [Coefficient K]

namespace Edge

/-! ## Faults -/

/-- What keeps an edge out of a graph over `n` nodes: its source, or else its target, or else its
weight. -/
inductive Fault (n : Nat) (e : Edge K) : Error K → Prop where
  | source (h : n ≤ e.source) : Fault n e (.nodeOutOfRange e.source n)
  | target (hs : e.source < n) (h : n ≤ e.target) : Fault n e (.nodeOutOfRange e.target n)
  | weight {w : K} (hs : e.source < n) (ht : e.target < n) (hw : e.weight = some w)
      (h : isFinite w = false ∨ below w 0 = true) :
      Fault n e (.invalidEdgeWeight e.source e.target w)

/-- The error is that of the first edge with a fault. -/
def FirstFault (n : Nat) (es : List (Edge K)) (err : Error K) : Prop :=
  ∃ before e after, es = before ++ e :: after ∧ (∀ f ∈ before, f.Valid n) ∧ e.Fault n err

/-- A weight is invalid if it is not finite or below zero. -/
theorem validWeight_eq_false_iff {w : K} :
    validWeight w = false ↔ isFinite w = false ∨ below w 0 = true := by
  rw [validWeight, Bool.and_eq_false_iff, Bool.not_eq_false']

/-- A faulty edge is not valid. -/
theorem Fault.not_valid {n : Nat} {e : Edge K} {err : Error K} (h : e.Fault n err) :
    ¬e.Valid n := by
  intro hvalid
  cases h with
  | source hs => exact absurd hvalid.source (Nat.not_lt.2 hs)
  | target _ ht => exact absurd hvalid.target (Nat.not_lt.2 ht)
  | weight _ _ hw hbad =>
    exact Bool.false_ne_true ((validWeight_eq_false_iff.2 hbad).symm.trans (hvalid.weight _ hw))

/-- An edge is valid or has a fault. -/
theorem valid_or_exists_fault (n : Nat) (e : Edge K) : e.Valid n ∨ ∃ err, e.Fault n err := by
  by_cases hs : e.source < n
  · by_cases ht : e.target < n
    · by_cases hw : ∃ w, e.weight = some w ∧ validWeight w = false
      · obtain ⟨w, hw, hbad⟩ := hw
        exact .inr ⟨_, .weight hs ht hw (validWeight_eq_false_iff.1 hbad)⟩
      · refine .inl ⟨hs, ht, fun w hwe => ?_⟩
        exact Bool.of_not_eq_false fun hbad => hw ⟨w, hwe, hbad⟩
    · exact .inr ⟨_, .target hs (Nat.not_lt.1 ht)⟩
  · exact .inr ⟨_, .source (Nat.not_lt.1 hs)⟩

/-- An edge has a fault in one of its ends or in its weight. -/
theorem exists_fault_iff {n : Nat} {e : Edge K} :
    (∃ err, e.Fault n err) ↔ n ≤ e.source ∨ n ≤ e.target ∨
      ∃ w, e.weight = some w ∧ (isFinite w = false ∨ below w 0 = true) := by
  constructor
  · rintro ⟨err, h⟩
    cases h with
    | source hs => exact .inl hs
    | target _ ht => exact .inr (.inl ht)
    | weight _ _ hw hbad => exact .inr (.inr ⟨_, hw, hbad⟩)
  · intro h
    refine (valid_or_exists_fault n e).resolve_left fun hvalid => ?_
    rcases h with hs | ht | ⟨w, hw, hbad⟩
    · exact absurd hvalid.source (Nat.not_lt.2 hs)
    · exact absurd hvalid.target (Nat.not_lt.2 ht)
    · exact (Fault.weight hvalid.source hvalid.target hw hbad).not_valid hvalid

/-- The first fault is that of the first edge, or behind it. -/
theorem firstFault_cons {n : Nat} {e : Edge K} {es : List (Edge K)} {err : Error K} :
    FirstFault n (e :: es) err ↔ e.Fault n err ∨ (e.Valid n ∧ FirstFault n es err) := by
  constructor
  · rintro ⟨before, f, after, hes, hbefore, hf⟩
    cases before with
    | nil =>
      obtain ⟨rfl, -⟩ := List.cons.inj hes
      exact .inl hf
    | cons e' before =>
      obtain ⟨rfl, rfl⟩ := List.cons.inj hes
      refine .inr ⟨hbefore e List.mem_cons_self, before, f, after, rfl, ?_, hf⟩
      exact fun f' hf' => hbefore f' (List.mem_cons_of_mem e hf')
  · rintro (he | ⟨hvalid, before, f, after, rfl, hbefore, hf⟩)
    · exact ⟨[], e, es, rfl, by simp, he⟩
    · refine ⟨e :: before, f, after, rfl, fun f' hf' => ?_, hf⟩
      rcases List.mem_cons.1 hf' with rfl | hf'
      · exact hvalid
      · exact hbefore f' hf'

/-- There is a first fault if and only if an edge is faulty. -/
theorem exists_firstFault_iff {n : Nat} {es : List (Edge K)} :
    (∃ err, FirstFault n es err) ↔ ∃ e ∈ es, ∃ err, e.Fault n err := by
  induction es with
  | nil =>
    constructor
    · rintro ⟨err, before, e, after, hes, -⟩
      simp at hes
    · rintro ⟨e, he, -⟩
      exact absurd he List.not_mem_nil
  | cons e es ih =>
    simp only [firstFault_cons, exists_or, exists_and_left, ih, List.mem_cons, exists_eq_or_imp]
    rcases valid_or_exists_fault n e with hvalid | hfault
    · simp only [hvalid, true_and]
    · simp only [hfault, true_or]

end Edge

namespace Graph

/-- A faulty edge is refused with its fault. -/
theorem addEdge_of_fault {g : Graph K} {e : Edge K} {err : Error K}
    (h : e.Fault g.nodeCount err) : g.addEdge e = .error err := by
  obtain ⟨source, target, weight⟩ := e
  unfold addEdge
  cases h with
  | source hs => rw [dif_neg (Nat.not_lt.2 hs)]
  | target hs ht => rw [dif_pos hs, dif_neg (Nat.not_lt.2 ht)]
  | weight hs ht hw hbad =>
    cases hw
    have hinvalid := Edge.validWeight_eq_false_iff.2 hbad
    rw [dif_pos hs, dif_pos ht]
    simp only [hinvalid, Bool.false_eq_true, dite_false]

/-- Edges are refused for the first fault among them. -/
theorem foldlM_addEdge_eq_error_iff {es : List (Edge K)} {g : Graph K} {err : Error K} :
    es.foldlM addEdge g = .error err ↔ Edge.FirstFault g.nodeCount es err := by
  induction es generalizing g with
  | nil =>
    constructor
    · intro h
      cases h
    · rintro ⟨before, e, after, hes, -⟩
      simp at hes
  | cons e es ih =>
    rw [List.foldlM_cons, Edge.firstFault_cons]
    rcases e.valid_or_exists_fault g.nodeCount with hvalid | ⟨err', hfault⟩
    · obtain ⟨g₁, hadd, -, hcount, -⟩ := exists_addEdge hvalid
      have hnot : ¬e.Fault g.nodeCount err := fun h => h.not_valid hvalid
      rw [hadd, ← hcount]
      simp only [hcount ▸ hvalid, hcount ▸ hnot, true_and, false_or]
      exact ih
    · have hinvalid := hfault.not_valid
      rw [addEdge_of_fault hfault]
      simp only [hinvalid, false_and, or_false]
      refine ⟨fun h => ?_, fun h => ?_⟩
      · cases h
        exact hfault
      · exact (addEdge_of_fault hfault).symm.trans (addEdge_of_fault h)

/-- A graph over nodes that there are identifiers for is refused for the first fault among its
edges. -/
theorem ofEdges_eq_error_iff {directed : Bool} {n : Nat} (hn : n < nodeLimit)
    {es : List (Edge K)} {err : Error K} :
    ofEdges directed n es = .error err ↔ Edge.FirstFault n es err := by
  rw [ofEdges, edgeless, dif_pos hn]
  exact foldlM_addEdge_eq_error_iff

/-! ## Equal graphs -/

/-- Edges with different keys may arrive in any order. -/
theorem ofEdges_eq_of_filter_eq {directed : Bool} {n : Nat} {es fs : List (Edge K)} {g : Graph K}
    (h : ofEdges directed n es = .ok g)
    (hkeys : ∀ k, (fs.filter fun e => e.key directed = k) = es.filter fun e => e.key directed = k) :
    ofEdges directed n fs = .ok g := by
  obtain ⟨⟨hn, hvalid⟩, hdirected, hcount, hedges⟩ := ofEdges_eq_ok_iff.1 h
  refine ofEdges_eq_ok_iff.2 ⟨⟨hn, fun e he => ?_⟩, hdirected, hcount, ?_⟩
  · exact hvalid e (Edge.mem_of_filter_eq hkeys he)
  · rw [hedges, Edge.sort_stored_congr hkeys]

/-- A graph passes the test of having the same edges as itself. -/
theorem same_self [Coefficient.Ordered K] (g : Graph K) : g.same g = true := by
  have hedge : ∀ e ∈ g.edges, sameEdge e e = true := by
    intro e he
    have hweight : sameWeight e.weight e.weight = true := by
      cases hw : e.weight with
      | none => rfl
      | some w =>
        exact Coefficient.Ordered.same_self (isFinite_of_validWeight (g.weighted e he w hw))
    simp [sameEdge, hweight]
  have hall : ∀ p ∈ g.edges.zip g.edges, sameEdge p.1 p.2 = true := by
    intro p hp
    rw [List.zip, List.zipWith_self] at hp
    obtain ⟨e, he, rfl⟩ := List.mem_map.1 hp
    exact hedge e he
  simpa [same] using hall

/-- The ends in a graph are the keys of its edges. -/
theorem ends_of_mem_iff {directed : Bool} {n : Nat} {es : List (Edge K)} {g : Graph K}
    (h : ofEdges directed n es = .ok g) (k : Nat × Nat) :
    k ∈ g.edges.map Edge.ends ↔ k ∈ es.map (Edge.key directed) := by
  obtain ⟨-, -, -, hedges⟩ := ofEdges_eq_ok_iff.1 h
  rw [hedges, ((Edge.perm_arcs directed es).map Edge.ends).mem_iff]
  exact Edge.mem_ends_arcs

/-- There are as many edges as keys. -/
theorem edgeCount_eq {directed : Bool} {n : Nat} {es : List (Edge K)} {g : Graph K}
    (h : ofEdges directed n es = .ok g) :
    g.edgeCount = (es.map (Edge.key directed)).dedup.length := by
  have hperm : (g.edges.map Edge.ends).Perm (es.map (Edge.key directed)).dedup := by
    refine (List.perm_ext_iff_of_nodup (Edge.nodup_ends_of_pairwise g.sorted)
      (List.nodup_dedup _)).2 fun k => ?_
    rw [ends_of_mem_iff h, List.mem_dedup]
  rw [edgeCount, ← hperm.length_eq, List.length_map]

end Graph

/-- Building a graph over nodes that there are identifiers for.  It fails if and only if an edge has
an end outside of the nodes or a weight that is below zero or not finite, and for the first such
edge, its source, its target and its weight taken in this order.  Otherwise the graph has the arcs
of the store in strictly ascending order, one for each key of the list, with the weight of the last
edge that has the key; and edges with different keys may arrive in any other order. -/
theorem ofEdges_lastWins [Coefficient.Ordered K] (directed : Bool) {n : Nat} (hn : n < nodeLimit)
    (es : List (Edge K)) :
    ((∃ err, Graph.ofEdges directed n es = .error err) ↔
      ∃ e ∈ es, n ≤ e.source ∨ n ≤ e.target ∨
        ∃ w, e.weight = some w ∧ (isFinite w = false ∨ below w 0 = true)) ∧
    (∀ err, Graph.ofEdges directed n es = .error err ↔ Edge.FirstFault n es err) ∧
    ∀ g, Graph.ofEdges directed n es = .ok g →
      g.directed = directed ∧ g.nodeCount = n ∧
      g.edges.Pairwise Edge.Precedes ∧
      g.edges.Perm (Edge.arcs directed es) ∧
      (∀ k, k ∈ g.edges.map Edge.ends ↔ k ∈ es.map (Edge.key directed)) ∧
      (∀ e, e ∈ g.edges ↔ Edge.LastOf directed es e) ∧
      g.edgeCount = g.edges.length ∧
      g.edgeCount = (es.map (Edge.key directed)).dedup.length ∧
      ∀ fs, (∀ k, (fs.filter fun e => e.key directed = k) = es.filter fun e => e.key directed = k) →
        ∃ g', Graph.ofEdges directed n fs = .ok g' ∧ g'.same g = true ∧ g' = g := by
  refine ⟨?_, fun err => Graph.ofEdges_eq_error_iff hn, fun g h => ?_⟩
  · simp only [← Edge.exists_fault_iff, Graph.ofEdges_eq_error_iff hn]
    exact Edge.exists_firstFault_iff
  · obtain ⟨-, hdirected, hcount, hedges⟩ := Graph.ofEdges_eq_ok_iff.1 h
    refine ⟨hdirected, hcount, g.sorted, ?_, Graph.ends_of_mem_iff h, fun e => ?_, rfl,
      Graph.edgeCount_eq h, fun fs hkeys => ?_⟩
    · rw [hedges]
      exact Edge.perm_arcs directed es
    · rw [hedges, Edge.mem_sort_reverse_iff]
    · exact ⟨g, Graph.ofEdges_eq_of_filter_eq h hkeys, g.same_self, rfl⟩

/-- Two nodes joined twice, first with a weight and then, written the other way, without one; and a
loop. -/
def Edge.joinedTwice : List (Edge Float) := [⟨1, 0, some 4⟩, ⟨1, 1, some 2⟩, ⟨0, 1, none⟩]

/-- The later edge takes the weight away, and the loop may come at any time; a weight below zero is
reported, and the node after it is not. -/
theorem ofEdges_lastWins_joinedTwice :
    (∃ g, Graph.ofEdges false 2 Edge.joinedTwice = .ok g ∧ g.edgeCount = 2 ∧
      ⟨0, 1, none⟩ ∈ g.edges ∧
      Graph.ofEdges false 2 [⟨1, 0, some 4⟩, ⟨0, 1, none⟩, ⟨1, 1, some 2⟩] = .ok g) ∧
    Graph.ofEdges false 2 (Edge.joinedTwice ++ [⟨0, 1, some (-1)⟩, ⟨2, 0, none⟩]) =
      .error (.invalidEdgeWeight 0 1 (-1)) := by
  have hn : 2 < nodeLimit := by decide
  have hfour : validWeight (4 : Float) = true := by decide +kernel
  have htwo : validWeight (2 : Float) = true := by decide +kernel
  have hvalid : ∀ e ∈ Edge.joinedTwice, e.Valid 2 := by
    refine List.forall_mem_cons.2 ⟨⟨by decide, by decide, by simpa using hfour⟩,
      List.forall_mem_cons.2 ⟨⟨by decide, by decide, by simpa using htwo⟩,
        List.forall_mem_singleton.2 ⟨by decide, by decide, by simp⟩⟩⟩
  constructor
  · obtain ⟨g, hg, -⟩ := Graph.exists_ofEdges false hn hvalid
    obtain ⟨-, -, hbuilt⟩ := ofEdges_lastWins false hn Edge.joinedTwice
    obtain ⟨-, -, -, -, -, hlast, -, hcount, hreorder⟩ := hbuilt g hg
    refine ⟨g, hg, hcount.trans (by decide), (hlast _).2 ?_, ?_⟩
    · exact ⟨[⟨1, 0, some 4⟩, ⟨1, 1, some 2⟩], ⟨0, 1, none⟩, [], rfl, rfl, by simp⟩
    · have hkeys : ∀ k, ([⟨1, 0, some 4⟩, ⟨0, 1, none⟩, ⟨1, 1, some 2⟩] : List (Edge Float)).filter
          (fun e => e.key false = k) = Edge.joinedTwice.filter fun e => e.key false = k := by
        intro k
        by_cases hloop : (1, 1) = k
        · subst hloop
          rfl
        · simp [Edge.joinedTwice, Edge.key, orient, List.filter_cons, hloop]
      obtain ⟨g', hg', -, rfl⟩ := hreorder _ hkeys
      exact hg'
  · refine ((ofEdges_lastWins false hn _).2.1 _).2 ?_
    refine ⟨Edge.joinedTwice, ⟨0, 1, some (-1)⟩, [⟨2, 0, none⟩], rfl, hvalid, ?_⟩
    exact .weight (by decide) (by decide) rfl (.inr (by decide +kernel))

end GraphQubo
