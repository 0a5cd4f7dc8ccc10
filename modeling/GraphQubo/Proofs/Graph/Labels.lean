import Mathlib.Data.List.Nodup
import Mathlib.Data.List.Induction
import GraphQubo.Graph.Labels
import GraphQubo.Proofs.Graph.Agreement

/-!
# GraphQubo.Proofs.Graph.Labels

Labels are numbered in the order in which they are first mentioned.

After any calls, the labels are those that the calls mention, each at its first appearance, and an
edge that was added joins the positions of its labels in this list.  More calls only put labels
behind the list, so a position never changes.  What is built is therefore the graph of the added
edges with positions for labels, and the only thing that can be wrong with one is its weight.

* `apply_recorded` — what one call records, `run_eq` — what all calls have recorded;
* `numbered_run` — positions are those of first appearances, for good;
* `built_run` — refusals, and the edges and weights of the graph that is built;
* `labels_canonical` — both, for all calls.
-/

namespace GraphQubo

variable {L K : Type}

/-! ## First appearances -/

section FirstAppearance

variable [DecidableEq L]

/-- A label at the end is dropped if it has been seen, and is kept otherwise. -/
theorem eraseDups_concat (labels : List L) (label : L) :
    (labels ++ [label]).eraseDups =
      if label ∈ labels then labels.eraseDups else labels.eraseDups ++ [label] := by
  rw [List.eraseDups_append]
  by_cases h : label ∈ labels
  · simp [List.removeAll, h]
  · simp [List.removeAll, h, List.eraseDups_cons]

/-- No label is left twice. -/
theorem nodup_eraseDups (labels : List L) : labels.eraseDups.Nodup := by
  induction labels using List.reverseRecOn with
  | nil => exact List.nodup_nil
  | append_singleton labels label ih =>
    rw [eraseDups_concat]
    split
    · exact ih
    · rename_i h
      refine List.nodup_append'.2 ⟨ih, List.nodup_singleton _, ?_⟩
      exact List.disjoint_singleton.2 fun hmem => h (List.mem_eraseDups.1 hmem)

/-- The position of a label does not depend on what is mentioned later. -/
theorem idxOf_eraseDups_append {labels : List L} {label : L} (h : label ∈ labels) (more : List L) :
    (labels ++ more).eraseDups.idxOf label = labels.eraseDups.idxOf label := by
  rw [List.eraseDups_append]
  exact List.idxOf_append_of_mem (List.mem_eraseDups.2 h)

/-- A label that occurs is found at its index. -/
theorem idxOf?_of_mem {labels : List L} {label : L} (h : label ∈ labels) :
    labels.idxOf? label = some (labels.idxOf label) := by
  obtain ⟨i, hi⟩ := Option.isSome_iff_exists.1 (List.isSome_idxOf?.2 h)
  rw [List.idxOf_eq_getD_idxOf?, hi, Option.getD_some]

end FirstAppearance

/-! ## Edges between labels -/

/-- An edge between two labels. -/
structure LabelledEdge (L K : Type) where
  source : L
  target : L
  weight : Option K

namespace LabelledEdge

/-- Whether the edge leads from `source` to `target`, in either direction if undirected. -/
def Joins (directed : Bool) (source target : L) (e : LabelledEdge L K) : Prop :=
  (e.source = source ∧ e.target = target) ∨
    (directed = false ∧ e.source = target ∧ e.target = source)

/-- The weight is that of the last edge between two labels. -/
def LastBetween (directed : Bool) (s t : L) (es : List (LabelledEdge L K)) (x : Option K) : Prop :=
  ∃ before e after, es = before ++ e :: after ∧ e.Joins directed s t ∧ e.weight = x ∧
    ∀ f ∈ after, ¬f.Joins directed s t

/-- The edge between the positions of its labels. -/
def numbered [DecidableEq L] (labels : List L) (e : LabelledEdge L K) : Edge K :=
  ⟨labels.idxOf e.source, labels.idxOf e.target, e.weight⟩

/-- Whether both labels are in the list. -/
def Among (labels : List L) (e : LabelledEdge L K) : Prop :=
  e.source ∈ labels ∧ e.target ∈ labels

/-- The first edge with a weight that no edge may carry. -/
def firstInvalid? [Coefficient K] (es : List (LabelledEdge L K)) : Option (LabelledEdge L K) :=
  es.find? fun e => e.weight.any fun w => !validWeight w

variable [DecidableEq L]

/-- Edges between known labels have known ends. -/
theorem numbered_lt {labels : List L} {e : LabelledEdge L K} (h : e.Among labels) :
    (e.numbered labels).source < labels.length ∧ (e.numbered labels).target < labels.length :=
  ⟨List.idxOf_lt_length_iff.2 h.1, List.idxOf_lt_length_iff.2 h.2⟩

/-- Labels that come later leave the numbers of an edge as they are. -/
theorem numbered_eraseDups_append {labels : List L} {e : LabelledEdge L K} (h : e.Among labels)
    (more : List L) :
    e.numbered (labels ++ more).eraseDups = e.numbered labels.eraseDups := by
  rw [numbered, idxOf_eraseDups_append h.1, idxOf_eraseDups_append h.2]
  rfl

/-- Positions are stored alike if and only if the labels are joined alike. -/
theorem key_numbered_eq_iff {directed : Bool} {labels : List L} {e : LabelledEdge L K}
    (h : e.Among labels) {s t : L} :
    (e.numbered labels).key directed = orient directed (labels.idxOf s) (labels.idxOf t) ↔
      e.Joins directed s t := by
  rw [Edge.key, orient_eq_iff, numbered, Joins]
  simp only [List.idxOf_inj h.1, List.idxOf_inj h.2]

/-- The last edge under two positions is the last one between the labels. -/
theorem lastBetween_iff {directed : Bool} {labels : List L} {es : List (LabelledEdge L K)}
    (h : ∀ e ∈ es, e.Among labels) {s t : L} {x : Option K} :
    LastBetween directed s t es x ↔
      ∃ before e after, es.map (numbered labels) = before ++ e :: after ∧
        e.key directed = orient directed (labels.idxOf s) (labels.idxOf t) ∧ e.weight = x ∧
        ∀ f ∈ after, f.key directed ≠ orient directed (labels.idxOf s) (labels.idxOf t) := by
  constructor
  · rintro ⟨before, e, after, rfl, hjoins, hx, hafter⟩
    obtain ⟨he, hrest⟩ := List.forall_mem_cons.1 (List.forall_mem_append.1 h).2
    refine ⟨before.map (numbered labels), e.numbered labels, after.map (numbered labels), ?_,
      (key_numbered_eq_iff he).2 hjoins, hx, ?_⟩
    · rw [List.map_append, List.map_cons]
    · refine List.forall_mem_map.2 fun f hf hkey => hafter f hf ?_
      exact (key_numbered_eq_iff (hrest f hf)).1 hkey
  · rintro ⟨before, e', after, hes, hkey, hx, hafter⟩
    obtain ⟨before, rest, rfl, rfl, hrest⟩ := List.map_eq_append_iff.1 hes
    obtain ⟨e, after, rfl, rfl, rfl⟩ := List.map_eq_cons_iff.1 hrest
    obtain ⟨he, hrest⟩ := List.forall_mem_cons.1 (List.forall_mem_append.1 h).2
    refine ⟨before, e, after, rfl, (key_numbered_eq_iff he).1 hkey, hx, fun f hf hjoins => ?_⟩
    exact hafter _ (List.mem_map_of_mem hf) ((key_numbered_eq_iff (hrest f hf)).2 hjoins)

/-! ### The first invalid weight -/

variable [Coefficient K]

omit [DecidableEq L] in
/-- A first edge with an invalid weight is the one that is found. -/
theorem firstInvalid?_cons_of_invalid {e : LabelledEdge L K} {w : K} (hw : e.weight = some w)
    (h : validWeight w = false) (es : List (LabelledEdge L K)) :
    firstInvalid? (e :: es) = some e :=
  List.find?_cons_of_pos (by simp [hw, h])

omit [DecidableEq L] in
/-- A valid edge leaves the search to those behind it. -/
theorem firstInvalid?_cons_of_valid {e : LabelledEdge L K}
    (h : ∀ w, e.weight = some w → validWeight w = true) (es : List (LabelledEdge L K)) :
    firstInvalid? (e :: es) = firstInvalid? es :=
  List.find?_cons_of_neg (by simpa [Option.any_eq_false] using h)

/-- The weight that an edge must not have is its only fault. -/
theorem fault_numbered_iff {labels : List L} {e : LabelledEdge L K} (h : e.Among labels)
    {err : Error K} :
    (e.numbered labels).Fault labels.length err ↔
      ∃ w, e.weight = some w ∧ validWeight w = false ∧
        err = .invalidEdgeWeight (labels.idxOf e.source) (labels.idxOf e.target) w := by
  obtain ⟨hsource, htarget⟩ := numbered_lt h
  constructor
  · intro hfault
    cases hfault with
    | source hs => exact absurd hsource (Nat.not_lt.2 hs)
    | target _ ht => exact absurd htarget (Nat.not_lt.2 ht)
    | weight _ _ hw hbad => exact ⟨_, hw, Edge.validWeight_eq_false_iff.2 hbad, rfl⟩
  · rintro ⟨w, hw, hbad, rfl⟩
    exact .weight hsource htarget hw (Edge.validWeight_eq_false_iff.1 hbad)

/-- Edges between positions are refused for the first invalid weight. -/
theorem firstFault_numbered_iff {labels : List L} {es : List (LabelledEdge L K)}
    (h : ∀ e ∈ es, e.Among labels) {err : Error K} :
    Edge.FirstFault labels.length (es.map (numbered labels)) err ↔
      ∃ e w, firstInvalid? es = some e ∧ e.weight = some w ∧
        err = .invalidEdgeWeight (labels.idxOf e.source) (labels.idxOf e.target) w := by
  induction es with
  | nil =>
    constructor
    · rintro ⟨before, e, after, hes, -⟩
      simp at hes
    · rintro ⟨e, w, he, -⟩
      cases he
  | cons e es ih =>
    have he := h e List.mem_cons_self
    rw [List.map_cons, Edge.firstFault_cons, ih fun f hf => h f (List.mem_cons_of_mem e hf)]
    rcases (e.numbered labels).valid_or_exists_fault labels.length with hvalid | ⟨err', hfault⟩
    · have hnot : ¬(e.numbered labels).Fault labels.length err := fun hf => hf.not_valid hvalid
      rw [firstInvalid?_cons_of_valid hvalid.weight]
      simp only [hnot, hvalid, true_and, false_or]
    · have hinvalid := hfault.not_valid
      obtain ⟨w, hw, hbad, -⟩ := (fault_numbered_iff he).1 hfault
      rw [firstInvalid?_cons_of_invalid hw hbad, fault_numbered_iff he]
      simp only [hinvalid, false_and, or_false, Option.some.injEq]
      constructor
      · rintro ⟨v, hv, -, herr⟩
        exact ⟨e, v, rfl, hv, herr⟩
      · rintro ⟨f, v, rfl, hv, herr⟩
        obtain rfl : w = v := Option.some.inj (hw.symm.trans hv)
        exact ⟨w, hw, hbad, herr⟩

end LabelledEdge

/-! ## Asking a graph that was built -/

namespace Graph

variable [Coefficient K] {directed : Bool} {n : Nat} {es : List (Edge K)} {g : Graph K} {v w : Nat}

/-- An edge is there if one with the same ends was added. -/
theorem hasEdge_ofEdges_iff (h : ofEdges directed n es = .ok g) (hv : v < n) (hw : w < n) :
    g.hasEdge v w = true ↔ ∃ e ∈ es, e.key directed = orient directed v w := by
  obtain ⟨-, hdirected, hcount, -⟩ := ofEdges_eq_ok_iff.1 h
  rw [hasEdge_iff_mem_ends (hcount ▸ hv) (hcount ▸ hw), ends_of_mem_iff h, hdirected, List.mem_map]

/-- An edge has the weight of the last one that was added with the same ends. -/
theorem edgeWeight_ofEdges_iff (h : ofEdges directed n es = .ok g) (hv : v < n) (hw : w < n)
    {x : Option K} :
    g.edgeWeight v w = .ok x ↔
      ∃ before e after, es = before ++ e :: after ∧ e.key directed = orient directed v w ∧
        e.weight = x ∧ ∀ f ∈ after, f.key directed ≠ orient directed v w := by
  obtain ⟨-, hdirected, hcount, hedges⟩ := ofEdges_eq_ok_iff.1 h
  rw [(agreesBetween (hcount ▸ hv) (hcount ▸ hw)).weight, hdirected, hedges]
  simp only [Edge.mem_sort_reverse_iff]
  constructor
  · rintro ⟨-, ⟨before, e, after, rfl, rfl, hafter⟩, hends, hx⟩
    refine ⟨before, e, after, rfl, hends, hx, fun f hf hkey => ?_⟩
    obtain ⟨hsource, htarget⟩ := Prod.mk.inj (hkey.trans hends.symm)
    exact hafter f hf hsource htarget
  · rintro ⟨before, e, after, rfl, hkey, hx, hafter⟩
    refine ⟨e.stored directed, ⟨before, e, after, rfl, rfl, fun f hf hsource htarget => ?_⟩,
      hkey, hx⟩
    exact hafter f hf ((Prod.ext hsource htarget : f.key directed = e.key directed).trans hkey)

end Graph

namespace LabelledGraph

/-! ## Calls -/

/-- A call that adds something to a graph in the making. -/
inductive Call (L K : Type) where
  | addNode (label : L)
  | addEdge (source target : L) (weight : Option K)
  | node (label : L)
  | edge (source target : L)
  | weightedEdge (source target : L) (weight : K)

namespace Call

/-- The labels that a call mentions, an edge's source before its target. -/
def labels : Call L K → List L
  | addNode label | node label => [label]
  | addEdge source target _ | edge source target | weightedEdge source target _ =>
    [source, target]

/-- The edge that a call adds. -/
def edge? : Call L K → Option (LabelledEdge L K)
  | addNode _ | node _ => none
  | addEdge source target weight => some ⟨source, target, weight⟩
  | edge source target => some ⟨source, target, none⟩
  | weightedEdge source target weight => some ⟨source, target, some weight⟩

variable [DecidableEq L]

/-- What the call leaves behind. -/
def apply (b : LabelledGraph L K) : Call L K → LabelledGraph L K
  | addNode label => (b.addNode label).2
  | addEdge source target weight => b.addEdge source target weight
  | node label => b.node label
  | edge source target => b.edge source target
  | weightedEdge source target weight => b.weightedEdge source target weight

end Call

/-- The labels that calls mention. -/
def mentioned (calls : List (Call L K)) : List L := calls.flatMap Call.labels

/-- The edges that calls add. -/
def added (calls : List (Call L K)) : List (LabelledEdge L K) := calls.filterMap Call.edge?

theorem mentioned_append (calls later : List (Call L K)) :
    mentioned (calls ++ later) = mentioned calls ++ mentioned later := List.flatMap_append

/-- A call mentions its labels after those of the calls before it. -/
theorem mentioned_concat (calls : List (Call L K)) (c : Call L K) :
    mentioned (calls ++ [c]) = mentioned calls ++ c.labels := by
  rw [mentioned_append, mentioned, mentioned, List.flatMap_singleton]

/-- A call adds its edge after those of the calls before it. -/
theorem added_concat (calls : List (Call L K)) (c : Call L K) :
    added (calls ++ [c]) = added calls ++ c.edge?.toList := by
  rw [added, List.filterMap_append]
  cases h : c.edge? <;> simp [h, added]

/-- The ends of an added edge have been mentioned. -/
theorem among_mentioned {calls : List (Call L K)} {e : LabelledEdge L K} (h : e ∈ added calls) :
    e.Among (mentioned calls) := by
  obtain ⟨c, hc, he⟩ := List.mem_filterMap.1 h
  have hlabels : e.Among c.labels := by
    cases c with
    | addNode label => cases he
    | node label => cases he
    | addEdge source target weight => cases he; simp [LabelledEdge.Among, Call.labels]
    | edge source target => cases he; simp [LabelledEdge.Among, Call.labels]
    | weightedEdge source target weight => cases he; simp [LabelledEdge.Among, Call.labels]
  exact ⟨List.mem_flatMap.2 ⟨c, hc, hlabels.1⟩, List.mem_flatMap.2 ⟨c, hc, hlabels.2⟩⟩

variable [DecidableEq L]

/-- The labels that calls mention, each at its first appearance. -/
def seen (calls : List (Call L K)) : List L := (mentioned calls).eraseDups

/-- What calls leave behind, one after the other. -/
def run (directed : Bool) (calls : List (Call L K)) : LabelledGraph L K :=
  calls.foldl Call.apply (empty directed)

/-- The labels and the edges as they are recorded. -/
def recorded (directed : Bool) (labels : List L) (es : List (LabelledEdge L K)) :
    LabelledGraph L K :=
  ⟨directed, labels.eraseDups, es.map (LabelledEdge.numbered labels.eraseDups)⟩

/-! ## One call -/

section OneCall

variable {directed : Bool} {labels : List L} {es : List (LabelledEdge L K)}

/-- New labels leave the recorded edges as they are. -/
theorem recorded_append (h : ∀ e ∈ es, e.Among labels) (more : List L) :
    recorded directed (labels ++ more) es =
      { recorded directed labels es with labels := (labels ++ more).eraseDups } := by
  have hes : es.map (LabelledEdge.numbered (labels ++ more).eraseDups) =
      es.map (LabelledEdge.numbered labels.eraseDups) :=
    List.map_congr_left fun e he => LabelledEdge.numbered_eraseDups_append (h e he) more
  rw [recorded, hes]
  rfl

/-- A label gets its position among all labels that have been mentioned. -/
theorem addNode_recorded (h : ∀ e ∈ es, e.Among labels) (label : L) :
    (recorded directed labels es).addNode label =
      ((labels ++ [label]).eraseDups.idxOf label, recorded directed (labels ++ [label]) es) := by
  rw [recorded_append h, eraseDups_concat, addNode, indexOf?]
  by_cases hmem : label ∈ labels
  · have hmem' : label ∈ labels.eraseDups := List.mem_eraseDups.2 hmem
    simp only [recorded, idxOf?_of_mem hmem', if_pos hmem]
  · have hmem' : label ∉ labels.eraseDups := fun h => hmem (List.mem_eraseDups.1 h)
    have hnew : (labels.eraseDups ++ [label]).idxOf label = labels.eraseDups.length := by
      rw [List.idxOf_append_of_notMem hmem', List.idxOf_cons_self, Nat.add_zero]
    simp only [recorded, List.idxOf?_eq_none_iff.2 hmem', if_neg hmem, hnew]

/-- An edge gets the positions of its labels. -/
theorem addEdge_recorded (h : ∀ e ∈ es, e.Among labels) (s t : L) (weight : Option K) :
    (recorded directed labels es).addEdge s t weight =
      recorded directed (labels ++ [s, t]) (es ++ [⟨s, t, weight⟩]) := by
  have hsource : ∀ e ∈ es, e.Among (labels ++ [s]) := fun e he =>
    ⟨List.mem_append_left _ (h e he).1, List.mem_append_left _ (h e he).2⟩
  have hs : s ∈ labels ++ [s] := List.mem_append_right _ List.mem_cons_self
  simp only [addEdge, addNode_recorded h s, addNode_recorded hsource t]
  rw [← idxOf_eraseDups_append hs [t], List.append_assoc, List.singleton_append]
  simp only [recorded, List.map_append]
  rfl

/-- A call records the labels it mentions and the edge it adds. -/
theorem apply_recorded (h : ∀ e ∈ es, e.Among labels) (c : Call L K) :
    c.apply (recorded directed labels es) =
      recorded directed (labels ++ c.labels) (es ++ c.edge?.toList) := by
  cases c with
  | addNode label | node label =>
    rw [Call.edge?, Option.toList_none, List.append_nil]
    exact congrArg Prod.snd (addNode_recorded h label)
  | addEdge source target weight => exact addEdge_recorded h source target weight
  | edge source target => exact addEdge_recorded h source target none
  | weightedEdge source target weight => exact addEdge_recorded h source target (some weight)

end OneCall

/-! ## All calls -/

/-- Calls record the labels they mention and the edges they add. -/
theorem run_eq (directed : Bool) (calls : List (Call L K)) :
    run directed calls = recorded directed (mentioned calls) (added calls) := by
  induction calls using List.reverseRecOn with
  | nil => rfl
  | append_singleton calls c ih =>
    have hstep : run directed (calls ++ [c]) = c.apply (run directed calls) := by
      rw [run, List.foldl_append]
      rfl
    rw [hstep, ih, apply_recorded fun e he => among_mentioned he, mentioned_concat, added_concat]

/-- The labels of a builder, in the order in which they were first seen. -/
theorem labels_run (directed : Bool) (calls : List (Call L K)) :
    (run directed calls).labels = seen calls := by
  rw [run_eq]
  rfl

/-- A builder builds the graph of its numbered edges. -/
theorem build_run [Coefficient K] (directed : Bool) (calls : List (Call L K)) :
    (run directed calls).build =
      Graph.ofEdges directed (seen calls).length ((added calls).map (·.numbered (seen calls))) := by
  rw [run_eq]
  rfl

theorem among_seen {calls : List (Call L K)} : ∀ e ∈ added calls, e.Among (seen calls) :=
  fun _ he => (among_mentioned he).imp List.mem_eraseDups.2 List.mem_eraseDups.2

/-! ## Positions -/

/-- The labels are numbered in the order of their first appearance. -/
structure Numbered (directed : Bool) (calls : List (Call L K)) : Prop where
  labels : (run directed calls).labels = seen calls
  distinct : (seen calls).Nodup
  mem : ∀ label, label ∈ seen calls ↔ ∃ c ∈ calls, label ∈ c.labels
  position : ∀ label, label ∈ seen calls →
    (run directed calls).indexOf? label = some ((seen calls).idxOf label)
  unseen : ∀ label, label ∉ seen calls → (run directed calls).indexOf? label = none
  answer : ∀ before label after, calls = before ++ .addNode label :: after →
    ((run directed before).addNode label).1 = (seen calls).idxOf label
  earlier : ∀ before after label i, calls = before ++ after →
    (run directed before).indexOf? label = some i → (run directed calls).indexOf? label = some i

/-- A label that has been seen has its place as its index. -/
theorem indexOf?_run (directed : Bool) {calls : List (Call L K)} {label : L}
    (h : label ∈ seen calls) :
    (run directed calls).indexOf? label = some ((seen calls).idxOf label) := by
  rw [indexOf?, labels_run]
  exact idxOf?_of_mem h

/-- A label without an index has not been seen. -/
theorem indexOf?_run_eq_none_iff (directed : Bool) {calls : List (Call L K)} {label : L} :
    (run directed calls).indexOf? label = none ↔ label ∉ seen calls := by
  rw [indexOf?, labels_run]
  exact List.idxOf?_eq_none_iff

/-- Later calls leave positions as they are. -/
theorem idxOf_seen_append {calls : List (Call L K)} {label : L} (h : label ∈ mentioned calls)
    (later : List (Call L K)) :
    (seen (calls ++ later)).idxOf label = (seen calls).idxOf label := by
  rw [seen, mentioned_append]
  exact idxOf_eraseDups_append h _

/-- The labels of a builder are numbered as they are first seen. -/
theorem numbered_run (directed : Bool) (calls : List (Call L K)) : Numbered directed calls where
  labels := labels_run directed calls
  distinct := nodup_eraseDups _
  mem label := List.mem_eraseDups.trans List.mem_flatMap
  position _ := indexOf?_run directed
  unseen _ := (indexOf?_run_eq_none_iff directed).2
  answer := by
    rintro before label after rfl
    have hmem : label ∈ mentioned (before ++ [.addNode label]) := by
      rw [mentioned_concat]
      exact List.mem_append_right _ List.mem_cons_self
    rw [List.append_cons, idxOf_seen_append hmem, run_eq,
      addNode_recorded fun e he => among_mentioned he, seen, mentioned_concat]
    rfl
  earlier := by
    rintro before after label i rfl hi
    have hseen : label ∈ seen before := by
      by_contra hnot
      rw [(indexOf?_run_eq_none_iff directed).2 hnot] at hi
      cases hi
    have hmem := List.mem_eraseDups.1 hseen
    have hlater : label ∈ seen (before ++ after) := by
      rw [seen, mentioned_append]
      exact List.mem_eraseDups.2 (List.mem_append_left _ hmem)
    rw [indexOf?_run directed hseen] at hi
    rw [indexOf?_run directed hlater, idxOf_seen_append hmem]
    exact hi

/-! ## The graph that is built -/

variable [Coefficient K]

/-- The graph is that of the added edges, with positions for labels. -/
structure Built (directed : Bool) (calls : List (Call L K)) : Prop where
  build : (run directed calls).build =
    Graph.ofEdges directed (seen calls).length ((added calls).map (·.numbered (seen calls)))
  labelled : (run directed calls).buildLabelled =
    (run directed calls).build.map fun g => (g, seen calls)
  full : nodeLimit ≤ (seen calls).length →
    (run directed calls).build = .error (.tooManyNodes (seen calls).length)
  refused : (seen calls).length < nodeLimit → ∀ err, (run directed calls).build = .error err ↔
    ∃ e w, LabelledEdge.firstInvalid? (added calls) = some e ∧ e.weight = some w ∧
      err = .invalidEdgeWeight ((seen calls).idxOf e.source) ((seen calls).idxOf e.target) w
  nodeCount : ∀ g, (run directed calls).build = .ok g → g.nodeCount = (seen calls).length
  edge : ∀ g, (run directed calls).build = .ok g → ∀ s ∈ seen calls, ∀ t ∈ seen calls,
    (g.hasEdge ((seen calls).idxOf s) ((seen calls).idxOf t) = true ↔
      ∃ e ∈ added calls, e.Joins directed s t)
  weight : ∀ g, (run directed calls).build = .ok g → ∀ s ∈ seen calls, ∀ t ∈ seen calls, ∀ x,
    (g.edgeWeight ((seen calls).idxOf s) ((seen calls).idxOf t) = .ok x ↔
      LabelledEdge.LastBetween directed s t (added calls) x)

/-- What a builder builds, after any calls. -/
theorem built_run (directed : Bool) (calls : List (Call L K)) : Built directed calls where
  build := build_run directed calls
  labelled := by
    rw [buildLabelled, labels_run]
    cases (run directed calls).build <;> rfl
  full h := by
    rw [build_run, Graph.ofEdges, Graph.edgeless, dif_neg (Nat.not_lt.2 h)]
    rfl
  refused h err := by
    rw [build_run, Graph.ofEdges_eq_error_iff h, LabelledEdge.firstFault_numbered_iff among_seen]
  nodeCount g h := by
    rw [build_run] at h
    exact (Graph.ofEdges_eq_ok_iff.1 h).2.2.1
  edge g h s hs t ht := by
    rw [build_run] at h
    rw [Graph.hasEdge_ofEdges_iff h (List.idxOf_lt_length_iff.2 hs) (List.idxOf_lt_length_iff.2 ht)]
    simp only [List.mem_map, exists_exists_and_eq_and]
    refine exists_congr fun e => and_congr_right fun he => ?_
    exact LabelledEdge.key_numbered_eq_iff (among_seen e he)
  weight g h s hs t ht x := by
    rw [build_run] at h
    rw [Graph.edgeWeight_ofEdges_iff h (List.idxOf_lt_length_iff.2 hs)
      (List.idxOf_lt_length_iff.2 ht), LabelledEdge.lastBetween_iff among_seen]

end LabelledGraph

open LabelledGraph

/-- Labels are numbered in the order of their first appearance, for good, and the graph that is
built is that of the added edges with positions for labels.  More labels than there are identifiers
end the program.  Otherwise the graph is refused for the first invalid weight, and for nothing else,
or it has a node for each label, an edge where one was added, and its last weight. -/
theorem labels_canonical [DecidableEq L] [Coefficient K] (directed : Bool)
    (calls : List (Call L K)) : Numbered directed calls ∧ Built directed calls :=
  ⟨numbered_run directed calls, built_run directed calls⟩

/-- An edge that is added again, the other way round and without a weight. -/
def LabelledGraph.addedAgain : List (Call String Float) :=
  [.weightedEdge "a" "b" 8, .node "c", .edge "b" "a"]

/-- The second label is still the second node, and the edge to the first has lost its weight. -/
theorem labels_canonical_addedAgain :
    (run false addedAgain).labels = ["a", "b", "c"] ∧
      (run false addedAgain).indexOf? "b" = some 1 ∧
      ∃ g, (run false addedAgain).build = .ok g ∧ g.nodeCount = 3 ∧
        g.edgeWeight 1 0 = .ok none := by
  obtain ⟨hnumbered, hbuilt⟩ := labels_canonical false addedAgain
  have hseen : seen addedAgain = ["a", "b", "c"] := by decide +kernel
  refine ⟨hnumbered.labels.trans hseen, ?_, ?_⟩
  · rw [hnumbered.position "b" (by decide +kernel), hseen]
    rfl
  · have height : validWeight (8 : Float) = true := by decide +kernel
    have hvalid : ∀ e ∈ (added addedAgain).map (·.numbered (seen addedAgain)), e.Valid 3 := by
      rw [hseen]
      refine List.forall_mem_cons.2 ⟨⟨by decide +kernel, by decide +kernel, ?_⟩,
        List.forall_mem_singleton.2 ⟨by decide +kernel, by decide +kernel, ?_⟩⟩
      · simpa [LabelledEdge.numbered] using height
      · simp [LabelledEdge.numbered]
    obtain ⟨g, hg, -⟩ := Graph.exists_ofEdges false (by decide) hvalid
    have hcount : (seen addedAgain).length = 3 := congrArg List.length hseen
    have hbuild : (run false addedAgain).build = .ok g := by
      rw [hbuilt.build, hcount]
      exact hg
    refine ⟨g, hbuild, (hbuilt.nodeCount g hbuild).trans hcount, ?_⟩
    have hlast : LabelledEdge.LastBetween false "b" "a" (added addedAgain) none :=
      ⟨[⟨"a", "b", some 8⟩], ⟨"b", "a", none⟩, [], rfl, .inl ⟨rfl, rfl⟩, rfl, by simp⟩
    have hweight :=
      (hbuilt.weight g hbuild "b" (by decide +kernel) "a" (by decide +kernel) _).2 hlast
    rwa [hseen] at hweight

end GraphQubo
