import GraphQubo.Job.Load
import GraphQubo.Proofs.Toml.Content
import Mathlib.Data.List.Nodup
import Mathlib.Data.List.Sublists

/-!
# GraphQubo.Proofs.Job.Encoding

Records of a document hold what was put into them.

A field that is unset has no entry in the table of its record, whether it is left out or handed
over without a value, and reading a record takes a missing field for its default.  For each kind of
record the two rules meet:

* `Edge.ofDocument?_value`, `GraphDescription.ofDocument?_table` — the parts of a graph;
* `Constraints.ofDocument?_table` — the weights and flags of a configuration;
* `Job.ofDocument?_table` — a job;
* `Job.entries_fields`, `Job.naturals_fields` — the table of a job, and its whole numbers.
-/

namespace GraphQubo

open Content Document Toml

/-! ## Fields -/

/-- A natural number as a value. -/
def Toml.Value.natural (n : Nat) : Value := .integer n

/-- TOML has all of the whole numbers. -/
def Toml.HasIntegers (ns : List Nat) : Prop := ∀ n ∈ ns, n < integerLimit

instance (ns : List Nat) : Decidable (Toml.HasIntegers ns) :=
  inferInstanceAs (Decidable (∀ n ∈ ns, n < integerLimit))

/-! ## Whole numbers and keys -/

theorem hasIntegers_cons {n : Nat} {ns : List Nat} :
    HasIntegers (n :: ns) ↔ n < integerLimit ∧ HasIntegers ns := List.forall_mem_cons

/-- Numbers that all are integers of a document, in two lists. -/
theorem hasIntegers_append {ms ns : List Nat} :
    HasIntegers (ms ++ ns) ↔ HasIntegers ms ∧ HasIntegers ns := List.forall_mem_append

/-- Keys that are some of the names, in their order, are the keys of a record. -/
theorem record?_table {names : List String} {t : Table} (hnames : names.Nodup)
    (hkeys : (t.map Prod.fst).Sublist names) : record? names (Value.table t) = some t := by
  have hall : (t.all fun e => names.contains e.1) = true :=
    List.all_eq_true.2 fun e he =>
      List.contains_iff_mem.2 (hkeys.subset (List.mem_map_of_mem (f := Prod.fst) he))
  have hwell : wellKeyed names t = true := by
    rw [wellKeyed, hall, decide_eq_true (hnames.sublist hkeys)]
    rfl
  exact Option.filter_eq_some_iff.2 ⟨rfl, hwell⟩

theorem sublist_fieldEntries {α : Type} (key : String) (value : α → Value) (field : Option α) :
    ((fieldEntries key value field).map Prod.fst).Sublist [key] := by
  cases field with
  | none => exact List.nil_sublist _
  | some x => exact List.Sublist.refl _

/-- A field that is set is found under its key. -/
theorem lookup_fieldEntries {α : Type} (key : String) (value : α → Value) (field : Option α) :
    (fieldEntries key value field).lookup key = field.map value := by
  cases field with
  | none => rfl
  | some x => simp [fieldEntries]

/-- It is not found under another key. -/
theorem lookup_fieldEntries_of_ne {α : Type} {name key : String} (h : name ≠ key)
    (value : α → Value) (field : Option α) : (fieldEntries key value field).lookup name = none := by
  cases field with
  | none => rfl
  | some x => simp [fieldEntries, List.lookup_cons, beq_eq_false_iff_ne.2 h]

/-- An optional field is read as it was written, if its values are. -/
theorem optional_of_lookup {α : Type} {read : Value → Option α} {value : α → Value} {r : Table}
    {name : String} {field : Option α} (hlookup : r.lookup name = field.map value)
    (hread : ∀ x, read (value x) = some x) :
    Document.optional read r name = some field := by
  unfold Document.optional
  rw [hlookup]
  cases field with
  | none => rfl
  | some x => simp [DocumentValue.isAbsent, hread]

/-- A natural number is read from its value. -/
theorem natural?_natural (n : Nat) : DocumentValue.natural? (Value.natural n) = some n := by
  simp [DocumentValue.natural?, Value.natural?, Value.natural]

/-! ## Edges and graphs -/

namespace Edge

/-- The whole numbers of an edge. -/
def wholeNumbers (e : Edge Float) : List Nat := [e.source, e.target]

/-- An edge as a table. -/
def table (e : Edge Float) : Table :=
  [("from", .natural e.source), ("to", .natural e.target)] ++
    fieldEntries "weight" .number e.weight

/-- An edge as a value. -/
def value (e : Edge Float) : Value := .table e.table

/-- What is written is the table of the record. -/
theorem entries_fields (e : Edge Float) : entries e.fields = e.table := by
  rw [fields, entries_append, entries_fieldIfSet]
  rfl

/-- The whole numbers that are written are those of the record. -/
theorem naturals_fields (e : Edge Float) : naturalsOfFields e.fields = e.wholeNumbers := by
  rw [fields, naturalsOfFields_append, naturalsOfFields_fieldIfSet]
  rfl

/-- The keys of an edge are some of its fields, in their order. -/
theorem sublist_table (e : Edge Float) : (e.table.map Prod.fst).Sublist edgeFields := by
  have hweight := sublist_fieldEntries "weight" Value.number e.weight
  rw [table, List.map_append]
  exact (List.Sublist.refl ["from", "to"]).append hweight

/-- An edge is read as it was written. -/
theorem ofDocument?_value (e : Edge Float) : Edge.ofDocument? e.value = some e := by
  have hrecord : record? edgeFields e.value = some e.table :=
    record?_table (by decide) e.sublist_table
  have hlookup : e.table.lookup "weight" = e.weight.map Value.number := by
    simp [table, List.lookup_cons, lookup_fieldEntries]
  have hweight := optional_of_lookup hlookup fun w => (rfl : DocumentValue.number? _ = some w)
  rw [Edge.ofDocument?, hrecord]
  simp only [Option.bind_eq_bind, Option.bind_some, required, hweight]
  simp [table, List.lookup_cons, natural?_natural]

/-- Edges are read as they were written, in their order and with their repetitions. -/
theorem mapM_ofDocument?_value (es : List (Edge Float)) :
    (es.map value).mapM Edge.ofDocument? = some es := by
  rw [List.mapM_map]
  induction es with
  | nil => rfl
  | cons e es ih => simp [ofDocument?_value, ih]

end Edge

namespace GraphDescription

/-- The whole numbers of a description. -/
def wholeNumbers (d : GraphDescription Float) : List Nat :=
  d.nodeCount.toList ++ d.edges.flatMap Edge.wholeNumbers

/-- A description as a table. -/
def table (d : GraphDescription Float) : Table :=
  [("directed", .flag d.directed)] ++ fieldEntries "node_count" .natural d.nodeCount ++
    [("edges", .array (d.edges.map Edge.value))]

/-- What is written of a graph is its table, with one table for each edge. -/
theorem entries_fields (d : GraphDescription Float) : entries d.fields = d.table := by
  have hedges : ofItems (d.edges.map fun e => .record e.fields) = d.edges.map Edge.value := by
    rw [ofItems_eq, List.map_map]
    exact List.map_congr_left fun e _ => congrArg Value.table e.entries_fields
  have hlast : entries [("edges", some (.list (d.edges.map fun e => .record e.fields)))] =
      [("edges", .array (d.edges.map Edge.value))] :=
    congrArg (fun items => [("edges", Value.array items)]) hedges
  rw [fields, entries_append, entries_append, entries_optionalField, hlast]
  rfl

/-- Its whole numbers are its node count and those of its edges. -/
theorem naturals_fields (d : GraphDescription Float) :
    naturalsOfFields d.fields = d.wholeNumbers := by
  have hedges : naturalsOfItems (d.edges.map fun e => .record e.fields) =
      d.edges.flatMap Edge.wholeNumbers := by
    rw [naturalsOfItems_eq, List.flatMap_map]
    exact List.flatMap_congr fun e _ => e.naturals_fields
  have hlast : naturalsOfFields [("edges", some (.list (d.edges.map fun e => .record e.fields)))] =
      d.edges.flatMap Edge.wholeNumbers := (List.append_nil _).trans hedges
  rw [fields, naturalsOfFields_append, naturalsOfFields_append, naturalsOfFields_optionalField,
    hlast]
  rfl

/-- The keys of a description are some of its fields, in their order. -/
theorem sublist_table (d : GraphDescription Float) :
    (d.table.map Prod.fst).Sublist graphFields := by
  have hcount := sublist_fieldEntries "node_count" Value.natural d.nodeCount
  rw [table, List.map_append, List.map_append]
  exact ((List.Sublist.refl ["directed"]).append hcount).append (List.Sublist.refl ["edges"])

/-- A description is read as it was written. -/
theorem ofDocument?_table (d : GraphDescription Float) :
    GraphDescription.ofDocument? (Value.table d.table) = some d := by
  have hrecord : record? graphFields (.table d.table) = some d.table :=
    record?_table (by decide) d.sublist_table
  have hcount : Document.optional DocumentValue.natural? d.table "node_count" = some d.nodeCount :=
    optional_of_lookup (by simp [table, List.lookup_cons, List.lookup_append, lookup_fieldEntries])
      natural?_natural
  have hedges : listOf Edge.ofDocument? (Value.array (d.edges.map Edge.value)) = some d.edges :=
    Edge.mapM_ofDocument?_value d.edges
  rw [GraphDescription.ofDocument?, hrecord]
  simp only [Option.bind_eq_bind, Option.bind_some, hcount, withDefault]
  simp [table, List.lookup_cons, List.lookup_append, lookup_fieldEntries_of_ne, hedges,
    DocumentValue.flag?, Value.flag?]

end GraphDescription

/-! ## Configurations -/

namespace Constraints

/-- The set weights of some families, in their order. -/
def entriesOf (c : Constraints Float) (ps : List Penalty) : Table :=
  ps.flatMap fun p => fieldEntries p.name .number (c.weights p)

theorem sublist_entriesOf (c : Constraints Float) (ps : List Penalty) :
    ((c.entriesOf ps).map Prod.fst).Sublist (ps.map Penalty.name) := by
  induction ps with
  | nil => exact List.Sublist.refl _
  | cons p ps ih =>
    have hp := sublist_fieldEntries p.name Value.number (c.weights p)
    rw [entriesOf, List.flatMap_cons, List.map_append]
    exact hp.append ih

/-- The entry of a family is its weight, if it is set and the family is listed. -/
theorem lookup_entriesOf (c : Constraints Float) (ps : List Penalty) (p : Penalty) :
    (c.entriesOf ps).lookup p.name = if p ∈ ps then (c.weights p).map .number else none := by
  induction ps with
  | nil => rfl
  | cons q ps ih =>
    rw [entriesOf, List.flatMap_cons, List.lookup_append, ← entriesOf, ih]
    by_cases hpq : p = q
    · subst hpq
      rw [lookup_fieldEntries, if_pos List.mem_cons_self]
      cases c.weights p <;> simp
    · have hname : p.name ≠ q.name := fun h => hpq (Penalty.name_injective h)
      rw [lookup_fieldEntries_of_ne hname, Option.none_or]
      simp [hpq]

/-- A key that no family has is not among the weights. -/
theorem lookup_entriesOf_eq_none (c : Constraints Float) {ps : List Penalty} {key : String}
    (hkey : key ∉ ps.map Penalty.name) : (c.entriesOf ps).lookup key = none := by
  rw [List.lookup_eq_none_iff]
  intro e he
  have hmem := (c.sublist_entriesOf ps).subset (List.mem_map_of_mem (f := Prod.fst) he)
  exact bne_iff_ne.2 fun h => hkey (h ▸ hmem)

/-- A configuration as a table. -/
def table (c : Constraints Float) : Table :=
  c.entriesOf Penalty.all ++
    [(doubleCountEdgesKey, .flag c.doubleCountEdges),
      (doubleCountCyclesKey, .flag c.doubleCountCycles)]

/-- What is written of a configuration is its table. -/
theorem entries_fields (c : Constraints Float) : entries c.fields = c.table := by
  have hweights : ∀ ps : List Penalty,
      entries (ps.flatMap fun p => fieldIfSet p.name .number (c.weights p)) = c.entriesOf ps := by
    intro ps
    induction ps with
    | nil => rfl
    | cons p ps ih =>
      rw [List.flatMap_cons, entries_append, entries_fieldIfSet, ih]
      rfl
  rw [fields, entries_append, hweights]
  rfl

/-- There are no whole numbers in a configuration. -/
theorem naturals_fields (c : Constraints Float) : naturalsOfFields c.fields = [] := by
  have hweights : ∀ ps : List Penalty,
      naturalsOfFields (ps.flatMap fun p => fieldIfSet p.name .number (c.weights p)) = [] := by
    intro ps
    induction ps with
    | nil => rfl
    | cons p ps ih =>
      rw [List.flatMap_cons, naturalsOfFields_append, naturalsOfFields_fieldIfSet, ih]
      rfl
  rw [fields, naturalsOfFields_append, hweights]
  rfl

/-- In the table of a configuration every family has its weight. -/
theorem lookup_table (c : Constraints Float) (p : Penalty) :
    c.table.lookup p.name = (c.weights p).map .number := by
  have hflags : p.name ≠ doubleCountEdgesKey ∧ p.name ≠ doubleCountCyclesKey := by
    cases p <;> decide
  rw [table, List.lookup_append, lookup_entriesOf, if_pos (Penalty.mem_all p)]
  simp [List.lookup_cons, beq_eq_false_iff_ne.2 hflags.1, beq_eq_false_iff_ne.2 hflags.2]

/-- Families whose weights a record holds are read into a configuration that has none. -/
theorem foldlM_readWeight {r : Table} {weights : Penalty → Option Float}
    (hr : ∀ p, r.lookup p.name = (weights p).map .number) (ps : List Penalty)
    (c : Constraints Float) :
    ∃ c', ps.foldlM (readWeight r) c = some c' ∧ ∀ p, c'.weights p =
      if p ∈ ps then (weights p).or (c.weights p) else c.weights p := by
  induction ps generalizing c with
  | nil => exact ⟨c, rfl, fun p => rfl⟩
  | cons q ps ih =>
    have hread : Document.optional DocumentValue.number? r q.name = some (weights q) :=
      optional_of_lookup (hr q) fun _ => rfl
    have hnext : readWeight r c q = some ((weights q).elim c (c.set q)) := by
      rw [readWeight, hread]
      cases weights q <;> rfl
    obtain ⟨c', hc', hweights⟩ := ih ((weights q).elim c (c.set q))
    refine ⟨c', by rw [List.foldlM_cons, hnext]; exact hc', fun p => ?_⟩
    have hset : ((weights q).elim c (c.set q)).weights p =
        if p = q then (weights q).or (c.weights q) else c.weights p := by
      by_cases hpq : p = q
      · subst hpq
        cases hw : weights p <;> simp [weights_set]
      · cases weights q <;> simp [weights_set, hpq]
    rw [hweights p, hset]
    by_cases hpq : p = q
    · subst hpq
      cases weights p <;> simp
    · simp [hpq]

/-- The keys of a configuration are some of its fields, in their order. -/
theorem sublist_table (c : Constraints Float) :
    (c.table.map Prod.fst).Sublist constraintFields := by
  rw [table, List.map_append]
  exact (c.sublist_entriesOf _).append (List.Sublist.refl _)

/-- A configuration is read as it was written. -/
theorem ofDocument?_table (c : Constraints Float) :
    Constraints.ofDocument? (Value.table c.table) = some c := by
  have hrecord : record? constraintFields (.table c.table) = some c.table :=
    record?_table (by decide) c.sublist_table
  obtain ⟨c', hc', hweights⟩ := foldlM_readWeight c.lookup_table Penalty.all .empty
  have hsame : ({ c' with
      doubleCountEdges := c.doubleCountEdges
      doubleCountCycles := c.doubleCountCycles } : Constraints Float) = c := by
    refine ext_weights (fun p => ?_) rfl rfl
    rw [weights_flags, hweights, if_pos (Penalty.mem_all p), weights_empty]
    exact Option.or_none
  have hflags : withDefault false DocumentValue.flag? c.table doubleCountEdgesKey =
        some c.doubleCountEdges ∧
      withDefault false DocumentValue.flag? c.table doubleCountCyclesKey =
        some c.doubleCountCycles := by
    have hnone : (c.entriesOf Penalty.all).lookup doubleCountEdgesKey = none ∧
        (c.entriesOf Penalty.all).lookup doubleCountCyclesKey = none :=
      ⟨c.lookup_entriesOf_eq_none (by decide), c.lookup_entriesOf_eq_none (by decide)⟩
    constructor <;> simp only [withDefault, table, List.lookup_append, hnone] <;> rfl
  rw [Constraints.ofDocument?, hrecord]
  simp only [Option.bind_eq_bind, Option.bind_some, hc', hflags]
  exact congrArg some hsame

end Constraints

/-! ## Jobs -/

namespace Job

/-- The whole numbers of a job. -/
def wholeNumbers (j : Job Float) : List Nat :=
  [j.positions] ++ j.startNode.toList ++ j.terminalNode.toList ++ j.graph.wholeNumbers

/-- A job as a table. -/
def table (j : Job Float) : Table :=
  [("positions", .natural j.positions)] ++ fieldEntries "start_node" .natural j.startNode ++
    fieldEntries "terminal_node" .natural j.terminalNode ++
    [("constraints", .table j.constraints.table), ("graph", .table j.graph.table)]

/-- What is written of a job is its table, around those of its parts. -/
theorem entries_fields (j : Job Float) : entries j.fields = j.table := by
  have hparts : entries [("constraints", some (.record j.constraints.fields)),
      ("graph", some (.record j.graph.fields))] =
        [("constraints", .table j.constraints.table), ("graph", .table j.graph.table)] := by
    rw [← j.constraints.entries_fields, ← j.graph.entries_fields]
    rfl
  rw [fields, entries_append, entries_append, entries_append, entries_optionalField,
    entries_optionalField, hparts]
  rfl

/-- The whole numbers that are handed over with a job are those of the job. -/
theorem naturals_fields (j : Job Float) : naturalsOfFields j.fields = j.wholeNumbers := by
  have hparts : naturalsOfFields [("constraints", some (.record j.constraints.fields)),
      ("graph", some (.record j.graph.fields))] = j.graph.wholeNumbers := by
    rw [naturalsOfFields, naturalsOfFields, naturals, naturals, j.constraints.naturals_fields,
      j.graph.naturals_fields, naturalsOfFields, List.append_nil, List.nil_append]
  rw [fields, naturalsOfFields_append, naturalsOfFields_append, naturalsOfFields_append,
    naturalsOfFields_optionalField, naturalsOfFields_optionalField, hparts]
  rfl

/-- The keys of a job are some of its fields, in their order. -/
theorem sublist_table (j : Job Float) : (j.table.map Prod.fst).Sublist jobFields := by
  have hstart := sublist_fieldEntries "start_node" Value.natural j.startNode
  have hterminal := sublist_fieldEntries "terminal_node" Value.natural j.terminalNode
  simp only [table, List.map_append]
  exact (((List.Sublist.refl ["positions"]).append hstart).append hterminal).append
    (List.Sublist.refl ["constraints", "graph"])

/-- A job is read as it was written. -/
theorem ofDocument?_table (j : Job Float) : Job.ofDocument? (Value.table j.table) = some j := by
  have hrecord : record? jobFields (.table j.table) = some j.table :=
    record?_table (by decide) j.sublist_table
  have hstart : Document.optional DocumentValue.natural? j.table "start_node" = some j.startNode :=
    optional_of_lookup (by simp [table, List.lookup_cons, List.lookup_append, lookup_fieldEntries,
      lookup_fieldEntries_of_ne]) natural?_natural
  have hterminal :
      Document.optional DocumentValue.natural? j.table "terminal_node" = some j.terminalNode :=
    optional_of_lookup (by simp [table, List.lookup_cons, List.lookup_append, lookup_fieldEntries,
      lookup_fieldEntries_of_ne]) natural?_natural
  have hconstraints : j.table.lookup "constraints" = some (.table j.constraints.table) := by
    simp [table, List.lookup_cons, List.lookup_append, lookup_fieldEntries_of_ne]
  have hgraph : j.table.lookup "graph" = some (.table j.graph.table) := by
    simp [table, List.lookup_cons, List.lookup_append, lookup_fieldEntries_of_ne]
  have hpositions : j.table.lookup "positions" = some (.natural j.positions) := by
    simp [table]
  rw [Job.ofDocument?, hrecord]
  simp only [Option.bind_eq_bind, Option.bind_some, withDefault, required, hpositions,
    natural?_natural, hstart, hterminal, hconstraints, Constraints.ofDocument?_table, hgraph,
    GraphDescription.ofDocument?_table]
  rfl

end Job

end GraphQubo
