import GraphQubo.Proofs.Compile.Refusal
import GraphQubo.Proofs.Coefficient.Order
import GraphQubo.Proofs.Job.Encoding
import GraphQubo.Proofs.Toml.Library

/-!
# GraphQubo.Proofs.Job.TomlText

Configurations and jobs are read back from their TOML texts.

This holds for every library that is faithful: one that writes tables, arrays, flags, whole numbers
up to `2^63 - 1` and numbers other than NaN so that they are read back unchanged, skips fields
without a value, and refuses greater whole numbers.  Only numbers can stop a record from being
written, and a weight that is not finite is refused when it is read.

* `Job.holds_table`, `Constraints.HasFiniteWeights.holds_table` — the tables of records are among
  those that are read back;
* `tomlText_readsBack` — what the texts of jobs and configurations are read as.
-/

namespace GraphQubo

open Document Toml

/-! ## Entries of records -/

namespace Toml

/-- Entries that stand on lines. -/
def AreWords (t : Table) : Prop := ∀ e ∈ t, e.2.IsWord

theorem AreWords.append {t u : Table} (ht : AreWords t) (hu : AreWords u) : AreWords (t ++ u) :=
  List.forall_mem_append.2 ⟨ht, hu⟩

theorem areWords_flag (key : String) (b : Bool) : AreWords [(key, .flag b)] :=
  List.forall_mem_singleton.2 (.flag b)

theorem areWords_natural (key : String) {n : Nat} (hn : n < integerLimit) :
    AreWords [(key, .natural n)] :=
  List.forall_mem_singleton.2 (.natural hn)

/-- An optional whole number, if TOML has it. -/
theorem areWords_naturalField (key : String) {field : Option Nat}
    (h : HasIntegers field.toList) : AreWords (fieldEntries key .natural field) := by
  cases field with
  | none => exact List.forall_mem_nil _
  | some n => exact areWords_natural key (h n List.mem_cons_self)

/-- An optional number, if it is not NaN. -/
theorem areWords_numberField (key : String) {field : Option Float}
    (h : ∀ x, field = some x → x.isNaN = false) : AreWords (fieldEntries key .number field) := by
  cases field with
  | none => exact List.forall_mem_nil _
  | some x => exact List.forall_mem_singleton.2 (.number (h x rfl))

section Fields

variable {names : List String} (hbare : ∀ name ∈ names, IsBareKey name) (hnodup : names.Nodup)

include hbare hnodup

/-- A record of lines and then sections. -/
theorem holds_append {lines below : Table} (hlines : AreWords lines)
    (hkeys : ((lines ++ below).map Prod.fst).Sublist names)
    (hsection : ∀ e ∈ below, e.2.isSection = true)
    (hbelow : ∀ e ∈ below, ∀ t ∈ e.2.tables, Holds t) : Holds (lines ++ below) :=
  .intro (fun _ he => hbare _ (hkeys.subset (List.mem_map_of_mem (f := Prod.fst) he)))
    (hnodup.sublist hkeys) hlines hsection hbelow

/-- A record of lines. -/
theorem AreWords.holds {t : Table} (ht : AreWords t) (hkeys : (t.map Prod.fst).Sublist names) :
    Holds t := by
  have hholds : Holds (t ++ []) := holds_append hbare hnodup ht (by rwa [List.append_nil])
    (List.forall_mem_nil _) (List.forall_mem_nil _)
  rwa [List.append_nil] at hholds

end Fields

end Toml

/-! ## Tables of records -/

/-- The set weights of a configuration are finite. -/
def Constraints.HasFiniteWeights (c : Constraints Float) : Prop :=
  ∀ p w, c.weights p = some w → w.isFinite = true

/-- The set weights of a list of edges are numbers or infinities. -/
def HasNumberWeights (es : List (Edge Float)) : Prop :=
  ∀ e ∈ es, ∀ w, e.weight = some w → w.isNaN = false

/-- An edge is a table of lines. -/
theorem Edge.holds_table {e : Edge Float} (hintegers : HasIntegers e.wholeNumbers)
    (hweight : ∀ w, e.weight = some w → w.isNaN = false) : Holds e.table := by
  have hends := hasIntegers_cons.1 hintegers
  have hsource := areWords_natural "from" hends.1
  have htarget := areWords_natural "to" (hasIntegers_cons.1 hends.2).1
  have hlines : AreWords e.table :=
    (hsource.append htarget).append (areWords_numberField "weight" hweight)
  exact hlines.holds (by decide) (by decide) e.sublist_table

/-- A configuration is a table of lines. -/
theorem Constraints.HasFiniteWeights.holds_table {c : Constraints Float}
    (h : c.HasFiniteWeights) : Holds c.table := by
  have hentries : ∀ ps, AreWords (c.entriesOf ps) := by
    intro ps
    induction ps with
    | nil => exact List.forall_mem_nil _
    | cons p ps ih =>
      have hnumber : ∀ w, c.weights p = some w → w.isNaN = false := fun w hw =>
        (Coefficient.isNaN_and_isInf_of_isFinite (h p w hw)).1
      exact (areWords_numberField p.name hnumber).append ih
  have hlines : AreWords c.table :=
    (hentries _).append ((areWords_flag _ _).append (areWords_flag _ _))
  exact hlines.holds (by decide) (by decide) c.sublist_table

/-- A graph is a table of lines and a section for each edge. -/
theorem GraphDescription.holds_table {d : GraphDescription Float}
    (hintegers : HasIntegers d.wholeNumbers) (hweights : HasNumberWeights d.edges) :
    Holds d.table := by
  have hsplit := hasIntegers_append.1 hintegers
  have hfields : AreWords ([("directed", .flag d.directed)] ++
      fieldEntries "node_count" .natural d.nodeCount) :=
    (areWords_flag _ _).append (areWords_naturalField _ hsplit.1)
  have hkeys := d.sublist_table
  have hedges : ∀ t ∈ d.edges.map Edge.table, Holds t := List.forall_mem_map.2 fun e he =>
    Edge.holds_table (fun n hn => hsplit.2 n (List.mem_flatMap.2 ⟨e, he, hn⟩)) (hweights e he)
  rw [table] at hkeys ⊢
  cases hd : d.edges with
  | nil =>
    rw [hd] at hkeys
    -- an array without items has no section of its own
    have hnone : AreWords [("edges", .array [])] := List.forall_mem_singleton.2 .nothing
    exact (hfields.append hnone).holds (by decide) (by decide) hkeys
  | cons e es =>
    have hvalues : d.edges.map Edge.value = (d.edges.map Edge.table).map .table := by
      rw [List.map_map]
      rfl
    refine holds_append (by decide) (by decide) hfields (hd ▸ hkeys)
      (List.forall_mem_singleton.2 ?_) (List.forall_mem_singleton.2 ?_)
    · simp [Value.isSection, Value.isTable, Edge.value]
    · rw [← hd, hvalues, Value.tables, filterMap_table?]
      exact hedges

/-- A job is a table of lines and a section for each of its two records. -/
theorem Job.holds_table {j : Job Float} (hintegers : HasIntegers j.wholeNumbers)
    (hweights : j.constraints.HasFiniteWeights) (hedges : HasNumberWeights j.graph.edges) :
    Holds j.table := by
  rw [wholeNumbers, hasIntegers_append, hasIntegers_append, hasIntegers_append] at hintegers
  obtain ⟨⟨⟨hpositions, hstart⟩, hterminal⟩, hgraph⟩ := hintegers
  have hlines := ((areWords_natural "positions" (hpositions _ List.mem_cons_self)).append
    (areWords_naturalField "start_node" hstart)).append
      (areWords_naturalField "terminal_node" hterminal)
  refine holds_append (by decide) (by decide) hlines j.sublist_table
    (List.forall_mem_cons.2 ⟨rfl, List.forall_mem_singleton.2 rfl⟩)
    (List.forall_mem_cons.2 ⟨?_, List.forall_mem_singleton.2 ?_⟩)
  · exact List.forall_mem_singleton.2 hweights.holds_table
  · exact List.forall_mem_singleton.2 (GraphDescription.holds_table hgraph hedges)

/-! ## Texts -/

/-- Finite weights are not refused when a configuration is read. -/
theorem Constraints.HasFiniteWeights.validate {c : Constraints Float} (h : c.HasFiniteWeights) :
    c.validate = .ok () := by
  rw [Constraints.validate, firstNonFinite?_eq_none_iff.2 h]

section Library

variable {library : Library} (hlibrary : library.IsFaithful)

include hlibrary

/-- A configuration with finite weights is read back from its text. -/
theorem Constraints.readToml_writeToml? {c : Constraints Float} (h : c.HasFiniteWeights) :
    ∃ text, c.writeToml? library = some text ∧ Constraints.readToml library text = .ok c := by
  obtain ⟨text, hwrite, hread⟩ := hlibrary.readsBack c.fields (c.entries_fields ▸ h.holds_table)
  refine ⟨text, hwrite, ?_⟩
  rw [readToml, hread, c.entries_fields, Option.bind_some, c.ofDocument?_table, checked, h.validate]
  rfl

/-- A job with finite weights, and whole numbers that TOML has, is read back from its text. -/
theorem Job.readToml_writeToml? {j : Job Float} (hintegers : HasIntegers j.wholeNumbers)
    (hweights : j.constraints.HasFiniteWeights) (hedges : HasNumberWeights j.graph.edges) :
    ∃ text, j.writeToml? library = some text ∧ Job.readToml library text = .ok j := by
  obtain ⟨text, hwrite, hread⟩ := hlibrary.readsBack j.fields
    (j.entries_fields ▸ holds_table hintegers hweights hedges)
  refine ⟨text, hwrite, ?_⟩
  rw [readToml, hread, j.entries_fields, Option.bind_some, j.ofDocument?_table, checked,
    hweights.validate]
  rfl

/-- A job with a whole number that TOML does not have has no text. -/
theorem Job.writeToml?_eq_none {j : Job Float} {n : Nat} (hn : n ∈ j.wholeNumbers)
    (hle : integerLimit ≤ n) : j.writeToml? library = none :=
  hlibrary.refuses j.fields n (j.naturals_fields ▸ hn) hle

end Library

/-- The text of a configuration is what the library of this project writes. -/
theorem Constraints.writeToml?_standard (c : Constraints Float) :
    c.writeToml? .standard = some c.toToml := by
  refine if_pos ?_
  rw [c.naturals_fields]
  rfl

/-- **Jobs and configurations survive their TOML texts**, whichever faithful library writes and
reads them.  A job whose set weights are finite, whose edge weights are not NaN and whose whole
numbers are at most `2^63 - 1` has a text, and the text is read as the same job.  A job with a
greater whole number has no text.  A configuration whose set weights are finite has a text and is
read from it as it was. -/
theorem tomlText_readsBack (library : Library) (hlibrary : library.IsFaithful) :
    (∀ j : Job Float, j.constraints.HasFiniteWeights → HasNumberWeights j.graph.edges →
      (∀ n ∈ j.wholeNumbers, n ≤ 2 ^ 63 - 1) →
      ∃ text, j.writeToml? library = some text ∧ Job.readToml library text = .ok j) ∧
    (∀ j : Job Float, (∃ n ∈ j.wholeNumbers, 2 ^ 63 - 1 < n) → j.writeToml? library = none) ∧
    (∀ c : Constraints Float, c.HasFiniteWeights →
      ∃ text, c.writeToml? library = some text ∧ Constraints.readToml library text = .ok c) := by
  have hlimit (n : Nat) : n < integerLimit ↔ n ≤ 2 ^ 63 - 1 := Nat.lt_succ_iff
  refine ⟨fun j hweights hedges hintegers => ?_, fun j hgreat => ?_, fun c hweights => ?_⟩
  · exact Job.readToml_writeToml? hlibrary (fun n hn => (hlimit n).2 (hintegers n hn)) hweights
      hedges
  · obtain ⟨n, hn, hlt⟩ := hgreat
    exact Job.writeToml?_eq_none hlibrary hn hlt
  · exact Constraints.readToml_writeToml? hlibrary hweights

/-- A job with a family of weight zero, a flag, and an edge that is described twice. -/
def repeatedEdgeJob : Job Float where
  positions := 1
  startNode := some 0
  terminalNode := none
  constraints := { Constraints.empty.set .edges 0 with doubleCountCycles := true }
  graph :=
    { directed := false
      nodeCount := none
      edges := [⟨0, 1, some 0.1⟩, ⟨1, 0, none⟩, ⟨0, 1, some 0.1⟩] }

/-- It is read back from its text, but not written with `2^63` positions. -/
theorem tomlText_readsBack_repeatedEdge :
    (∃ text, repeatedEdgeJob.toToml? = some text ∧
      Job.ofText .toml text = .ok repeatedEdgeJob) ∧
    Job.toToml? { repeatedEdgeJob with positions := 2 ^ 63 } = none ∧
    ∃ text, repeatedEdgeJob.constraints.writeToml? .standard = some text ∧
      Constraints.ofText .toml text = .ok repeatedEdgeJob.constraints := by
  have hweights : repeatedEdgeJob.constraints.HasFiniteWeights := by
    intro p w hw
    have hset : (if p = .edges then some 0 else none) = some w := by
      rw [← hw]
      simp [repeatedEdgeJob, Constraints.weights_set]
    obtain ⟨-, rfl⟩ : p = .edges ∧ 0 = w := by simpa using hset
    decide
  have hedges : HasNumberWeights repeatedEdgeJob.graph.edges := by
    have hnumber : (0.1 : Float).isNaN = false := by decide
    have hedge : ∀ w, (Edge.mk 0 1 (some 0.1)).weight = some w → w.isNaN = false :=
      fun w hw => Option.some.inj hw ▸ hnumber
    exact List.forall_mem_cons.2 ⟨hedge, List.forall_mem_cons.2
      ⟨fun _ hw => (nomatch hw), List.forall_mem_singleton.2 hedge⟩⟩
  obtain ⟨hjob, hgreat, hconfiguration⟩ :=
    tomlText_readsBack Library.standard Library.standard_isFaithful
  exact ⟨hjob _ hweights hedges (by decide), hgreat _ ⟨2 ^ 63, List.mem_cons_self, by decide⟩,
    hconfiguration _ hweights⟩

end GraphQubo
