import GraphQubo.Proofs.Toml.Lines
import Mathlib.Data.List.Basic

/-!
# GraphQubo.Proofs.Toml.Statements

The text of a table as the lines of statements.

A table is written as an assignment for each plain entry, and then for each section its header
and the statements of the table below it.

* `Fits` — tables that are written in this way;
* `statements`, `Fits.simple` — the statements of a table;
* `Fits.isWritten`, `toList_render` — the text is their lines.
-/

namespace GraphQubo.Toml

/-! ## Tables whose entries fit into lines -/

/-- A value as a table. -/
def Value.table? : Value → Option Table
  | .table t => some t
  | _ => none

/-- The tables that a value consists of. -/
def Value.tables : Value → List Table
  | .array items => items.filterMap Value.table?
  | v => v.table?.toList

/-- A table whose plain entries are written in lines and stand before its sections. -/
inductive Fits : Table → Prop where
  | intro {plain below : Table} (hkeys : ∀ e ∈ plain ++ below, IsBareKey e.1)
      (hnodup : ((plain ++ below).map Prod.fst).Nodup)
      (hplain : ∀ e ∈ plain, e.2.Plain ∧ e.2.isSection = false)
      (hsection : ∀ e ∈ below, e.2.isSection = true)
      (hbelow : ∀ e ∈ below, ∀ t ∈ e.2.tables, Fits t) : Fits (plain ++ below)

theorem filterMap_table? (ts : List Table) : (ts.map Value.table).filterMap Value.table? = ts := by
  rw [List.filterMap_map]
  exact List.filterMap_some

/-- A section is a table, or an array of at least one table. -/
theorem Value.cases_of_isSection {v : Value} (h : v.isSection = true) :
    (∃ t, v = .table t) ∨ ∃ t ts, v = .array ((t :: ts).map .table) := by
  cases v with
  | table t => exact .inl ⟨t, rfl⟩
  | array items =>
    have hitems : ¬items.isEmpty = true ∧ items.all Value.isTable = true := by
      simpa [Value.isSection] using h
    obtain ⟨hne, hall⟩ := hitems
    have htables : ∃ ts : List Table, items = ts.map .table := by
      clear hne h
      induction items with
      | nil => exact ⟨[], rfl⟩
      | cons v items ih =>
        rw [List.all_cons, Bool.and_eq_true] at hall
        obtain ⟨ts, rfl⟩ := ih hall.2
        cases v with
        | table t => exact ⟨t :: ts, rfl⟩
        | _ => cases hall.1
    obtain ⟨ts, rfl⟩ := htables
    cases ts with
    | nil => exact absurd rfl hne
    | cons t ts => exact .inr ⟨t, ts, rfl⟩
  | _ => cases h

/-! ## The statements of a table -/

/-- A statement of a document as one of a table that stands at a path. -/
def Statement.below (path : List String) : Statement → Statement
  | header rest => header (path ++ rest)
  | arrayHeader rest => arrayHeader (path ++ rest)
  | assign rest v => assign rest v

/-- Placing a statement under a path inside a path. -/
theorem Statement.below_below (outer inner : List String) (s : Statement) :
    (s.below inner).below outer = s.below (outer ++ inner) := by
  cases s <;> simp [below]

/-- An assignment for each plain entry. -/
def plainStatements (t : Table) : List Statement :=
  (t.filter fun e => !e.2.isSection).map fun e => .assign [e.1] e.2

mutual

/-- The statements of the sections of a table. -/
def sectionStatements : List (String × Value) → List Statement
  | [] => []
  | (key, v) :: rest => valueStatements key v ++ sectionStatements rest

/-- The statements of a section. -/
def valueStatements (key : String) : Value → List Statement
  | .table t =>
    .header [key] :: (plainStatements t ++ sectionStatements t).map (Statement.below [key])
  | .array items => if items.all Value.isTable then tableStatements key items else []
  | _ => []

/-- The statements of the tables of an array. -/
def tableStatements (key : String) : List Value → List Statement
  | [] => []
  | .table t :: rest =>
    .arrayHeader [key] :: (plainStatements t ++ sectionStatements t).map (Statement.below [key])
      ++ tableStatements key rest
  | _ :: rest => tableStatements key rest

end

/-- The statements of a table. -/
def statements (t : Table) : List Statement := plainStatements t ++ sectionStatements t

/-- A table is its header, followed by its statements below the key. -/
theorem valueStatements_table (key : String) (t : Table) :
    valueStatements key (.table t) = .header [key] :: (statements t).map (Statement.below [key]) := by
  rw [valueStatements, statements]

/-- A list of tables is one header and one body for each of them. -/
theorem valueStatements_tables (key : String) (ts : List Table) :
    valueStatements key (.array (ts.map .table)) = ts.flatMap fun t =>
      .arrayHeader [key] :: (statements t).map (Statement.below [key]) := by
  have hall : (ts.map Value.table).all Value.isTable = true := by
    simp [List.all_eq_true, Value.isTable]
  rw [valueStatements, if_pos hall]
  clear hall
  induction ts with
  | nil => simp [tableStatements]
  | cons t ts ih => rw [List.map_cons, tableStatements, ih, List.flatMap_cons, statements]

/-- A plain value adds no section. -/
theorem valueStatements_plain {v : Value} (hv : v.isSection = false) (key : String) :
    valueStatements key v = [] := by
  cases v with
  | table t => cases hv
  | array items =>
    cases items with
    | nil => simp [valueStatements, tableStatements]
    | cons v items =>
      have hall : (v :: items).all Value.isTable = false := by simpa [Value.isSection] using hv
      rw [valueStatements, hall]
      rfl
  | _ => rfl

/-- The sections of a table, entry after entry. -/
theorem sectionStatements_eq (t : Table) :
    sectionStatements t = t.flatMap fun e => valueStatements e.1 e.2 := by
  induction t with
  | nil => rfl
  | cons e t ih => rw [sectionStatements, ih, List.flatMap_cons]

/-- The statements of a table are those of its plain entries and then those of its sections. -/
theorem statements_append {plain below : Table} (hplain : ∀ e ∈ plain, e.2.isSection = false)
    (hsection : ∀ e ∈ below, e.2.isSection = true) :
    statements (plain ++ below) = plain.map (fun e => .assign [e.1] e.2) ++
      below.flatMap fun e => valueStatements e.1 e.2 := by
  have hassigned : (plain ++ below).filter (fun e => !e.2.isSection) = plain := by
    rw [List.filter_append, List.filter_eq_self.2, List.filter_eq_nil_iff.2, List.append_nil]
    · simpa using hsection
    · simpa using hplain
  have hnone : plain.flatMap (fun e => valueStatements e.1 e.2) = [] :=
    List.flatMap_eq_nil_iff.2 fun e he => valueStatements_plain (hplain e he) e.1
  rw [statements, plainStatements, hassigned, sectionStatements_eq, List.flatMap_append, hnone,
    List.nil_append]

/-- A simple statement stays simple below a path of bare keys. -/
theorem Statement.Simple.below {s : Statement} (hs : s.Simple) {path : List String}
    (hpath : ∀ key ∈ path, IsBareKey key) : (s.below path).Simple := by
  have hlonger {rest : List String} (hrest : IsBarePath rest) : IsBarePath (path ++ rest) :=
    ⟨fun h => hrest.1 (List.append_eq_nil_iff.1 h).2, List.forall_mem_append.2 ⟨hpath, hrest.2⟩⟩
  cases s with
  | header rest | arrayHeader rest => exact ⟨hlonger hs.path, fun _ _ h => by cases h⟩
  | assign rest v => exact hs

theorem isBarePath_singleton {key : String} (hkey : IsBareKey key) : IsBarePath [key] :=
  ⟨List.cons_ne_nil _ _, List.forall_mem_singleton.2 hkey⟩

/-- The statements of a section are simple if those of its tables are. -/
theorem simple_of_mem_valueStatements {key : String} (hkey : IsBareKey key) {v : Value}
    (hv : v.isSection = true) (htables : ∀ t ∈ v.tables, ∀ s ∈ statements t, s.Simple)
    {s : Statement} (hs : s ∈ valueStatements key v) : s.Simple := by
  have hheader : (Statement.header [key]).Simple := ⟨isBarePath_singleton hkey, fun _ _ h => by cases h⟩
  have harray : (Statement.arrayHeader [key]).Simple :=
    ⟨isBarePath_singleton hkey, fun _ _ h => by cases h⟩
  have hinner {t : Table} (ht : t ∈ v.tables) :
      ∀ s ∈ (statements t).map (Statement.below [key]), s.Simple :=
    List.forall_mem_map.2 fun s hs => (htables t ht s hs).below (List.forall_mem_singleton.2 hkey)
  rcases Value.cases_of_isSection hv with ⟨t, rfl⟩ | ⟨t, ts, rfl⟩
  · rw [valueStatements_table] at hs
    exact List.forall_mem_cons.2 ⟨hheader, hinner (List.mem_singleton_self t)⟩ s hs
  · rw [valueStatements_tables] at hs
    obtain ⟨u, hu, hs⟩ := List.mem_flatMap.1 hs
    rw [Value.tables, filterMap_table?] at hinner
    exact List.forall_mem_cons.2 ⟨harray, hinner hu⟩ s hs

/-- The statements of a table that fits are simple. -/
theorem Fits.simple {t : Table} (h : Fits t) : ∀ s ∈ statements t, s.Simple := by
  induction h with
  | intro hkeys hnodup hplain hsection hbelow ih =>
    rw [statements_append (fun e he => (hplain e he).2) hsection]
    refine List.forall_mem_append.2 ⟨List.forall_mem_map.2 fun e he => ?_, fun s hs => ?_⟩
    · exact ⟨isBarePath_singleton (hkeys e (List.mem_append_left _ he)),
        fun _ _ h => by cases h; exact (hplain e he).1⟩
    · obtain ⟨e, he, hs⟩ := List.mem_flatMap.1 hs
      exact simple_of_mem_valueStatements (hkeys e (List.mem_append_right _ he)) (hsection e he)
        (ih e he) hs

/-! ## The text is the lines of the statements -/

/-- The lines of the plain entries are those of their statements. -/
theorem toList_plainLines {t : Table} (hkeys : ∀ e ∈ t, IsBareKey e.1) (path : List String) :
    (plainLines t).toList =
      ((plainStatements t).map (Statement.below path)).flatMap Statement.line := by
  rw [plainLines, String.toList_join, plainStatements, List.map_map, List.flatMap_map,
    List.flatMap_map]
  refine List.flatMap_congr fun e he => ?_
  rw [keyText_eq (hkeys e (List.mem_filter.1 he).1)]
  simp [Statement.below, Statement.line, Statement.body, pathChars]

theorem sectionText_plain {v : Value} (hv : v.isSection = false) (path : List String) :
    sectionText path v = "" := by
  cases v with
  | table t => cases hv
  | array items =>
    cases items with
    | nil => simp [sectionText, tableSections]
    | cons v items =>
      have hall : (v :: items).all Value.isTable = false := by simpa [Value.isSection] using hv
      rw [sectionText, hall]
      rfl
  | _ => rfl

/-- The text of the sections, entry after entry. -/
theorem toList_sections (path : List String) (t : Table) :
    (sections path t).toList = t.flatMap fun e => (sectionText (path ++ [e.1]) e.2).toList := by
  induction t with
  | nil => rfl
  | cons e t ih => rw [sections, String.toList_append, ih, List.flatMap_cons]

/-- The text of a table at a path is the lines of its statements there. -/
def IsWritten (t : Table) : Prop := ∀ path, (∀ key ∈ path, IsBareKey key) →
  (plainLines t ++ sections path t).toList =
    ((statements t).map (Statement.below path)).flatMap Statement.line

/-- The lines of the two kinds of headers, as they are written. -/
theorem toList_header {path : List String} (hpath : ∀ key ∈ path, IsBareKey key) :
    ("\n[" ++ pathText path ++ "]\n").toList = (Statement.header path).line ∧
      ("\n[[" ++ pathText path ++ "]]\n").toList = (Statement.arrayHeader path).line := by
  simp only [String.toList_append, toList_pathText hpath]
  constructor <;> simp [Statement.line, Statement.body]

/-- A table at a longer path, and its statements below the two parts of that path. -/
theorem IsWritten.below {t : Table} (h : IsWritten t) {path : List String} {key : String}
    (hpath : ∀ k ∈ path ++ [key], IsBareKey k) :
    (plainLines t ++ sections (path ++ [key]) t).toList =
      (((statements t).map (Statement.below [key])).map (Statement.below path)).flatMap
        Statement.line := by
  rw [List.map_map, h _ hpath]
  congr 2
  funext s
  exact (s.below_below path [key]).symm

/-- The text of a list of tables is that of its statements. -/
theorem toList_tableSections {path : List String} {key : String}
    (hpath : ∀ k ∈ path ++ [key], IsBareKey k) {ts : List Table} (hts : ∀ t ∈ ts, IsWritten t) :
    (tableSections (path ++ [key]) (ts.map .table)).toList =
      ((valueStatements key (.array (ts.map .table))).map (Statement.below path)).flatMap
        Statement.line := by
  rw [valueStatements_tables]
  induction ts with
  | nil => rfl
  | cons t ts ih =>
    have ht := (hts t List.mem_cons_self).below hpath
    rw [List.map_cons, tableSections, String.toList_append, String.append_assoc,
      String.toList_append, (toList_header hpath).2, ht,
      ih fun u hu => hts u (List.mem_cons_of_mem _ hu)]
    simp [Statement.below]

/-- The text of a section is that of its statements. -/
theorem toList_sectionText {path : List String} {key : String}
    (hpath : ∀ k ∈ path ++ [key], IsBareKey k) {v : Value} (hv : v.isSection = true)
    (htables : ∀ t ∈ v.tables, IsWritten t) :
    (sectionText (path ++ [key]) v).toList =
      ((valueStatements key v).map (Statement.below path)).flatMap Statement.line := by
  rcases Value.cases_of_isSection hv with ⟨t, rfl⟩ | ⟨t, ts, rfl⟩
  · have ht := (htables t (List.mem_singleton_self t)).below hpath
    rw [sectionText, String.append_assoc, String.toList_append, (toList_header hpath).1, ht,
      valueStatements_table]
    rfl
  · have hall : ((t :: ts).map Value.table).all Value.isTable = true := by
      simp [List.all_eq_true, Value.isTable]
    rw [Value.tables, filterMap_table?] at htables
    rw [sectionText, if_pos hall, toList_tableSections hpath htables]

theorem Fits.isWritten {t : Table} (h : Fits t) : IsWritten t := by
  induction h with
  | @intro plain below hkeys hnodup hplain hsection hbelow ih =>
    intro path hpath
    have hsections : (sections path (plain ++ below)).toList =
        ((sectionStatements (plain ++ below)).map (Statement.below path)).flatMap
          Statement.line := by
      rw [toList_sections, sectionStatements_eq, List.map_flatMap, List.flatMap_assoc]
      refine List.flatMap_congr fun e he => ?_
      rcases List.mem_append.1 he with hmem | hmem
      · rw [sectionText_plain (hplain e hmem).2, valueStatements_plain (hplain e hmem).2]
        rfl
      · have hlonger : ∀ k ∈ path ++ [e.1], IsBareKey k :=
          List.forall_mem_append.2 ⟨hpath, List.forall_mem_singleton.2 (hkeys e he)⟩
        exact toList_sectionText hlonger (hsection e hmem) (ih e hmem)
    rw [String.toList_append, toList_plainLines hkeys path, hsections, statements, List.map_append,
      List.flatMap_append]

/-- A text that is empty or begins with a line break. -/
def BeginsWithBreak (s : String) : Prop := ∀ c, s.toList.head? = some c → c = '\n'

/-- Texts that begin with a break, or are empty, are closed under concatenation. -/
theorem BeginsWithBreak.append {s t : String} (hs : BeginsWithBreak s) (ht : BeginsWithBreak t) :
    BeginsWithBreak (s ++ t) := by
  intro c hc
  rw [String.toList_append, List.head?_append] at hc
  rcases Option.or_eq_some_iff.1 hc with hc | ⟨-, hc⟩
  · exact hs c hc
  · exact ht c hc

theorem beginsWithBreak_cons {s : String} (h : s.toList.head? = some '\n') :
    BeginsWithBreak s := fun _ hc => Option.some.inj (hc.symm.trans h)

/-- Each of a list of tables begins with a break. -/
theorem beginsWithBreak_tableSections (path : List String) (items : List Value) :
    BeginsWithBreak (tableSections path items) := by
  induction items with
  | nil => exact fun c hc => by cases hc
  | cons v items ih =>
    cases v with
    | table t => exact beginsWithBreak_cons (by simp [tableSections])
    | _ => exact ih

/-- A section begins with a blank line. -/
theorem beginsWithBreak_sectionText (path : List String) (v : Value) :
    BeginsWithBreak (sectionText path v) := by
  cases v with
  | table t => exact beginsWithBreak_cons (by simp [sectionText])
  | array items =>
    rw [sectionText]
    split
    · exact beginsWithBreak_tableSections path items
    · exact fun c hc => by cases hc
  | _ => exact fun c hc => by cases hc

/-- So does everything that is written below the plain entries of a table. -/
theorem beginsWithBreak_sections (path : List String) (t : Table) :
    BeginsWithBreak (sections path t) := by
  induction t with
  | nil => exact fun c hc => by cases hc
  | cons e t ih => exact (beginsWithBreak_sectionText _ _).append ih

/-- The text of a table is the lines of its statements, but for a blank line at its beginning. -/
theorem toList_render {t : Table} (h : Fits t) :
    (render t).toList = (statements t).flatMap Statement.line ∨
      '\n' :: (render t).toList = (statements t).flatMap Statement.line := by
  have hwritten := h.isWritten [] fun _ hkey => by cases hkey
  have hsame : (statements t).map (Statement.below []) = statements t :=
    (List.map_congr_left fun s _ => by cases s <;> rfl).trans (List.map_id _)
  rw [← hsame, ← hwritten, render]
  cases hempty : (plainLines t).isEmpty with
  | false => exact .inl rfl
  | true =>
    have hbreak := beginsWithBreak_sections [] t
    rw [String.isEmpty_iff.1 hempty, String.empty_append]
    simp only [if_true, String.toList_copy_drop]
    cases hcs : (sections [] t).toList with
    | nil => exact .inl rfl
    | cons c cs =>
      obtain rfl := hbreak c (by rw [hcs]; rfl)
      exact .inr rfl

end GraphQubo.Toml
