import GraphQubo.Proofs.Toml.Statements

/-!
# GraphQubo.Proofs.Toml.Document

A table is read back from its text.

What follows a header does to the table that it opens what it would do to an empty document
(`foldlM_below`), so by induction the statements of a table make the table again.

* `adds_section` — the statements of a section add it to a document;
* `Fits.isMade` — the statements of a table make it;
* `parse?_render` — a table is read back.
-/

namespace GraphQubo.Toml

/-! ## Tables in the making -/

/-- Entries are turned into values one by one. -/
theorem entryValues_append (es fs : Entries) :
    entryValues (es ++ fs) = entryValues es ++ entryValues fs := by
  induction es with
  | nil => rfl
  | cons e es ih => rw [List.cons_append, entryValues, entryValues, ih, List.cons_append]

/-- Entries keep their keys when they become values. -/
theorem map_fst_entryValues (es : Entries) :
    (entryValues es).map Prod.fst = es.map Prod.fst := by
  induction es with
  | nil => rfl
  | cons e es ih => rw [entryValues, List.map_cons, List.map_cons, ih]

/-- The values of finished tables come before those that follow. -/
theorem olderValues_eq (older : List Entries) (later : List Value) :
    olderValues older later = olderValues older [] ++ later := by
  induction older generalizing later with
  | nil => rfl
  | cons es older ih => rw [olderValues, olderValues, ih, ih [_], List.append_assoc]; rfl

/-- A key that does not occur is not found. -/
theorem lookup_eq_none {key : String} {es : Entries} (h : key ∉ es.map Prod.fst) :
    es.lookup key = none :=
  List.lookup_eq_none_iff.2 fun _ he =>
    bne_iff_ne.2 fun heq => h (heq ▸ List.mem_map_of_mem (f := Prod.fst) he)

section Last

variable {key : String} {es : Entries} (hkey : key ∉ es.map Prod.fst)

include hkey

/-- The last entry is found under a key that is new. -/
theorem lookup_last (e : Entry) : (es ++ [(key, e)]).lookup key = some e := by
  rw [List.lookup_append, lookup_eq_none hkey]
  simp

/-- The last entry is replaced under a key that is new. -/
theorem replaceEntry_last (old new : Entry) :
    replaceEntry key new (es ++ [(key, old)]) = es ++ [(key, new)] := by
  have hsame : es.map (fun e => if e.1 = key then (key, new) else e) = es :=
    (List.map_congr_left fun e he => if_neg fun (heq : e.1 = key) =>
      hkey (heq ▸ List.mem_map_of_mem (f := Prod.fst) he)).trans (List.map_id _)
  rw [replaceEntry, List.map_append, hsame, List.map_singleton, if_pos rfl]

end Last

/-- An entry as it depends on the table that following statements change. -/
inductive IsOpen : (Entries → Entry) → Prop where
  | table (m : Making) : IsOpen (.table m)
  | newest (older : List Entries) : IsOpen fun es => .tables es older

/-- A draft as what is below the last key of another one. -/
def Draft.under (es : Entries) (key : String) (hold : Entries → Entry) (d : Draft) : Draft :=
  ⟨key :: d.current, es ++ [(key, hold d.entries)]⟩

section Below

variable {key : String} {es : Entries} {hold : Entries → Entry}
  (hkey : key ∉ es.map Prod.fst) (hhold : IsOpen hold)

include hkey hhold

/-- A change below the last entry is a change of that entry. -/
theorem within?_last (change : Entries → Option Entries) (path : List String) (inner : Entries) :
    within? change (key :: path) (es ++ [(key, hold inner)]) =
      (within? change path inner).map fun inner => es ++ [(key, hold inner)] := by
  rw [within?, lookup_last hkey]
  cases hhold <;> cases hinner : within? change path inner <;>
    simp [hinner, replaceEntry_last hkey]

/-- So is a change at the end of a path that begins there. -/
theorem atLastKey?_last (change : String → Entries → Option Entries) {path : List String}
    (hpath : path ≠ []) (inner : Entries) :
    atLastKey? change (key :: path) (es ++ [(key, hold inner)]) =
      (atLastKey? change path inner).map fun inner => es ++ [(key, hold inner)] := by
  obtain ⟨name, rest, rfl⟩ := List.exists_cons_of_ne_nil hpath
  rw [atLastKey?, atLastKey?, List.getLast?_cons_cons, List.dropLast_cons_of_ne_nil hpath]
  cases (name :: rest).getLast? with
  | none => rfl
  | some last => exact within?_last hkey hhold _ _ _

/-- A statement below a key does to the entry of that key what it does to a document. -/
theorem step_below {s : Statement} (hs : s.path ≠ []) {d d' : Draft}
    (h : Draft.apply? d s = some d') :
    Draft.apply? (d.under es key hold) (s.below [key]) = some (d'.under es key hold) := by
  cases s with
  | header path | arrayHeader path =>
    have hpath : path ≠ [] := hs
    obtain ⟨inner, hinner, rfl⟩ := Option.map_eq_some_iff.1 h
    simp only [Statement.below, Draft.apply?, Draft.under, List.singleton_append,
      atLastKey?_last hkey hhold _ hpath, hinner, Option.map_some]
  | assign path v =>
    obtain ⟨inner, hinner, rfl⟩ := Option.map_eq_some_iff.1 h
    simp only [Statement.below, Draft.apply?, Draft.under, within?_last hkey hhold, hinner,
      Option.map_some]

/-- Statements below a key do to its entry what they do to a document. -/
theorem foldlM_below {ss : List Statement} (hss : ∀ s ∈ ss, s.path ≠ []) {d d' : Draft}
    (h : ss.foldlM Draft.apply? d = some d') :
    (ss.map (Statement.below [key])).foldlM Draft.apply? (d.under es key hold) =
      some (d'.under es key hold) := by
  induction ss generalizing d with
  | nil => exact congrArg (fun d => some (d.under es key hold)) (Option.some.inj h)
  | cons s ss ih =>
    rw [List.foldlM_cons] at h
    obtain ⟨next, hnext, hrest⟩ := Option.bind_eq_some_iff.1 h
    rw [List.map_cons, List.foldlM_cons,
      step_below hkey hhold (hss s List.mem_cons_self) hnext]
    exact ih (fun s hs => hss s (List.mem_cons_of_mem _ hs)) hrest

/-- The statements of a table below a key fill the empty entry of that key. -/
theorem foldlM_below_statements {t : Table} (hpaths : ∀ s ∈ statements t, s.path ≠ [])
    (ht : document? (statements t) = some t) :
    ∃ current inner, entryValues inner = t ∧
      ((statements t).map (Statement.below [key])).foldlM Draft.apply?
        ⟨[key], es ++ [(key, hold [])]⟩ = some ⟨current, es ++ [(key, hold inner)]⟩ := by
  obtain ⟨d, hd, hvalues⟩ := Option.map_eq_some_iff.1 ht
  exact ⟨key :: d.current, d.entries, hvalues, foldlM_below hkey hhold hpaths hd⟩

end Below

/-- Statements add entries to every document that has none of their keys. -/
def Adds (ss : List Statement) (t : Table) : Prop := ∀ d : Draft,
  (∀ key ∈ t.map Prod.fst, key ∉ d.entries.map Prod.fst) →
    ∃ d', ss.foldlM Draft.apply? d = some d' ∧ entryValues d'.entries = entryValues d.entries ++ t

/-- Statements that add entries one after the other, with different keys. -/
theorem Adds.append {ss ss' : List Statement} {t t' : Table} (h : Adds ss t) (h' : Adds ss' t')
    (hnodup : ((t ++ t').map Prod.fst).Nodup) : Adds (ss ++ ss') (t ++ t') := by
  intro d hfresh
  rw [List.map_append] at hnodup hfresh
  obtain ⟨d₁, hrun, hvalues⟩ := h d fun key hkey => hfresh key (List.mem_append_left _ hkey)
  have hkeys : d₁.entries.map Prod.fst = d.entries.map Prod.fst ++ t.map Prod.fst := by
    rw [← map_fst_entryValues, hvalues, List.map_append, map_fst_entryValues]
  obtain ⟨d₂, hrun', hvalues'⟩ := h' d₁ fun key hkey hmem => by
    rw [hkeys] at hmem
    rcases List.mem_append.1 hmem with hmem | hmem
    · exact hfresh key (List.mem_append_right _ hkey) hmem
    · exact (List.nodup_append.1 hnodup).2.2 key hmem key hkey rfl
  refine ⟨d₂, ?_, by rw [hvalues', hvalues, List.append_assoc]⟩
  rw [List.foldlM_append, hrun]
  exact hrun'

theorem adds_nil : Adds [] [] := fun d _ => ⟨d, rfl, (List.append_nil _).symm⟩

/-- The statements of sections with distinct keys add them in their order. -/
theorem adds_flatMap {below : Table} (hnodup : (below.map Prod.fst).Nodup)
    (hsections : ∀ e ∈ below, Adds (valueStatements e.1 e.2) [e]) :
    Adds (below.flatMap fun e => valueStatements e.1 e.2) below := by
  induction below with
  | nil => exact adds_nil
  | cons e below ih =>
    exact (hsections e List.mem_cons_self).append
      (ih (List.nodup_cons.1 hnodup).2 fun f hf => hsections f (List.mem_cons_of_mem _ hf)) hnodup

/-- The statements of a table make it. -/
structure IsMade (t : Table) : Prop where
  paths : ∀ s ∈ statements t, s.path ≠ []
  made : document? (statements t) = some t

/-- The statements of a table add the table. -/
theorem adds_table {key : String} {t : Table} (ht : IsMade t) :
    Adds (valueStatements key (.table t)) [(key, .table t)] := by
  intro d hfresh
  have hkey : key ∉ d.entries.map Prod.fst := hfresh key List.mem_cons_self
  have hheader : Draft.apply? d (.header [key]) =
      some ⟨[key], d.entries ++ [(key, .table .headed [])]⟩ := by
    simp only [atLastKey?, Draft.apply?, List.getLast?_singleton, Option.bind_some,
      List.dropLast_singleton, within?, openTable?, lookup_eq_none hkey, Option.map_some]
  obtain ⟨current, inner, rfl, hrun⟩ :=
    foldlM_below_statements hkey (.table .headed) ht.paths ht.made
  rw [valueStatements_table, List.foldlM_cons, hheader]
  refine ⟨_, hrun, ?_⟩
  rw [entryValues_append]
  rfl

/-- A further table of an array. -/
theorem foldlM_nextTable {key : String} {t : Table} (ht : IsMade t) {es : Entries}
    (hkey : key ∉ es.map Prod.fst) (current : List String) (newest : Entries)
    (older : List Entries) :
    ∃ current' inner, entryValues inner = t ∧
      (Statement.arrayHeader [key] :: (statements t).map (Statement.below [key])).foldlM
        Draft.apply? ⟨current, es ++ [(key, .tables newest older)]⟩ =
          some ⟨current', es ++ [(key, .tables inner (newest :: older))]⟩ := by
  have hheader : Draft.apply? ⟨current, es ++ [(key, .tables newest older)]⟩ (.arrayHeader [key]) =
      some ⟨[key], es ++ [(key, .tables [] (newest :: older))]⟩ := by
    simp only [atLastKey?, Draft.apply?, List.getLast?_singleton, Option.bind_some,
      List.dropLast_singleton, within?, appendTable?, lookup_last hkey, replaceEntry_last hkey,
      Option.map_some]
  obtain ⟨current', inner, hvalues, hrun⟩ :=
    foldlM_below_statements hkey (.newest (newest :: older)) ht.paths ht.made
  rw [List.foldlM_cons, hheader]
  exact ⟨current', inner, hvalues, hrun⟩

/-- The further tables of an array, after those that it has. -/
theorem foldlM_nextTables {key : String} {es : Entries} (hkey : key ∉ es.map Prod.fst)
    {ts : List Table} (hts : ∀ t ∈ ts, IsMade t) (current : List String) (newest : Entries)
    (older : List Entries) :
    ∃ d, (valueStatements key (.array (ts.map .table))).foldlM Draft.apply?
        ⟨current, es ++ [(key, .tables newest older)]⟩ = some d ∧
      entryValues d.entries = entryValues es ++
        [(key, .array (olderValues older [.table (entryValues newest)] ++ ts.map .table))] := by
  rw [valueStatements_tables]
  induction ts generalizing current newest older with
  | nil =>
    refine ⟨_, rfl, ?_⟩
    rw [entryValues_append, List.map_nil, List.append_nil]
    rfl
  | cons t ts ih =>
    obtain ⟨current', inner, rfl, hrun⟩ :=
      foldlM_nextTable (hts t List.mem_cons_self) hkey current newest older
    obtain ⟨d, hd, hvalues⟩ :=
      ih (fun u hu => hts u (List.mem_cons_of_mem _ hu)) current' inner (newest :: older)
    refine ⟨d, ?_, ?_⟩
    · rw [List.flatMap_cons, List.foldlM_append, hrun]
      exact hd
    · rw [hvalues, olderValues, olderValues_eq older [_, _], olderValues_eq older [_]]
      simp

/-- The statements of a list of tables add the list. -/
theorem adds_tables {key : String} {t : Table} {ts : List Table} (hts : ∀ u ∈ t :: ts, IsMade u) :
    Adds (valueStatements key (.array ((t :: ts).map .table)))
      [(key, .array ((t :: ts).map .table))] := by
  intro d hfresh
  have hkey : key ∉ d.entries.map Prod.fst := hfresh key List.mem_cons_self
  have ht := hts t List.mem_cons_self
  have hheader : Draft.apply? d (.arrayHeader [key]) =
      some ⟨[key], d.entries ++ [(key, .tables [] [])]⟩ := by
    simp only [atLastKey?, Draft.apply?, List.getLast?_singleton, Option.bind_some,
      List.dropLast_singleton, within?, appendTable?, lookup_eq_none hkey, Option.map_some]
  obtain ⟨current, inner, rfl, hrun⟩ := foldlM_below_statements hkey (.newest []) ht.paths ht.made
  obtain ⟨d', hd', hvalues⟩ := foldlM_nextTables hkey
    (fun u hu => hts u (List.mem_cons_of_mem _ hu)) current inner []
  refine ⟨d', ?_, hvalues⟩
  rw [valueStatements_tables] at hd' ⊢
  rw [List.flatMap_cons, List.foldlM_append, List.foldlM_cons, hheader]
  simp only [Option.bind_eq_bind, Option.bind_some, hrun]
  exact hd'

/-- The statements of a section add it to a document. -/
theorem adds_section {key : String} {v : Value} (hv : v.isSection = true)
    (htables : ∀ t ∈ v.tables, IsMade t) : Adds (valueStatements key v) [(key, v)] := by
  rcases Value.cases_of_isSection hv with ⟨t, rfl⟩ | ⟨t, ts, rfl⟩
  · exact adds_table (htables t (List.mem_singleton_self t))
  · rw [Value.tables, filterMap_table?] at htables
    exact adds_tables htables

/-- Assignments of new keys to a document without headers. -/
theorem foldlM_assign {plain : Table} (hnodup : (plain.map Prod.fst).Nodup) (es : Entries)
    (hfresh : ∀ key ∈ plain.map Prod.fst, key ∉ es.map Prod.fst) :
    ∃ fs, (plain.map fun e => Statement.assign [e.1] e.2).foldlM Draft.apply? ⟨[], es⟩ =
      some ⟨[], fs⟩ ∧ entryValues fs = entryValues es ++ plain := by
  induction plain generalizing es with
  | nil => exact ⟨es, rfl, (List.append_nil _).symm⟩
  | cons e plain ih =>
    have hkey := lookup_eq_none (hfresh e.1 List.mem_cons_self)
    have hassign : Draft.apply? ⟨[], es⟩ (.assign [e.1] e.2) =
        some ⟨[], es ++ [(e.1, .leaf e.2)]⟩ := by
      simp [within?, Draft.apply?, putValue?, hkey]
    rw [List.map_cons, List.nodup_cons] at hnodup
    obtain ⟨fs, hrun, hvalues⟩ := ih hnodup.2 (es ++ [(e.1, .leaf e.2)]) fun key hmem => by
      rw [List.map_append, List.mem_append, not_or]
      refine ⟨hfresh key (List.mem_cons_of_mem _ hmem), fun h => hnodup.1 ?_⟩
      exact List.mem_singleton.1 h ▸ hmem
    refine ⟨fs, ?_, ?_⟩
    · rw [List.map_cons, List.foldlM_cons, hassign]
      exact hrun
    · rw [hvalues, entryValues_append, List.append_assoc]
      rfl

/-- A table that fits is made by its statements. -/
theorem Fits.isMade {t : Table} (h : Fits t) : IsMade t := by
  induction h with
  | @intro plain below hkeys hnodup hplain hsection hbelow ih =>
    have hfits : Fits (plain ++ below) := .intro hkeys hnodup hplain hsection hbelow
    refine ⟨fun s hs => (hfits.simple s hs).path.1, ?_⟩
    rw [List.map_append] at hnodup
    obtain ⟨hplainKeys, hbelowKeys, hdisjoint⟩ := List.nodup_append.1 hnodup
    obtain ⟨es, hrun, hvalues⟩ := foldlM_assign hplainKeys [] fun _ _ h => by cases h
    have hkeys : es.map Prod.fst = plain.map Prod.fst := by rw [← map_fst_entryValues, hvalues]; rfl
    obtain ⟨d, hd, hall⟩ := adds_flatMap hbelowKeys
      (fun e he => adds_section (hsection e he) (ih e he)) ⟨[], es⟩ fun key hkey hmem =>
        hdisjoint key (hkeys ▸ hmem) key hkey rfl
    rw [document?, statements_append (fun e he => (hplain e he).2) hsection, List.foldlM_append,
      hrun]
    simp only [Option.bind_eq_bind, Option.bind_some, hd, Option.map_some, hall, hvalues]
    rfl

/-- A table that fits is read back from its text. -/
theorem parse?_render {t : Table} (h : Fits t) : parse? (render t) = some t := by
  rcases toList_render h with htext | htext
  · rw [parse?_eq h.simple htext, h.isMade.made]
  · rw [parse?_eq_of_cons h.simple htext, h.isMade.made]

end GraphQubo.Toml
