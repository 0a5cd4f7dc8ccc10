import GraphQubo.Toml.Value

/-!
# GraphQubo.Toml.Entry

Tables in the making.

A document defines its tables piece by piece, and how a table came to be
decides what may still be added to it:

1. a table named on the way to another one (`implicit`) may get a header later;
2. a table that dotted keys made (`dotted`) takes further dotted keys, but no
   header;
3. a table with a header (`headed`) takes neither a second header nor dotted
   keys from outside;
4. an array of tables grows by a header of its own, and everything that names
   it means its newest table;
5. a value is complete: nothing can be added to it.
-/

namespace GraphQubo.Toml

/-- How a table came to be. -/
inductive Making where
  | implicit
  | dotted
  | headed
  deriving DecidableEq, Repr

/-- What a key of a table in the making holds. -/
inductive Entry where
  | leaf (v : Value)
  | table (making : Making) (entries : List (String × Entry))
  /-- An array of tables, the newest one first. -/
  | tables (newest : List (String × Entry)) (older : List (List (String × Entry)))

/-- The entries of a table in the making. -/
abbrev Entries := List (String × Entry)

/-- Replaces what a key holds. -/
def replaceEntry (key : String) (e : Entry) (es : Entries) : Entries :=
  es.map fun old => if old.1 = key then (key, e) else old

/-- Puts a value at the end of a dotted path.  `top` says that the path starts
here; the last key must lie in a table that this path or another dotted one
made. -/
def putValue? (top : Bool) (making : Making) : List String → Value → Entries → Option Entries
  | [], _, _ => none
  | [key], v, es =>
    if !top && making != .dotted then none
    else if (es.lookup key).isSome then none
    else some (es ++ [(key, .leaf v)])
  | key :: rest, v, es =>
    match es.lookup key with
    | none => do
      let inner ← putValue? false .dotted rest v []
      return es ++ [(key, .table .dotted inner)]
    | some (.table m inner) =>
      if m = .headed then none
      else do
        let inner ← putValue? false m rest v inner
        return replaceEntry key (.table m inner) es
    | some (.tables newest older) => do
      let newest ← putValue? false .headed rest v newest
      return replaceEntry key (.tables newest older) es
    | some (.leaf _) => none

/-- Changes the table at the end of a path of headers. -/
def within? (change : Entries → Option Entries) : List String → Entries → Option Entries
  | [], es => change es
  | key :: rest, es =>
    match es.lookup key with
    | none => do return es ++ [(key, .table .implicit (← within? change rest []))]
    | some (.table m inner) => do
      return replaceEntry key (.table m (← within? change rest inner)) es
    | some (.tables newest older) => do
      return replaceEntry key (.tables (← within? change rest newest) older) es
    | some (.leaf _) => none

/-- Gives a table its header. -/
def openTable? (key : String) (es : Entries) : Option Entries :=
  match es.lookup key with
  | none => some (es ++ [(key, .table .headed [])])
  | some (.table .implicit inner) => some (replaceEntry key (.table .headed inner) es)
  | some _ => none

/-- Starts a new table of an array of tables. -/
def appendTable? (key : String) (es : Entries) : Option Entries :=
  match es.lookup key with
  | none => some (es ++ [(key, .tables [] [])])
  | some (.tables newest older) => some (replaceEntry key (.tables [] (newest :: older)) es)
  | some _ => none

mutual

/-- The value of an entry. -/
def Entry.value : Entry → Value
  | .leaf v => v
  | .table _ es => .table (entryValues es)
  | .tables newest older => .array (olderValues older [.table (entryValues newest)])

/-- The values of entries. -/
def entryValues : List (String × Entry) → List (String × Value)
  | [] => []
  | (key, e) :: rest => (key, e.value) :: entryValues rest

/-- The tables of an array, the oldest one first, in front of `later`. -/
def olderValues : List (List (String × Entry)) → List Value → List Value
  | [], later => later
  | es :: rest, later => olderValues rest (.table (entryValues es) :: later)

end

end GraphQubo.Toml
