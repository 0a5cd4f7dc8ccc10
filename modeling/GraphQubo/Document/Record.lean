/-!
# GraphQubo.Document.Record

Reading records from a document, whatever its format.

A record has named fields in a declared order.  A format says how its values
answer five questions (`DocumentValue`); the rules for records are the same for
all formats:

1. a key that names no field is refused, and so is a key given twice;
2. a missing field takes its default, or the record is refused;
3. a value must be of the kind of its field.
-/

namespace GraphQubo

/-- What a document format can say about one of its values. -/
class DocumentValue (V : Type) where
  /-- The keys and values of a record with the given field names. -/
  fields? : List String → V → Option (List (String × V))
  /-- The items of a list. -/
  items? : V → Option (List V)
  number? : V → Option Float
  natural? : V → Option Nat
  flag? : V → Option Bool
  /-- Whether the value stands for no value at all. -/
  isAbsent : V → Bool

namespace Document

variable {V : Type} [DocumentValue V]

/-- A record: the values by the names of their fields. -/
abbrev Record (V : Type) := List (String × V)

/-- Whether every key names a field and none is given twice. -/
def wellKeyed (names : List String) (r : Record V) : Bool :=
  r.all (fun e => names.contains e.1) && decide (r.map Prod.fst).Nodup

/-- The record with the given field names that a value holds. -/
def record? (names : List String) (v : V) : Option (Record V) :=
  (DocumentValue.fields? names v).filter (wellKeyed names)

/-- A field that must be given. -/
def required {α : Type} (read : V → Option α) (r : Record V) (name : String) : Option α :=
  (r.lookup name).bind read

/-- A field with a default. -/
def withDefault {α : Type} (default : α) (read : V → Option α) (r : Record V)
    (name : String) : Option α :=
  match r.lookup name with
  | some v => read v
  | none => some default

/-- A field that may be missing or absent. -/
def optional {α : Type} (read : V → Option α) (r : Record V) (name : String) :
    Option (Option α) :=
  match r.lookup name with
  | some v => if DocumentValue.isAbsent v then some none else (read v).map some
  | none => some none

/-- A list of values of one kind. -/
def listOf {α : Type} (read : V → Option α) (v : V) : Option (List α) :=
  (DocumentValue.items? v).bind fun items => items.mapM read

end Document

end GraphQubo
