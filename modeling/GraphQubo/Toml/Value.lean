import GraphQubo.Document.Record

/-!
# GraphQubo.Toml.Value

What a TOML document holds.

Values know their kind: a whole number answers for a number as well, nothing
else stands for anything but itself, and there is no absent value.  An array
may take the place of a record; its items are the fields in declaration order,
and fields beyond its end are missing.
-/

namespace GraphQubo.Toml

/-- A value. -/
inductive Value where
  | flag (b : Bool)
  | integer (i : Int)
  | number (x : Float)
  | text (s : String)
  /-- A date, a time or both, as written. -/
  | moment (s : String)
  | array (items : List Value)
  | table (entries : List (String × Value))

/-- The first whole number that a document cannot hold, `2^63`. -/
def integerLimit : Nat := 9223372036854775808

/-- The entries of a table in the order of their keys. -/
abbrev Table := List (String × Value)

/-- A value as a number. -/
def Value.number? : Value → Option Float
  | .number x => some x
  | .integer i => some (if i < 0 then -Float.ofNat i.natAbs else Float.ofNat i.natAbs)
  | _ => none

/-- A value as a natural number. -/
def Value.natural? : Value → Option Nat
  | .integer i => if i < 0 then none else some i.natAbs
  | _ => none

/-- A value as a flag. -/
def Value.flag? : Value → Option Bool
  | .flag b => some b
  | _ => none

/-- A value as a list. -/
def Value.items? : Value → Option (List Value)
  | .array items => some items
  | _ => none

/-- A value as a record with the given field names. -/
def Value.fields? (names : List String) : Value → Option (List (String × Value))
  | .table entries => some entries
  | .array items => some (names.zip items)
  | _ => none

instance : DocumentValue Value where
  fields? := Value.fields?
  items? := Value.items?
  number? := Value.number?
  natural? := Value.natural?
  flag? := Value.flag?
  isAbsent _ := false

end GraphQubo.Toml
