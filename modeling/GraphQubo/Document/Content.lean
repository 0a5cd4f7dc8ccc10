/-!
# GraphQubo.Document.Content

What is handed to the writer of a document.

A record is handed over field by field, in the order of their declaration.  An
optional field can be dealt with in two ways: it is handed over without a value,
or it is left out before the writer sees it.  Whole numbers are natural, and as
large as they are.
-/

namespace GraphQubo

/-- A value as it is handed to a writer. -/
inductive Content where
  | flag (b : Bool)
  | natural (n : Nat)
  | number (x : Float)
  | list (items : List Content)
  | record (fields : List (String × Option Content))

namespace Content

/-- The fields of a record, with or without a value. -/
abbrev Fields := List (String × Option Content)

/-- A field that is handed over either way. -/
def optionalField {α : Type} (key : String) (value : α → Content) (x : Option α) : Fields :=
  [(key, x.map value)]

/-- A field that is left out unless it is set. -/
def fieldIfSet {α : Type} (key : String) (value : α → Content) (x : Option α) : Fields :=
  (x.map fun v => (key, some (value v))).toList

mutual

/-- The whole numbers in a value. -/
def naturals : Content → List Nat
  | .natural n => [n]
  | .list items => naturalsOfItems items
  | .record fields => naturalsOfFields fields
  | _ => []

/-- The whole numbers in the items of a list. -/
def naturalsOfItems : List Content → List Nat
  | [] => []
  | c :: rest => c.naturals ++ naturalsOfItems rest

/-- The whole numbers in the fields of a record. -/
def naturalsOfFields : List (String × Option Content) → List Nat
  | [] => []
  | (_, none) :: rest => naturalsOfFields rest
  | (_, some c) :: rest => c.naturals ++ naturalsOfFields rest

end

end Content

end GraphQubo
