import GraphQubo.Document.Content
import GraphQubo.Toml.Reader
import GraphQubo.Toml.Writer

/-!
# GraphQubo.Toml.Library

Writers and readers of TOML texts.

Records are written and read through a `Library`, which can be any.  A writer
skips fields without a value.  TOML has no whole number above `2^63 - 1`, so a
record with one is not written.  `Library.standard` is the one that is used here.
-/

namespace GraphQubo.Toml

open Content (Fields naturalsOfFields)

/-- A writer and a reader of texts, for the fields of a record. -/
structure Library where
  write? : Fields → Option String
  read? : String → Option Table

mutual

/-- A value as it stands in a document. -/
def ofContent : Content → Value
  | .flag b => .flag b
  | .natural n => .integer n
  | .number x => .number x
  | .list items => .array (ofItems items)
  | .record fields => .table (entries fields)

/-- The items of a list as they stand in a document. -/
def ofItems : List Content → List Value
  | [] => []
  | c :: rest => ofContent c :: ofItems rest

/-- The fields of a record that have a value. -/
def entries : List (String × Option Content) → Table
  | [] => []
  | (_, none) :: rest => entries rest
  | (key, some c) :: rest => (key, ofContent c) :: entries rest

end

/-- The writer and the reader of this project.  Records are written unless TOML
lacks one of their whole numbers. -/
def Library.standard : Library where
  write? fields :=
    if (naturalsOfFields fields).all fun n => decide (n < integerLimit) then
      some (render (entries fields))
    else none
  read? := parse?

end GraphQubo.Toml
