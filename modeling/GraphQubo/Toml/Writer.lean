import GraphQubo.Decimal.Shortest
import GraphQubo.Toml.Value

/-!
# GraphQubo.Toml.Writer

Writing a TOML document.

1. A table is written as its plain entries, a line `key = value` each, followed
   by its sections: a blank line and a header for each table, and the same for
   each table of a non-empty array that holds nothing but tables.
2. A number is its shortest decimal, with `.0` when it is whole, so that it
   reads back as a number; the others are `nan`, `inf` and `-inf`.
3. Any other array stands on one line, in brackets; a table in it in braces.
-/

namespace GraphQubo.Toml

/-- A number: its shortest decimal, with a point. -/
def numberText (x : Float) : String :=
  let text := Decimal.text x
  if x.isNaN then "nan"
  else if x.isInf || text.contains '.' then text
  else text ++ ".0"

/-- One of sixteen digits. -/
def hexDigit (n : Nat) : Char := Nat.digitChar (n % 16)

/-- A character between double quotes. -/
def escaped (c : Char) : List Char :=
  if c = '"' then ['\\', '"']
  else if c = '\\' then ['\\', '\\']
  else if ' ' ≤ c ∧ c ≠ '\x7f' then [c]
  else ['\\', 'u', '0', '0', hexDigit (c.toNat / 16), hexDigit c.toNat]

/-- A text between double quotes. -/
def quotedText (s : String) : String :=
  String.ofList ('"' :: s.toList.flatMap escaped ++ ['"'])

/-- A key, in quotes unless it can do without. -/
def keyText (key : String) : String :=
  let bare := key.toList.all fun c => c.isAlphanum || c == '_' || c == '-'
  if bare && !key.isEmpty then key else quotedText key

mutual

/-- A value on one line. -/
def inlineText : Value → String
  | .flag b => if b then "true" else "false"
  | .integer i => toString i
  | .number x => numberText x
  | .text s => quotedText s
  | .moment s => s
  | .array items => "[" ++ String.intercalate ", " (inlineItems items) ++ "]"
  | .table [] => "\x7b\x7d"
  | .table entries => "\x7b " ++ String.intercalate ", " (inlinePairs entries) ++ " \x7d"

/-- The items of an array, each on one line. -/
def inlineItems : List Value → List String
  | [] => []
  | v :: rest => inlineText v :: inlineItems rest

/-- The entries of a table, each on one line. -/
def inlinePairs : List (String × Value) → List String
  | [] => []
  | (key, v) :: rest => (keyText key ++ " = " ++ inlineText v) :: inlinePairs rest

end

/-- Whether a value is a table. -/
def Value.isTable : Value → Bool
  | .table _ => true
  | _ => false

/-- Whether a value is written as sections of their own. -/
def Value.isSection : Value → Bool
  | .table _ => true
  | .array items => !items.isEmpty && items.all Value.isTable
  | _ => false

/-- The plain entries of a table, a line each. -/
def plainLines (entries : Table) : String :=
  String.join ((entries.filter fun e => !e.2.isSection).map fun e =>
    keyText e.1 ++ " = " ++ inlineText e.2 ++ "\n")

/-- A path of keys with dots between them. -/
def pathText (path : List String) : String := String.intercalate "." (path.map keyText)

mutual

/-- The sections of a table that stands at `path`. -/
def sections (path : List String) : List (String × Value) → String
  | [] => ""
  | (key, v) :: rest => sectionText (path ++ [key]) v ++ sections path rest

/-- The sections of a value that stands at `path`. -/
def sectionText (path : List String) : Value → String
  | .table entries =>
    "\n[" ++ pathText path ++ "]\n" ++ plainLines entries ++ sections path entries
  | .array items => if items.all Value.isTable then tableSections path items else ""
  | _ => ""

/-- A section for each table of an array. -/
def tableSections (path : List String) : List Value → String
  | [] => ""
  | .table entries :: rest =>
    "\n[[" ++ pathText path ++ "]]\n" ++ plainLines entries ++ sections path entries
      ++ tableSections path rest
  | _ :: rest => tableSections path rest

end

/-- The text of a document. -/
def render (t : Table) : String :=
  let plain := plainLines t
  let below := sections [] t
  if plain.isEmpty then (below.drop 1).copy else plain ++ below

end GraphQubo.Toml
