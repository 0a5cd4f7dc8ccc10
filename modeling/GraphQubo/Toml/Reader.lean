import GraphQubo.Toml.Entry
import GraphQubo.Toml.Quoted
import GraphQubo.Toml.Scalar

/-!
# GraphQubo.Toml.Reader

Reading a TOML document.

A document is a sequence of lines; a line is blank, names a table, names a new
table of an array, or gives a key its value, and may end in a comment.  Only an
array goes over several lines.  The lines are read first (`statements?`) and
then applied to the document in order (`document?`).

A reader takes characters off the front and returns what it read with the
rest; each has as much fuel as there are characters.
-/

namespace GraphQubo.Toml

/-- Drops the blanks at the front. -/
def skipBlanks (cs : List Char) : List Char := cs.dropWhile isBlank

/-- Drops a comment at the front, which must not hold control characters. -/
def skipComment (cs : List Char) : List Char :=
  match cs with
  | '#' :: rest => rest.dropWhile isPrintable
  | _ => cs

/-- Drops blanks, comments and line breaks. -/
def skipLines : Nat → List Char → List Char
  | 0, cs => cs
  | fuel + 1, cs =>
    let cs := skipComment (skipBlanks cs)
    match dropBreak? cs with
    | some rest => skipLines fuel rest
    | none => cs

/-- Whether a character may stand in a key without quotes. -/
def isBareKeyChar (c : Char) : Bool := c.isAlphanum || c == '_' || c == '-'

/-- One key of a path, quoted or bare. -/
def simpleKey? (cs : List Char) : Option (String × List Char) :=
  match cs with
  | '"' :: _ | '\'' :: _ => quotedKey? cs
  | _ =>
    let name := cs.takeWhile isBareKeyChar
    if name.isEmpty then none else some (String.ofList name, cs.dropWhile isBareKeyChar)

/-- A path of keys with dots between them, blanks around it. -/
def path? : Nat → List Char → Option (List String × List Char)
  | 0, _ => none
  | fuel + 1, cs => do
    let (key, rest) ← simpleKey? (skipBlanks cs)
    match skipBlanks rest with
    | '.' :: rest =>
      let (keys, rest) ← path? fuel rest
      return (key :: keys, rest)
    | rest => return ([key], rest)

/-- Whether a character belongs to a scalar without quotes. -/
def isScalarChar (c : Char) : Bool :=
  c.isAlphanum || c == '+' || c == '-' || c == '_' || c == '.' || c == ':'

/-- A number, flag, date or time.  One blank may stand between a date and a
time. -/
def unquoted? (cs : List Char) : Option (Value × List Char) :=
  let first := cs.takeWhile isScalarChar
  let rest := cs.dropWhile isScalarChar
  let second := (rest.drop 1).takeWhile isScalarChar
  if afterDate? first = some [] ∧ rest.head? = some ' '
      ∧ (second.head?.map Char.isDigit) = some true then
    (scalar? (first ++ ' ' :: second)).map fun v => (v, (rest.drop 1).dropWhile isScalarChar)
  else (scalar? first).map fun v => (v, rest)

mutual

/-- A value. -/
def value? : Nat → List Char → Option (Value × List Char)
  | 0, _ => none
  | fuel + 1, cs =>
    match cs with
    | '"' :: _ | '\'' :: _ => (quoted? cs).map fun r => (.text r.1, r.2)
    | '[' :: rest => items? fuel [] rest
    | '\x7b' :: rest =>
      match skipBlanks rest with
      | '\x7d' :: rest => some (.table [], rest)
      | rest => inlineEntries? fuel [] rest
    | _ => unquoted? cs

/-- The items of an array after its opening bracket or a comma. -/
def items? : Nat → List Value → List Char → Option (Value × List Char)
  | 0, _, _ => none
  | fuel + 1, seen, cs =>
    match skipLines cs.length cs with
    | ']' :: rest => some (.array seen.reverse, rest)
    | cs => do
      let (v, rest) ← value? fuel cs
      match skipLines rest.length rest with
      | ',' :: rest => items? fuel (v :: seen) rest
      | ']' :: rest => return (.array (v :: seen).reverse, rest)
      | _ => none

/-- The entries of a table in braces, after the opening brace or a comma. -/
def inlineEntries? : Nat → Entries → List Char → Option (Value × List Char)
  | 0, _, _ => none
  | fuel + 1, seen, cs => do
    let (path, rest) ← path? cs.length cs
    match rest with
    | '=' :: rest =>
      let (v, rest) ← value? fuel (skipBlanks rest)
      let seen ← putValue? true .headed path v seen
      match skipBlanks rest with
      | ',' :: rest => inlineEntries? fuel seen rest
      | '\x7d' :: rest => return (.table (entryValues seen), rest)
      | _ => none
    | _ => none

end

/-- What a line says. -/
inductive Statement where
  /-- The following values belong to this table. -/
  | header (path : List String)
  /-- The following values belong to a new table of this array. -/
  | arrayHeader (path : List String)
  | assign (path : List String) (v : Value)

/-- The statement at the front of a line. -/
def statement? (cs : List Char) : Option (Statement × List Char) :=
  match cs with
  | '[' :: '[' :: rest => do
    match ← path? rest.length rest with
    | (path, ']' :: ']' :: rest) => return (.arrayHeader path, rest)
    | _ => none
  | '[' :: rest => do
    match ← path? rest.length rest with
    | (path, ']' :: rest) => return (.header path, rest)
    | _ => none
  | _ => do
    match ← path? cs.length cs with
    | (path, '=' :: rest) =>
      let (v, rest) ← value? rest.length (skipBlanks rest)
      return (.assign path v, rest)
    | _ => none

/-- The statements of a document, line by line. -/
def statements? : Nat → List Char → Option (List Statement)
  | 0, _ => none
  | fuel + 1, cs =>
    match skipLines cs.length cs with
    | [] => some []
    | cs => do
      let (s, rest) ← statement? cs
      match skipComment (skipBlanks rest) with
      | [] => return [s]
      | rest => return s :: (← statements? fuel (← dropBreak? rest))

/-- A document so far: its tables and the path of the current one. -/
structure Draft where
  current : List String
  entries : Entries

/-- Changes the table named by a path, through its last key. -/
def atLastKey? (change : String → Entries → Option Entries) (path : List String)
    (es : Entries) : Option Entries :=
  path.getLast?.bind fun key => within? (change key) path.dropLast es

/-- Applies a statement to a document. -/
def Draft.apply? (d : Draft) : Statement → Option Draft
  | .header path => (atLastKey? openTable? path d.entries).map fun es => ⟨path, es⟩
  | .arrayHeader path => (atLastKey? appendTable? path d.entries).map fun es => ⟨path, es⟩
  | .assign path v =>
    (within? (putValue? true .headed path v) d.current d.entries).map fun es =>
      { d with entries := es }

/-- The table that statements make. -/
def document? (statements : List Statement) : Option Table :=
  (statements.foldlM Draft.apply? ⟨[], []⟩).map fun d => entryValues d.entries

/-- Drops a byte order mark. -/
def skipByteOrderMark (cs : List Char) : List Char :=
  match cs with
  | '\ufeff' :: rest => rest
  | _ => cs

/-- The table that a text describes. -/
def parse? (s : String) : Option Table :=
  let cs := skipByteOrderMark s.toList
  (statements? (cs.length + 1) cs).bind document?

end GraphQubo.Toml
