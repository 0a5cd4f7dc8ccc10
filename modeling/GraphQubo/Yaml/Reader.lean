import GraphQubo.Yaml.Node
import GraphQubo.Yaml.Token

/-!
# GraphQubo.Yaml.Reader

Reading a YAML document.

1. In brackets and braces columns do not matter; a key and its colon share a
   line, and a comma may stand at the end.
2. Outside, a mapping is a sequence of keys that begin at one column, and a list
   a sequence of hyphens at one column.  What belongs to a key or a hyphen
   begins on its line or further to the right; a list may also stand at the
   column of its key.
3. On the line of a key only a scalar or a bracket follows it, on the line of a
   hyphen also a mapping or a list.
4. A key or a hyphen with nothing to it has the empty scalar.
5. There is at most one document, with or without its markers.

Anchors, tags, block scalars and keys that are no scalars are not read: no
record has a field that needs them.
-/

namespace GraphQubo.Yaml

/-- The node of a scalar. -/
def Word.scalar? : Word → Option Node
  | .plain s => some (.plain s)
  | .quoted s => some (.quoted s)
  | _ => none

/-- The key that a scalar is. -/
def Word.key? : Word → Option String
  | .plain s => some s
  | .quoted s => some s
  | _ => none

mutual

/-- A scalar, or a list or mapping in brackets. -/
def flowNode? : Nat → List Token → Option (Node × List Token)
  | 0, _ => none
  | _ + 1, [] => none
  | fuel + 1, t :: rest =>
    match t.word with
    | .openBracket => flowItems? fuel [] rest
    | .openBrace => flowEntries? fuel [] rest
    | w => w.scalar?.map fun node => (node, rest)

/-- The items of a list after its bracket or a comma. -/
def flowItems? : Nat → List Node → List Token → Option (Node × List Token)
  | 0, _, _ => none
  | _ + 1, _, [] => none
  | fuel + 1, seen, t :: rest =>
    if t.word = .closeBracket then some (.sequence seen.reverse, rest)
    else do
      let (node, rest) ← flowNode? fuel (t :: rest)
      match rest with
      | [] => none
      | u :: rest =>
        if u.word = .comma then flowItems? fuel (node :: seen) rest
        else if u.word = .closeBracket then some (.sequence (node :: seen).reverse, rest)
        else none

/-- The entries of a mapping after its brace or a comma. -/
def flowEntries? : Nat → List (String × Node) → List Token → Option (Node × List Token)
  | 0, _, _ => none
  | _ + 1, _, [] => none
  | fuel + 1, seen, t :: rest =>
    if t.word = .closeBrace then some (.mapping seen.reverse, rest)
    else do
      let key ← t.word.key?
      let (node, rest) ← flowValue? fuel t.line rest
      match rest with
      | [] => none
      | u :: rest =>
        if u.word = .comma then flowEntries? fuel ((key, node) :: seen) rest
        else if u.word = .closeBrace then
          some (.mapping ((key, node) :: seen).reverse, rest)
        else none

/-- What follows a key that ended on a line: a colon on that line and a node, or
nothing. -/
def flowValue? : Nat → Nat → List Token → Option (Node × List Token)
  | 0, _, _ => none
  | fuel + 1, line, ts =>
    match ts with
    | t :: rest =>
      if t.word = .colon ∧ t.line = line then
        match rest with
        | u :: _ =>
          if u.word = .comma ∨ u.word = .closeBrace then some (.empty, rest)
          else flowNode? fuel rest
        | [] => none
      else some (.empty, t :: rest)
    | [] => none

end

/-- The key of a mapping at the front: a scalar and a colon on one line, the
scalar a leading word. -/
def blockKey? (ts : List Token) : Option (String × Token × List Token) :=
  match ts with
  | t :: u :: rest =>
    if t.leading ∧ u.word = .colon ∧ u.line = t.line then
      t.word.key?.map fun key => (key, t, rest)
    else none
  | _ => none

/-- Whether a word is a hyphen at a column. -/
def isHyphenAt (column : Nat) (t : Token) : Bool :=
  t.word == .hyphen && t.leading && t.column == column

mutual

/-- A node that may be a mapping or a list without brackets. -/
def blockNode? : Nat → List Token → Option (Node × List Token)
  | 0, _ => none
  | _ + 1, [] => none
  | fuel + 1, t :: rest =>
    if isHyphenAt t.column t then blockItems? fuel t.column [] (t :: rest)
    else if (blockKey? (t :: rest)).isSome then blockEntries? fuel t.column [] (t :: rest)
    else flowNode? (rest.length + 1) (t :: rest)

/-- The items of a list whose hyphens stand at a column. -/
def blockItems? : Nat → Nat → List Node → List Token → Option (Node × List Token)
  | 0, _, _, _ => none
  | _ + 1, _, seen, [] => some (.sequence seen.reverse, [])
  | fuel + 1, column, seen, t :: rest =>
    if isHyphenAt column t then
      match rest with
      | [] => some (.sequence (.empty :: seen).reverse, [])
      | u :: _ =>
        if u.line = t.line ∨ column < u.column then do
          let (node, rest) ← blockNode? fuel rest
          blockItems? fuel column (node :: seen) rest
        else blockItems? fuel column (.empty :: seen) rest
    else some (.sequence seen.reverse, t :: rest)

/-- The entries of a mapping whose keys stand at a column. -/
def blockEntries? : Nat → Nat → List (String × Node) → List Token →
    Option (Node × List Token)
  | 0, _, _, _ => none
  | fuel + 1, column, seen, ts =>
    match blockKey? ts with
    | none => some (.mapping seen.reverse, ts)
    | some (key, t, rest) =>
      if t.column = column then do
        let (node, rest) ← blockValue? fuel column t.line rest
        blockEntries? fuel column ((key, node) :: seen) rest
      else some (.mapping seen.reverse, ts)

/-- What belongs to a key at a column of a line. -/
def blockValue? : Nat → Nat → Nat → List Token → Option (Node × List Token)
  | 0, _, _, _ => none
  | _ + 1, _, _, [] => some (.empty, [])
  | fuel + 1, column, line, t :: rest =>
    if t.line = line then flowNode? (rest.length + 1) (t :: rest)
    else if column < t.column then blockNode? fuel (t :: rest)
    else if isHyphenAt column t then blockItems? fuel column [] (t :: rest)
    else some (.empty, t :: rest)

end

/-- Whether nothing but ends of documents follows. -/
def isFinished (ts : List Token) : Bool := ts.all fun t => t.word == .documentEnd

/-- The node of a document after its start. -/
def content? (ts : List Token) : Option Node :=
  if isFinished ts then some .empty
  else match blockNode? (2 * ts.length + 2) ts with
    | some (node, rest) => if isFinished rest then some node else none
    | none => none

/-- The node that words describe. -/
def document? (ts : List Token) : Option Node :=
  match ts with
  | [] => some .empty
  | t :: rest =>
    if t.word = .documentStart then content? rest
    else if t.word = .documentEnd then none
    else content? ts

/-- The node that a text describes. -/
def parse? (s : String) : Option Node := (tokens? s).bind document?

end GraphQubo.Yaml
