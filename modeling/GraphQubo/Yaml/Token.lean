import GraphQubo.Decimal.Reading

/-!
# GraphQubo.Yaml.Token

The words of a YAML document, with the place where each begins.

1. A line break is a carriage return, a line feed, both, or one of the three
   breaks beyond ASCII.  Control characters are refused.
2. Inside brackets and braces commas, brackets and braces are words of their
   own; outside they are part of a scalar that they do not begin.
3. A colon before a blank or a line break is a word, and inside brackets every
   colon at the beginning of a word is; a hyphen before a blank is a word.
4. A plain scalar keeps to its line and ends before a colon that is a word, or
   before a comment; blanks at its end do not belong to it.
5. A comment begins with a hash at the beginning of a word and ends with its
   line.
6. A line that begins with three hyphens or three points and a blank ends a
   document.
7. A tab separates words, but outside brackets it does not indent a line, nor
   what follows a hyphen.
-/

namespace GraphQubo.Yaml

/-- A word. -/
inductive Word where
  | documentStart
  | documentEnd
  | hyphen
  | colon
  | comma
  | openBracket
  | closeBracket
  | openBrace
  | closeBrace
  | plain (s : String)
  | quoted (s : String)
  deriving DecidableEq, Repr

/-- A word with its line and the column at which it begins.  A leading word has
nothing but hyphens before it on its line. -/
structure Token where
  word : Word
  line : Nat
  column : Nat
  leading : Bool
  deriving DecidableEq, Repr

/-- Whether a character breaks a line. -/
def isBreak (c : Char) : Bool :=
  c == '\n' || c == '\r' || c == '\u0085' || c == '\u2028' || c == '\u2029'

/-- Whether a character separates words on a line. -/
def isBlank (c : Char) : Bool := c == ' ' || c == '\t'

/-- Whether a document may hold the character. -/
def isAllowed (c : Char) : Bool :=
  c == '\t' || isBreak c || (' ' ≤ c && c ≤ '~') || ('\u00a0' ≤ c && c ≤ '\ufffd') ||
    0x10000 ≤ c.toNat

/-- Whether the rest of a line begins with a blank, or there is none. -/
def endsWord : List Char → Bool
  | [] => true
  | c :: _ => isBlank c || isBreak c

/-- Whether a character is a word of its own inside brackets. -/
def isFlowIndicator (c : Char) : Bool :=
  c == ',' || c == '[' || c == ']' || c == '\x7b' || c == '\x7d'

/-- The characters besides flow indicators that begin no plain scalar; the last
one is the grave accent. -/
def reserved : List Char :=
  ['#', '&', '*', '!', '|', '>', '\'', '"', '%', '@', '\x60']

/-- Whether a plain scalar may begin with the first of the characters. -/
def beginsPlain (inFlow : Bool) : List Char → Bool
  | [] => false
  | c :: rest =>
    if c == '-' then !endsWord rest
    else if c == '?' || c == ':' then !inFlow && !endsWord rest
    else !(isFlowIndicator c || isBlank c || isBreak c || reserved.contains c)

/-- The length of a plain scalar, blanks at its end included: up to a break, a
colon that ends the word, a comment, or, inside brackets, an indicator.
`afterBlank` says whether a hash would begin a comment. -/
def plainLength (inFlow afterBlank : Bool) : List Char → Nat
  | [] => 0
  | c :: rest =>
    if isBreak c || (c == ':' && endsWord rest) || (c == '#' && afterBlank)
        || (inFlow && isFlowIndicator c) then 0
    else plainLength inFlow (isBlank c) rest + 1

/-- Drops blanks at the end. -/
def trimBlanks (cs : List Char) : List Char := (cs.reverse.dropWhile isBlank).reverse

/-- The character that an escape in double quotes stands for, after its
backslash, and how many characters the escape takes. -/
def escape? : List Char → Option (Char × Nat)
  | 'x' :: rest => hex 2 rest
  | 'u' :: rest => hex 4 rest
  | 'U' :: rest => hex 8 rest
  | c :: _ =>
    (List.lookup c
      [('0', '\x00'), ('a', '\x07'), ('b', '\x08'), ('t', '\t'), ('\t', '\t'),
        ('n', '\n'), ('v', '\x0b'), ('f', '\x0c'), ('r', '\r'), ('e', '\x1b'), (' ', ' '),
        ('"', '"'), ('/', '/'), ('\\', '\\'), ('N', '\u0085'), ('_', '\u00a0'),
        ('L', '\u2028'), ('P', '\u2029')]).map fun d => (d, 1)
  | [] => none
where
  /-- A code point in hexadecimal digits. -/
  hex (width : Nat) (rest : List Char) : Option (Char × Nat) :=
    if (rest.take width).length = width then
      (Decimal.natural? 16 (rest.take width)).bind fun n =>
        if n.isValidChar then some (Char.ofNat n, width + 1) else none
    else none

/-- The text of a scalar in double quotes that ends on its line, after the
opening quote, and the rest of the line. -/
def doubleQuoted? : Nat → List Char → List Char → Option (String × List Char)
  | 0, _, _ => none
  | _ + 1, _, [] => none
  | fuel + 1, seen, c :: rest =>
    if c == '"' then some (String.ofList seen.reverse, rest)
    else if c == '\\' then do
      let (d, n) ← escape? rest
      doubleQuoted? fuel (d :: seen) (rest.drop n)
    else if isBreak c then none
    else doubleQuoted? fuel (c :: seen) rest

/-- The text of a scalar in single quotes, where a quote is written twice. -/
def singleQuoted? : Nat → List Char → List Char → Option (String × List Char)
  | 0, _, _ => none
  | _ + 1, _, [] => none
  | fuel + 1, seen, c :: rest =>
    if c == '\'' then
      match rest with
      | '\'' :: rest => singleQuoted? fuel ('\'' :: seen) rest
      | _ => some (String.ofList seen.reverse, rest)
    else if isBreak c then none
    else singleQuoted? fuel (c :: seen) rest

/-- What a single character says on its own. -/
def indicator? : Char → Option Word
  | ',' => some .comma
  | '[' => some .openBracket
  | ']' => some .closeBracket
  | '\x7b' => some .openBrace
  | '\x7d' => some .closeBrace
  | _ => none

/-- How deep inside brackets the words after this one are. -/
def Word.depthAfter (depth : Nat) : Word → Nat
  | .openBracket | .openBrace => depth + 1
  | .closeBracket | .closeBrace => depth - 1
  | _ => depth

/-- The word at the front of a line, and the rest of the line. -/
def word? (depth : Nat) (cs : List Char) : Option (Word × List Char) :=
  let inFlow := decide (0 < depth)
  match cs with
  | [] => none
  | c :: rest =>
    if c == '"' then (doubleQuoted? cs.length [] rest).map fun r => (.quoted r.1, r.2)
    else if c == '\'' then (singleQuoted? cs.length [] rest).map fun r => (.quoted r.1, r.2)
    else if c == '-' && endsWord rest then some (.hyphen, rest)
    else if c == ':' && (inFlow || endsWord rest) then some (.colon, rest)
    else match (if inFlow || c == '[' || c == '\x7b' then indicator? c else none) with
      | some w => some (w, rest)
      | none =>
        if beginsPlain inFlow cs then
          let n := plainLength inFlow false cs
          some (.plain (String.ofList (trimBlanks (cs.take n))), cs.drop n)
        else none

/-- The words of a line from a column on.  `indenting` says that the next word
is a leading one, so that a tab would indent. -/
def lineWords? (line : Nat) : Nat → Bool → Nat → Nat → List Char → Option (List Token × Nat)
  | 0, _, _, _, _ => none
  | fuel + 1, indenting, depth, column, cs =>
    match cs with
    | [] => some ([], depth)
    | c :: rest =>
      if c == ' ' || (c == '\t' && (!indenting || 0 < depth)) then
        lineWords? line fuel indenting depth (column + 1) rest
      else if c == '#' then some ([], depth)
      else do
        let (w, rest) ← word? depth cs
        let width := cs.length - rest.length
        let (ws, depth) ← lineWords? line fuel (indenting && w == .hyphen)
          (w.depthAfter depth) (column + width) rest
        return (⟨w, line, column, indenting⟩ :: ws, depth)

/-- The words of a line; a marker of a document counts outside brackets and
inside them alike. -/
def line? (line depth : Nat) (cs : List Char) : Option (List Token × Nat) :=
  let rest := cs.drop 3
  match cs.take 3 with
  | ['-', '-', '-'] =>
    if endsWord rest then do
      let (ws, depth) ← lineWords? line (cs.length + 1) false depth 3 rest
      return (⟨.documentStart, line, 0, false⟩ :: ws, depth)
    else lineWords? line (cs.length + 1) true depth 0 cs
  | ['.', '.', '.'] =>
    if endsWord rest then do
      let (ws, depth) ← lineWords? line (cs.length + 1) false depth 3 rest
      return (⟨.documentEnd, line, 0, false⟩ :: ws, depth)
    else lineWords? line (cs.length + 1) true depth 0 cs
  | _ => lineWords? line (cs.length + 1) true depth 0 cs

/-- Splits a text into its lines. -/
def splitLines : List Char → List (List Char)
  | [] => [[]]
  | '\r' :: '\n' :: rest => [] :: splitLines rest
  | c :: rest =>
    if isBreak c then [] :: splitLines rest
    else match splitLines rest with
      | [] => [[c]]
      | line :: lines => (c :: line) :: lines

/-- The words of lines that are numbered from `line` on. -/
def linesWords? : Nat → Nat → List (List Char) → Option (List Token)
  | _, _, [] => some []
  | line, depth, cs :: rest => do
    let (ws, depth) ← line? line depth cs
    return ws ++ (← linesWords? (line + 1) depth rest)

/-- The words of a text.  A byte order mark at its beginning is dropped. -/
def tokens? (s : String) : Option (List Token) :=
  let cs := match s.toList with
    | '\ufeff' :: rest => rest
    | cs => cs
  if cs.all isAllowed then linesWords? 0 0 (splitLines cs) else none

end GraphQubo.Yaml
