import GraphQubo.Decimal.Reading

/-!
# GraphQubo.Toml.Quoted

Quoted text.

1. Between double quotes a backslash starts an escape; between single quotes
   every character stands for itself.
2. Text in one pair of quotes stays on its line.  Text in three pairs may go
   over lines; a line break right after the opening quotes is dropped, and one
   after a backslash goes together with the blanks that follow.
3. Up to two quotes may stand right before three closing ones.
-/

namespace GraphQubo.Toml

/-- Whether a character may stand in a comment or in text: no control character
but the tab. -/
def isPrintable (c : Char) : Bool := c == '\t' || (' ' ≤ c && c != '\x7f')

/-- Drops a line break at the front, if there is one. -/
def dropBreak? : List Char → Option (List Char)
  | '\n' :: rest => some rest
  | '\r' :: '\n' :: rest => some rest
  | _ => none

/-- Whether a character is a blank within a line. -/
def isBlank (c : Char) : Bool := c == ' ' || c == '\t'

/-- Whether a character is a blank or part of a line break. -/
def isBlankOrBreak (c : Char) : Bool := isBlank c || c == '\n' || c == '\r'

/-- The character of a code point written in exactly `width` hexadecimal digits,
and what follows. -/
def codePoint? (width : Nat) (cs : List Char) : Option (Char × List Char) :=
  let ds := cs.take width
  if ds.length = width then do
    let n ← Decimal.natural? 16 ds
    if n.isValidChar then some (Char.ofNat n, cs.drop width) else none
  else none

/-- The character that an escape stands for, after its backslash. -/
def escape? : List Char → Option (Char × List Char)
  | 'b' :: rest => some ('\x08', rest)
  | 't' :: rest => some ('\t', rest)
  | 'n' :: rest => some ('\n', rest)
  | 'f' :: rest => some ('\x0c', rest)
  | 'r' :: rest => some ('\r', rest)
  | '"' :: rest => some ('"', rest)
  | '\\' :: rest => some ('\\', rest)
  | 'u' :: rest => codePoint? 4 rest
  | 'U' :: rest => codePoint? 8 rest
  | _ => none

/-- Text up to a single closing quote. -/
def singleLine? (quote : Char) : Nat → List Char → List Char → Option (String × List Char)
  | 0, _, _ => none
  | _ + 1, _, [] => none
  | fuel + 1, seen, c :: rest =>
    if c = quote then some (String.ofList seen.reverse, rest)
    else if c = '\\' ∧ quote = '"' then do
      let (d, rest) ← escape? rest
      singleLine? quote fuel (d :: seen) rest
    else if isPrintable c then singleLine? quote fuel (c :: seen) rest
    else none

/-- Text up to three closing quotes. -/
def multiLine? (quote : Char) : Nat → List Char → List Char → Option (String × List Char)
  | 0, _, _ => none
  | _ + 1, _, [] => none
  | fuel + 1, seen, c :: rest =>
    let quotes := ((c :: rest).takeWhile (· == quote)).length
    if 3 ≤ quotes then
      let kept := min quotes 5 - 3
      some (String.ofList ((List.replicate kept quote ++ seen).reverse),
        (c :: rest).drop (min quotes 5))
    else if c = '\\' ∧ quote = '"' then
      let blanks := rest.dropWhile isBlank
      match dropBreak? blanks with
      | some after => multiLine? quote fuel seen (after.dropWhile isBlankOrBreak)
      | none => do
        let (d, rest) ← escape? rest
        multiLine? quote fuel (d :: seen) rest
    else match dropBreak? (c :: rest) with
      | some after => multiLine? quote fuel ('\n' :: seen) after
      | none => if isPrintable c then multiLine? quote fuel (c :: seen) rest else none

/-- A quoted text on one line, from its opening quote on. -/
def quotedKey? (cs : List Char) : Option (String × List Char) :=
  match cs with
  | '"' :: rest => singleLine? '"' cs.length [] rest
  | '\'' :: rest => singleLine? '\'' cs.length [] rest
  | _ => none

/-- A quoted text of any kind, from its opening quotes on. -/
def quoted? (cs : List Char) : Option (String × List Char) :=
  match cs with
  | '"' :: '"' :: '"' :: rest =>
    multiLine? '"' cs.length [] ((dropBreak? rest).getD rest)
  | '\'' :: '\'' :: '\'' :: rest =>
    multiLine? '\'' cs.length [] ((dropBreak? rest).getD rest)
  | _ => quotedKey? cs

end GraphQubo.Toml
