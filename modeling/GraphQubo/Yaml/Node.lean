import GraphQubo.Decimal.Reading
import GraphQubo.Document.Record
import GraphQubo.Variable

/-!
# GraphQubo.Yaml.Node

What a YAML document holds.

Only a list and a mapping know their kind.  A plain scalar is a text that the
field it is read for understands or not:

1. a number is a decimal, or `.inf` or `.nan`; a decimal beyond the largest
   double is none;
2. a natural number is decimal without leading zeros, or hexadecimal, octal or
   binary, with an optional plus;
3. a flag is `true` or `false`, also capitalised or in capitals;
4. `null`, `~` and the empty scalar stand for no value; where a list or a
   mapping is expected, the empty scalar is the empty one.

A scalar in quotes is a text and nothing else.
-/

namespace GraphQubo.Yaml

open Decimal

/-- A node of a document. -/
inductive Node where
  | plain (s : String)
  | quoted (s : String)
  | sequence (items : List Node)
  | mapping (entries : List (String × Node))

/-- The node of nothing written. -/
def Node.empty : Node := .plain ""

/-- A decimal with an optional minus. -/
def signedDecimal? (cs : List Char) : Option Float := do
  let (negative, cs) := match cs with
    | '-' :: rest => (true, rest)
    | cs => (false, cs)
  let (digits, exponent) ← unsigned? cs
  let x := toFloat negative digits exponent
  if x.isFinite then some x else none

/-- The number that a plain scalar writes. -/
def number? (s : String) : Option Float :=
  if s ∈ [".inf", ".Inf", ".INF", "+.inf", "+.Inf", "+.INF"] then
    some (Float.ofBits 0x7ff0000000000000)
  else if s ∈ ["-.inf", "-.Inf", "-.INF"] then some (Float.ofBits 0xfff0000000000000)
  else if s ∈ [".nan", ".NaN", ".NAN"] then some (Float.ofBits 0x7ff8000000000000)
  else match s.toList with
    | '+' :: '-' :: _ => none
    | '+' :: rest => signedDecimal? rest
    | cs => signedDecimal? cs

/-- The natural number that a plain scalar writes, within 64 bits. -/
def natural? (s : String) : Option Nat :=
  let cs := match s.toList with
    | '+' :: rest => rest
    | cs => cs
  let n? := match cs with
    | '0' :: 'x' :: ds => Decimal.natural? 16 ds
    | '0' :: 'o' :: ds => Decimal.natural? 8 ds
    | '0' :: 'b' :: ds => Decimal.natural? 2 ds
    | '0' :: _ :: _ => none
    | ds => Decimal.natural? 10 ds
  n?.filter (· < wordLimit)

/-- The flag that a plain scalar writes. -/
def flag? (s : String) : Option Bool :=
  if s ∈ ["true", "True", "TRUE"] then some true
  else if s ∈ ["false", "False", "FALSE"] then some false
  else none

namespace Node

/-- A node as a number. -/
def number? : Node → Option Float
  | plain s => Yaml.number? s
  | _ => none

/-- A node as a natural number. -/
def natural? : Node → Option Nat
  | plain s => Yaml.natural? s
  | _ => none

/-- A node as a flag. -/
def flag? : Node → Option Bool
  | plain s => Yaml.flag? s
  | _ => none

/-- A node as a list. -/
def items? : Node → Option (List Node)
  | sequence items => some items
  | plain "" => some []
  | _ => none

/-- A node as a record. -/
def fields? : Node → Option (List (String × Node))
  | mapping entries => some entries
  | plain "" => some []
  | _ => none

/-- Whether a node stands for no value. -/
def isAbsent : Node → Bool
  | plain s => s ∈ ["", "~", "null", "Null", "NULL"]
  | _ => false

end Node

instance : DocumentValue Node where
  fields? _ := Node.fields?
  items? := Node.items?
  number? := Node.number?
  natural? := Node.natural?
  flag? := Node.flag?
  isAbsent := Node.isAbsent

end GraphQubo.Yaml
