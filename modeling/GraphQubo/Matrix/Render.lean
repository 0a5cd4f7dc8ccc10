import GraphQubo.Decimal.Fixed
import GraphQubo.Matrix.Basic
import GraphQubo.Coefficient

/-!
# GraphQubo.Matrix.Render

The text of a matrix: a line for each row, in brackets, its cells separated by
a blank, each with two decimals at the right end of eight characters.
-/

namespace GraphQubo.Matrix

/-- A cell: two decimals in a field of eight characters, wider if needed. -/
def cellText (x : Float) : String := Decimal.padLeft 8 (Decimal.fixed 2 x)

/-- The line of a row. -/
def rowText (row : List Float) : String :=
  "[" ++ String.intercalate " " (row.map cellText) ++ "]\n"

/-- The text of a matrix. -/
def render (m : Matrix Float) : String := String.join (m.rows.map rowText)

end GraphQubo.Matrix
