import GraphQubo.Error

/-!
# GraphQubo.Variable

Binary variables and their numbers.

1. The variable "node `v` occupies position `p`" of a layout with `P` positions
   has number `v · P + p`; it is the only place where the formula stands.
2. A layout has at least one position.
3. Rows, columns and cells are addressed with 64-bit words, so a layout is
   refused when its side length or its number of cells does not fit in one.
-/

namespace GraphQubo

/-- The first number that does not fit in a 64-bit word, `2^64`. -/
def wordLimit : Nat := 18446744073709551616

/-- A binary variable: `node` occupies `position`. -/
structure Variable where
  node : Nat
  position : Nat
  deriving DecidableEq, Repr

namespace Variable

/-- The number of a variable among `positions` positions. -/
def number (x : Variable) (positions : Nat) : Nat := x.node * positions + x.position

/-- The variable with the given number; no variable has a number when there
are no positions. -/
def ofNumber? (number positions : Nat) : Option Variable :=
  if positions = 0 then none else some ⟨number / positions, number % positions⟩

end Variable

/-- The numbering of the variables over a fixed, positive number of positions. -/
structure Numbering where
  positions : Nat
  positive : 0 < positions

namespace Numbering

variable {K : Type}

/-- The numbering over `positions` positions, of which there must be one. -/
def ofPositions (positions : Nat) : Except (Error K) Numbering :=
  if h : 0 < positions then .ok ⟨positions, h⟩ else .error .noPositions

/-- The last position. -/
def lastPosition (m : Numbering) : Nat := m.positions - 1

/-- The number of a variable. -/
def number (m : Numbering) (node position : Nat) : Nat :=
  Variable.number ⟨node, position⟩ m.positions

/-- The variable with a number. -/
def variableAt (m : Numbering) (number : Nat) : Variable :=
  ⟨number / m.positions, number % m.positions⟩

/-- Numbering a variable loses nothing. -/
theorem variableAt_number (m : Numbering) (node : Nat) {position : Nat}
    (h : position < m.positions) : m.variableAt (m.number node position) = ⟨node, position⟩ := by
  simp [variableAt, number, Variable.number, Nat.mul_comm node, Nat.mul_add_div m.positive,
    Nat.div_eq_of_lt h, Nat.mod_eq_of_lt h]

/-- Every number is that of its variable. -/
theorem number_variableAt (m : Numbering) (i : Nat) :
    m.number (m.variableAt i).node (m.variableAt i).position = i := by
  simp [variableAt, number, Variable.number, Nat.div_add_mod']

/-- The side length of the matrix over `nodeCount` nodes. -/
def dimension (m : Numbering) (nodeCount : Nat) : Except (Error K) Nat :=
  let side := nodeCount * m.positions
  if side < wordLimit ∧ side * side < wordLimit then .ok side
  else .error (.layoutTooLarge nodeCount m.positions)

end Numbering

end GraphQubo
