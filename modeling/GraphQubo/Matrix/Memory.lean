import GraphQubo.Matrix.Basic

/-!
# GraphQubo.Matrix.Memory

The memory that a matrix takes.

The cells of a matrix lie in one block of memory, eight bytes each.  No block has
more than `2^63 - 1` bytes, and a request for a larger one ends the computation
that makes it.  Whether a smaller block is free depends on the machine; here it
always is.
-/

namespace GraphQubo

/-- How many bytes a cell takes. -/
def cellBytes : Nat := 8

/-- The most bytes that a block of memory can have, `2^63 - 1`. -/
def blockLimit : Nat := 9223372036854775807

/-- Whether a block of memory can hold the cells of a matrix. -/
def HasRoom (dimension : Nat) : Prop := dimension * dimension * cellBytes ≤ blockLimit

instance (dimension : Nat) : Decidable (HasRoom dimension) :=
  inferInstanceAs (Decidable (_ ≤ _))

namespace Matrix

variable {K : Type}

/-- Asks for the block of a matrix. -/
def checkRoom (dimension : Nat) : Except (Error K) Unit :=
  if HasRoom dimension then .ok () else .error (.noRoom dimension)

/-- The matrix of zeros, in a block of its own. -/
def allocate [Zero K] (dimension : Nat) : Except (Error K) (Matrix K) := do
  checkRoom dimension
  return zeros dimension

end Matrix

end GraphQubo
