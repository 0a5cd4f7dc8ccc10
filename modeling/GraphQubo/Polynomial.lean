import Std.Data.TreeMap
import GraphQubo.Coefficient
import GraphQubo.Matrix.Basic

/-!
# GraphQubo.Polynomial

Quadratic polynomials in binary variables.

1. A polynomial is an offset and a coefficient for each pair of variables; as
   `x · x = x`, the pair of a variable with itself holds its linear coefficient.
2. A pair is kept as `(smaller, larger)`, and pairs are ordered by their smaller,
   then their larger variable.
3. Written as a matrix, a polynomial is upper triangular and loses its offset.
-/

namespace GraphQubo

/-- The order of pairs of variables: by the first one, then by the second. -/
def comparePairs : Nat × Nat → Nat × Nat → Ordering :=
  compareLex (compareOn Prod.fst) (compareOn Prod.snd)

instance : Std.TransCmp comparePairs := inferInstanceAs (Std.TransCmp (compareLex _ _))

instance : Std.LawfulEqCmp comparePairs where
  eq_of_compare {p q} h := by
    simp only [comparePairs, compareLex, compareOn, Ordering.then_eq_eq, Nat.compare_eq_eq] at h
    exact Prod.ext h.1 h.2

/-- An offset and a coefficient for each pair of variables. -/
structure Polynomial (K : Type) where
  offset : K
  terms : Std.TreeMap (Nat × Nat) K comparePairs

namespace Polynomial

open Coefficient (whole)

variable {K : Type} [Coefficient K]

/-- The polynomial zero. -/
def zero : Polynomial K := ⟨0, ∅⟩

/-- The coefficient of a pair. -/
def coefficient (p : Polynomial K) (pair : Nat × Nat) : K := p.terms.getD pair 0

/-- Adds a constant. -/
def addConstant (p : Polynomial K) (value : K) : Polynomial K :=
  { p with offset := p.offset + value }

/-- Adds `value · x_a · x_b`; the order of `a` and `b` does not matter. -/
def addProduct (p : Polynomial K) (a b : Nat) (value : K) : Polynomial K :=
  let pair := (min a b, max a b)
  { p with terms := p.terms.insert pair (p.coefficient pair + value) }

/-- A product goes to its pair and to no other. -/
theorem coefficient_addProduct (p : Polynomial K) (a b : Nat) (value : K) (pair : Nat × Nat) :
    (p.addProduct a b value).coefficient pair =
      if pair = (min a b, max a b) then p.coefficient pair + value else p.coefficient pair := by
  unfold addProduct coefficient
  rw [Std.TreeMap.getD_insert]
  by_cases h : pair = (min a b, max a b)
  · simp [h, Std.ReflCmp.compare_self]
  · have h' : comparePairs (min a b, max a b) pair ≠ .eq := fun e =>
      h (Std.LawfulEqCmp.eq_of_compare e).symm
    simp [h, h']

/-- Adds `value · x_v`. -/
def addLinear (p : Polynomial K) (v : Nat) (value : K) : Polynomial K :=
  p.addProduct v v value

/-- Adds, for each of the variables, its linear part of `scale · (1 - Σ x)²` and
its products with the variables after it. -/
def addExactlyOneParts (p : Polynomial K) (scale : K) : List Nat → Polynomial K
  | [] => p
  | a :: rest =>
    addExactlyOneParts
      (rest.foldl (fun p b => p.addProduct a b (whole 2 * scale)) (p.addLinear a (-scale)))
      scale rest

/-- Adds `scale · (1 - Σ x)²` over the variables, which is zero exactly when
one of them is set. -/
def addExactlyOne (p : Polynomial K) (vars : List Nat) (scale : K) : Polynomial K :=
  (p.addConstant scale).addExactlyOneParts scale vars

/-- The matrix of the polynomial over `dimension` variables, which must be all
that occur. -/
def toMatrix (p : Polynomial K) (dimension : Nat) : Except (Error K) (Matrix K) :=
  p.terms.toList.foldlM (fun m t => m.add t.1.1 t.1.2 t.2) (.zeros dimension)

/-- Whether both variables of a pair are set; the second one is looked up only
when the first one is. -/
def selected? (bits : Array Bool) (pair : Nat × Nat) : Option Bool :=
  match bits[pair.1]? with
  | some true => bits[pair.2]?
  | some false => some false
  | none => none

/-- The sum of the terms so far with one more, if its pair is set. -/
def energyStep? (bits : Array Bool) (sum : K) (t : (Nat × Nat) × K) : Option K :=
  (selected? bits t.1).map fun set => if set then sum + t.2 else sum

/-- The value of the polynomial for an assignment, if it has the variables that
are looked up.  The terms are summed in order and added to the offset. -/
def energy? (p : Polynomial K) (bits : List Bool) : Option K :=
  (p.terms.toList.foldlM (energyStep? bits.toArray) 0).map fun sum => p.offset + sum

end Polynomial

end GraphQubo
