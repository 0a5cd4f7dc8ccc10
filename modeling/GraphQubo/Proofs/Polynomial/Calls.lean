import GraphQubo.Proofs.Matrix.CanonicalForm
import GraphQubo.Proofs.Polynomial.Value

/-!
# GraphQubo.Proofs.Polynomial.Calls

A polynomial means what it was built from.

A polynomial is built from zero, call by call.  Each call adds a product, a linear term, a constant
or the square `scale · (1 - Σ x)²`, and is worth what it adds at the assignment.  In exact
arithmetic the value of the polynomial is the sum of what its calls are worth.  Its matrix is upper
triangular and has the same energies, but for the offset.

* `Polynomial.Within.energy?_eq` — the terms that are set add up to the value;
* `Polynomial.Call.adds` — one call adds what it is worth;
* `Polynomial.adds_run` — so do all calls;
* `calls_add_up` — the value and the matrix of the polynomial that calls lead to.
-/

namespace GraphQubo

open Finset

/-- Additions to the cells of a square, taken one by one or cell by cell. -/
theorem sum_additions {n : Nat} {as : List (Addition Rat)} (h : ∀ a ∈ as, a.row < n ∧ a.col < n)
    (x : Nat → Rat) :
    (as.map fun a => x a.row * (a.value * x a.col)).sum =
      ∑ i ∈ range n, ∑ j ∈ range n, x i * ((valuesAt as i j).sum * x j) := by
  induction as with
  | nil => simp
  | cons a as ih =>
    obtain ⟨hrow, hcol⟩ := h a List.mem_cons_self
    have hcell : ∀ i j, x i * ((valuesAt (a :: as) i j).sum * x j) =
        (if a.row = i then if a.col = j then x i * (a.value * x j) else 0 else 0) +
          x i * ((valuesAt as i j).sum * x j) := by
      intro i j
      rw [valuesAt_cons, ← ite_and]
      split
      · rw [List.sum_cons]
        ring
      · rw [zero_add]
    have hfirst : ∑ i ∈ range n, ∑ j ∈ range n,
        (if a.row = i then if a.col = j then x i * (a.value * x j) else 0 else 0) =
          x a.row * (a.value * x a.col) := by
      simp only [sum_ite_irrel, sum_const_zero, sum_ite_eq, mem_range.2 hrow, mem_range.2 hcol,
        if_true]
    rw [List.map_cons, List.sum_cons, ih fun b hb => h b (List.mem_cons_of_mem _ hb)]
    simp only [hcell, sum_add_distrib, hfirst]

namespace Polynomial

variable {n : Nat} {p : Polynomial Rat} {bits : List Bool}

/-! ## The value at an assignment -/

/-- A term counts where both of its variables are set. -/
theorem energyStep?_eq {a b : Nat} (ha : a < bits.length) (hb : b < bits.length) (sum k : Rat) :
    energyStep? bits.toArray sum ((a, b), k) =
      some (sum + bitAt bits a * (k * bitAt bits b)) := by
  simp only [energyStep?, selected?, List.getElem?_toArray, List.getElem?_eq_getElem ha,
    List.getElem?_eq_getElem hb, bitAt_eq]
  cases bits[a] <;> cases bits[b] <;> simp

/-- The terms are looked up and added without fail. -/
theorem foldlM_energyStep?_eq {terms : List ((Nat × Nat) × Rat)}
    (h : ∀ t ∈ terms, t.1.1 < bits.length ∧ t.1.2 < bits.length) (sum : Rat) :
    terms.foldlM (energyStep? bits.toArray) sum =
      some (sum + (terms.map fun t => bitAt bits t.1.1 * (t.2 * bitAt bits t.1.2)).sum) := by
  induction terms generalizing sum with
  | nil => simp
  | cons t terms ih =>
    obtain ⟨ha, hb⟩ := h t List.mem_cons_self
    rw [List.foldlM_cons, energyStep?_eq ha hb, Option.bind_eq_bind, Option.bind_some,
      ih fun u hu => h u (List.mem_cons_of_mem _ hu), List.map_cons, List.sum_cons, add_assoc]

/-- A polynomial in the variables below `n` has a value for every assignment of them. -/
theorem Within.energy?_eq (hp : p.Within n) (hlen : bits.length = n) :
    p.energy? bits = some (p.value n (bitAt bits)) := by
  have hterm : ∀ t ∈ p.terms.toList, t.1.1 < n ∧ t.1.2 < n := by
    rintro ⟨pair, k⟩ ht
    have hsome := Std.TreeMap.mem_toList_iff_getElem?_eq_some.1 ht
    obtain ⟨hle, hlt⟩ := hp pair (Std.TreeMap.mem_iff_isSome_getElem?.2 (by rw [hsome]; rfl))
    exact ⟨hle.trans_lt hlt, hlt⟩
  have hbounds : ∀ a ∈ p.terms.toList.map termAddition, a.row < n ∧ a.col < n :=
    List.forall_mem_map.2 hterm
  have hcells := sum_additions hbounds (bitAt bits)
  simp only [List.map_map, sum_valuesAt_terms] at hcells
  subst hlen
  rw [energy?, foldlM_energyStep?_eq hterm, Option.map_some, value, ← hcells, zero_add]
  rfl

/-! ## Calls -/

/-- A call that adds to a polynomial. -/
inductive Call where
  | constant (value : Rat)
  | linear (v : Nat) (value : Rat)
  | product (a b : Nat) (value : Rat)
  | exactlyOne (vars : List Nat) (scale : Rat)
  deriving DecidableEq, Repr

namespace Call

/-- The polynomial after a call. -/
def apply (p : Polynomial Rat) : Call → Polynomial Rat
  | constant value => p.addConstant value
  | linear v value => p.addLinear v value
  | product a b value => p.addProduct a b value
  | exactlyOne vars scale => p.addExactlyOne vars scale

/-- The variables that a call mentions. -/
def mentions : Call → List Nat
  | constant _ => []
  | linear v _ => [v]
  | product a b _ => [a, b]
  | exactlyOne vars _ => vars

/-- What a call is worth at a point: a constant, a multiple of a variable or of two, and a multiple
of the square that is zero where the variables of a list add up to one. -/
def worth (x : Nat → Rat) : Call → Rat
  | constant value => value
  | linear v value => value * x v
  | product a b value => value * x a * x b
  | exactlyOne vars scale => scale * (1 - (vars.map x).sum) ^ 2

/-- One call adds what it is worth. -/
theorem adds {c : Call} (h : ∀ v ∈ c.mentions, v < n) :
    Adds n (fun p => c.apply p) fun x => c.worth x := by
  cases c with
  | constant value => exact Adds.addConstant value
  | linear v value => exact Adds.addLinear (h v List.mem_cons_self) value
  | product a b value =>
    have hb := h b (List.mem_cons_of_mem a List.mem_cons_self)
    exact (Adds.addProduct (h a List.mem_cons_self) hb value).congr fun x _ =>
      (mul_assoc value (x a) (x b)).symm
  | exactlyOne vars scale => exact Adds.addExactlyOne scale h

end Call

/-- The polynomial that calls lead to, one after the other. -/
def run (calls : List Call) : Polynomial Rat := calls.foldl Call.apply zero

/-- All calls add what they are worth. -/
theorem adds_run {calls : List Call} (h : ∀ c ∈ calls, ∀ v ∈ c.mentions, v < n) :
    Adds n (fun p => calls.foldl Call.apply p) fun x => (calls.map (Call.worth x)).sum :=
  Adds.foldl fun c hc => c.adds (h c hc)

end Polynomial

open GraphQubo.Polynomial

/-- Calls in the variables below `n` lead to a polynomial with a value for every assignment of
them, the sum of what the calls are worth.  Its matrix over `n` variables is upper triangular, and
the value is the energy of the matrix and the offset. -/
theorem calls_add_up {n : Nat} {calls : List Call} (h : ∀ c ∈ calls, ∀ v ∈ c.mentions, v < n) :
    ∃ m, (run calls).toMatrix n = .ok m ∧ m.dimension = n ∧ m.isUpperTriangular = true ∧
      ∀ bits, bits.length = n →
        (run calls).energy? bits = some (calls.map (Call.worth (bitAt bits))).sum ∧
        ∃ e, m.energy bits = .ok e ∧ (run calls).energy? bits = some ((run calls).offset + e) := by
  have hadds := adds_run h
  have hwithin : (run calls).Within n := hadds.within zero (within_zero n)
  obtain ⟨m, hm, hdim, -, hupper, henergy⟩ := hwithin.exists_energy
  refine ⟨m, hm, hdim, Matrix.isUpperTriangular_iff.2 hupper, fun bits hlen => ⟨?_, ?_⟩⟩
  · have hvalue : (run calls).value n (bitAt bits) = (calls.map (Call.worth (bitAt bits))).sum := by
      rw [run, hadds.value zero _ (isBinary_bitAt bits), value_zero, zero_add]
    rw [hwithin.energy?_eq hlen, hvalue]
  · exact ⟨_, henergy bits hlen, by rw [hwithin.energy?_eq hlen, add_sub_cancel]⟩

/-- A square over a list that repeats a variable, and the same product in both orders. -/
def Polynomial.repeatedCalls : List Call :=
  [.constant 1, .exactlyOne [0, 1, 0] 2, .product 1 0 3, .product 0 1 (-1), .linear 1 (-4)]

/-- With both variables set the list adds up to three, and the square is worth eight. -/
theorem calls_add_up_repeated :
    (∀ c ∈ repeatedCalls, ∀ v ∈ c.mentions, v < 2) ∧
      (run repeatedCalls).energy? [true, true] = some 7 ∧
      ∃ m, (run repeatedCalls).toMatrix 2 = .ok m ∧ m.energy [true, true] = .ok 4 := by
  have hbelow : ∀ c ∈ repeatedCalls, ∀ v ∈ c.mentions, v < 2 := by decide
  obtain ⟨m, hm, -, -, hvalues⟩ := calls_add_up hbelow
  obtain ⟨hvalue, e, he, hsum⟩ := hvalues [true, true] rfl
  have hworth : (repeatedCalls.map (Call.worth (bitAt [true, true]))).sum = 7 := by decide +kernel
  have hoffset : (run repeatedCalls).offset = 3 := by decide +kernel
  rw [hworth] at hvalue
  rw [hvalue, hoffset] at hsum
  have he' : e = 4 := by linarith [Option.some.inj hsum]
  exact ⟨hbelow, hvalue, m, hm, he' ▸ he⟩

end GraphQubo
