import Mathlib.Tactic.LinearCombination
import GraphQubo.Polynomial
import GraphQubo.Proofs.Compile.CellMeaning
import GraphQubo.Proofs.Matrix.Folding

/-!
# GraphQubo.Proofs.Polynomial.Value

The value of a polynomial, and the energies of its matrix, in exact arithmetic.

A polynomial grows call by call, so its value is told call by call.  A function on
polynomials `Adds` a worth if it keeps to the variables below `n` and raises the value at
every binary point by that worth.  Such functions can be made one after the other and over
the elements of a list, and their worths add up.

* `Polynomial.Within.exists_toMatrix` — the matrix holds the coefficients;
* `Polynomial.Adds.addProduct`, `Polynomial.Adds.addExactlyOne` — what single calls are worth;
* `Polynomial.Adds.comp`, `Polynomial.Adds.foldl` — calls one after the other;
* `Polynomial.Adds.exists_matrix` — the energies of the matrix that calls lead to.
-/

namespace GraphQubo

open Finset

namespace Polynomial

variable {n : Nat} {p : Polynomial Rat}

/-! ## Polynomials in the variables below `n` -/

/-- Every term is a pair of variables below `n`, the smaller one first. -/
def Within (p : Polynomial Rat) (n : Nat) : Prop :=
  ∀ pair ∈ p.terms, pair.1 ≤ pair.2 ∧ pair.2 < n

/-- The zero polynomial has no variable at all. -/
theorem within_zero (n : Nat) : (zero : Polynomial Rat).Within n := fun _ h =>
  absurd h Std.TreeMap.not_mem_emptyc

/-- A pair without a term has coefficient zero. -/
theorem coefficient_eq_zero {pair : Nat × Nat} (h : pair ∉ p.terms) : p.coefficient pair = 0 :=
  Std.TreeMap.getD_eq_fallback h

/-- A product of variables below a bound keeps the polynomial below it. -/
theorem Within.addProduct (hp : p.Within n) {a b : Nat} (ha : a < n) (hb : b < n) (k : Rat) :
    (p.addProduct a b k).Within n := by
  intro pair hpair
  rcases Std.TreeMap.mem_insert.1 hpair with heq | hold
  · obtain rfl := Std.LawfulEqCmp.eq_of_compare heq
    exact ⟨min_le_max, max_lt ha hb⟩
  · exact hp pair hold

/-! ## The matrix -/

/-- A term as an addition to its cell. -/
def termAddition (t : (Nat × Nat) × Rat) : Addition Rat := ⟨t.1.1, t.1.2, t.2⟩

/-- A cell receives the coefficient of its pair and nothing else. -/
theorem sum_valuesAt_terms (p : Polynomial Rat) (i j : Nat) :
    (valuesAt (p.terms.toList.map termAddition) i j).sum = p.coefficient (i, j) := by
  have hnodup : p.terms.toList.Nodup := by
    refine Std.TreeMap.distinct_keys_toList.imp fun hne heq => hne ?_
    rw [heq]
    exact Std.ReflCmp.compare_self
  have hcell : ∀ t ∈ p.terms.toList, ((termAddition t).row = i ∧ (termAddition t).col = j) ↔
      t = ((i, j), p.coefficient (i, j)) ∧ True := by
    rintro ⟨pair, k⟩ ht
    have hk : p.coefficient pair = k := by
      rw [coefficient, Std.TreeMap.getD_eq_getD_getElem?,
        Std.TreeMap.mem_toList_iff_getElem?_eq_some.1 ht, Option.getD_some]
    rw [and_true, Prod.ext_iff, Prod.ext_iff]
    constructor
    · rintro ⟨rfl, rfl⟩
      exact ⟨⟨rfl, rfl⟩, hk.symm⟩
    · exact And.left
  rw [valuesAt_map_of_unique hnodup hcell, sum_ite_singleton]
  by_cases hmem : ((i, j), p.coefficient (i, j)) ∈ p.terms.toList
  · exact if_pos ⟨hmem, trivial⟩
  · have hnone : (i, j) ∉ p.terms := by
      intro hin
      obtain ⟨k, hk⟩ := Option.isSome_iff_exists.1 (Std.TreeMap.mem_iff_isSome_getElem?.1 hin)
      refine hmem (Std.TreeMap.mem_toList_iff_getElem?_eq_some.2 ?_)
      rw [coefficient, Std.TreeMap.getD_eq_getD_getElem?, hk, Option.getD_some]
    rw [if_neg fun h => hmem h.1, coefficient_eq_zero hnone]

/-- A polynomial in the variables below `n` has a matrix, which holds its coefficients. -/
theorem Within.exists_toMatrix (hp : p.Within n) :
    ∃ m, p.toMatrix n = .ok m ∧ m.dimension = n ∧ m.order = .rowMajor ∧ m.IsUpper ∧
      ∀ i j, i < n → j < n → m.cell i j = p.coefficient (i, j) := by
  have hrange : ∀ a ∈ p.terms.toList.map termAddition,
      (Matrix.zeros n : Matrix Rat).InRange a.row a.col := by
    intro a ha
    obtain ⟨⟨pair, k⟩, ht, rfl⟩ := List.mem_map.1 ha
    have hsome := Std.TreeMap.mem_toList_iff_getElem?_eq_some.1 ht
    obtain ⟨hle, hlt⟩ := hp pair (Std.TreeMap.mem_iff_isSome_getElem?.2 (by rw [hsome]; rfl))
    exact ⟨Nat.lt_of_le_of_lt hle hlt, hlt⟩
  obtain ⟨m, hm, hacc⟩ : ∃ m, (p.terms.toList.map termAddition).foldlM
      (fun m a => m.add a.row a.col a.value) (Matrix.zeros n) = .ok m ∧
      (Matrix.zeros n).Accumulates (p.terms.toList.map termAddition) m :=
    Matrix.exists_foldlM_add (fun _ _ _ => rfl) hrange
  have hget : ∀ i j, i < n → j < n → m.cell i j = p.coefficient (i, j) := by
    intro i j hi hj
    rw [Matrix.cell, hacc.get?, Matrix.get?_zeros, if_pos ⟨hi, hj⟩, Option.map_some,
      Option.getD_some, addAll_eq_sum, sum_valuesAt_terms, zero_add]
  refine ⟨m, ?_, hacc.dimension, hacc.order, fun i j hji => ?_, hget⟩
  · rw [List.foldlM_map] at hm
    exact hm
  · by_cases hi : i < n
    · rw [hget i j hi (Nat.lt_trans hji hi)]
      exact coefficient_eq_zero fun hmem => Nat.not_le.2 hji (hp _ hmem).1
    · have hout : ¬m.InRange i j := fun hr => hi (Nat.lt_of_lt_of_eq hr.1 hacc.dimension)
      rw [Matrix.cell, Matrix.get?_eq_none_iff.2 hout, Option.getD_none]

/-! ## The value -/

/-- The value of a polynomial in the variables below `n`. -/
def value (p : Polynomial Rat) (n : Nat) (x : Nat → Rat) : Rat :=
  p.offset + ∑ i ∈ range n, ∑ j ∈ range n, x i * (p.coefficient (i, j) * x j)

/-- The matrix has the value of the polynomial for its energy, but for the offset. -/
theorem Within.exists_energy (hp : p.Within n) :
    ∃ m, p.toMatrix n = .ok m ∧ m.dimension = n ∧ m.order = .rowMajor ∧ m.IsUpper ∧
      ∀ bits, bits.length = n → m.energy bits = .ok (p.value n (bitAt bits) - p.offset) := by
  obtain ⟨m, hm, hdim, horder, hupper, hcell⟩ := hp.exists_toMatrix
  refine ⟨m, hm, hdim, horder, hupper, fun bits hlen => ?_⟩
  rw [m.energy_eq_ok (hlen.trans hdim.symm), hdim, value, add_sub_cancel_left]
  refine congrArg Except.ok (sum_congr rfl fun i hi => sum_congr rfl fun j hj => ?_)
  rw [hcell i j (mem_range.1 hi) (mem_range.1 hj)]

/-- The zero polynomial has the value zero. -/
theorem value_zero (n : Nat) (x : Nat → Rat) : (zero : Polynomial Rat).value n x = 0 := by
  have hcoefficient : ∀ pair, (zero : Polynomial Rat).coefficient pair = 0 := fun pair =>
    coefficient_eq_zero Std.TreeMap.not_mem_emptyc
  simp only [value, hcoefficient, zero_mul, mul_zero, sum_const_zero, add_zero]
  rfl

/-- A constant adds itself to the value. -/
theorem value_addConstant (p : Polynomial Rat) (n : Nat) (k : Rat) (x : Nat → Rat) :
    (p.addConstant k).value n x = p.value n x + k := by
  simp only [value, addConstant, coefficient]
  ring

/-- A product adds its coefficient where both variables are one. -/
theorem value_addProduct (p : Polynomial Rat) {n a b : Nat} (ha : a < n) (hb : b < n) (k : Rat)
    (x : Nat → Rat) : (p.addProduct a b k).value n x = p.value n x + k * (x a * x b) := by
  have hterm : ∀ i j, x i * ((p.addProduct a b k).coefficient (i, j) * x j) =
      x i * (p.coefficient (i, j) * x j) +
        if i = min a b then if j = max a b then k * (x i * x j) else 0 else 0 := by
    intro i j
    simp only [coefficient_addProduct, Prod.mk.injEq, ← ite_and]
    split <;> ring
  have hmin : min a b ∈ range n := mem_range.2 (min_lt_of_left_lt ha)
  have hmax : max a b ∈ range n := mem_range.2 (max_lt ha hb)
  have hproduct : x (min a b) * x (max a b) = x a * x b := by
    rcases le_total a b with h | h
    · rw [min_eq_left h, max_eq_right h]
    · rw [min_eq_right h, max_eq_left h, mul_comm]
  have hsum : ∑ i ∈ range n, ∑ j ∈ range n,
      (if i = min a b then if j = max a b then k * (x i * x j) else 0 else 0) =
        k * (x a * x b) := by
    simp only [sum_ite_irrel, sum_const_zero, sum_ite_eq', hmin, hmax, if_true, hproduct]
  simp only [value, hterm, sum_add_distrib, hsum]
  rw [← add_assoc]
  rfl

/-! ## Calls and what they are worth -/

/-- Every coordinate is zero or one. -/
def IsBinary (x : Nat → Rat) : Prop := ∀ i, x i * x i = x i

/-- The bits of an assignment are zero or one. -/
theorem isBinary_bitAt (bits : List Bool) : IsBinary (bitAt bits) := bitAt_mul_self bits

theorem isBinary_zero : IsBinary fun _ => 0 := fun _ => mul_zero 0

/-- The function keeps to the variables below `n`, and raises the value at binary points by
what it is worth there. -/
structure Adds (n : Nat) (f : Polynomial Rat → Polynomial Rat) (worth : (Nat → Rat) → Rat) :
    Prop where
  within : ∀ p, p.Within n → (f p).Within n
  value : ∀ p x, IsBinary x → (f p).value n x = p.value n x + worth x

namespace Adds

variable {f g : Polynomial Rat → Polynomial Rat} {worth worth' : (Nat → Rat) → Rat}

/-- What an extension is worth need only be right on zeros and ones. -/
theorem congr (h : Adds n f worth) (hworth : ∀ x, IsBinary x → worth x = worth' x) :
    Adds n f worth' :=
  ⟨h.within, fun p x hx => by rw [h.value p x hx, hworth x hx]⟩

theorem nothing : Adds n (fun p => p) fun _ => 0 :=
  ⟨fun _ hp => hp, fun _ _ _ => (add_zero _).symm⟩

/-- Adding a constant is worth the constant. -/
theorem addConstant (k : Rat) : Adds n (fun p => p.addConstant k) fun _ => k :=
  ⟨fun _ hp => hp, fun p x _ => p.value_addConstant n k x⟩

/-- Adding a product is worth the product. -/
theorem addProduct {a b : Nat} (ha : a < n) (hb : b < n) (k : Rat) :
    Adds n (fun p => p.addProduct a b k) fun x => k * (x a * x b) :=
  ⟨fun _ hp => hp.addProduct ha hb k, fun p x _ => p.value_addProduct ha hb k x⟩

/-- Adding a variable is worth the variable, as its square is itself. -/
theorem addLinear {a : Nat} (ha : a < n) (k : Rat) :
    Adds n (fun p => p.addLinear a k) fun x => k * x a :=
  (addProduct ha ha k).congr fun x hx => by rw [hx a]

/-- What is made one after the other adds up. -/
theorem comp (hg : Adds n g worth') (hf : Adds n f worth) :
    Adds n (fun p => g (f p)) fun x => worth x + worth' x :=
  ⟨fun p hp => hg.within _ (hf.within p hp), fun p x hx => by
    rw [hg.value _ x hx, hf.value p x hx, add_assoc]⟩

/-- What is made for each element of a list adds up. -/
theorem foldl {α : Type} {items : List α} {f : Polynomial Rat → α → Polynomial Rat}
    {worth : α → (Nat → Rat) → Rat} (h : ∀ a ∈ items, Adds n (fun p => f p a) (worth a)) :
    Adds n (fun p => items.foldl f p) fun x => (items.map fun a => worth a x).sum := by
  induction items with
  | nil => exact nothing
  | cons a items ih =>
    have hrest := ih fun b hb => h b (List.mem_cons_of_mem _ hb)
    exact hrest.comp (h a List.mem_cons_self)

/-- The linear parts and the products of `scale · (1 - Σ x)²`, without its constant. -/
theorem addExactlyOneParts (scale : Rat) {vars : List Nat} (h : ∀ v ∈ vars, v < n) :
    Adds n (fun p => p.addExactlyOneParts scale vars) fun x =>
      scale * ((vars.map x).sum ^ 2 - 2 * (vars.map x).sum) := by
  induction vars with
  | nil => exact nothing.congr fun x _ => by simp
  | cons a rest ih =>
    have ha := h a List.mem_cons_self
    have hrest : ∀ v ∈ rest, v < n := fun v hv => h v (List.mem_cons_of_mem _ hv)
    have hproducts := foldl fun v hv => addProduct ha (hrest v hv) (Coefficient.whole 2 * scale)
    refine ((ih hrest).comp (hproducts.comp (addLinear ha (-scale)))).congr fun x hx => ?_
    have hsum : (rest.map fun v => Coefficient.whole 2 * scale * (x a * x v)).sum =
        2 * scale * x a * (rest.map x).sum := by
      rw [← List.sum_map_mul_left]
      simp only [Coefficient.whole, mul_assoc]
      rfl
    rw [hsum, List.map_cons, List.sum_cons]
    linear_combination -scale * hx a

/-- A penalty for any other number of set variables than one. -/
theorem addExactlyOne (scale : Rat) {vars : List Nat} (h : ∀ v ∈ vars, v < n) :
    Adds n (fun p => p.addExactlyOne vars scale) fun x => scale * (1 - (vars.map x).sum) ^ 2 :=
  ((addExactlyOneParts scale h).comp (addConstant scale)).congr fun x _ => by ring

/-- The calls that build a polynomial lead to an upper triangular matrix, and its energies
are their worth, counted from the point zero. -/
theorem exists_matrix (h : Adds n f worth) :
    ∃ m, (f zero).toMatrix n = .ok m ∧ m.dimension = n ∧ m.order = .rowMajor ∧ m.IsUpper ∧
      ∀ bits, bits.length = n →
        m.energy bits = .ok (worth (bitAt bits) - worth fun _ => 0) := by
  have hvalue : ∀ x, IsBinary x → (f zero).value n x = worth x := fun x hx => by
    rw [h.value zero x hx, value_zero, zero_add]
  have hoffset : (f zero).offset = worth fun _ => 0 := by
    rw [← hvalue _ isBinary_zero]
    simp [Polynomial.value]
  obtain ⟨m, hm, hdim, horder, hupper, henergy⟩ := (h.within zero (within_zero n)).exists_energy
  refine ⟨m, hm, hdim, horder, hupper, fun bits hlen => ?_⟩
  rw [henergy bits hlen, hvalue _ (isBinary_bitAt bits), hoffset]

end Adds

end Polynomial

end GraphQubo
