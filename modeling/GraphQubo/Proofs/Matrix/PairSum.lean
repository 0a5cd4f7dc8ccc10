import Mathlib.Algebra.BigOperators.Group.Finset.Sigma
import Mathlib.Algebra.BigOperators.Ring.Finset
import Mathlib.Algebra.Order.BigOperators.Group.Finset
import Mathlib.Algebra.Order.Ring.Rat
import Mathlib.Tactic.Linarith
import Mathlib.Tactic.Ring

/-!
# GraphQubo.Proofs.Matrix.PairSum

Sums of a coupling over all ordered pairs of members of a finite set.

* `pairSum_insert`, `pairSum_erase` — what one more member changes;
* `pairSum_congr` — only the sum of the two couplings of a pair counts;
* `pairSum_singleton`, `pairSum_pair` — the smallest sets, which tell all couplings;
* `relatedPairs` — the pairs of members that stand in a relation;
* `sum_sum_eq_image`, `sum_deviation` — pairs with one image, and how far the counts of the
  images are from one;
* `sum_sum_le_eq`, `sum_sum_eq_lt`, `sq_sum_eq` — sums over pairs of numbers, in order.
-/

namespace GraphQubo

open Finset

section

variable {α : Type} [DecidableEq α]

/-- The sum of a coupling over all ordered pairs of members of a set. -/
def pairSum (q : α → α → Rat) (s : Finset α) : Rat := ∑ x ∈ s, ∑ y ∈ s, q x y

/-- What a further member brings: its own value and its couplings to the others. -/
def field (q : α → α → Rat) (s : Finset α) (x : α) : Rat := q x x + ∑ y ∈ s, (q x y + q y x)

omit [DecidableEq α] in
theorem sum_ite_eq_card (s : Finset α) (p : α → Prop) [DecidablePred p] (k : Rat) :
    ∑ y ∈ s, (if p y then k else 0) = (s.filter p).card * k := by
  rw [← sum_filter, sum_const, nsmul_eq_mul]

omit [DecidableEq α] in
/-- A sum over at most one member is zero or the value of that member. -/
theorem sum_ite_of_subsingleton {s : Finset α} {p : α → Prop} [DecidablePred p]
    (hone : ∀ x ∈ s, ∀ y ∈ s, p x → p y → x = y) (f : α → Rat) :
    ∑ x ∈ s, (if p x then f x else 0) = 0 ∨
      ∃ x ∈ s, p x ∧ ∑ x ∈ s, (if p x then f x else 0) = f x := by
  by_cases hsome : ∃ x ∈ s, p x
  · obtain ⟨x, hx, hpx⟩ := hsome
    refine .inr ⟨x, hx, hpx, ?_⟩
    rw [sum_eq_single_of_mem x hx fun y hy hyx => if_neg fun hpy => hyx (hone y hy x hx hpy hpx),
      if_pos hpx]
  · exact .inl (sum_eq_zero fun x hx => if_neg fun hpx => hsome ⟨x, hx, hpx⟩)

/-- An element that is new adds its field. -/
theorem pairSum_insert (q : α → α → Rat) {s : Finset α} {x : α} (hx : x ∉ s) :
    pairSum q (insert x s) = pairSum q s + field q s x := by
  have hinner : ∀ y, ∑ z ∈ insert x s, q y z = q y x + ∑ z ∈ s, q y z := fun y =>
    sum_insert hx
  unfold pairSum field
  rw [sum_insert hx, sum_congr rfl fun y _ => hinner y, hinner, sum_add_distrib,
    sum_add_distrib]
  ring

/-- An element that is dropped takes its field away. -/
theorem pairSum_erase (q : α → α → Rat) {s : Finset α} {x : α} (hx : x ∈ s) :
    pairSum q s = pairSum q (s.erase x) + field q (s.erase x) x := by
  rw [← pairSum_insert q (notMem_erase x s), insert_erase hx]

omit [DecidableEq α] in
/-- Only the sum of the two couplings of a pair counts. -/
theorem pairSum_congr {q q' : α → α → Rat} (h : ∀ x y, q x y + q y x = q' x y + q' y x)
    (s : Finset α) : pairSum q s = pairSum q' s := by
  have htwice : ∀ r : α → α → Rat, pairSum r s + pairSum r s =
      ∑ x ∈ s, ∑ y ∈ s, (r x y + r y x) := by
    intro r
    simp only [sum_add_distrib, pairSum]
    rw [sum_comm (f := fun x y => r y x)]
  have hdouble : pairSum q s + pairSum q s = pairSum q' s + pairSum q' s := by
    rw [htwice, htwice]
    exact sum_congr rfl fun x _ => sum_congr rfl fun y _ => h x y
  linarith

omit [DecidableEq α] in
/-- Members with other names, coupled under those names. -/
theorem pairSum_map {β : Type} (q : β → β → Rat) (e : α ↪ β) (s : Finset α) :
    pairSum q (s.map e) = pairSum (fun x y => q (e x) (e y)) s := by
  simp only [pairSum, sum_map]

omit [DecidableEq α] in
@[simp] theorem pairSum_singleton (q : α → α → Rat) (x : α) : pairSum q {x} = q x x := by
  simp [pairSum]

/-- The pair sum of two elements. -/
theorem pairSum_pair (q : α → α → Rat) {x y : α} (hxy : x ≠ y) :
    pairSum q {x, y} = q x x + q y y + (q x y + q y x) := by
  rw [pairSum_insert q (notMem_singleton.2 hxy), pairSum_singleton, field, sum_singleton]
  ring

end

/-! ## Counts of pairs -/

section

variable {α : Type}

/-- The number of ordered pairs of members that stand in a relation. -/
def relatedPairs (p : α → α → Prop) [DecidableRel p] (X : Finset α) : Nat :=
  ∑ x ∈ X, (X.filter (p x)).card

/-- A score of each related pair comes to their number. -/
theorem sum_sum_ite_eq_relatedPairs (p : α → α → Prop) [DecidableRel p] (X : Finset α)
    (k : Rat) : ∑ x ∈ X, ∑ y ∈ X, (if p x y then k else 0) = k * relatedPairs p X := by
  simp only [sum_ite_eq_card, relatedPairs, Nat.cast_sum, mul_sum, mul_comm]

/-- There is no related pair if no two elements are related. -/
theorem relatedPairs_eq_zero_iff {p : α → α → Prop} [DecidableRel p] {X : Finset α} :
    relatedPairs p X = 0 ↔ ∀ x ∈ X, ∀ y ∈ X, ¬p x y := by
  simp only [relatedPairs, sum_eq_zero_iff, card_eq_zero, filter_eq_empty_iff]

/-- The pairs of members with one image, counted image by image. -/
theorem sum_sum_eq_image {β : Type} [Fintype β] [DecidableEq β] (a : Rat) (s : Finset α)
    (f : α → β) :
    ∑ x ∈ s, ∑ y ∈ s, (if f x = f y then a else 0) =
      a * ∑ i, ((s.filter fun x => f x = i).card : Rat) ^ 2 := by
  have hinner : ∀ x ∈ s, ∑ y ∈ s, (if f x = f y then a else 0) =
      ((s.filter fun y => f y = f x).card : Rat) * a := by
    intro x _
    rw [← sum_filter, sum_const, nsmul_eq_mul]
    simp only [eq_comm]
  rw [sum_congr rfl hinner, ← sum_fiberwise' s f fun i =>
    ((s.filter fun y => f y = i).card : Rat) * a, mul_sum]
  refine sum_congr rfl fun i _ => ?_
  rw [sum_const, nsmul_eq_mul]
  ring

variable {n : Nat} {f : Fin n → Nat}

/-- Squared deviations from one, against the squares themselves. -/
theorem sum_deviation {k : Nat} (hk : ∑ i, f i = k) :
    ∑ i, ((f i : Rat) - 1) ^ 2 = ∑ i, (f i : Rat) ^ 2 - 2 * k + n := by
  have hterm : ∀ i, ((f i : Rat) - 1) ^ 2 = (f i : Rat) ^ 2 - 2 * f i + 1 := fun i => by ring
  simp only [hterm, sum_add_distrib, sum_sub_distrib, ← mul_sum, ← hk, Nat.cast_sum]
  simp

/-- The deviation of counts from one is never negative. -/
theorem sum_deviation_nonneg (f : Fin n → Nat) : 0 ≤ ∑ i, ((f i : Rat) - 1) ^ 2 :=
  sum_nonneg fun _ _ => sq_nonneg _

/-- It vanishes if and only if all counts are one. -/
theorem sum_deviation_eq_zero_iff : ∑ i, ((f i : Rat) - 1) ^ 2 = 0 ↔ ∀ i, f i = 1 := by
  rw [sum_eq_zero_iff_of_nonneg fun _ _ => sq_nonneg _]
  refine ⟨fun h i => ?_, fun h i _ => by rw [h i]; norm_num⟩
  have hzero : (f i : Rat) - 1 = 0 := pow_eq_zero_iff two_ne_zero |>.1 (h i (mem_univ i))
  exact_mod_cast sub_eq_zero.1 hzero

end

/-! ## Pairs of numbers in order -/

/-- A sum of sums over pairs is a sum over pairs of sums. -/
theorem sum_pairs_comm (k n : Nat) (f : Nat → Nat → Nat → Rat) :
    ∑ i ∈ range k, ∑ v ∈ range n, ∑ w ∈ range n, f i v w =
      ∑ v ∈ range n, ∑ w ∈ range n, ∑ i ∈ range k, f i v w := by
  rw [sum_comm]
  exact sum_congr rfl fun v _ => sum_comm

/-- A sum over ordered pairs is the diagonal and the pairs in strict order. -/
theorem sum_sum_le_eq (n : Nat) (f : Nat → Nat → Rat) :
    ∑ v ∈ range n, ∑ w ∈ range n, (if v ≤ w then f v w else 0) =
      ∑ v ∈ range n, f v v + ∑ v ∈ range n, ∑ w ∈ range n, if v < w then f v w else 0 := by
  have hterm : ∀ v w, (if v ≤ w then f v w else 0) =
      (if v = w then f v v else 0) + if v < w then f v w else 0 := by
    intro v w
    rcases Nat.lt_trichotomy v w with h | rfl | h
    · simp [h, h.le, h.ne]
    · simp
    · simp [h.not_ge, h.not_gt, h.ne']
  rw [← sum_add_distrib]
  refine sum_congr rfl fun v hv => ?_
  simp only [hterm, sum_add_distrib, sum_ite_eq, hv, if_true]

/-- Of two different nodes in order the difference goes without saying. -/
theorem ite_ne_ite_lt (v w : Nat) (k : Rat) :
    (if v ≠ w then if v < w then k else 0 else 0) = if v < w then k else 0 := by
  rw [← ite_and]
  exact if_congr (and_iff_right_of_imp Nat.ne_of_lt) rfl rfl

/-- Each pair of different numbers is met twice, once in each order. -/
theorem sum_sum_eq_lt (n : Nat) (f : Nat → Nat → Rat) :
    ∑ v ∈ range n, ∑ w ∈ range n, f v w =
      ∑ v ∈ range n, f v v +
        ∑ v ∈ range n, ∑ w ∈ range n, if v < w then f v w + f w v else 0 := by
  have hterm : ∀ v w, f v w =
      (if v ≤ w then f v w else 0) + if w < v then f v w else 0 := by
    intro v w
    rcases Nat.lt_or_ge w v with h | h
    · simp [h, h.not_ge]
    · simp [h, h.not_gt]
  have hswap : ∑ v ∈ range n, ∑ w ∈ range n, (if w < v then f v w else 0) =
      ∑ v ∈ range n, ∑ w ∈ range n, if v < w then f w v else 0 := sum_comm
  calc ∑ v ∈ range n, ∑ w ∈ range n, f v w
      = ∑ v ∈ range n, ∑ w ∈ range n, (if v ≤ w then f v w else 0) +
          ∑ v ∈ range n, ∑ w ∈ range n, if v < w then f w v else 0 := by
        rw [← hswap]
        simp only [← sum_add_distrib, ← hterm]
    _ = _ := by
        rw [sum_sum_le_eq, add_assoc]
        simp only [← sum_add_distrib, ite_add_zero]

/-- The square of a sum of zeros and ones. -/
theorem sq_sum_eq (n : Nat) {x : Nat → Rat} (hx : ∀ i, x i * x i = x i) :
    (∑ i ∈ range n, x i) ^ 2 =
      ∑ i ∈ range n, x i + 2 * ∑ i ∈ range n, ∑ j ∈ range n, if i < j then x i * x j else 0 := by
  have htwice : ∀ i j, (if i < j then x i * x j + x j * x i else 0) =
      2 * if i < j then x i * x j else 0 := by
    intro i j
    rw [mul_ite, mul_zero]
    exact if_congr Iff.rfl (by ring) rfl
  rw [sq, sum_mul_sum, sum_sum_eq_lt]
  simp only [hx, htwice, mul_sum]

end GraphQubo
