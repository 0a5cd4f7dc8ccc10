import Mathlib.Algebra.Order.Ring.Rat
import GraphQubo.Coefficient

/-!
# GraphQubo.Proofs.Coefficient.Order

The tests of two finite coefficients put them in order.

`Coefficient.atMost`, `below` and `same` are tests, not relations with laws: one that meets a
NaN is false.  Finite coefficients are in a total order under `atMost`, and the other two tests
follow it.  The two zeros of a double are equal in this order, and all doubles that are numbers lie
between the two infinities.

* `Coefficient.Ordered` — these laws, for rationals and for doubles;
* `compare_eq_rank` — two doubles that are numbers are compared by sign, exponent and significand.
-/

namespace GraphQubo

namespace Coefficient

/-- Finite coefficients are in a total order. -/
class Ordered (K : Type) [Coefficient K] : Prop where
  isFinite_zero : isFinite (0 : K) = true
  total {x y : K} : isFinite x = true → isFinite y = true → atMost x y = true ∨ atMost y x = true
  trans {x y z : K} : isFinite x = true → isFinite y = true → isFinite z = true →
    atMost x y = true → atMost y z = true → atMost x z = true
  below_eq {x y : K} : isFinite x = true → isFinite y = true → below x y = !atMost y x
  same_eq {x y : K} : isFinite x = true → isFinite y = true →
    same x y = (atMost x y && atMost y x)

instance : Ordered Rat where
  isFinite_zero := rfl
  total {x y} _ _ := by
    simp only [atMost, decide_eq_true_eq]
    exact le_total x y
  trans _ _ _ hxy hyz := by
    simp only [atMost, decide_eq_true_eq] at hxy hyz ⊢
    exact hxy.trans hyz
  below_eq {x y} _ _ := by
    rw [Bool.eq_iff_iff]
    simp only [atMost, below, Bool.not_eq_true', decide_eq_true_eq, decide_eq_false_iff_not]
    exact not_le.symm
  same_eq {x y} _ _ := by
    rw [Bool.eq_iff_iff, Bool.and_eq_true]
    simp only [same, atMost, beq_iff_eq, decide_eq_true_eq]
    exact le_antisymm_iff

/-! ## Doubles -/

open Float.Model Float.Model.UnpackedFloat

/-- The place of a double in the order, unless it is a NaN: its sign counts first, then its
exponent, then its significand, the last two in reverse for a negative one. -/
def rank : UnpackedFloat → Int × Int × Int
  | .infinity .positive => (2, 0, 0)
  | .infinity .negative => (-2, 0, 0)
  | .finite .positive significand exponent _ => (1, exponent, significand)
  | .finite .negative significand exponent _ => (-1, -exponent, -significand)
  | _ => (0, 0, 0)

/-- The order of places. -/
def rankCompare : Int × Int × Int → Int × Int × Int → Ordering :=
  compareLex (compareOn (·.1)) (compareLex (compareOn (·.2.1)) (compareOn (·.2.2)))

instance : Std.TransCmp rankCompare :=
  inferInstanceAs (Std.TransCmp (compareLex _ (compareLex _ _)))

theorem compare_natCast (m n : Nat) : compare (m : Int) n = compare m n := by
  simp only [compare, compareOfLessAndEq, Int.ofNat_lt, Int.ofNat_inj]

theorem compare_neg (a b : Int) : compare (-a) (-b) = (compare a b).swap := by
  have hswap : compare a b = (compare b a).swap := Std.OrientedCmp.eq_swap
  rw [hswap, Ordering.swap_swap]
  simp only [compare, compareOfLessAndEq, Int.neg_lt_neg_iff, Int.neg_inj]
  grind

/-- A double is finite, infinite or a NaN. -/
theorem isNaN_and_isInf_of_isFinite {x : Float} (h : x.isFinite = true) :
    x.isNaN = false ∧ x.isInf = false := by
  change x.toModel.unpack.isFinite = true at h
  change x.toModel.unpack.isNaN = false ∧ x.toModel.unpack.isInf = false
  generalize x.toModel.unpack = u at h
  cases u with
  | notANumber => cases h
  | infinity s => cases h
  | zero s => exact ⟨rfl, rfl⟩
  | finite s m e hm => exact ⟨rfl, rfl⟩

/-- Two numbers that are not NaN compare as their ranks do. -/
theorem compare_eq_rank {u v : UnpackedFloat} (hu : u.isNaN = false) (hv : v.isNaN = false) :
    u.compare v = some (rankCompare (rank u) (rank v)) := by
  cases u with
  | notANumber => cases hu
  | infinity s =>
    cases v with
    | notANumber => cases hv
    | infinity t | finite t => cases s <;> cases t <;> rfl
    | zero => cases s <;> rfl
  | zero =>
    cases v with
    | notANumber => cases hv
    | zero => rfl
    | infinity t | finite t => cases t <;> rfl
  | finite s m e =>
    cases v with
    | notANumber => cases hv
    | infinity t => cases s <;> cases t <;> rfl
    | zero => cases s <;> rfl
    | finite t m' e' =>
      cases s <;> cases t
      case negative.negative =>
        change _ = some ((compare (-e) (-e')).then (compare (-m : Int) (-m')))
        rw [compare_neg, compare_neg, compare_natCast, ← Ordering.swap_then]
        rfl
      case positive.positive =>
        change _ = some ((compare e e').then (compare (m : Int) m'))
        rw [compare_natCast]
        rfl
      all_goals rfl

/-- The order of two doubles by their places. -/
def floatCompare (x y : Float) : Ordering :=
  rankCompare (rank x.toModel.unpack) (rank y.toModel.unpack)

instance : Std.TransCmp floatCompare where
  eq_swap := by
    unfold floatCompare
    exact Std.OrientedCmp.eq_swap
  isLE_trans := by
    unfold floatCompare
    exact Std.TransCmp.isLE_trans

/-- Comparing the other way round swaps the answer. -/
theorem floatCompare_swap (x y : Float) : floatCompare y x = (floatCompare x y).swap :=
  Std.OrientedCmp.eq_swap

section

variable {x y : Float} (hx : x.isNaN = false) (hy : y.isNaN = false)

include hx hy

/-- The test for `≤` in terms of the comparison. -/
theorem atMost_eq_isLE : atMost x y = (floatCompare x y).isLE := by
  change decide (decide (x.toModel.unpack.le y.toModel.unpack = true) = true) = _
  rw [Bool.decide_eq_true, Bool.decide_eq_true, UnpackedFloat.le, compare_eq_rank hx hy]
  rfl

/-- The test for `<` in terms of the comparison. -/
theorem below_eq_isLT : below x y = (floatCompare x y).isLT := by
  change decide (decide (x.toModel.unpack.lt y.toModel.unpack = true) = true) = _
  rw [Bool.decide_eq_true, Bool.decide_eq_true, UnpackedFloat.lt, compare_eq_rank hx hy]
  unfold floatCompare
  cases rankCompare _ _ <;> rfl

/-- The test for equality in terms of the comparison. -/
theorem same_eq_isEq : same x y = (floatCompare x y).isEq := by
  change (x.toModel.unpack.compare y.toModel.unpack == some .eq) = _
  rw [compare_eq_rank hx hy]
  unfold floatCompare
  cases rankCompare _ _ <;> rfl

end

/-- A finite number is not NaN. -/
theorem isNaN_eq_false_of_isFinite {x : Float} (h : isFinite x = true) : x.isNaN = false :=
  (isNaN_and_isInf_of_isFinite h).1

/-- Of two doubles that are numbers one is at most the other. -/
theorem atMost_total {x y : Float} (hx : x.isNaN = false) (hy : y.isNaN = false) :
    atMost x y = true ∨ atMost y x = true := by
  rw [atMost_eq_isLE hx hy, atMost_eq_isLE hy hx, floatCompare_swap x y]
  cases floatCompare x y <;> simp

/-- What is compared with a NaN is not at most it, nor the other way round. -/
theorem isNaN_of_atMost {x y : Float} (h : atMost x y = true) :
    x.isNaN = false ∧ y.isNaN = false := by
  change decide (decide (x.toModel.unpack.le y.toModel.unpack = true) = true) = true at h
  change x.toModel.unpack.isNaN = false ∧ y.toModel.unpack.isNaN = false
  rw [Bool.decide_eq_true, Bool.decide_eq_true, UnpackedFloat.le] at h
  generalize x.toModel.unpack = u at h
  generalize y.toModel.unpack = v at h
  cases u with
  | notANumber => cases v <;> cases h
  | infinity s | zero s | finite s =>
    cases v with
    | notANumber => cases s <;> cases h
    | infinity t | zero t | finite t => exact ⟨rfl, rfl⟩

/-- The order is transitive, whatever the three numbers are. -/
theorem atMost_trans {x y z : Float} (hxy : atMost x y = true) (hyz : atMost y z = true) :
    atMost x z = true := by
  obtain ⟨hx, hy⟩ := isNaN_of_atMost hxy
  obtain ⟨-, hz⟩ := isNaN_of_atMost hyz
  rw [atMost_eq_isLE hx hy] at hxy
  rw [atMost_eq_isLE hy hz] at hyz
  rw [atMost_eq_isLE hx hz]
  exact Std.TransCmp.isLE_trans hxy hyz

instance : Ordered Float where
  isFinite_zero := by decide +kernel
  total hx hy := atMost_total (isNaN_eq_false_of_isFinite hx) (isNaN_eq_false_of_isFinite hy)
  trans _ _ _ := atMost_trans
  below_eq {x y} hx hy := by
    have hx' := isNaN_eq_false_of_isFinite hx
    have hy' := isNaN_eq_false_of_isFinite hy
    rw [below_eq_isLT hx' hy', atMost_eq_isLE hy' hx', floatCompare_swap x y]
    cases floatCompare x y <;> rfl
  same_eq {x y} hx hy := by
    have hx' := isNaN_eq_false_of_isFinite hx
    have hy' := isNaN_eq_false_of_isFinite hy
    rw [same_eq_isEq hx' hy', atMost_eq_isLE hx' hy', atMost_eq_isLE hy' hx',
      floatCompare_swap x y]
    cases floatCompare x y <;> rfl

/-! ## Weights -/

namespace Ordered

variable {K : Type} [Coefficient K] [Ordered K] {x y : K}

theorem refl (hx : isFinite x = true) : atMost x x = true := or_self_iff.1 (total hx hx)

theorem same_self (hx : isFinite x = true) : same x x = true := by
  rw [same_eq hx hx, refl hx]
  rfl

end Ordered

end Coefficient

end GraphQubo
