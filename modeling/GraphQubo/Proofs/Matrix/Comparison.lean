import GraphQubo.Matrix.Cells
import GraphQubo.Proofs.Coefficient.Difference

/-!
# GraphQubo.Proofs.Matrix.Comparison

When two matrices of doubles differ by at most a tolerance.

The largest difference is found by a running maximum, and a maximum passes over what is no number.
So a place where the difference is a NaN does not count: where one of the cells is a NaN, or where
both are the same infinity.  At all other places the comparison is the one cell by cell.  A
comparison cell by cell is false at a NaN, and the two agree for every tolerance if and only if
there is no such place.

* `atMost_foldl_larger_iff` — a running maximum, element by element;
* `Matrix.approxEq_iff` — the comparison, place by place;
* `Matrix.not_comparesCells_unknown` — a NaN next to a number, and no difference is seen;
* `approxEq_overlooks` — the comparison for every tolerance, and where it is the one cell by cell.
-/

namespace GraphQubo

open Coefficient

namespace Coefficient

/-- The larger of two doubles is at most a bound if both are; a NaN on the right does not count. -/
theorem atMost_larger_iff {x y bound : Float} (hx : x.isNaN = false) :
    atMost (larger x y) bound = true ↔
      atMost x bound = true ∧ (y.isNaN = true ∨ atMost y bound = true) := by
  unfold larger
  split
  case isTrue hxy =>
    have hy : ¬y.isNaN = true := Bool.eq_false_iff.1 (isNaN_of_atMost hxy).2
    constructor
    · exact fun h => ⟨atMost_trans hxy h, .inr h⟩
    · exact fun h => h.2.resolve_left hy
  case isFalse hxy =>
    refine (and_iff_left_of_imp fun h => ?_).symm
    rcases hy : y.isNaN
    · exact .inr (atMost_trans ((atMost_total hx hy).resolve_left hxy) h)
    · exact .inl rfl

theorem isNaN_larger {x : Float} (hx : x.isNaN = false) (y : Float) :
    (larger x y).isNaN = false := by
  unfold larger
  split
  case isTrue hxy => exact (isNaN_of_atMost hxy).2
  case isFalse => exact hx

/-- A running maximum is at most a bound if its start is and every element that is a number. -/
theorem atMost_foldl_larger_iff {α : Type} {f : α → Float} {items : List α} {start bound : Float}
    (hstart : start.isNaN = false) :
    atMost (items.foldl (fun most a => larger most (f a)) start) bound = true ↔
      atMost start bound = true ∧ ∀ a ∈ items, (f a).isNaN = true ∨ atMost (f a) bound = true := by
  induction items generalizing start with
  | nil => simp
  | cons a items ih =>
    rw [List.foldl_cons, ih (isNaN_larger hstart (f a)), atMost_larger_iff hstart, and_assoc,
      List.forall_mem_cons]

/-- The largest of all doubles. -/
def infinite : Float := Float.ofBits 0x7ff0000000000000

/-- Every double that is a number is at most infinite. -/
theorem atMost_infinite {x : Float} (hx : x.isNaN = false) : atMost x infinite = true := by
  have hinfinite : infinite.toModel.unpack = .infinity .positive := rfl
  have hrank : ∀ u, (rankCompare (rank u) (2, 0, 0)).isLE = true := by
    intro u
    cases u with
    | notANumber | zero => rfl
    | infinity s | finite s => cases s <;> rfl
  rw [atMost_eq_isLE hx rfl, floatCompare, hinfinite]
  exact hrank _

end Coefficient

/-- Two doubles without a difference: one of them is a NaN, or both are the same infinity. -/
def Incomparable (x y : Float) : Prop :=
  x.isNaN = true ∨ y.isNaN = true ∨ x.isInf = true ∧ x = y

theorem incomparable_iff {x y : Float} :
    Incomparable x y ↔ (magnitude (x - y)).isNaN = true := by
  rw [isNaN_magnitude, isNaN_sub_iff, Incomparable]

namespace Matrix

variable {m n : Matrix Float} {tolerance : Float}

/-- Two matrices have one dimension, and no two of their cells are further apart than the
tolerance.  This is false where a difference is a NaN. -/
def WithinTolerance (m n : Matrix Float) (tolerance : Float) : Prop :=
  m.dimension = n.dimension ∧
    ∀ i j, m.InRange i j → atMost (magnitude (m.cell i j - n.cell i j)) tolerance = true

/-- For every tolerance the comparison of two matrices is the one cell by cell. -/
def ComparesCells (m n : Matrix Float) : Prop :=
  ∀ tolerance, atMost 0 tolerance = true →
    (m.approxEq n tolerance = true ↔ m.WithinTolerance n tolerance)

/-- Places without a difference do not count, and at all others the tolerance is kept. -/
theorem approxEq_iff (h : atMost 0 tolerance = true) :
    m.approxEq n tolerance = true ↔ m.dimension = n.dimension ∧
      ∀ i j, m.InRange i j → Incomparable (m.cell i j) (n.cell i j) ∨
        atMost (magnitude (m.cell i j - n.cell i j)) tolerance = true := by
  unfold approxEq maxAbsDifference?
  by_cases hdim : m.dimension = n.dimension
  · rw [if_pos hdim]
    simp only [incomparable_iff]
    rw [atMost_foldl_larger_iff (isNaN_of_atMost h).1, forall_mem_paired]
    exact ⟨fun hall => ⟨hdim, hall.2⟩, fun hall => ⟨h, hall.2⟩⟩
  · rw [if_neg hdim]
    exact iff_of_false Bool.false_ne_true fun hall => hdim hall.1

/-- The comparison cell by cell is stricter at the places without a difference, and only there. -/
theorem withinTolerance_iff (h : atMost 0 tolerance = true) :
    m.WithinTolerance n tolerance ↔ m.approxEq n tolerance = true ∧
      ∀ i j, m.InRange i j → ¬Incomparable (m.cell i j) (n.cell i j) := by
  rw [approxEq_iff h, WithinTolerance, and_assoc]
  refine and_congr_right fun _ => ⟨fun hall => ?_, fun hall i j hij => ?_⟩
  · refine ⟨fun i j hij => .inr (hall i j hij), fun i j hij hnan => ?_⟩
    have hnumber := (isNaN_of_atMost (hall i j hij)).1
    exact Bool.false_ne_true (hnumber.symm.trans (incomparable_iff.1 hnan))
  · exact (hall.1 i j hij).resolve_left (hall.2 i j hij)

/-- Matrices of one dimension are compared cell by cell if every two cells have a difference. -/
theorem comparesCells_iff : m.ComparesCells n ↔
    (m.dimension = n.dimension →
      ∀ i j, m.InRange i j → ¬Incomparable (m.cell i j) (n.cell i j)) := by
  constructor
  · intro hagree hdim
    have hzero : atMost 0 infinite = true := atMost_infinite (by decide +kernel)
    have hall : m.approxEq n infinite = true := by
      refine (approxEq_iff hzero).2 ⟨hdim, fun i j _ => ?_⟩
      rw [incomparable_iff]
      rcases hnan : (magnitude (m.cell i j - n.cell i j)).isNaN
      · exact .inr (atMost_infinite hnan)
      · exact .inl rfl
    exact ((withinTolerance_iff hzero).1 ((hagree infinite hzero).1 hall)).2
  · intro hcells tolerance htol
    rw [withinTolerance_iff htol]
    refine (and_iff_left_of_imp fun h => hcells ?_).symm
    exact ((approxEq_iff htol).1 h).1

/-- A matrix with one cell. -/
def single (x : Float) : Matrix Float := ofFn 1 fun _ _ => x

/-- A NaN is no further than one half from zero: the comparison says yes, and cell by cell it is
no. -/
theorem not_comparesCells_unknown :
    ofRows [[0 / 0]] = .ok (single (0 / 0)) ∧ ((single (0 / 0)).cell 0 0).isNaN = true ∧
      atMost 0 (0.5 : Float) = true ∧ (single (0 / 0)).approxEq (single 0) 0.5 = true ∧
      ¬(single (0 / 0)).WithinTolerance (single 0) 0.5 ∧
      ¬(single (0 / 0)).ComparesCells (single 0) := by
  have hnan : ((single (0 / 0)).cell 0 0).isNaN = true := by decide +kernel
  have htol : atMost 0 (0.5 : Float) = true := by decide +kernel
  have hyes : (single (0 / 0)).approxEq (single 0) 0.5 = true := by decide +kernel
  have hno : ¬(single (0 / 0)).WithinTolerance (single 0) 0.5 := fun h =>
    ((withinTolerance_iff htol).1 h).2 0 0 (by decide) (.inl hnan)
  exact ⟨by decide +kernel, hnan, htol, hyes, hno, fun h => hno ((h 0.5 htol).1 hyes)⟩

end Matrix

/-- Two matrices of doubles differ by at most a tolerance if they have one dimension and at every
place the difference is at most the tolerance or there is none, because a cell is a NaN or both are
the same infinity.  For every tolerance this is the comparison cell by cell, which is false at a
NaN, if and only if the dimensions differ or there is no such place. -/
theorem approxEq_overlooks (m n : Matrix Float) :
    (∀ tolerance, atMost 0 tolerance = true →
      (m.approxEq n tolerance = true ↔ m.dimension = n.dimension ∧
        ∀ i j, m.InRange i j → Incomparable (m.cell i j) (n.cell i j) ∨
          atMost (magnitude (m.cell i j - n.cell i j)) tolerance = true)) ∧
    (m.ComparesCells n ↔ (m.dimension = n.dimension →
      ∀ i j, m.InRange i j → ¬Incomparable (m.cell i j) (n.cell i j))) :=
  ⟨fun _ => Matrix.approxEq_iff, Matrix.comparesCells_iff⟩

/-- Two numbers are compared as they should be, and a NaN is passed over. -/
theorem approxEq_overlooks_single :
    (Matrix.single 1).WithinTolerance (Matrix.single 1.25) 0.5 ∧
      (Matrix.single (0 / 0)).approxEq (Matrix.single 0) 0 = true := by
  have hcells : (Matrix.single 1).ComparesCells (Matrix.single 1.25) := by
    refine (approxEq_overlooks _ _).2.2 fun _ i j hij => ?_
    obtain ⟨rfl, rfl⟩ : i = 0 ∧ j = 0 := ⟨Nat.lt_one_iff.1 hij.1, Nat.lt_one_iff.1 hij.2⟩
    rw [incomparable_iff]
    decide +kernel
  refine ⟨(hcells 0.5 (by decide +kernel)).1 (by decide +kernel), ?_⟩
  refine ((approxEq_overlooks _ _).1 0 (by decide +kernel)).2 ⟨rfl, fun i j hij => .inl (.inl ?_)⟩
  obtain ⟨rfl, rfl⟩ : i = 0 ∧ j = 0 := ⟨Nat.lt_one_iff.1 hij.1, Nat.lt_one_iff.1 hij.2⟩
  decide +kernel

end GraphQubo
