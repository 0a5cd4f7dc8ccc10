import Mathlib.Data.List.Pairwise
import Mathlib.Data.List.Sort
import GraphQubo.Ascending

/-!
# GraphQubo.Proofs.Ascending

Ordered lists of numbers, and searches in them.

Sorting keeps the members, and dropping repetitions too; what is sorted and then rid of
repetitions ascends strictly, so it depends on its members alone (`eq_of_mem_iff`).  A search
keeps a stretch of the array in which the wanted number must be (`Bounds`).  Each turn halves it
(`Bounds.step`), and the one item that is left is the wanted number or nothing is (`search_iff`).

* `mem_dedup_sort`, `pairwise_dedup_sort` — members and order of a normal list;
* `search_iff` — a search finds what an ascending list holds.
-/

namespace GraphQubo.Ascending

/-! ## Sorting and repetitions -/

/-- Placing a number is the ordered insertion of the library. -/
theorem place_eq (x : Nat) (xs : List Nat) : place x xs = xs.orderedInsert (· ≤ ·) x := by
  induction xs with
  | nil => rfl
  | cons y xs ih => rw [place, ih, List.orderedInsert_cons]

/-- Sorting is the insertion sort of the library. -/
theorem sort_eq (xs : List Nat) : sort xs = xs.insertionSort (· ≤ ·) := by
  induction xs with
  | nil => rfl
  | cons x xs ih => rw [sort, ih, place_eq, List.insertionSort_cons]

/-- One of two equal neighbours is as good as both. -/
theorem mem_dedup {w : Nat} {xs : List Nat} : w ∈ dedup xs ↔ w ∈ xs := by
  fun_induction dedup xs with
  | case1 y rest ih => rw [ih, List.mem_cons (a := w) (b := y) (l := y :: rest)]; simp
  | case2 x y rest hne ih => rw [List.mem_cons, ih, List.mem_cons (b := x)]
  | case3 xs h => rfl

/-- In a sorted list equal numbers are neighbours, so none is left twice. -/
theorem pairwise_dedup {xs : List Nat} (h : xs.Pairwise (· ≤ ·)) :
    (dedup xs).Pairwise (· < ·) := by
  fun_induction dedup xs with
  | case1 y rest ih => exact ih (List.pairwise_cons.1 h).2
  | case2 x y rest hne ih =>
    obtain ⟨hx, hrest⟩ := List.pairwise_cons.1 h
    refine List.pairwise_cons.2 ⟨fun w hw => ?_, ih hrest⟩
    have hxy : x < y := Nat.lt_of_le_of_ne (hx y List.mem_cons_self) hne
    rcases List.mem_cons.1 (mem_dedup.1 hw) with rfl | hw
    · exact hxy
    · exact Nat.lt_of_lt_of_le hxy ((List.pairwise_cons.1 hrest).1 w hw)
  | case3 xs hshort =>
    match xs with
    | [] => exact .nil
    | [x] => exact List.pairwise_singleton _ x
    | x :: y :: rest => exact (hshort x y rest rfl).elim

/-- Nothing is lost, and nothing comes in. -/
theorem mem_dedup_sort {w : Nat} {xs : List Nat} : w ∈ dedup (sort xs) ↔ w ∈ xs := by
  rw [mem_dedup, sort_eq, List.mem_insertionSort]

/-- What is left ascends strictly. -/
theorem pairwise_dedup_sort (xs : List Nat) : (dedup (sort xs)).Pairwise (· < ·) := by
  rw [sort_eq]
  exact pairwise_dedup (List.pairwise_insertionSort _ xs)

/-- Two lists that ascend strictly and have the same members are the same. -/
theorem eq_of_mem_iff {xs ys : List Nat} (hx : xs.Pairwise (· < ·)) (hy : ys.Pairwise (· < ·))
    (h : ∀ w, w ∈ xs ↔ w ∈ ys) : xs = ys :=
  hx.eq_of_mem_iff hy fun {w} => h w

/-! ## Searching -/

/-- What is known of a search in a list: the wanted number is not behind the stretch of `size` items
from `base` on, and it is not in front of it. -/
structure Bounds (xs : List Nat) (wanted base size : Nat) : Prop where
  pos : 0 < size
  fits : base + size ≤ xs.length
  behind : ∀ i (h : i < xs.length), base + size ≤ i → wanted < xs[i]
  front : ∀ i (h : i < xs.length), i < base → xs[i] = wanted → xs[base]? = some wanted

variable {xs : List Nat} {wanted base size : Nat}

/-- Items further on are not smaller. -/
theorem le_of_pairwise (h : xs.Pairwise (· ≤ ·)) {i j : Nat} (hij : i ≤ j) (hj : j < xs.length) :
    xs[i] ≤ xs[j] :=
  h.rel_get_of_le (a := ⟨i, Nat.lt_of_le_of_lt hij hj⟩) (b := ⟨j, hj⟩) hij

/-- A turn keeps the stretch in which the wanted number must be. -/
theorem Bounds.step (hxs : xs.Pairwise (· ≤ ·)) (h : Bounds xs wanted base size)
    (hsize : 1 < size) :
    Bounds xs wanted
      (if wanted < xs.toArray.getD (base + size / 2) 0 then base else base + size / 2)
      (size - size / 2) := by
  have hfits := h.fits
  have hmiddle : base + size / 2 < xs.length := by omega
  have hitem : xs.toArray.getD (base + size / 2) 0 = xs[base + size / 2] := by
    simp [Array.getD, hmiddle]
  rw [hitem]
  split
  case isTrue hlt =>
    refine ⟨by omega, by omega, fun i hi hle => ?_, h.front⟩
    exact Nat.lt_of_lt_of_le hlt (le_of_pairwise hxs (by omega) hi)
  case isFalse hle =>
    refine ⟨by omega, by omega, fun i hi hbehind => h.behind i hi (by omega), fun i hi hlt heq => ?_⟩
    have hup := le_of_pairwise hxs (Nat.le_of_lt hlt) hmiddle
    rw [List.getElem?_eq_getElem hmiddle]
    exact congrArg some (by omega)

/-- With turns to spare, one item is left. -/
theorem bounds_narrow (hxs : xs.Pairwise (· ≤ ·)) {turns : Nat} (hturns : size ≤ turns + 1)
    (h : Bounds xs wanted base size) :
    Bounds xs wanted (narrow xs.toArray wanted turns base size) 1 := by
  induction turns generalizing base size with
  | zero =>
    obtain rfl : size = 1 := Nat.le_antisymm hturns h.pos
    exact h
  | succ turns ih =>
    rw [narrow]
    split
    case isTrue hone =>
      obtain rfl : size = 1 := Nat.le_antisymm hone h.pos
      exact h
    case isFalse hmore => exact ih (by omega) (h.step hxs (by omega))

/-- A search finds exactly what an ascending list holds. -/
theorem search_iff (hxs : xs.Pairwise (· ≤ ·)) : search xs.toArray wanted = true ↔ wanted ∈ xs := by
  rw [search, beq_iff_eq, List.getElem?_toArray, List.size_toArray]
  refine ⟨fun h => List.mem_of_getElem? h, fun hmem => ?_⟩
  obtain ⟨i, hi, rfl⟩ := List.mem_iff_getElem.1 hmem
  have hall : Bounds xs xs[i] 0 xs.length :=
    ⟨Nat.zero_lt_of_lt hi, by omega, fun j hj hle => by omega, fun j _ hlt _ => by omega⟩
  have hlast := bounds_narrow hxs (Nat.le_succ _) hall
  generalize narrow xs.toArray xs[i] xs.length 0 xs.length = position at hlast ⊢
  rcases Nat.lt_trichotomy i position with hlt | rfl | hgt
  · exact hlast.front i hi hlt rfl
  · exact List.getElem?_eq_getElem hi
  · exact absurd (hlast.behind i hi hgt) (Nat.lt_irrefl _)

end GraphQubo.Ascending
