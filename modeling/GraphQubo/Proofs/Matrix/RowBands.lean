import Mathlib.Algebra.Order.Floor.Div
import GraphQubo.Matrix.Band

/-!
# GraphQubo.Proofs.Matrix.RowBands

The rows of a matrix, cut into bands.

`Chunked k xs chunks` says what cutting a list into chunks of `k` elements means: the chunks in
their order are the list, and only the last of them may be shorter.  Chunk `b` of such a cut can
only be the `k` elements after the first `b · k` ones (`Chunked.getElem?_eq`).  The bands of a
matrix are found by numbering the chunks of its rows, and they share its rows out among them.

* `getElem?_rowBands` — the bands, by their numbers;
* `Chunked.mapIdx_eq_rowBands` — chunks of rows that are numbered in order are these bands;
* `Partitions`, `partitions_rowBands` — how many bands there are, which rows they have, and that
  every row lies in just one.
-/

namespace GraphQubo

/-! ## Chunks -/

section

variable {α : Type} {k : Nat}

/-- The list is cut into chunks of `k` elements, of which only the last may be shorter. -/
structure Chunked (k : Nat) (xs : List α) (chunks : List (List α)) : Prop where
  consecutive : chunks.flatten = xs
  full : ∀ chunk ∈ chunks.dropLast, chunk.length = k
  last : ∀ chunk ∈ chunks.getLast?, 0 < chunk.length ∧ chunk.length ≤ k

namespace Chunked

variable {xs chunk next : List α} {chunks : List (List α)}

/-- A single chunk is the whole list. -/
theorem eq_of_singleton (h : Chunked k xs [chunk]) :
    chunk = xs ∧ 0 < xs.length ∧ xs.length ≤ k := by
  obtain rfl : chunk = xs := by simpa using h.consecutive
  exact ⟨rfl, h.last chunk rfl⟩

/-- A chunk that is followed by another one takes `k` elements. -/
theorem eq_take (h : Chunked k xs (chunk :: next :: chunks)) :
    chunk = xs.take k ∧ k ≤ xs.length ∧ Chunked k (xs.drop k) (next :: chunks) := by
  have hlength : chunk.length = k := h.full chunk List.mem_cons_self
  have hxs : chunk ++ (next :: chunks).flatten = xs := h.consecutive
  refine ⟨?_, ?_, ?_, fun c hc => h.full c (List.mem_cons_of_mem _ hc), fun c hc => h.last c ?_⟩
  · rw [← hxs, List.take_left' hlength]
  · rw [← hxs, List.length_append, hlength]
    exact Nat.le_add_right _ _
  · rw [← hxs, List.drop_left' hlength]
  · rwa [List.getLast?_cons_cons]

/-- What is left for the chunks is not empty if there is one. -/
theorem length_pos (hk : 0 < k) (h : Chunked k xs (chunk :: chunks)) : 0 < xs.length := by
  cases chunks with
  | nil => exact h.eq_of_singleton.2.1
  | cons next rest => exact Nat.lt_of_lt_of_le hk h.eq_take.2.1

/-- Chunk `b` is what `k` elements after the first `b · k` are, if there are any. -/
theorem getElem?_eq (hk : 0 < k) (h : Chunked k xs chunks) (b : Nat) :
    chunks[b]? = if b * k < xs.length then some ((xs.drop (b * k)).take k) else none := by
  induction b generalizing xs chunks with
  | zero =>
    cases chunks with
    | nil => simp [← h.consecutive]
    | cons chunk rest =>
      rw [Nat.zero_mul, if_pos (h.length_pos hk), List.drop_zero]
      cases rest with
      | nil =>
        obtain ⟨rfl, -, hle⟩ := h.eq_of_singleton
        simp [List.take_of_length_le hle]
      | cons next rest => simp [h.eq_take.1]
  | succ b ih =>
    cases chunks with
    | nil => simp [← h.consecutive]
    | cons chunk rest =>
      cases rest with
      | nil =>
        have hle := h.eq_of_singleton.2.2
        rw [if_neg (by rw [Nat.succ_mul]; omega)]
        rfl
      | cons next rest =>
        obtain ⟨-, hle, hrest⟩ := h.eq_take
        have hiff : b * k < (xs.drop k).length ↔ (b + 1) * k < xs.length := by
          rw [List.length_drop, Nat.succ_mul]
          omega
        have hsum : k + b * k = (b + 1) * k := by rw [Nat.succ_mul, Nat.add_comm]
        rw [List.getElem?_cons_succ, ih hrest, List.drop_drop, hsum]
        simp only [hiff]

/-- The chunks of the first `n` numbers are runs of numbers. -/
theorem getElem?_range {n : Nat} {chunks : List (List Nat)} (hk : 0 < k)
    (h : Chunked k (List.range n) chunks) (b : Nat) :
    chunks[b]? = if b * k < n then some (List.range' (b * k) (min k (n - b * k))) else none := by
  have hrun : ((List.range n).drop (b * k)).take k =
      List.range' (b * k) (min k (n - b * k)) :=
    List.ext_getElem (by simp) fun i _ _ => by simp
  rw [h.getElem?_eq hk, List.length_range, hrun]

end Chunked

end

/-! ## Bands -/

theorem max_one_pos (k : Nat) : 0 < max k 1 := Nat.lt_of_lt_of_le Nat.one_pos (Nat.le_max_right k 1)

/-- There is a band with number `b` if there is a row with number `b · k`. -/
theorem lt_ceilDiv_iff {n k b : Nat} (hk : 0 < k) : b < n ⌈/⌉ k ↔ b * k < n := by
  rw [← not_le, ceilDiv_le_iff_le_mul hk, not_le, Nat.mul_comm]

/-- The number of bands is the quotient, rounded up. -/
theorem length_rowBands (n k : Nat) : (rowBands n k).length = n ⌈/⌉ max k 1 := by
  rw [rowBands, List.length_map, List.length_range, Nat.ceilDiv_eq_add_pred_div]

/-- The rows of each band. -/
theorem getElem?_rowBands (n k b : Nat) :
    (rowBands n k)[b]? =
      if b * max k 1 < n then some ⟨b * max k 1, min ((b + 1) * max k 1) n⟩ else none := by
  have hcount : b < (n + max k 1 - 1) / max k 1 ↔ b * max k 1 < n := lt_ceilDiv_iff (max_one_pos k)
  rw [rowBands, List.getElem?_map]
  by_cases h : b * max k 1 < n
  · rw [if_pos h, List.getElem?_range (hcount.2 h)]
    rfl
  · rw [if_neg h, List.getElem?_eq_none (by rw [List.length_range]; omega)]
    rfl

/-- Chunks of rows that are numbered in order are the bands. -/
theorem Chunked.mapIdx_eq_rowBands {n k : Nat} {chunks : List (List Nat)}
    (h : Chunked (max k 1) (List.range n) chunks) :
    (chunks.mapIdx fun b rows => (⟨b * max k 1, b * max k 1 + rows.length⟩ : RowRange)) =
      rowBands n k := by
  refine List.ext_getElem? fun b => ?_
  rw [List.getElem?_mapIdx, h.getElem?_range (max_one_pos k), getElem?_rowBands]
  split
  · have hstop : b * max k 1 + min (max k 1) (n - b * max k 1) = min ((b + 1) * max k 1) n := by
      rw [Nat.succ_mul]
      omega
    simp only [Option.map_some, List.length_range', hstop]
  · rfl

/-- Bands of `k` rows share out the rows `0, …, n - 1`. -/
structure Partitions (n k : Nat) (bands : List RowRange) : Prop where
  /-- There are `n / k` bands, rounded up. -/
  count : bands.length = n ⌈/⌉ k
  /-- Band `b` starts at row `b · k` and stops at the next start, or at the end of the matrix. -/
  covers : ∀ b < bands.length, bands[b]? = some ⟨b * k, min ((b + 1) * k) n⟩
  /-- Every band has a row, and its rows are rows of the matrix. -/
  within : ∀ band ∈ bands, band.first < band.stop ∧ band.stop ≤ n
  /-- Every row of the matrix lies in one band and no other. -/
  once : ∀ row < n, ∃! b : Nat, ∃ band, bands[b]? = some band ∧ band.Holds row

/-- The bands cut the rows into consecutive pieces. -/
theorem partitions_rowBands (n k : Nat) : Partitions n (max k 1) (rowBands n k) where
  count := length_rowBands n k
  covers b hb := by
    rw [length_rowBands, lt_ceilDiv_iff (max_one_pos k)] at hb
    rw [getElem?_rowBands, if_pos hb]
  within band hband := by
    obtain ⟨b, hb⟩ := List.mem_iff_getElem?.1 hband
    rw [getElem?_rowBands] at hb
    split at hb
    · rename_i hlt
      cases hb
      have hpos := max_one_pos k
      simp only [Nat.succ_mul]
      omega
    · cases hb
  once row hrow := by
    have hpos := max_one_pos k
    have hdiv := Nat.div_add_mod' row (max k 1)
    have hmod := Nat.mod_lt row hpos
    refine ⟨row / max k 1, ⟨_, by rw [getElem?_rowBands, if_pos (by omega)], ?_⟩, ?_⟩
    · simp only [RowRange.Holds, Nat.succ_mul]
      omega
    · rintro b ⟨band, hb, hholds⟩
      rw [getElem?_rowBands] at hb
      split at hb <;> cases hb
      have hle : row < (b + 1) * max k 1 := Nat.lt_of_lt_of_le hholds.2 (Nat.min_le_left _ _)
      exact (Nat.div_eq_of_lt_le hholds.1 hle).symm

end GraphQubo
