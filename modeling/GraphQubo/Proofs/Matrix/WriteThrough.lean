import Mathlib.Algebra.Ring.Rat
import GraphQubo.Proofs.Matrix.Accumulation
import GraphQubo.Proofs.Matrix.RowBands

/-!
# GraphQubo.Proofs.Matrix.WriteThrough

Writing a matrix through its bands.

A band shows some rows of the matrix.  An addition through it is named by the place of the cell in
the whole matrix, and the band finds the cell by the distance of the row from its first row.  So
an addition in the matrix changes the band of its row as that band does by itself, and leaves the
other bands alone.

* `band_add_of_holds`, `band_eq_of_add` — what an addition does to the bands;
* `exists_addThrough`, `addThrough_of_not_fits` — a step: through a band as in the matrix, or
  refused;
* `exists_run`, `exists_tries` — runs, without refusals and with them;
* `exists_ofBands_bands` — bands laid end to end are the matrix that they show;
* `bands_write_through` — all of it, for every matrix and every height of the bands.
-/

namespace GraphQubo

variable {K : Type}

/-! ## The bands of a matrix -/

namespace Matrix

variable [Zero K]

/-- The band that shows some rows of the matrix. -/
def band (m : Matrix K) (rows : RowRange) : Band K where
  rows
  width := m.dimension
  cells := ((List.range' rows.first rows.height).flatMap m.row).toArray

/-- The bands along chunks of rows: each shows its chunk, and its first row has for its number
that of the chunk times the rows that a band has. -/
def bands (m : Matrix K) (rowsPerBand : Nat) (chunks : List (List Nat)) : List (Band K) :=
  let k := max rowsPerBand 1
  chunks.mapIdx fun b rows =>
    { rows := ⟨b * k, b * k + rows.length⟩
      width := m.dimension
      cells := (rows.flatMap m.row).toArray }

variable {m m' : Matrix K} {k : Nat} {chunks : List (List Nat)}

/-- Along chunks of the rows, the bands are those of the matrix. -/
theorem bands_eq (h : Chunked (max k 1) (List.range m.dimension) chunks) :
    m.bands k chunks = (rowBands m.dimension k).map m.band := by
  refine List.ext_getElem? fun b => ?_
  rw [← h.mapIdx_eq_rowBands, bands, List.getElem?_map, List.getElem?_mapIdx, List.getElem?_mapIdx,
    h.getElem?_range (max_one_pos k)]
  split
  · simp [band, RowRange.height]
  · rfl

/-- Rows one after the other, cell by cell. -/
theorem getElem?_flatMap_row (m : Matrix K) (rows : List Nat) {i j : Nat} (hj : j < m.dimension) :
    (rows.flatMap m.row)[i * m.dimension + j]? = rows[i]?.map fun r => m.cell r j := by
  have hlength : ∀ row ∈ rows.map m.row, row.length = m.dimension := by
    intro row hrow
    obtain ⟨r, -, rfl⟩ := List.mem_map.1 hrow
    rw [Matrix.row, List.length_map, List.length_range]
  rw [List.flatMap_def, getElem?_flatten_of_length hlength hj, List.getElem?_map]
  cases rows[i]? with
  | none => rfl
  | some r => simp [Matrix.row, hj]

/-- The cells of a band are those of its rows, row after row. -/
theorem getElem?_band (m : Matrix K) (rows : RowRange) {i j : Nat} (hj : j < m.dimension) :
    (m.band rows).cells[i * m.dimension + j]? =
      if i < rows.height then some (m.cell (rows.first + i) j) else none := by
  rw [band, List.getElem?_toArray, getElem?_flatMap_row m _ hj]
  split
  · rename_i hi
    rw [List.getElem?_range' hi, Nat.one_mul]
    rfl
  · rename_i hi
    rw [List.getElem?_eq_none (by simpa using hi)]
    rfl

/-- Arrays of lines of `n` elements are the same if all elements of all lines are. -/
theorem ext_lines {α : Type} {n : Nat} (hn : 0 < n) {a a' : Array α}
    (h : ∀ i j, j < n → a[i * n + j]? = a'[i * n + j]?) : a = a' := by
  refine Array.ext_getElem? fun x => ?_
  rw [← Nat.div_add_mod' x n]
  exact h _ _ (Nat.mod_lt x hn)

/-! ## Additions -/

variable [Add K] {rows : RowRange} {r c : Nat} {x : K}

/-- An addition changes its cell of a band that has the row, and no other cell of any band. -/
theorem getElem?_band_of_add (h : m.add r c x = .ok m') (rows : RowRange) {i j : Nat}
    (hj : j < m.dimension) :
    (m'.band rows).cells[i * m.dimension + j]? =
      if rows.first + i = r ∧ j = c then
        (m.band rows).cells[i * m.dimension + j]?.map (· + x)
      else (m.band rows).cells[i * m.dimension + j]? := by
  have hdim := dimension_of_add h
  have hband := getElem?_band m' rows (i := i) (hdim ▸ hj)
  rw [hdim] at hband
  rw [hband, getElem?_band m rows hj, cell_add h]
  by_cases hi : i < rows.height
  · simp only [if_pos hi]
    split <;> rfl
  · simp only [if_neg hi]
    split <;> rfl

/-- A band without the row stays as it is. -/
theorem band_eq_of_add (hrows : ¬rows.Holds r) (h : m.add r c x = .ok m') :
    m'.band rows = m.band rows := by
  have hcells : (m'.band rows).cells = (m.band rows).cells := by
    refine ext_lines (Nat.zero_lt_of_lt (inRange_of_add h).2) fun i j hj => ?_
    rw [getElem?_band_of_add h rows hj, getElem?_band m rows hj]
    by_cases hi : i < rows.height
    · have hne : rows.first + i ≠ r := by
        rintro rfl
        exact hrows ⟨Nat.le_add_right _ _, Nat.add_lt_of_lt_sub' hi⟩
      rw [if_neg fun hij => hne hij.1]
    · simp only [if_neg hi, Option.map_none, ite_self]
  exact (Band.mk.injEq ..).mpr ⟨rfl, dimension_of_add h, hcells⟩

/-- A band with the row finds the cell by itself. -/
theorem band_add_of_holds (hrows : rows.Holds r) (h : m.add r c x = .ok m') :
    (m.band rows).add r c x = .ok (m'.band rows) := by
  have hc := (inRange_of_add h).2
  have hcells : (m.band rows).cells.modify ((r - rows.first) * m.dimension + c) (· + x) =
      (m'.band rows).cells := by
    refine ext_lines (Nat.zero_lt_of_lt hc) fun i j hj => ?_
    have hplace : (r - rows.first) * m.dimension + c = i * m.dimension + j ↔
        rows.first + i = r ∧ j = c := by
      have hfirst := hrows.1
      rw [line_inj hc hj]
      omega
    rw [getElem?_band_of_add h rows hj, Array.getElem?_modify]
    simp only [hplace]
  rw [Band.add, if_pos ⟨hrows, hc⟩]
  exact congrArg Except.ok ((Band.mk.injEq ..).mpr ⟨rfl, (dimension_of_add h).symm, hcells⟩)

/-- The band of the row is exchanged, and that is all. -/
theorem set_map_band {b : Nat} (hb : (rowBands m.dimension k)[b]? = some rows)
    (hrows : rows.Holds r) (h : m.add r c x = .ok m') :
    ((rowBands m.dimension k).map m.band).set b (m'.band rows) =
      (rowBands m.dimension k).map m'.band := by
  have hrow := (inRange_of_add h).1
  refine List.ext_getElem? fun b' => ?_
  rw [List.getElem?_set, List.getElem?_map, List.getElem?_map]
  split
  · rename_i heq
    have hlt : b < (rowBands m.dimension k).length := (List.getElem?_eq_some_iff.1 hb).1
    rw [← heq, hb, if_pos (by rwa [List.length_map])]
    rfl
  · rename_i hne
    cases hb' : (rowBands m.dimension k)[b']? with
    | none => rfl
    | some rows' =>
      have hother : ¬rows'.Holds r := fun hholds =>
        hne (((partitions_rowBands m.dimension k).once r hrow).unique ⟨rows, hb, hrows⟩
          ⟨rows', hb', hholds⟩)
      rw [Option.map_some, Option.map_some, band_eq_of_add hother h]

end Matrix

/-! ## Steps -/

/-- An addition to be made through the band with a number. -/
structure BandAddition (K : Type) extends Addition K where
  band : Nat
  deriving DecidableEq, Repr

/-- The rows of the band, where a matrix of side `n` has bands of `k` rows. -/
def BandAddition.rows (a : BandAddition K) (n k : Nat) : RowRange :=
  ⟨a.band * k, min ((a.band + 1) * k) n⟩

/-- The row is one of the band, and the column one of the matrix. -/
def BandAddition.Fits (a : BandAddition K) (n k : Nat) : Prop :=
  (a.rows n k).Holds a.row ∧ a.col < n

instance (a : BandAddition K) (n k : Nat) : Decidable (a.Fits n k) :=
  inferInstanceAs (Decidable (_ ∧ _))

theorem getElem?_rowBands_of_fits {a : BandAddition K} {n k : Nat} (hfits : a.Fits n (max k 1)) :
    (rowBands n k)[a.band]? = some (a.rows n (max k 1)) := by
  have hrow : a.row < n := Nat.lt_of_lt_of_le hfits.1.2 (Nat.min_le_right _ _)
  have hstart : a.band * max k 1 < n := Nat.lt_of_le_of_lt hfits.1.1 hrow
  rw [getElem?_rowBands, if_pos hstart]
  rfl

section

variable [Add K]

/-- Makes the addition in the matrix itself. -/
def Matrix.addDirectly (m : Matrix K) (a : BandAddition K) : Except (Error K) (Matrix K) :=
  m.add a.row a.col a.value

/-- Makes an addition through its band. -/
def addThrough (bands : List (Band K)) (a : BandAddition K) :
    Except (Error K) (List (Band K)) :=
  match bands[a.band]? with
  | some band => do return bands.set a.band (← band.add a.row a.col a.value)
  | none => .error (.outsideMatrix a.row a.col)

/-- Makes an addition through its band, and goes on with the bands as they are if it is refused. -/
def tryThrough (bands : List (Band K)) (a : BandAddition K) : List (Band K) :=
  match addThrough bands a with
  | .ok bands' => bands'
  | .error _ => bands

end

namespace Matrix

section

variable [Zero K] [Add K] {m : Matrix K} {k : Nat} {chunks : List (List Nat)}
  {a : BandAddition K}

/-- What fits can be added through the band, with the effect that it has on the matrix. -/
theorem exists_addThrough (hchunks : Chunked (max k 1) (List.range m.dimension) chunks)
    (hfits : a.Fits m.dimension (max k 1)) :
    ∃ m', m.addDirectly a = .ok m' ∧ addThrough (m.bands k chunks) a = .ok (m'.bands k chunks) := by
  have hlt : a.row < m.dimension := Nat.lt_of_lt_of_le hfits.1.2 (Nat.min_le_right _ _)
  obtain ⟨m', hm'⟩ := exists_add ⟨hlt, hfits.2⟩ a.value
  have hb := getElem?_rowBands_of_fits hfits
  have hdim := dimension_of_add hm'
  refine ⟨m', hm', ?_⟩
  rw [bands_eq hchunks, bands_eq (hdim.symm ▸ hchunks), addThrough, List.getElem?_map, hb, hdim,
    ← set_map_band hb hfits.1 hm', Option.map_some]
  simp only [band_add_of_holds hfits.1 hm']
  rfl

/-- What does not fit is refused. -/
theorem addThrough_of_not_fits (hchunks : Chunked (max k 1) (List.range m.dimension) chunks)
    (hfits : ¬a.Fits m.dimension (max k 1)) :
    addThrough (m.bands k chunks) a = .error (.outsideMatrix a.row a.col) := by
  rw [bands_eq hchunks, addThrough, List.getElem?_map, getElem?_rowBands]
  by_cases hb : a.band * max k 1 < m.dimension
  · have hadd : (m.band (a.rows m.dimension (max k 1))).add a.row a.col a.value =
        .error (.outsideMatrix a.row a.col) := if_neg hfits
    rw [if_pos hb, Option.map_some]
    simp only [BandAddition.rows] at hadd
    simp only [hadd]
    rfl
  · rw [if_neg hb, Option.map_none]

/-! ## Runs -/

/-- Additions that fit have the same effect through the bands and in the matrix. -/
theorem exists_run {as : List (BandAddition K)}
    (hchunks : Chunked (max k 1) (List.range m.dimension) chunks)
    (hfits : ∀ a ∈ as, a.Fits m.dimension (max k 1)) :
    ∃ m', as.foldlM addDirectly m = .ok m' ∧
      as.foldlM addThrough (m.bands k chunks) = .ok (m'.bands k chunks) := by
  induction as generalizing m with
  | nil => exact ⟨m, rfl, rfl⟩
  | cons a as ih =>
    obtain ⟨m₁, hm₁, hbands₁⟩ := exists_addThrough hchunks (hfits a List.mem_cons_self)
    have hdim := dimension_of_add hm₁
    obtain ⟨m', hm', hbands'⟩ := ih (hdim.symm ▸ hchunks) fun b hb =>
      hdim.symm ▸ hfits b (List.mem_cons_of_mem _ hb)
    refine ⟨m', ?_, ?_⟩
    · rw [List.foldlM_cons, hm₁]
      exact hm'
    · rw [List.foldlM_cons, hbands₁]
      exact hbands'

/-- Of any additions that are tried through the bands, those that fit have their effect, and the
others have none. -/
theorem exists_tries (hchunks : Chunked (max k 1) (List.range m.dimension) chunks)
    (as : List (BandAddition K)) :
    ∃ m', (as.filter fun a => a.Fits m.dimension (max k 1)).foldlM addDirectly m = .ok m' ∧
      as.foldl tryThrough (m.bands k chunks) = m'.bands k chunks := by
  induction as generalizing m with
  | nil => exact ⟨m, rfl, rfl⟩
  | cons a as ih =>
    by_cases hfits : a.Fits m.dimension (max k 1)
    · obtain ⟨m₁, hm₁, hbands₁⟩ := exists_addThrough hchunks hfits
      have hdim := dimension_of_add hm₁
      obtain ⟨m', hm', hbands'⟩ := ih (hdim.symm ▸ hchunks)
      rw [hdim] at hm'
      refine ⟨m', ?_, ?_⟩
      · rw [List.filter_cons_of_pos (by simpa using hfits), List.foldlM_cons, hm₁]
        exact hm'
      · rw [List.foldl_cons, tryThrough, hbands₁]
        exact hbands'
    · obtain ⟨m', hm', hbands'⟩ := ih hchunks
      refine ⟨m', ?_, ?_⟩
      · rw [List.filter_cons_of_neg (by simpa using hfits)]
        exact hm'
      · rw [List.foldl_cons, tryThrough, addThrough_of_not_fits hchunks hfits]
        exact hbands'

/-! ## Laid end to end -/

omit [Add K]

/-- Cells that stand row after row are those of the matrix that has these rows. -/
theorem get?_eq_of_rows {m₁ : Matrix K} (hdim : m₁.dimension = m.dimension)
    (horder : m₁.order = .rowMajor)
    (hcells : m₁.cells.toList = (List.range m.dimension).flatMap m.row) (i j : Nat) :
    m₁.get? i j = m.get? i j := by
  have hrange : m₁.InRange i j ↔ m.InRange i j := by rw [InRange, InRange, hdim]
  rw [get?_eq_cell m, get?]
  by_cases hij : m.InRange i j
  · rw [if_pos hij, if_pos (hrange.2 hij), ← Array.getElem?_toList, hcells]
    simp only [offset, horder, hdim]
    rw [getElem?_flatMap_row m _ hij.2, List.getElem?_range hij.1]
    rfl
  · rw [if_neg hij, if_neg (mt hrange.1 hij)]

/-- The bands laid end to end are the rows of the matrix in their order. -/
theorem exists_ofBands_bands (hchunks : Chunked (max k 1) (List.range m.dimension) chunks) :
    ∃ m₁, ofBands m.dimension (m.bands k chunks) = .ok m₁ ∧ ∀ i j, m₁.get? i j = m.get? i j := by
  have hbands : (m.bands k chunks).map (fun b => b.cells.toList) =
      chunks.map fun rows => rows.flatMap m.row :=
    List.ext_getElem? fun b => by cases h : chunks[b]? <;> simp [bands, h]
  have hcells : ((m.bands k chunks).foldl (fun cells b => cells ++ b.cells) #[]).toList =
      (List.range m.dimension).flatMap m.row := by
    rw [Band.toList_foldl_cells, hbands, ← List.flatMap_def, ← hchunks.consecutive,
      ← List.flatMap_id, List.flatMap_assoc]
    rfl
  have hsize : ((m.bands k chunks).foldl (fun cells b => cells ++ b.cells) #[]).size =
      m.dimension * m.dimension := by
    rw [← Array.length_toList, hcells]
    simp [Matrix.row]
  refine ⟨⟨m.dimension, .rowMajor, _, hsize⟩, ?_, get?_eq_of_rows rfl rfl hcells⟩
  rw [ofBands, ofArray, if_pos rfl, dif_pos hsize]

end

end Matrix

/-! ## Everything together -/

section

variable [Zero K] [Add K]

/-- What an addition through a band with the given rows does to the bands of a matrix. -/
structure Matrix.WritesThrough (m : Matrix K) (k : Nat) (chunks : List (List Nat))
    (rows : RowRange) (a : BandAddition K) : Prop where
  /-- In a row of the band it does what it does in the matrix: one cell is changed. -/
  own : rows.Holds a.row → a.col < m.dimension →
    ∃ m', m.addDirectly a = .ok m' ∧ rows.add m a.row a.col a.value = .ok m' ∧
      addThrough (m.bands k chunks) a = .ok (m'.bands k chunks) ∧
      ∀ i j, m'.get? i j =
        if i = a.row ∧ j = a.col then (m.get? i j).map (· + a.value) else m.get? i j
  /-- In any other row it is refused, and all bands are as they were. -/
  foreign : ¬rows.Holds a.row →
    rows.add m a.row a.col a.value = .error (.outsideMatrix a.row a.col) ∧
      addThrough (m.bands k chunks) a = .error (.outsideMatrix a.row a.col) ∧
      tryThrough (m.bands k chunks) a = m.bands k chunks

theorem Matrix.writesThrough {m : Matrix K} {k : Nat} {chunks : List (List Nat)}
    {rows : RowRange} {a : BandAddition K}
    (hchunks : Chunked (max k 1) (List.range m.dimension) chunks)
    (hrows : (rowBands m.dimension k)[a.band]? = some rows) : m.WritesThrough k chunks rows a := by
  have heq : rows = a.rows m.dimension (max k 1) := by
    rw [getElem?_rowBands] at hrows
    split at hrows <;> cases hrows
    rfl
  subst heq
  constructor
  case own =>
    intro hrow hcol
    obtain ⟨m', hm', hbands'⟩ := exists_addThrough hchunks ⟨hrow, hcol⟩
    exact ⟨m', hm', (if_pos hrow).trans hm', hbands', get?_add hm'⟩
  case foreign =>
    intro hrow
    have hrefused := addThrough_of_not_fits hchunks fun hfits => hrow hfits.1
    refine ⟨if_neg hrow, hrefused, ?_⟩
    rw [tryThrough, hrefused]

/-- A matrix is written through its bands, whatever their height; a height of zero counts as one.
The chunks of its rows, numbered in order, are its bands, and every row lies in one of them.  Each
single addition, and any run of additions, does through the bands what it does in the matrix, but
in no row of another band; and the bands can be laid end to end again. -/
theorem bands_write_through (m : Matrix K) (k : Nat) {chunks : List (List Nat)}
    (hchunks : Chunked (max k 1) (List.range m.dimension) chunks) :
    (m.bands k chunks).map Band.rows = rowBands m.dimension k ∧
    Partitions m.dimension (max k 1) (rowBands m.dimension k) ∧
    (∀ a rows, (rowBands m.dimension k)[a.band]? = some rows →
      m.WritesThrough k chunks rows a) ∧
    (∀ as : List (BandAddition K), (∀ a ∈ as, a.Fits m.dimension (max k 1)) →
      ∃ m', as.foldlM Matrix.addDirectly m = .ok m' ∧
        as.foldlM addThrough (m.bands k chunks) = .ok (m'.bands k chunks)) ∧
    (∀ as : List (BandAddition K),
      ∃ m', (as.filter fun a => a.Fits m.dimension (max k 1)).foldlM Matrix.addDirectly m = .ok m' ∧
        as.foldl tryThrough (m.bands k chunks) = m'.bands k chunks) ∧
    ∀ m' : Matrix K, m'.dimension = m.dimension →
      ∃ m₁, Matrix.ofBands m.dimension (m'.bands k chunks) = .ok m₁ ∧
        ∀ i j, m₁.get? i j = m'.get? i j := by
  refine ⟨?_, partitions_rowBands m.dimension k, fun a rows => Matrix.writesThrough hchunks,
    fun as => Matrix.exists_run hchunks, Matrix.exists_tries hchunks, fun m' hdim => ?_⟩
  · rw [Matrix.bands_eq hchunks, List.map_map]
    exact List.map_id' _
  · rw [← hdim] at hchunks ⊢
    exact Matrix.exists_ofBands_bands hchunks

end

/-- Five rows in bands of two: the last band has a single row, and the first band refuses a row of
the second one. -/
theorem bands_write_through_shortLast :
    Chunked (max 2 1) (List.range 5) [[0, 1], [2, 3], [4]] ∧
      ∃ m' : Matrix Rat,
        [⟨⟨1, 3, 5⟩, 0⟩, ⟨⟨2, 0, 1⟩, 0⟩, ⟨⟨4, 0, 7⟩, 2⟩].foldl tryThrough
            ((Matrix.zeros 5).bands 2 [[0, 1], [2, 3], [4]]) =
          m'.bands 2 [[0, 1], [2, 3], [4]] ∧
        m'.get? 1 3 = some 5 ∧ m'.get? 2 0 = some 0 ∧ m'.get? 4 0 = some 7 := by
  have hchunks : Chunked (max 2 1) (List.range 5) [[0, 1], [2, 3], [4]] :=
    ⟨by decide, by decide, by decide⟩
  obtain ⟨-, -, -, -, htries, -⟩ := bands_write_through (Matrix.zeros 5 : Matrix Rat) 2 hchunks
  obtain ⟨m', hm', hbands⟩ := htries [⟨⟨1, 3, 5⟩, 0⟩, ⟨⟨2, 0, 1⟩, 0⟩, ⟨⟨4, 0, 7⟩, 2⟩]
  have hcells := congrArg (fun result : Except (Error Rat) (Matrix Rat) =>
    result.toOption.map fun m => (m.get? 1 3, m.get? 2 0, m.get? 4 0)) hm'
  have heval : (([(⟨⟨1, 3, 5⟩, 0⟩ : BandAddition Rat), ⟨⟨2, 0, 1⟩, 0⟩, ⟨⟨4, 0, 7⟩, 2⟩].filter
        fun a => a.Fits 5 (max 2 1)).foldlM Matrix.addDirectly
          (Matrix.zeros 5 : Matrix Rat)).toOption.map
        (fun m => (m.get? 1 3, m.get? 2 0, m.get? 4 0)) = some (some 5, some 0, some 7) := by
    decide +kernel
  have hpair := Option.some.inj (hcells.symm.trans heval)
  obtain ⟨h₁, h⟩ := Prod.mk.inj hpair
  obtain ⟨h₂, h₃⟩ := Prod.mk.inj h
  exact ⟨hchunks, m', hbands, h₁, h₂, h₃⟩

end GraphQubo
