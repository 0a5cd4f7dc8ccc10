import GraphQubo.Compile.Generate

/-!
# GraphQubo.Proofs.Matrix.Accumulation

What a list of additions does to the cells of a matrix.

A cell only ever grows by the values that are added to it, one after the other.
`valuesAt as i j` are the values that the additions `as` bring to cell `(i, j)`,
in their order, and `m.Accumulates as m'` says that every cell of `m'` is the
cell of `m` with just these values added.  Nothing is assumed about the addition
of coefficients: the order of the values in one cell counts, the order of
additions to different cells does not.

* `exists_foldlM_add` — additions within a matrix succeed, and accumulate;
* `Accumulates.unique` — what every cell receives determines the matrix;
* `Accumulates.advance` — an addition can be made ahead of others that leave its cell alone.
-/

namespace GraphQubo

variable {K : Type}

/-- The values that additions bring to a cell, in order. -/
def valuesAt (as : List (Addition K)) (i j : Nat) : List K :=
  (as.filter fun a => a.row = i ∧ a.col = j).map Addition.value

/-- A coefficient after values have been added to it, one after the other. -/
def addAll [Add K] (x : K) (values : List K) : K := values.foldl (· + ·) x

@[simp] theorem valuesAt_nil (i j : Nat) : valuesAt ([] : List (Addition K)) i j = [] := rfl

/-- The values that a cell receives, addition after addition. -/
theorem valuesAt_cons (a : Addition K) (as : List (Addition K)) (i j : Nat) :
    valuesAt (a :: as) i j =
      if a.row = i ∧ a.col = j then a.value :: valuesAt as i j else valuesAt as i j := by
  unfold valuesAt
  by_cases h : a.row = i ∧ a.col = j
  · rw [if_pos h, List.filter_cons_of_pos (by simpa using h), List.map_cons]
  · rw [if_neg h, List.filter_cons_of_neg (by simpa using h)]

@[simp] theorem valuesAt_append (as bs : List (Addition K)) (i j : Nat) :
    valuesAt (as ++ bs) i j = valuesAt as i j ++ valuesAt bs i j := by
  simp [valuesAt]

/-- The values that a cell receives from several lists of additions. -/
theorem valuesAt_flatMap {α : Type} (f : α → List (Addition K)) (xs : List α) (i j : Nat) :
    valuesAt (xs.flatMap f) i j = xs.flatMap fun x => valuesAt (f x) i j := by
  induction xs with
  | nil => rfl
  | cons x xs ih => rw [List.flatMap_cons, List.flatMap_cons, valuesAt_append, ih]

/-- Additions in other rows bring nothing to a cell. -/
theorem valuesAt_eq_nil {as : List (Addition K)} {i j : Nat} (h : ∀ a ∈ as, a.row ≠ i) :
    valuesAt as i j = [] := by
  have hf : as.filter (fun a => a.row = i ∧ a.col = j) = [] := by
    refine List.filter_eq_nil_iff.2 fun a ha hc => h a ha ?_
    exact (of_decide_eq_true hc).1
  rw [valuesAt, hf, List.map_nil]

@[simp] theorem addAll_nil [Add K] (x : K) : addAll x [] = x := rfl

@[simp] theorem addAll_cons [Add K] (x v : K) (vs : List K) :
    addAll x (v :: vs) = addAll (x + v) vs := rfl

@[simp] theorem addAll_append [Add K] (x : K) (vs ws : List K) :
    addAll x (vs ++ ws) = addAll (addAll x vs) ws := List.foldl_append

/-- When one element of a list is the only one with an image, the images in order
are those of that element. -/
theorem flatMap_eq_of_owner {α β : Type} {xs : List α} {f : α → List β} {o : α}
    (hnodup : xs.Nodup) (ho : o ∈ xs) (hne : ∀ x ∈ xs, x ≠ o → f x = []) :
    xs.flatMap f = f o := by
  induction xs with
  | nil => cases ho
  | cons x xs ih =>
    obtain ⟨hx, hxs⟩ := List.nodup_cons.1 hnodup
    rw [List.flatMap_cons]
    by_cases hxo : x = o
    · have hrest : xs.flatMap f = [] := by
        refine List.flatMap_eq_nil_iff.2 fun y hy => ?_
        exact hne y (List.mem_cons_of_mem _ hy) fun hyo => hx (hxo ▸ hyo ▸ hy)
      rw [hxo, hrest, List.append_nil]
    · have hmem : o ∈ xs := (List.mem_cons.1 ho).resolve_left fun h => hxo h.symm
      rw [hne x List.mem_cons_self hxo, List.nil_append]
      exact ih hxs hmem fun y hy => hne y (List.mem_cons_of_mem _ hy)

namespace Matrix

/-! ## Matrices are determined by their cells -/

/-- Every place of the array is the place of a cell. -/
theorem exists_offset {m : Matrix K} {x : Nat} (h : x < m.cells.size) :
    ∃ i j, m.InRange i j ∧ m.offset i j = x := by
  rw [m.size_cells] at h
  have hn : 0 < m.dimension := Nat.pos_of_mul_pos_left (Nat.zero_lt_of_lt h)
  have hline : x / m.dimension < m.dimension := Nat.div_lt_of_lt_mul h
  have hplace : x % m.dimension < m.dimension := Nat.mod_lt _ hn
  have hx : x / m.dimension * m.dimension + x % m.dimension = x := Nat.div_add_mod' x _
  cases ho : m.order with
  | rowMajor => exact ⟨_, _, ⟨hline, hplace⟩, by simpa [offset, ho] using hx⟩
  | columnMajor => exact ⟨_, _, ⟨hplace, hline⟩, by simpa [offset, ho] using hx⟩

/-- Two matrices in one order with the same cells are the same. -/
theorem ext_get? {m n : Matrix K} (hd : m.dimension = n.dimension) (ho : m.order = n.order)
    (h : ∀ i j, m.get? i j = n.get? i j) : m = n := by
  have hcells : m.cells = n.cells := by
    have hsize : m.cells.size = n.cells.size := by rw [m.size_cells, n.size_cells, hd]
    refine Array.ext hsize fun x hx hx' => ?_
    obtain ⟨i, j, hr, hij⟩ := exists_offset hx
    have hr' : n.InRange i j := by rw [InRange, ← hd]; exact hr
    have hij' : n.offset i j = x := by rw [← hij, offset, offset, ← ho, ← hd]
    have hget := h i j
    rw [get?, get?, if_pos hr, if_pos hr', hij, hij', Array.getElem?_eq_getElem hx,
      Array.getElem?_eq_getElem hx'] at hget
    exact Option.some.inj hget
  obtain ⟨md, mo, mc, ms⟩ := m
  obtain ⟨nd, no, nc, ns⟩ := n
  simp only at hd ho hcells
  subst hd ho hcells
  rfl

/-- A cell that the matrix has is found. -/
theorem get?_eq_cell [Zero K] (m : Matrix K) (i j : Nat) :
    m.get? i j = if m.InRange i j then some (m.cell i j) else none := by
  by_cases hij : m.InRange i j
  · obtain ⟨x, hx⟩ := Option.ne_none_iff_exists'.1 fun hnone => get?_eq_none_iff.1 hnone hij
    rw [if_pos hij, cell, hx, Option.getD_some]
  · rw [if_neg hij, get?_eq_none_iff.2 hij]

/-! ## Accumulation -/

section

variable [Add K]

/-- Every cell of `m'` is the cell of `m` with the values of the additions added. -/
structure Accumulates (m : Matrix K) (as : List (Addition K)) (m' : Matrix K) : Prop where
  dimension : m'.dimension = m.dimension
  order : m'.order = m.order
  get? : ∀ i j, m'.get? i j = (m.get? i j).map (addAll · (valuesAt as i j))

/-- Without additions a matrix stays as it is. -/
theorem Accumulates.nil (m : Matrix K) : m.Accumulates [] m where
  dimension := rfl
  order := rfl
  get? i j := by cases m.get? i j <;> rfl

/-- Additions made one after the other. -/
theorem Accumulates.append {m m' m'' : Matrix K} {as bs : List (Addition K)}
    (h : m.Accumulates as m') (h' : m'.Accumulates bs m'') : m.Accumulates (as ++ bs) m'' where
  dimension := h'.dimension.trans h.dimension
  order := h'.order.trans h.order
  get? i j := by rw [h'.get?, h.get?, valuesAt_append]; cases m.get? i j <;> simp

/-- An addition within the matrix succeeds. -/
theorem exists_add {m : Matrix K} {i j : Nat} (h : m.InRange i j) (x : K) :
    ∃ m', m.add i j x = .ok m' := ⟨_, if_pos h⟩

/-- What succeeds is an addition within the matrix. -/
theorem inRange_of_add {m m' : Matrix K} {i j : Nat} {x : K} (h : m.add i j x = .ok m') :
    m.InRange i j := by
  unfold add at h
  split at h
  · assumption
  · cases h

/-- One addition accumulates its value in its cell. -/
theorem accumulates_of_add {m m' : Matrix K} {a : Addition K}
    (h : m.add a.row a.col a.value = .ok m') : m.Accumulates [a] m' := by
  refine ⟨?_, ?_, fun i j => ?_⟩
  · unfold add at h
    split at h <;> cases h
    rfl
  · unfold add at h
    split at h <;> cases h
    rfl
  · rw [get?_add h, valuesAt_cons, valuesAt_nil]
    by_cases hc : i = a.row ∧ j = a.col
    · rw [if_pos hc, if_pos ⟨hc.1.symm, hc.2.symm⟩]
      rfl
    · rw [if_neg hc, if_neg fun h => hc ⟨h.1.symm, h.2.symm⟩]
      cases m.get? i j <;> rfl

/-- An addition keeps the dimension. -/
theorem dimension_of_add {m m' : Matrix K} {i j : Nat} {x : K} (h : m.add i j x = .ok m') :
    m'.dimension = m.dimension :=
  (accumulates_of_add (a := ⟨i, j, x⟩) h).dimension

/-- An addition changes its own cell only. -/
theorem cell_add [Zero K] {m m' : Matrix K} {r c : Nat} {x : K} (h : m.add r c x = .ok m')
    (i j : Nat) : m'.cell i j = if i = r ∧ j = c then m.cell i j + x else m.cell i j := by
  rw [cell, cell, get?_add h]
  split
  · rename_i hij
    have hrange : m.InRange i j := by
      rw [hij.1, hij.2]
      exact inRange_of_add h
    rw [get?_eq_cell, if_pos hrange]
    rfl
  · rfl

/-- What every cell receives, and in which order, determines the matrix. -/
theorem Accumulates.unique {m m' m'' : Matrix K} {as bs : List (Addition K)}
    (h : m.Accumulates as m') (h' : m.Accumulates bs m'')
    (hcells : ∀ i j, m.InRange i j → valuesAt as i j = valuesAt bs i j) : m' = m'' := by
  refine ext_get? (h.dimension.trans h'.dimension.symm) (h.order.trans h'.order.symm) ?_
  intro i j
  rw [h.get?, h'.get?]
  by_cases hr : m.InRange i j
  · rw [hcells i j hr]
  · rw [get?_eq_none_iff.2 hr, Option.map_none, Option.map_none]

/-- An addition that is made ahead of others which leave its cell alone changes
nothing of the outcome. -/
theorem Accumulates.advance {m m' final : Matrix K} {before after : List (Addition K)}
    {a : Addition K} (h : m.Accumulates (before ++ a :: after) final)
    (hadd : m.add a.row a.col a.value = .ok m') (hbefore : valuesAt before a.row a.col = []) :
    m'.Accumulates (before ++ after) final := by
  have hm' := accumulates_of_add hadd
  refine ⟨h.dimension.trans hm'.dimension.symm, h.order.trans hm'.order.symm, fun i j => ?_⟩
  rw [h.get?, hm'.get?, valuesAt_append, valuesAt_append, valuesAt_cons, valuesAt_cons,
    valuesAt_nil]
  by_cases hc : a.row = i ∧ a.col = j
  · obtain ⟨rfl, rfl⟩ := hc
    rw [hbefore, if_pos ⟨rfl, rfl⟩, if_pos ⟨rfl, rfl⟩]
    cases m.get? a.row a.col <;> simp
  · rw [if_neg hc, if_neg hc]
    cases m.get? i j <;> simp

/-- Additions within a matrix succeed one after the other, and accumulate. -/
theorem exists_foldlM_add {step : Matrix K → Addition K → Except (Error K) (Matrix K)}
    {as : List (Addition K)} {m : Matrix K}
    (hstep : ∀ a ∈ as, ∀ m : Matrix K, step m a = m.add a.row a.col a.value)
    (h : ∀ a ∈ as, m.InRange a.row a.col) :
    ∃ m', as.foldlM step m = .ok m' ∧ m.Accumulates as m' := by
  induction as generalizing m with
  | nil => exact ⟨m, rfl, .nil m⟩
  | cons a as ih =>
    obtain ⟨m₁, hm₁⟩ := exists_add (h a List.mem_cons_self) a.value
    have hacc := accumulates_of_add hm₁
    have hrest : ∀ b ∈ as, m₁.InRange b.row b.col := by
      intro b hb
      have := h b (List.mem_cons_of_mem _ hb)
      rwa [InRange, hacc.dimension]
    obtain ⟨m₂, hm₂, hacc₂⟩ := ih (fun b hb => hstep b (List.mem_cons_of_mem _ hb)) hrest
    refine ⟨m₂, ?_, hacc.append hacc₂⟩
    rw [List.foldlM_cons, hstep a List.mem_cons_self, hm₁]
    exact hm₂

end

/-- Additions in the given rows of a matrix succeed one after the other. -/
theorem exists_foldlM_applyAddition [Coefficient K] {rows : RowRange} {as : List (Addition K)}
    {m : Matrix K} (h : ∀ a ∈ as, rows.Holds a.row ∧ m.InRange a.row a.col) :
    ∃ m', as.foldlM (Plan.applyAddition rows) m = .ok m' ∧ m.Accumulates as m' :=
  exists_foldlM_add (fun a ha m => by rw [Plan.applyAddition, RowRange.add, if_pos (h a ha).1])
    fun a ha => (h a ha).2

end Matrix

/-! ## Bands -/

/-- An element of a concatenation of lists of one length lies in the list that its
index says. -/
theorem getElem?_flatten_of_length {α : Type} {xss : List (List α)} {s o : Nat}
    (h : ∀ xs ∈ xss, xs.length = s) (ho : o < s) (k : Nat) :
    xss.flatten[k * s + o]? = xss[k]?.bind (·[o]?) := by
  induction xss generalizing k with
  | nil => simp
  | cons xs xss ih =>
    have hxs := h xs List.mem_cons_self
    rw [List.flatten_cons]
    cases k with
    | zero => simp [List.getElem?_append_left (hxs ▸ ho : o < xs.length)]
    | succ k =>
      have hle : xs.length ≤ (k + 1) * s + o := by rw [hxs, Nat.succ_mul]; omega
      have hsub : (k + 1) * s + o - xs.length = k * s + o := by rw [hxs, Nat.succ_mul]; omega
      rw [List.getElem?_append_right hle, hsub, List.getElem?_cons_succ]
      exact ih (fun ys hys => h ys (List.mem_cons_of_mem _ hys)) k

/-- Additions in the rows of a band succeed, and accumulate in its cells. -/
theorem Band.exists_foldlM_add [Add K] {b : Band K} {as : List (Addition K)}
    (h : ∀ a ∈ as, b.rows.Holds a.row ∧ a.col < b.width) :
    ∃ b', as.foldlM (fun b a => b.add a.row a.col a.value) b = .ok b' ∧
      b'.cells.size = b.cells.size ∧
      ∀ r j, j < b.width → b'.cells[r * b.width + j]? =
        b.cells[r * b.width + j]?.map (addAll · (valuesAt as (b.rows.first + r) j)) := by
  induction as generalizing b with
  | nil => exact ⟨b, rfl, rfl, fun r j _ => by cases b.cells[r * b.width + j]? <;> rfl⟩
  | cons a as ih =>
    obtain ⟨hrow, hcol⟩ := h a List.mem_cons_self
    obtain ⟨b', hb', hsize, hcells⟩ := ih (b := { b with
      cells := b.cells.modify ((a.row - b.rows.first) * b.width + a.col) (· + a.value) })
      fun c hc => h c (List.mem_cons_of_mem _ hc)
    refine ⟨b', ?_, hsize.trans (Array.size_modify ..), fun r j hj => ?_⟩
    · rw [List.foldlM_cons, add, if_pos ⟨hrow, hcol⟩]
      exact hb'
    · have hplace : (a.row - b.rows.first) * b.width + a.col = r * b.width + j ↔
          a.row = b.rows.first + r ∧ a.col = j := by
        have hfirst := hrow.1
        rw [Matrix.line_inj hcol hj]
        omega
      rw [hcells r j hj, valuesAt_cons, Array.getElem?_modify]
      by_cases hc : a.row = b.rows.first + r ∧ a.col = j
      · rw [if_pos (hplace.2 hc), if_pos hc]
        cases b.cells[r * b.width + j]? <;> rfl
      · rw [if_neg fun h => hc (hplace.1 h), if_neg hc]

/-- Bands laid end to end have the cells of the first one, then those of the next. -/
theorem Band.toList_foldl_cells (bands : List (Band K)) (acc : Array K) :
    (bands.foldl (fun cells b => cells ++ b.cells) acc).toList =
      acc.toList ++ (bands.map fun b => b.cells.toList).flatten := by
  induction bands generalizing acc with
  | nil => simp
  | cons b bands ih => simp [ih]

/-- Bands of one size that fill a matrix are its cells, band after band. -/
theorem Matrix.exists_ofBands {dimension s : Nat} {bands : List (Band K)}
    (hsize : ∀ b ∈ bands, b.cells.size = s) (hfill : bands.length * s = dimension * dimension) :
    ∃ m, ofBands dimension bands = .ok m ∧ m.dimension = dimension ∧ m.order = .rowMajor ∧
      ∀ k o, o < s → m.cells[k * s + o]? = bands[k]?.bind (·.cells[o]?) := by
  have hlength : (bands.map fun b => b.cells.toList).flatten.length = bands.length * s := by
    clear hfill
    induction bands with
    | nil => simp
    | cons b bands ih =>
      rw [List.map_cons, List.flatten_cons, List.length_append, List.length_cons,
        ih fun c hc => hsize c (List.mem_cons_of_mem _ hc), Array.length_toList,
        hsize b List.mem_cons_self, Nat.succ_mul, Nat.add_comm]
  have hcells : (bands.foldl (fun cells b => cells ++ b.cells) #[]).size =
      dimension * dimension := by
    rw [← Array.length_toList, Band.toList_foldl_cells, Array.toList_empty, List.nil_append,
      hlength, hfill]
  refine ⟨⟨dimension, .rowMajor, _, hcells⟩, ?_, rfl, rfl, fun k o ho => ?_⟩
  · rw [ofBands, ofArray, if_pos rfl, dif_pos hcells]
  · have hlens : ∀ xs ∈ bands.map (fun b => b.cells.toList), xs.length = s := by
      intro xs hxs
      obtain ⟨b, hb, rfl⟩ := List.mem_map.1 hxs
      rw [Array.length_toList, hsize b hb]
    rw [← Array.getElem?_toList, Band.toList_foldl_cells, Array.toList_empty, List.nil_append,
      getElem?_flatten_of_length hlens ho, List.getElem?_map]
    cases bands[k]? <;> simp

end GraphQubo
