import GraphQubo.Proofs.Compile.OwnRows
import GraphQubo.Proofs.Matrix.Accumulation

/-!
# GraphQubo.Proofs.Compile.Filling

A plan always fills its matrix, one node after the other or side by side.

* `exists_foldlM_fillNode` — filling nodes in any order succeeds, and accumulates what
  they write;
* `valuesAt_written_perm` — every cell receives the values of one node only, whatever the
  order of the nodes;
* `get?_fill` — the cells of the filled matrix;
* `fillParallel_eq_fill` — bands that are filled on their own are the same matrix;
* `lands_of_mem_written`, `Lands.adds` — every addition can be made.
-/

namespace GraphQubo

/-! ## A small layout -/

/-- Two nodes, with a loop at the first and an edge between them. -/
def Graph.pairWithLoop : Graph Rat where
  directed := false
  nodeCount := 2
  edges := [⟨0, 0, some 5⟩, ⟨0, 1, some 3⟩]
  nodeCount_lt := by decide
  sorted := by decide
  bounded := by decide
  oriented := by decide
  weighted := by
    have hvalid : validWeight (5 : Rat) = true ∧ validWeight (3 : Rat) = true := by decide
    simpa using hvalid

/-- Two positions for each of the two nodes, from the first node to the second. -/
def Layout.pairWithLoop : Layout Rat := ⟨.pairWithLoop, 2, some 0, some 1⟩

/-- Every family with strength one, and all pairs written both ways. -/
def Constraints.ones : Constraints Rat :=
  { Constraints.empty.setAll (Penalty.all.map fun p => (p, 1)) with
    doubleCountEdges := true, doubleCountCycles := true }

variable {K : Type} [Coefficient K]

namespace Plan

variable {p : Plan K}

/-! ## Node after node -/

/-- The additions of a node go through and accumulate. -/
theorem exists_fillNode (hp : p.Sound) {v : NodeRows} (hv : v ∈ p.nodeRows) {m : Matrix K}
    (hm : m.dimension = p.dimension) :
    ∃ m', p.fillNode m v = .ok m' ∧ m.Accumulates (p.written v.node) m' := by
  obtain ⟨hnode, hrows⟩ := (mem_nodeRows hp).1 hv
  have hfits : ∀ a ∈ p.written v.node, v.rows.Holds a.row ∧ m.InRange a.row a.col := by
    intro a ha
    have h := (writes_of_mem_written hp hnode ha).inRange hp hnode
    rw [hrows, Matrix.InRange, hm]
    exact h
  obtain ⟨m', hm', hacc⟩ := Matrix.exists_foldlM_applyAddition hfits
  refine ⟨m', ?_, hacc⟩
  rw [fillNode, additions_eq_ok hp hnode]
  exact hm'

/-- Nodes can be filled in any order, each as often as it is listed. -/
theorem exists_foldlM_fillNode (hp : p.Sound) {vs : List NodeRows}
    (hvs : ∀ v ∈ vs, v ∈ p.nodeRows) {m : Matrix K} (hm : m.dimension = p.dimension) :
    ∃ m', vs.foldlM p.fillNode m = .ok m' ∧
      m.Accumulates (vs.flatMap fun v => p.written v.node) m' := by
  induction vs generalizing m with
  | nil => exact ⟨m, rfl, .nil m⟩
  | cons v vs ih =>
    obtain ⟨m₁, hm₁, hacc₁⟩ := exists_fillNode hp (hvs v List.mem_cons_self) hm
    obtain ⟨m₂, hm₂, hacc₂⟩ := ih (fun w hw => hvs w (List.mem_cons_of_mem _ hw))
      (hacc₁.dimension.trans hm)
    refine ⟨m₂, ?_, hacc₁.append hacc₂⟩
    rw [List.foldlM_cons, hm₁]
    exact hm₂

/-! ## Every cell belongs to one node -/

/-- A node brings nothing to the rows of another one. -/
theorem valuesAt_written_of_ne (hp : p.Sound) {v w i : Nat} (hw : w < p.layout.graph.nodeCount)
    (hi : (p.ownRows v).Holds i) (hne : w ≠ v) (j : Nat) : valuesAt (p.written w) i j = [] := by
  refine valuesAt_eq_nil fun a ha hrow => hne ?_
  have hown := ((writes_of_mem_written hp hw ha).inRange hp hw).1
  exact eq_of_holds (hrow ▸ hown) hi

/-- Every row of the matrix belongs to a node. -/
theorem exists_owner (hp : p.Sound) {i : Nat} (hi : i < p.dimension) :
    ∃ v < p.layout.graph.nodeCount, (p.ownRows v).Holds i := by
  have hpos := hp.positions_pos
  rw [hp.dimension] at hi
  refine ⟨i / p.layout.positions, Nat.div_lt_of_lt_mul (Nat.mul_comm _ _ ▸ hi), ?_⟩
  have hmod := Nat.mod_lt i hpos
  have hdiv := Nat.div_add_mod' i p.layout.positions
  rw [holds_ownRows]
  omega

/-- Whatever the order of the nodes, a cell receives the values of its own node. -/
theorem valuesAt_written_perm (hp : p.Sound) {vs : List NodeRows} (hperm : vs.Perm p.nodeRows)
    {v i : Nat} (hv : v < p.layout.graph.nodeCount) (hi : (p.ownRows v).Holds i) (j : Nat) :
    valuesAt (vs.flatMap fun w => p.written w.node) i j = valuesAt (p.written v) i j := by
  have hmem : (⟨v, p.ownRows v⟩ : NodeRows) ∈ vs :=
    hperm.mem_iff.2 ((mem_nodeRows hp).2 ⟨hv, rfl⟩)
  rw [valuesAt_flatMap, flatMap_eq_of_owner (hperm.nodup_iff.2 (nodup_nodeRows hp)) hmem]
  intro w hw hne
  obtain ⟨hwn, hrows⟩ := (mem_nodeRows hp).1 (hperm.mem_iff.1 hw)
  refine valuesAt_written_of_ne hp hwn hi (fun h => hne ?_) j
  obtain ⟨node, rows⟩ := w
  simp only at h hrows
  rw [hrows, h]

/-- All additions go through and accumulate in the matrix of zeros. -/
theorem exists_fill (hp : p.Sound) :
    ∃ m, p.fill = .ok m ∧
      (Matrix.zeros p.dimension).Accumulates (p.nodeRows.flatMap fun v => p.written v.node) m :=
  exists_foldlM_fillNode hp (fun _ hv => hv) rfl

/-- Filling the nodes in another order gives the same matrix. -/
theorem foldlM_fillNode_perm (hp : p.Sound) {vs : List NodeRows} (hperm : vs.Perm p.nodeRows) :
    vs.foldlM p.fillNode (.zeros p.dimension) = p.fill := by
  obtain ⟨m, hm, hacc⟩ := exists_fill hp
  obtain ⟨m', hm', hacc'⟩ := exists_foldlM_fillNode hp (fun v hv => hperm.mem_iff.1 hv)
    (show (Matrix.zeros p.dimension : Matrix K).dimension = p.dimension from rfl)
  rw [hm, hm']
  congr 1
  refine hacc'.unique hacc fun i j hij => ?_
  obtain ⟨v, hv, hi⟩ := exists_owner hp hij.1
  rw [valuesAt_written_perm hp hperm hv hi, valuesAt_written_perm hp (.refl _) hv hi]

/-- A cell in the rows of a node holds what that node adds to it. -/
theorem get?_fill (hp : p.Sound) {m : Matrix K} (hm : p.fill = .ok m) {v i j : Nat}
    (hv : v < p.layout.graph.nodeCount) (hi : (p.ownRows v).Holds i) (hid : i < p.dimension)
    (hj : j < p.dimension) :
    m.get? i j = some (addAll 0 (valuesAt (p.written v) i j)) := by
  obtain ⟨m', hm', hacc⟩ := exists_fill hp
  obtain rfl : m = m' := Except.ok.inj (hm.symm.trans hm')
  rw [hacc.get?, Matrix.get?_zeros, if_pos ⟨hid, hj⟩, valuesAt_written_perm hp (.refl _) hv hi]
  rfl

/-! ## Side by side -/

/-- The band holds the rows of a node, with everything that the node adds. -/
def IsBandOf (p : Plan K) (v : Nat) (b : Band K) : Prop :=
  b.cells.size = p.layout.positions * p.dimension ∧
    ∀ q j, q < p.layout.positions → j < p.dimension → b.cells[q * p.dimension + j]? =
      some (addAll 0 (valuesAt (p.written v) (p.number v q) j))

/-- Element `j` of row `q` of a band lies in its array. -/
theorem place_lt {q k n j : Nat} (hq : q < k) (hj : j < n) : q * n + j < k * n := by
  have hle := Nat.mul_le_mul_right n (Nat.succ_le_of_lt hq)
  rw [Nat.succ_mul] at hle
  omega

/-- The additions of a node go through in a band of its rows. -/
theorem exists_band (hp : p.Sound) {v : NodeRows} (hv : v ∈ p.nodeRows) :
    ∃ b, p.band v = .ok b ∧ p.IsBandOf v.node b := by
  obtain ⟨hnode, hrows⟩ := (mem_nodeRows hp).1 hv
  have hheight : v.rows.height = p.layout.positions := by
    rw [hrows, RowRange.height, ownRows, Nat.add_mul, Nat.one_mul, Nat.add_sub_cancel_left]
  have hfits : ∀ a ∈ p.written v.node, (Band.zeros v.rows p.dimension : Band K).rows.Holds a.row ∧
      a.col < (Band.zeros v.rows p.dimension : Band K).width := by
    intro a ha
    have h := (writes_of_mem_written hp hnode ha).inRange hp hnode
    exact ⟨hrows ▸ h.1, h.2.2⟩
  obtain ⟨b, hb, hsize, hcells⟩ := Band.exists_foldlM_add hfits
  refine ⟨b, ?_, ?_, fun q j hq hj => ?_⟩
  · rw [band, additions_eq_ok hp hnode]
    exact hb
  · rw [hsize, Band.zeros, Array.size_replicate, hheight]
  · have hzero : (Band.zeros v.rows p.dimension : Band K).cells[q * p.dimension + j]? =
        some 0 := by
      rw [Band.zeros, hheight, Array.getElem?_replicate, if_pos (place_lt hq hj)]
    have h := hcells q j hj
    rw [show (Band.zeros v.rows p.dimension : Band K).width = p.dimension from rfl, hzero] at h
    rw [h, number_eq hp]
    simp only [Band.zeros, hrows]
    rfl

/-- The bands of all nodes, in order. -/
theorem exists_bands (hp : p.Sound) :
    ∃ bs, p.nodeRows.mapM p.band = .ok bs ∧ bs.length = p.layout.graph.nodeCount ∧
      ∀ v < p.layout.graph.nodeCount, ∃ b, bs[v]? = some b ∧ p.IsBandOf v b := by
  obtain ⟨bs, hbs, hlen, hget⟩ := exists_mapM fun v hv => exists_band hp hv
  refine ⟨bs, hbs, ?_, fun v hv => ?_⟩
  · rw [hlen, nodeRows_eq hp, List.length_map, List.length_range]
  · exact hget v ⟨v, p.ownRows v⟩ (by simp [nodeRows_eq hp, hv])

/-- All bands go through, and each cell receives the values of its node. -/
theorem exists_fillParallel (hp : p.Sound) :
    ∃ m, p.fillParallel = .ok m ∧ m.dimension = p.dimension ∧ m.order = .rowMajor ∧
      ∀ v q j, v < p.layout.graph.nodeCount → q < p.layout.positions → j < p.dimension →
        m.get? (p.number v q) j =
          some (addAll 0 (valuesAt (p.written v) (p.number v q) j)) := by
  obtain ⟨bs, hbs, hcount, hband⟩ := exists_bands hp
  have hsizes : ∀ b ∈ bs, b.cells.size = p.layout.positions * p.dimension := by
    intro b hb
    obtain ⟨v, hv, rfl⟩ := List.mem_iff_getElem.1 hb
    obtain ⟨b', hb', hsize, -⟩ := hband v (hcount ▸ hv)
    rw [List.getElem?_eq_getElem hv] at hb'
    exact Option.some.inj hb' ▸ hsize
  have hfull : bs.length * (p.layout.positions * p.dimension) = p.dimension * p.dimension := by
    rw [hcount, ← Nat.mul_assoc, ← hp.dimension]
  obtain ⟨m, hm, hdim, horder, hcells⟩ := Matrix.exists_ofBands hsizes hfull
  refine ⟨m, ?_, hdim, horder, fun v q j hv hq hj => ?_⟩
  · rw [fillParallel, List.mapM_map]
    -- a task that is waited for is the computation that it was given
    show (p.nodeRows.mapM p.band >>= _) = _
    rw [hbs]
    exact hm
  · obtain ⟨b, hb, -, hcell⟩ := hband v hv
    have hplace : m.offset (p.number v q) j =
        v * (p.layout.positions * p.dimension) + (q * p.dimension + j) := by
      simp only [Matrix.offset, horder, hdim]
      rw [number_eq hp, Nat.add_mul, Nat.mul_assoc, Nat.add_assoc]
    have hr : m.InRange (p.number v q) j := by
      rw [Matrix.InRange, hdim]
      exact ⟨number_lt hp hv hq, hj⟩
    rw [Matrix.get?, if_pos hr, hplace, hcells v _ (place_lt hq hj), hb, Option.bind_some,
      hcell q j hq hj]

/-- The bands of all nodes, laid end to end, are the matrix that is filled in turn. -/
theorem fillParallel_eq_fill (hp : p.Sound) : p.fillParallel = p.fill := by
  obtain ⟨m', hm', hdim, horder, hcells⟩ := exists_fillParallel hp
  obtain ⟨m, hm, hacc⟩ := exists_fill hp
  rw [hm', hm]
  congr 1
  refine Matrix.ext_get? (hdim.trans hacc.dimension.symm) (horder.trans hacc.order.symm) ?_
  intro i j
  by_cases hij : i < p.dimension ∧ j < p.dimension
  · obtain ⟨v, hv, hi⟩ := exists_owner hp hij.1
    have hrow := holds_ownRows.1 hi
    obtain ⟨q, hq⟩ : ∃ q, i = p.number v q :=
      ⟨i - v * p.layout.positions, by rw [number_eq hp, Nat.add_sub_of_le hrow.1]⟩
    have hqlt : q < p.layout.positions := by
      rw [hq, number_eq hp] at hrow
      omega
    rw [get?_fill hp hm hv hi hij.1 hij.2, hq, hcells v q j hv hqlt hij.2]
  · rw [Matrix.get?_eq_none_iff.2 (by rwa [Matrix.InRange, hdim]),
      Matrix.get?_eq_none_iff.2 (by rwa [Matrix.InRange, hacc.dimension])]

/-! ## Nothing fails -/

/-- The addition lies in the rows of the node and in a column of the matrix, and its
place among all cells is a 64-bit word. -/
structure Lands (p : Plan K) (v : Nat) (a : Addition K) : Prop where
  row : v * p.layout.positions ≤ a.row ∧ a.row < (v + 1) * p.layout.positions
  col : a.col < p.layout.graph.nodeCount * p.layout.positions
  place : a.row * p.dimension + a.col < wordLimit

/-- Every addition of a node lands in its rows. -/
theorem lands_of_mem_written (hp : p.Sound) {v : Nat} {a : Addition K}
    (hv : v < p.layout.graph.nodeCount) (ha : a ∈ p.written v) : p.Lands v a := by
  obtain ⟨hown, hrow, hcol⟩ := (writes_of_mem_written hp hv ha).inRange hp hv
  refine ⟨hown, hp.dimension ▸ hcol, ?_⟩
  exact Nat.lt_trans (Matrix.line_lt hrow hcol) hp.cells_fit

/-- Making the addition succeeds, in the rows of the whole matrix and in a band. -/
theorem Lands.adds (hp : p.Sound) {v : Nat} {a : Addition K}
    (hv : v < p.layout.graph.nodeCount) (h : p.Lands v a) :
    (∀ m : Matrix K, m.dimension = p.dimension →
        ∃ m', (p.ownRows v).add m a.row a.col a.value = .ok m') ∧
      ∀ b : Band K, b.rows = p.ownRows v → b.width = p.dimension →
        ∃ b', b.add a.row a.col a.value = .ok b' := by
  have hcol : a.col < p.dimension := hp.dimension ▸ h.col
  have hrow : a.row < p.dimension := by
    have hle := Nat.mul_le_mul_right p.layout.positions (Nat.succ_le_of_lt hv)
    rw [hp.dimension]
    exact Nat.lt_of_lt_of_le h.row.2 hle
  refine ⟨fun m hm => ?_, fun b hb hw => ⟨_, if_pos ⟨hb ▸ h.row, hw ▸ hcol⟩⟩⟩
  obtain ⟨m', hm'⟩ := Matrix.exists_add (m := m) (by rw [Matrix.InRange, hm]; exact ⟨hrow, hcol⟩)
    a.value
  exact ⟨m', (if_pos h.row).trans hm'⟩

/-- Every edge that a family looks up has the weight that it reads. -/
theorem weight_isSome_of_mem_successors (hp : p.Sound) {v : Nat}
    (hv : v < p.layout.graph.nodeCount) {t : Term K} (ht : t ∈ p.terms)
    (hreads : t.penalty.readsEdgeWeights = true) {edge : Nat × Option K}
    (hedge : edge ∈ (NodeView.of p.layout.graph v).successors) : edge.2.isSome = true := by
  obtain ⟨w, x⟩ := edge
  obtain ⟨harc, rfl⟩ := (Graph.mem_weightedSuccessors hv).1 hedge
  rw [Graph.arcWeight?_eq_some (hp.weighted t ht hreads) harc]
  rfl

end Plan

end GraphQubo
