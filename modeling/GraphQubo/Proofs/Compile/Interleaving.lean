import Mathlib.Logic.Relation
import GraphQubo.Proofs.Compile.Filling

/-!
# GraphQubo.Proofs.Compile.Interleaving

Nodes that fill the matrix side by side, one addition at a time.

Every node has a queue of additions, in the order in which it makes them.  A step
takes the next addition from the queue of any one node and makes it in the common
matrix, so a run is an arbitrary interleaving that keeps only the order inside each
queue.  Nothing is assumed about the addition of coefficients.

* `Invariant` — every queue stays in the rows of its node, and the additions that are
  left lead to the matrix that is filled node after node;
* `Invariant.step`, `Invariant.run` — one step keeps it, and so does a run;
* `Invariant.enabled`, `Invariant.completes` — no addition fails, and every run can be
  carried to its end;
* `any_order_same_matrix` — every way of filling the matrix gives the same one.
-/

namespace GraphQubo

variable {K : Type}

/-- A matrix that is being filled, and for each node the additions it has yet to make. -/
structure Progress (K : Type) where
  matrix : Matrix K
  pending : List (NodeRows × List (Addition K))

namespace Progress

/-- No node has an addition left to make. -/
def Finished (s : Progress K) : Prop := ∀ x ∈ s.pending, x.2 = []

/-- All additions that are left, node after node. -/
def remaining (s : Progress K) : List (Addition K) := s.pending.flatMap Prod.snd

theorem finished_iff {s : Progress K} : s.Finished ↔ s.remaining = [] :=
  List.flatMap_eq_nil_iff.symm

/-- What is not finished has a node with an addition left. -/
theorem exists_next {s : Progress K} (h : ¬s.Finished) :
    ∃ before v a as after, s.pending = before ++ (v, a :: as) :: after := by
  simp only [Finished, not_forall] at h
  obtain ⟨⟨v, queue⟩, hmem, hne⟩ := h
  obtain ⟨before, after, hsplit⟩ := List.append_of_mem hmem
  cases queue with
  | nil => exact absurd rfl hne
  | cons a as => exact ⟨before, v, a, as, after, hsplit⟩

variable [Coefficient K]

/-- Some node makes its next addition. -/
inductive Step : Progress K → Progress K → Prop
  | addition {m m' : Matrix K} {before after : List (NodeRows × List (Addition K))}
      {v : NodeRows} {a : Addition K} {as : List (Addition K)}
      (made : Plan.applyAddition v.rows m a = .ok m') :
      Step ⟨m, before ++ (v, a :: as) :: after⟩ ⟨m', before ++ (v, as) :: after⟩

/-- Any number of steps. -/
def Run : Progress K → Progress K → Prop := Relation.ReflTransGen Step

/-- Every step makes one addition, so no run goes on for ever. -/
theorem Step.remaining_length {s s' : Progress K} (h : Step s s') :
    s.remaining.length = s'.remaining.length + 1 := by
  obtain ⟨-⟩ := h
  simp only [remaining, List.flatMap_append, List.flatMap_cons, List.length_append,
    List.length_cons]
  omega

end Progress

variable [Coefficient K]

namespace Plan

/-- Nothing is filled, and every node has all its additions to make. -/
def start (p : Plan K) : Except (Error K) (Progress K) := do
  let pending ← p.nodeRows.mapM fun v => do return (v, ← p.additions v.node)
  return ⟨.zeros p.dimension, pending⟩

/-! ## The invariant -/

/-- Every queue belongs to its node and stays in the rows of that node, and the
additions that are left lead to the matrix `final`. -/
structure Invariant (p : Plan K) (final : Matrix K) (s : Progress K) : Prop where
  nodes : s.pending.map Prod.fst = p.nodeRows
  owns : ∀ x ∈ s.pending, ∀ a ∈ x.2,
    (p.ownRows x.1.node).Holds a.row ∧ s.matrix.InRange a.row a.col
  leads : s.matrix.Accumulates s.remaining final

variable {p : Plan K} {final : Matrix K}

/-- At the start all nodes have their additions before them, and nothing has been written. -/
theorem start_eq_ok (hp : p.Sound) :
    p.start = .ok ⟨.zeros p.dimension, p.nodeRows.map fun v => (v, p.written v.node)⟩ := by
  have hqueues : (p.nodeRows.mapM fun v => do return (v, ← p.additions v.node)) =
      .ok (p.nodeRows.map fun v => (v, p.written v.node)) := by
    refine mapM_eq_ok fun v hv => ?_
    rw [additions_eq_ok hp ((mem_nodeRows hp).1 hv).1]
    rfl
  rw [start, hqueues]
  rfl

/-- The invariant holds at the start. -/
theorem Invariant.start (hp : p.Sound) (hfill : p.fill = .ok final) :
    p.Invariant final ⟨.zeros p.dimension, p.nodeRows.map fun v => (v, p.written v.node)⟩ := by
  constructor
  case nodes => simp only [List.map_map, Function.comp_def, List.map_id']
  case owns =>
    intro x hx a ha
    obtain ⟨v, hv, rfl⟩ := List.mem_map.1 hx
    have hnode := ((mem_nodeRows hp).1 hv).1
    exact (writes_of_mem_written hp hnode ha).inRange hp hnode
  case leads =>
    obtain ⟨m, hm, hacc⟩ := exists_fill hp
    have hfinal : m = final := Except.ok.inj (hm.symm.trans hfill)
    rw [Progress.remaining, List.flatMap_map]
    exact hfinal ▸ hacc

/-- Of the nodes with a queue each has only one. -/
theorem Invariant.node_ne {m : Matrix K} {before after : List (NodeRows × List (Addition K))}
    {v : NodeRows} {queue : List (Addition K)} (hp : p.Sound)
    (h : p.Invariant final ⟨m, before ++ (v, queue) :: after⟩)
    {x : NodeRows × List (Addition K)} (hx : x ∈ before) : x.1.node ≠ v.node := by
  have hnodes := h.nodes
  have hnodup := nodup_nodeRows hp
  rw [← hnodes, List.map_append, List.map_cons, List.nodup_append] at hnodup
  have hmemx : x.1 ∈ p.nodeRows := by
    rw [← hnodes, List.map_append]
    exact List.mem_append_left _ (List.mem_map_of_mem hx)
  have hmemv : v ∈ p.nodeRows := by
    rw [← hnodes, List.map_append, List.map_cons]
    exact List.mem_append_right _ List.mem_cons_self
  have hne : x.1 ≠ v := hnodup.2.2 x.1 (List.mem_map_of_mem hx) v List.mem_cons_self
  have hrows := ((mem_nodeRows hp).1 hmemx).2
  have hrowsv := ((mem_nodeRows hp).1 hmemv).2
  intro heq
  apply hne
  obtain ⟨⟨xnode, xrows⟩, _⟩ := x
  obtain ⟨vnode, vrows⟩ := v
  simp only at heq hrows hrowsv
  rw [hrows, hrowsv, heq]

/-- One step keeps the invariant: what stands before the addition lies in the rows of
other nodes, so the addition can be made ahead of it. -/
theorem Invariant.step (hp : p.Sound) {s s' : Progress K} (h : p.Invariant final s)
    (hs : Progress.Step s s') : p.Invariant final s' := by
  obtain @⟨m, m', before, after, v, a, as, made⟩ := hs
  have hadd : m.add a.row a.col a.value = .ok m' := by
    unfold applyAddition RowRange.add at made
    split at made
    · exact made
    · cases made
  have hdim := (Matrix.accumulates_of_add hadd).dimension
  have howns := h.owns
  have hleads := h.leads
  simp only [Progress.remaining, List.flatMap_append, List.flatMap_cons, List.cons_append] at hleads
  constructor
  case nodes => simpa using h.nodes
  case owns =>
    intro x hx b hb
    have hold : (p.ownRows x.1.node).Holds b.row ∧ m.InRange b.row b.col := by
      rcases List.mem_append.1 hx with hx | hx
      · exact howns x (List.mem_append_left _ hx) b hb
      · rcases List.mem_cons.1 hx with rfl | hx
        · exact howns (v, a :: as) (List.mem_append_right _ List.mem_cons_self) b
            (List.mem_cons_of_mem _ hb)
        · exact howns x (List.mem_append_right _ (List.mem_cons_of_mem _ hx)) b hb
    rwa [Matrix.InRange, hdim]
  case leads =>
    have hrow := (howns (v, a :: as) (List.mem_append_right _ List.mem_cons_self) a
      List.mem_cons_self).1
    have hbefore : valuesAt (before.flatMap Prod.snd) a.row a.col = [] := by
      apply valuesAt_eq_nil
      intro b hb heq
      obtain ⟨x, hx, hbx⟩ := List.mem_flatMap.1 hb
      have hrowb := (howns x (List.mem_append_left _ hx) b hbx).1
      exact h.node_ne hp hx (eq_of_holds (heq ▸ hrowb) hrow)
    have hnext := hleads.advance hadd hbefore
    simpa only [Progress.remaining, List.flatMap_append, List.flatMap_cons] using hnext

/-- It holds along every run. -/
theorem Invariant.run (hp : p.Sound) {s s' : Progress K} (h : p.Invariant final s)
    (hrun : Progress.Run s s') : p.Invariant final s' := by
  induction hrun with
  | refl => exact h
  | tail _ hstep ih => exact ih.step hp hstep

/-! ## What the invariant gives -/

/-- Once nothing remains it leaves one matrix only. -/
theorem Invariant.eq_of_finished {s : Progress K} (h : p.Invariant final s)
    (hdone : s.Finished) : s.matrix = final := by
  have hleads := h.leads
  rw [Progress.finished_iff.1 hdone] at hleads
  exact (Matrix.Accumulates.nil s.matrix).unique hleads fun _ _ _ => rfl

/-- The next addition of every node can be made. -/
theorem Invariant.enabled (hp : p.Sound) {s : Progress K} (h : p.Invariant final s)
    {x : NodeRows × List (Addition K)} (hx : x ∈ s.pending) {a : Addition K} (ha : a ∈ x.2) :
    ∃ m', applyAddition x.1.rows s.matrix a = .ok m' := by
  have hmem : x.1 ∈ p.nodeRows := h.nodes ▸ List.mem_map_of_mem hx
  obtain ⟨hrow, hrange⟩ := h.owns x hx a ha
  obtain ⟨m', hm'⟩ := Matrix.exists_add hrange a.value
  have hrows := ((mem_nodeRows hp).1 hmem).2
  exact ⟨m', by rw [applyAddition, RowRange.add, hrows, if_pos hrow, hm']⟩

/-- Every run can be carried to its end. -/
theorem Invariant.completes (hp : p.Sound) {s : Progress K} (h : p.Invariant final s) :
    ∃ s', Progress.Run s s' ∧ s'.Finished := by
  -- the induction is on how many additions are left
  generalize hn : s.remaining.length = n
  induction n generalizing s with
  | zero =>
    have hdone : s.Finished := Progress.finished_iff.2 (List.eq_nil_of_length_eq_zero hn)
    exact ⟨s, .refl, hdone⟩
  | succ n ih =>
    have hnot : ¬s.Finished := by
      intro hdone
      rw [Progress.finished_iff.1 hdone] at hn
      cases hn
    obtain ⟨before, v, a, as, after, hsplit⟩ := Progress.exists_next hnot
    have hmem : (v, a :: as) ∈ s.pending := by
      rw [hsplit]
      exact List.mem_append_right _ List.mem_cons_self
    obtain ⟨m', made⟩ := h.enabled hp hmem List.mem_cons_self
    have hstep : Progress.Step s ⟨m', before ++ (v, as) :: after⟩ := by
      obtain ⟨m, pending⟩ := s
      simp only at hsplit made
      subst hsplit
      exact .addition made
    have hlen := hstep.remaining_length
    obtain ⟨s', hrun, hdone⟩ := ih (h.step hp hstep) (by omega)
    exact ⟨s', .head hstep hrun, hdone⟩

end Plan

/-! ## Every way of filling the matrix -/

/-- Filling bands side by side answers like filling the matrix node after node.  Once a
plan is made, so does filling the nodes in any other order, and so does every run in
which the nodes take turns after each single addition: it never fails, can always be
carried to its end, and ends with this matrix. -/
theorem any_order_same_matrix (l : Layout K) (c : Constraints K) :
    l.generateParallel c = l.generate c ∧
      ∀ p, l.plan c = .ok p → ∃ m, l.generate c = .ok m ∧
        (∀ order : List NodeRows, order.Perm p.nodeRows →
          order.foldlM p.fillNode (.zeros p.dimension) = .ok m) ∧
        ∃ s₀, p.start = .ok s₀ ∧ ∀ s, Progress.Run s₀ s →
          (s.Finished → s.matrix = m) ∧
          (∀ x ∈ s.pending, ∀ a ∈ x.2.head?, ∃ m', Plan.applyAddition x.1.rows s.matrix a = .ok m') ∧
          ∃ s', Progress.Run s s' ∧ s'.Finished := by
  constructor
  · unfold Layout.generateParallel Layout.generate
    cases hplan : l.plan c with
    | error e => rfl
    | ok p => exact Plan.fillParallel_eq_fill (plan_eq_ok hplan).2.2
  · intro p hplan
    have hp := (plan_eq_ok hplan).2.2
    obtain ⟨m, hm, -⟩ := Plan.exists_fill hp
    refine ⟨m, ?_, ?_, _, Plan.start_eq_ok hp, ?_⟩
    · rw [Layout.generate, hplan]
      exact hm
    · intro order hperm
      rw [Plan.foldlM_fillNode_perm hp hperm, hm]
    · intro s hrun
      have hs := (Plan.Invariant.start hp hm).run hp hrun
      refine ⟨hs.eq_of_finished, ?_, hs.completes hp⟩
      intro x hx a ha
      exact hs.enabled hp hx (List.mem_of_mem_head? ha)

/-- Every finished run over two joined nodes ends with the matrix of the layout. -/
theorem any_order_same_matrix_pairWithLoop :
    ∃ p m s₀, Layout.pairWithLoop.plan .ones = .ok p ∧
      Layout.pairWithLoop.generate .ones = .ok m ∧
      p.start = .ok s₀ ∧ ∀ s, Progress.Run s₀ s → s.Finished → s.matrix = m := by
  obtain ⟨p, hp⟩ : ∃ p, Layout.pairWithLoop.plan .ones = .ok p := ⟨_, rfl⟩
  obtain ⟨m, hm, -, s₀, hs₀, hruns⟩ := (any_order_same_matrix Layout.pairWithLoop .ones).2 p hp
  exact ⟨p, m, s₀, hp, hm, hs₀, fun s hrun => (hruns s hrun).1⟩

end GraphQubo
