import GraphQubo.Compile.Work
import GraphQubo.Proofs.Compile.Objection
import GraphQubo.Proofs.Variable.Numbering

/-!
# GraphQubo.Proofs.Compile.Refusal

Which configurations are refused over a layout, and with which error.

`Layout.objections` lists the eight reasons in the order in which they count.
They mention no check: they are said of the set weights, the numbers of nodes and
positions and the edges of the graph.

* `plan_answers` — the plan of a configuration answers to these objections;
* `exists_plan_iff` — what an accepted configuration satisfies, item by item;
* `plan_eq_ok` — what is known of a plan once it has been made.
-/

namespace GraphQubo

variable {K : Type} [Coefficient K]

/-! ## What the searches find -/

namespace Constraints

/-- A family has a weight other than zero. -/
def Sets (c : Constraints K) (f : Penalty) : Prop :=
  ∃ w, c.weights f = some w ∧ Coefficient.isZero w = false

/-- The weight `w` of `f` is set but not finite, and the weights of all families
declared before `f` are finite or unset. -/
def FirstNonFinite (c : Constraints K) (f : Penalty) (w : K) : Prop :=
  (c.weights f = some w ∧ Coefficient.isFinite w = false) ∧
    ∀ f' : Penalty, f'.order < f.order → ∀ w', c.weights f' = some w' →
      Coefficient.isFinite w' = true

/-- A family is enabled if it has a weight other than zero. -/
theorem isEnabled_iff {c : Constraints K} {f : Penalty} : c.isEnabled f = true ↔ c.Sets f := by
  unfold isEnabled weight Sets
  cases c.weights f <;> simp [Option.filter_some]

/-- The check of one family finds its weight if that is set and not finite. -/
theorem nonFinite?_eq_some_iff {c : Constraints K} {f : Penalty} {x : Penalty × K} :
    c.nonFinite? f = some x ↔
      c.weights f = some x.2 ∧ Coefficient.isFinite x.2 = false ∧ x.1 = f := by
  obtain ⟨f', w'⟩ := x
  unfold nonFinite?
  cases c.weights f with
  | none => simp
  | some w => grind

/-- The check of one family finds nothing in a weight that is finite or unset. -/
theorem nonFinite?_eq_none_iff {c : Constraints K} {f : Penalty} :
    c.nonFinite? f = none ↔ ∀ w, c.weights f = some w → Coefficient.isFinite w = true := by
  unfold nonFinite?
  cases c.weights f with
  | none => simp
  | some w => grind

end Constraints

/-- In a list without repeats, what stands before an element has the smaller index. -/
theorem mem_left_iff_idxOf_lt {α : Type} [BEq α] [LawfulBEq α] {xs ys : List α} {a x : α}
    (hnodup : (xs ++ a :: ys).Nodup) :
    x ∈ xs ↔ (xs ++ a :: ys).idxOf x < (xs ++ a :: ys).idxOf a := by
  have ha : a ∉ xs := fun h => (List.nodup_append.1 hnodup).2.2 a h a List.mem_cons_self rfl
  rw [List.idxOf_append, List.idxOf_append, if_neg ha, List.idxOf_cons_self]
  by_cases hxs : x ∈ xs
  · have hlt := List.idxOf_lt_length_of_mem hxs
    simp only [hxs, if_true, true_iff]
    omega
  · simp only [hxs, if_false, false_iff]
    omega

/-- The search in declaration order finds the first weight that is not finite. -/
theorem Constraints.firstNonFinite?_eq_some_iff {c : Constraints K} {f : Penalty} {w : K} :
    c.firstNonFinite? = some (f, w) ↔ c.FirstNonFinite f w := by
  unfold firstNonFinite? FirstNonFinite Penalty.order
  rw [List.findSome?_eq_some_iff]
  constructor
  · rintro ⟨before, f₀, after, hall, hf, hbefore⟩
    obtain ⟨hw, hfin, rfl⟩ := nonFinite?_eq_some_iff.1 hf
    refine ⟨⟨hw, hfin⟩, fun f' hlt => nonFinite?_eq_none_iff.1 (hbefore f' ?_)⟩
    rw [hall] at hlt
    exact (mem_left_iff_idxOf_lt (hall ▸ Penalty.nodup_all)).2 hlt
  · rintro ⟨⟨hw, hfin⟩, hbefore⟩
    obtain ⟨before, after, hall⟩ := List.append_of_mem (Penalty.mem_all f)
    refine ⟨before, f, after, hall, nonFinite?_eq_some_iff.2 ⟨hw, hfin, rfl⟩, fun f' hf' => ?_⟩
    refine nonFinite?_eq_none_iff.2 (hbefore f' ?_)
    rw [hall]
    exact (mem_left_iff_idxOf_lt (hall ▸ Penalty.nodup_all)).1 hf'

/-- The search finds nothing if and only if all set weights are finite. -/
theorem Constraints.firstNonFinite?_eq_none_iff {c : Constraints K} :
    c.firstNonFinite? = none ↔
      ∀ f w, c.weights f = some w → Coefficient.isFinite w = true := by
  rw [firstNonFinite?, List.findSome?_eq_none_iff]
  exact ⟨fun h f => nonFinite?_eq_none_iff.1 (h f (Penalty.mem_all f)),
    fun h f _ => nonFinite?_eq_none_iff.2 (h f)⟩

/-- The edge has no weight, and every other such edge comes after it. -/
def Graph.SmallestUnweighted (g : Graph K) (e : Edge K) : Prop :=
  (e ∈ g.edges ∧ e.weight = none) ∧ ∀ f ∈ g.edges, f.weight = none → f = e ∨ e.Precedes f

/-- The search finds the smallest edge without a weight. -/
theorem Graph.firstUnweighted?_eq_some_iff {g : Graph K} {e : Edge K} :
    g.firstUnweighted? = some e ↔ g.SmallestUnweighted e := by
  unfold firstUnweighted? SmallestUnweighted
  have hsorted := g.sorted
  constructor
  · intro h
    obtain ⟨hw, before, after, hes, hbefore⟩ := List.find?_eq_some_iff_append.1 h
    rw [hes] at hsorted ⊢
    have hafter := (List.pairwise_cons.1 (List.pairwise_append.1 hsorted).2.1).1
    refine ⟨⟨by simp, Option.isNone_iff_eq_none.1 hw⟩, fun f hf hfw => ?_⟩
    rcases List.mem_append.1 hf with hf | hf
    · simpa [hfw] using hbefore f hf
    · exact (List.mem_cons.1 hf).imp id (hafter f)
  · rintro ⟨⟨he, hw⟩, hleast⟩
    have hsome : (g.edges.find? fun e => e.weight.isNone).isSome :=
      List.find?_isSome.2 ⟨e, he, by simp [hw]⟩
    obtain ⟨f, hf⟩ := Option.isSome_iff_exists.1 hsome
    obtain ⟨hfw, before, after, hes, hbefore⟩ := List.find?_eq_some_iff_append.1 hf
    have hfmem : f ∈ g.edges := List.mem_of_find?_eq_some hf
    rcases hleast f hfmem (Option.isNone_iff_eq_none.1 hfw) with rfl | hlt
    · exact hf
    · -- `e` stands before `f`, where every edge has a weight
      rw [hes] at he hsorted
      have hafter := (List.pairwise_cons.1 (List.pairwise_append.1 hsorted).2.1).1
      rcases List.mem_append.1 he with he | he
      · simpa [hw] using hbefore e he
      · rcases List.mem_cons.1 he with rfl | he
        · exact hf
        · have := hafter e he
          unfold Edge.Precedes at *
          omega

/-- Of edges without weight one comes first. -/
theorem Graph.exists_smallestUnweighted {g : Graph K} {e : Edge K} (he : e ∈ g.edges)
    (hw : e.weight = none) : ∃ x, g.SmallestUnweighted x := by
  have hsome : g.firstUnweighted?.isSome := List.find?_isSome.2 ⟨e, he, by simp [hw]⟩
  obtain ⟨x, hx⟩ := Option.isSome_iff_exists.1 hsome
  exact ⟨x, firstUnweighted?_eq_some_iff.1 hx⟩

/-! ## The objections -/

namespace Layout

/-- Some compiled family reads edge weights; the one that wraps around is compiled
only over two positions or more. -/
def ReadsEdgeWeights (l : Layout K) (c : Constraints K) : Prop :=
  c.Sets .edgeWeightsFactor ∨ (c.Sets .edgeWeightsCyclesFactor ∧ 2 ≤ l.positions)

/-- The side of the matrix, or its number of cells, does not fit in a 64-bit word. -/
def TooLarge (l : Layout K) : Prop :=
  wordLimit ≤ l.graph.nodeCount * l.positions ∨
    wordLimit ≤ l.graph.nodeCount * l.positions * (l.graph.nodeCount * l.positions)

/-- Everything that speaks against compiling a configuration over a layout, in the
order in which it counts. -/
def objections (l : Layout K) (c : Constraints K) : List (Objection K) :=
  [⟨.invalidConfiguration, fun e => ∃ f w, c.FirstNonFinite f w ∧ e = .nonFiniteWeight f w⟩,
    ⟨.invalidConfiguration, fun e => l.positions = 0 ∧ e = .noPositions⟩,
    ⟨.invalidConfiguration, fun e =>
      l.TooLarge ∧ e = .layoutTooLarge l.graph.nodeCount l.positions⟩,
    ⟨.invalidNode, fun e => ∃ v, l.startNode = some v ∧ l.graph.nodeCount ≤ v ∧
      e = .nodeOutOfRange v l.graph.nodeCount⟩,
    ⟨.invalidNode, fun e => ∃ v, l.terminalNode = some v ∧ l.graph.nodeCount ≤ v ∧
      e = .nodeOutOfRange v l.graph.nodeCount⟩,
    ⟨.invalidConfiguration, fun e =>
      (c.Sets .startNodeScore ∧ l.startNode = none) ∧ e = .startNodeMissing⟩,
    ⟨.invalidConfiguration, fun e =>
      (c.Sets .terminalNodeScore ∧ l.terminalNode = none) ∧ e = .terminalNodeMissing⟩,
    ⟨.missingWeight, fun e => ∃ x, (l.ReadsEdgeWeights c ∧ l.graph.SmallestUnweighted x) ∧
      e = .unweightedEdge x.source x.target⟩]

/-- The layout refuses the configuration with the error of the first objection. -/
def Refuses (l : Layout K) (c : Constraints K) (e : Error K) : Prop := FirstOf (l.objections c) e

/-- Nothing speaks against compiling the configuration over the layout. -/
def Accepts (l : Layout K) (c : Constraints K) : Prop := NoneOf (l.objections c)

/-! ## Each check answers to its objection -/

/-- The first check: the weights are finite. -/
theorem checkWeights_answers (c : Constraints K) :
    Answers [⟨.invalidConfiguration,
      fun e => ∃ f w, c.FirstNonFinite f w ∧ e = .nonFiniteWeight f w⟩] (checkWeights c) := by
  refine answers_single (fun e => ?_) (by rintro e ⟨f, w, -, rfl⟩; rfl)
  unfold checkWeights
  simp only [← Constraints.firstNonFinite?_eq_some_iff]
  cases c.firstNonFinite? with
  | none => simp
  | some x =>
    obtain ⟨f, w⟩ := x
    simp only [Option.some.injEq, Prod.mk.injEq, Except.error.injEq]
    constructor
    · rintro ⟨_, _, ⟨rfl, rfl⟩, rfl⟩
      rfl
    · rintro rfl
      exact ⟨f, w, ⟨rfl, rfl⟩, rfl⟩

omit [Coefficient K] in
/-- The second check: there is a position. -/
theorem ofPositions_answers (positions : Nat) :
    Answers [⟨.invalidConfiguration, fun e => positions = 0 ∧ e = .noPositions⟩]
      (Numbering.ofPositions positions : Except (Error K) Numbering) := by
  refine answers_single (fun e => ?_) (by rintro e ⟨-, rfl⟩; rfl)
  unfold Numbering.ofPositions
  by_cases h : 0 < positions
  · simp [h, Nat.ne_of_gt h]
  · simp [Nat.eq_zero_of_not_pos h, eq_comm]

/-- The third check: the cells can be counted in a word. -/
theorem dimension_answers {l : Layout K} {m : Numbering} (hm : m.positions = l.positions) :
    Answers [⟨.invalidConfiguration, fun e =>
      l.TooLarge ∧ e = .layoutTooLarge l.graph.nodeCount l.positions⟩]
      (m.dimension l.graph.nodeCount : Except (Error K) Nat) := by
  refine answers_single (fun e => ?_) (by rintro e ⟨-, rfl⟩; rfl)
  have htoo : l.TooLarge ↔ ¬(l.graph.nodeCount * l.positions < wordLimit ∧
      l.graph.nodeCount * l.positions * (l.graph.nodeCount * l.positions) < wordLimit) := by
    rw [TooLarge]
    omega
  rw [Numbering.dimension, hm, htoo]
  split
  · rename_i h
    simp [h]
  · rename_i h
    simp [h, eq_comm]

/-- The fourth and the fifth check: a start or terminal node is a node of the graph. -/
theorem checkNode?_answers (l : Layout K) (node : Option Nat) :
    Answers [⟨.invalidNode, fun e => ∃ v, node = some v ∧ l.graph.nodeCount ≤ v ∧
      e = .nodeOutOfRange v l.graph.nodeCount⟩] (l.checkNode? node) := by
  refine answers_single (fun e => ?_) (by rintro e ⟨v, -, -, rfl⟩; rfl)
  cases node with
  | none => simp [checkNode?]
  | some v =>
    by_cases h : v < l.graph.nodeCount
    · have hle : ¬l.graph.nodeCount ≤ v := Nat.not_le.2 h
      simp [checkNode?, Graph.checkNode, h, hle]
    · simp [checkNode?, Graph.checkNode, h, Nat.le_of_not_lt h, eq_comm]

/-- The sixth and the seventh check: a score of an end comes with this end. -/
theorem checkScores_answers (l : Layout K) (c : Constraints K) :
    Answers ([⟨.invalidConfiguration, fun e =>
        (c.Sets .startNodeScore ∧ l.startNode = none) ∧ e = .startNodeMissing⟩] ++
      [⟨.invalidConfiguration, fun e =>
        (c.Sets .terminalNodeScore ∧ l.terminalNode = none) ∧ e = .terminalNodeMissing⟩])
      (l.checkScores c) := by
  have hsplit : l.checkScores c =
      (if c.isEnabled .startNodeScore ∧ l.startNode.isNone then .error .startNodeMissing
        else .ok ()) >>= fun _ : Unit =>
      if c.isEnabled .terminalNodeScore ∧ l.terminalNode.isNone then .error .terminalNodeMissing
        else .ok () := by
    unfold checkScores
    split <;> rfl
  rw [hsplit]
  simp only [← Constraints.isEnabled_iff, ← Option.isNone_iff_eq_none]
  exact (answers_if rfl).bind fun _ _ => answers_if rfl

/-- The families that are compiled: those with a weight that are not left out. -/
theorem terms_eq_filterMap (l : Layout K) (c : Constraints K) :
    l.terms c = Penalty.all.filterMap fun f =>
      if l.leavesOut f = true then none
      else (c.weight f).map fun w => ⟨f, w, c.doubleCounts f⟩ := by
  rw [terms, Constraints.enabled, ← List.filterMap_eq_filter, ← List.filterMap_eq_map,
    List.filterMap_filterMap, List.filterMap_filterMap]
  congr 1
  funext f
  cases c.weight f with
  | none => simp
  | some w => cases hf : l.leavesOut f <;> simp [Option.guard, hf]

/-- The terms of a plan are the families that are set and not left out. -/
theorem mem_terms_iff {l : Layout K} {c : Constraints K} {t : Term K} :
    t ∈ l.terms c ↔ l.leavesOut t.penalty = false ∧ c.weight t.penalty = some t.weight ∧
      t.doubled = c.doubleCounts t.penalty := by
  rw [terms_eq_filterMap, List.mem_filterMap]
  constructor
  · rintro ⟨f, -, hf⟩
    split at hf
    · cases hf
    · rename_i hout
      obtain ⟨w, hw, rfl⟩ := Option.map_eq_some_iff.1 hf
      exact ⟨Bool.not_eq_true _ ▸ hout, hw, rfl⟩
  · rintro ⟨hout, hw, hdoubled⟩
    refine ⟨t.penalty, Penalty.mem_all _, ?_⟩
    rw [if_neg (by simp [hout]), hw, Option.map_some, ← hdoubled]

theorem isEnabled_of_mem_terms {l : Layout K} {c : Constraints K} {t : Term K}
    (ht : t ∈ l.terms c) : c.isEnabled t.penalty = true :=
  Option.isSome_iff_exists.2 ⟨_, (mem_terms_iff.1 ht).2.1⟩

/-- A family that is enabled and not left out is compiled. -/
theorem exists_mem_terms {l : Layout K} {c : Constraints K} {f : Penalty} (h : c.Sets f)
    (hout : l.leavesOut f = false) : ∃ t ∈ l.terms c, t.penalty = f := by
  obtain ⟨w, hw⟩ := Option.isSome_iff_exists.1 (Constraints.isEnabled_iff.2 h)
  exact ⟨⟨f, w, c.doubleCounts f⟩, mem_terms_iff.2 ⟨hout, hw, rfl⟩, rfl⟩

/-- When a term reads edge weights, in terms of the two families that do. -/
theorem any_terms_iff {l : Layout K} {c : Constraints K} :
    ((l.terms c).any fun t => t.penalty.readsEdgeWeights) = true ↔
      c.Sets .edgeWeightsFactor ∨ (c.Sets .edgeWeightsCyclesFactor ∧ l.positions ≠ 1) := by
  rw [List.any_eq_true]
  constructor
  · rintro ⟨t, ht, hreads⟩
    have hset := Constraints.isEnabled_iff.1 (isEnabled_of_mem_terms ht)
    have hout := (mem_terms_iff.1 ht).1
    cases hpen : t.penalty with
    | edgeWeightsFactor => exact .inl (hpen ▸ hset)
    | edgeWeightsCyclesFactor =>
      rw [hpen] at hset hout
      exact .inr ⟨hset, by simpa [leavesOut, Penalty.wrapsAround] using hout⟩
    | _ => simp [hpen, Penalty.readsEdgeWeights] at hreads
  · rintro (h | ⟨h, hp⟩)
    · obtain ⟨t, ht, hpen⟩ := exists_mem_terms (l := l) h rfl
      exact ⟨t, ht, hpen ▸ rfl⟩
    · have hout : l.leavesOut .edgeWeightsCyclesFactor = false := by
        simpa [leavesOut, Penalty.wrapsAround] using hp
      obtain ⟨t, ht, hpen⟩ := exists_mem_terms h hout
      exact ⟨t, ht, hpen ▸ rfl⟩

/-- The last check: no edge lacks a weight that is read. -/
theorem checkEdgeWeights_answers {l : Layout K} {c : Constraints K} (hpos : 0 < l.positions) :
    Answers [⟨.missingWeight, fun e => ∃ x, (l.ReadsEdgeWeights c ∧
      l.graph.SmallestUnweighted x) ∧ e = .unweightedEdge x.source x.target⟩]
      (l.checkEdgeWeights (l.terms c)) := by
  have htwo : l.positions ≠ 1 ↔ 2 ≤ l.positions := by omega
  refine answers_single (fun e => ?_) (by rintro e ⟨x, -, rfl⟩; rfl)
  unfold checkEdgeWeights ReadsEdgeWeights
  rw [← htwo, ← any_terms_iff]
  simp only [← Graph.firstUnweighted?_eq_some_iff]
  by_cases h : ((l.terms c).any fun t => t.penalty.readsEdgeWeights) = true
  · cases hx : l.graph.firstUnweighted? with
    | none => simp [h]
    | some x => simp [h, eq_comm]
  · simp [h]

/-! ## The plan answers to all of them -/

/-- The checks before the one on edge weights answer to the first seven objections. -/
theorem accept_answers (l : Layout K) (c : Constraints K) :
    Answers ((l.objections c).take 7) (l.accept c) := by
  refine (checkWeights_answers c).bind fun _ _ => ?_
  refine (ofPositions_answers l.positions).bind fun m hm => ?_
  refine (dimension_answers (Numbering.ofPositions_eq_ok_iff.1 hm)).bind fun _ _ => ?_
  refine (l.checkNode?_answers l.startNode).bind fun _ _ => ?_
  refine (l.checkNode?_answers l.terminalNode).bind fun _ _ => ?_
  exact (l.checkScores_answers c).bind fun _ _ => answers_ok _

/-- The numbering and the side of the matrix that come out of the checks. -/
theorem accept_eq_ok {l : Layout K} {c : Constraints K} {m : Numbering} {n : Nat}
    (h : l.accept c = .ok (m, n)) :
    m.positions = l.positions ∧ n = l.graph.nodeCount * l.positions ∧ n < wordLimit ∧
      n * n < wordLimit := by
  unfold accept at h
  simp only [bind_eq_ok] at h
  obtain ⟨_, -, m', hm, n', hn, _, -, _, -, _, -, hmn⟩ := h
  obtain ⟨rfl, rfl⟩ := Prod.mk.inj (Except.ok.inj hmn)
  have hpos := Numbering.ofPositions_eq_ok_iff.1 hm
  obtain ⟨hdim, hfits⟩ := Numbering.dimension_eq_ok_iff.1 hn
  exact ⟨hpos, hpos ▸ hdim, hfits⟩

/-- A plan answers to all eight objections, in their order. -/
theorem plan_answers (l : Layout K) (c : Constraints K) :
    Answers (l.objections c) (l.plan c) := by
  refine (accept_answers l c).bind fun a ha => ?_
  obtain ⟨m, n⟩ := a
  have hpos : 0 < l.positions := (accept_eq_ok ha).1 ▸ m.positive
  exact (checkEdgeWeights_answers hpos).bind fun _ _ => answers_ok _

/-- Nothing speaks against the configuration over the layout. -/
structure Admits (l : Layout K) (c : Constraints K) : Prop where
  finite : ∀ f w, c.weights f = some w → Coefficient.isFinite w = true
  positions : 0 < l.positions
  room : ¬l.TooLarge
  start : ∀ v, l.startNode = some v → v < l.graph.nodeCount
  terminal : ∀ v, l.terminalNode = some v → v < l.graph.nodeCount
  startScore : c.Sets .startNodeScore → l.startNode ≠ none
  terminalScore : c.Sets .terminalNodeScore → l.terminalNode ≠ none
  weights : l.ReadsEdgeWeights c → ∀ e ∈ l.graph.edges, e.weight ≠ none

/-- What holds of a layout to which no objection applies, item by item. -/
theorem admits_of_noneOf {l : Layout K} {c : Constraints K} (h : NoneOf (l.objections c)) :
    l.Admits c := by
  have hnone : ∀ (i : Nat) (o : Objection K), (l.objections c)[i]? = some o → ∀ e, ¬o.names e :=
    fun i o ho => h o (List.mem_of_getElem? ho)
  constructor
  case finite =>
    refine Constraints.firstNonFinite?_eq_none_iff.1 ?_
    cases hfirst : c.firstNonFinite? with
    | none => rfl
    | some x =>
      exact absurd ⟨x.1, x.2, Constraints.firstNonFinite?_eq_some_iff.1 hfirst, rfl⟩
        (hnone 0 _ rfl _)
  case positions => exact Nat.pos_of_ne_zero fun hzero => hnone 1 _ rfl _ ⟨hzero, rfl⟩
  case room => exact fun hlarge => hnone 2 _ rfl _ ⟨hlarge, rfl⟩
  case start =>
    exact fun v hv => Nat.lt_of_not_le fun hle => hnone 3 _ rfl _ ⟨v, hv, hle, rfl⟩
  case terminal =>
    exact fun v hv => Nat.lt_of_not_le fun hle => hnone 4 _ rfl _ ⟨v, hv, hle, rfl⟩
  case startScore => exact fun hset hmissing => hnone 5 _ rfl _ ⟨⟨hset, hmissing⟩, rfl⟩
  case terminalScore => exact fun hset hmissing => hnone 6 _ rfl _ ⟨⟨hset, hmissing⟩, rfl⟩
  case weights =>
    intro hreads e he hmissing
    obtain ⟨x, hx⟩ := Graph.exists_smallestUnweighted he hmissing
    exact hnone 7 _ rfl _ ⟨x, ⟨hreads, hx⟩, rfl⟩

/-- Conversely these items leave no objection. -/
theorem Admits.noneOf {l : Layout K} {c : Constraints K} (h : l.Admits c) :
    NoneOf (l.objections c) := by
  intro o ho e hnames
  simp only [objections, List.mem_cons, List.not_mem_nil, or_false] at ho
  rcases ho with rfl | rfl | rfl | rfl | rfl | rfl | rfl | rfl
  · obtain ⟨f, w, ⟨⟨hw, hfinite⟩, -⟩, -⟩ := hnames
    rw [h.finite f w hw] at hfinite
    cases hfinite
  · exact Nat.ne_of_gt h.positions hnames.1
  · exact h.room hnames.1
  · obtain ⟨v, hv, hle, -⟩ := hnames
    exact Nat.not_le.2 (h.start v hv) hle
  · obtain ⟨v, hv, hle, -⟩ := hnames
    exact Nat.not_le.2 (h.terminal v hv) hle
  · exact h.startScore hnames.1.1 hnames.1.2
  · exact h.terminalScore hnames.1.1 hnames.1.2
  · obtain ⟨x, ⟨hreads, ⟨hx, hmissing⟩, -⟩, -⟩ := hnames
    exact h.weights hreads x hx hmissing

/-- A configuration is accepted exactly when nothing speaks against it. -/
theorem exists_plan_iff {l : Layout K} {c : Constraints K} :
    (∃ p, l.plan c = .ok p) ↔ l.Admits c :=
  (l.plan_answers c).ok_iff.trans ⟨admits_of_noneOf, Admits.noneOf⟩

end Layout

/-! ## What is known of a plan -/

/-- The numbering, the side of the matrix and the families of a plan fit its layout. -/
structure Plan.Sound (p : Plan K) : Prop where
  positions : p.numbering.positions = p.layout.positions
  dimension : p.dimension = p.layout.graph.nodeCount * p.layout.positions
  fits : p.dimension < wordLimit
  cells_fit : p.dimension * p.dimension < wordLimit
  weighted : ∀ t ∈ p.terms, t.penalty.readsEdgeWeights = true →
    p.layout.graph.firstUnweighted? = none
  wraps : ∀ t ∈ p.terms, t.penalty.wrapsAround = true → 2 ≤ p.layout.positions

/-- A plan keeps its layout and the terms of its configuration, and is sound. -/
theorem plan_eq_ok {l : Layout K} {c : Constraints K} {p : Plan K} (h : l.plan c = .ok p) :
    p.layout = l ∧ p.terms = l.terms c ∧ p.Sound := by
  unfold Layout.plan at h
  obtain ⟨⟨m, n⟩, haccept, h⟩ := bind_eq_ok.1 h
  obtain ⟨_, hweights, h⟩ := bind_eq_ok.1 h
  cases h
  obtain ⟨hpos, hdim, hfits, hcells⟩ := Layout.accept_eq_ok haccept
  refine ⟨rfl, rfl, hpos, hdim, hfits, hcells, fun t ht hreads => ?_, fun t ht hwraps => ?_⟩
  · have hany : ((l.terms c).any fun t => t.penalty.readsEdgeWeights) = true :=
      List.any_eq_true.2 ⟨t, ht, hreads⟩
    rw [Layout.checkEdgeWeights, if_pos hany] at hweights
    split at hweights
    · cases hweights
    · assumption
  · have hout := (Layout.mem_terms_iff.1 ht).1
    have hm := m.positive
    simp only [Layout.leavesOut, hwraps, Bool.true_and, beq_eq_false_iff_ne] at hout
    show 2 ≤ l.positions
    omega

end GraphQubo
