import GraphQubo.Proofs.Compile.Families
import GraphQubo.Proofs.Graph.Reversed

/-!
# GraphQubo.Proofs.Compile.Doubling

What the two flags do that write pairs of nodes both ways.

The smaller node of a pair always writes the pair, into the upper triangle.  With its flag
on the larger node writes it as well, into the lower triangle, with what the graph says of
the pair when it is looked at from there.  Nothing else depends on the flags, whatever the
addition of coefficients is like.

* `Layout.reach_below` — below the diagonal a family needs its flag;
* `doubleCounts_withDoubling_ne` — which families a flag is for;
* `Layout.reach_doubled_ne` — where its flag makes a difference to a family;
* `Layout.reach_reversed` — the larger node of a pair writes what the smaller one writes
  over the reversed graph;
* `doubling_fills_lower_triangle` — the same of matrices.
-/

namespace GraphQubo

variable {K : Type} [Coefficient K]

/-! ## Flags, families of pairs and cells -/

/-- The same weights under other flags. -/
def Constraints.withDoubling (c : Constraints K) (edges cycles : Bool) : Constraints K :=
  { c with doubleCountEdges := edges, doubleCountCycles := cycles }

namespace Penalty

/-- The families of pairs that stay at a position or step to the next one. -/
def linearPairs : List Penalty := [.edges, .nonEdges, .edgeWeightsFactor, .invalidTraversal]

/-- The families of pairs that step from the last position to the first. -/
def cyclicPairs : List Penalty := [.edgeWeightsCyclesFactor, .invalidTraversalCycles]

end Penalty

omit [Coefficient K] in
theorem doubleCounts_withDoubling (c : Constraints K) (edges cycles : Bool) (f : Penalty) :
    (c.withDoubling edges cycles).doubleCounts f =
      ((decide (f ∈ Penalty.linearPairs) && edges) ||
        (decide (f ∈ Penalty.cyclicPairs) && cycles)) := by
  cases f <;> simp [Constraints.doubleCounts, Constraints.withDoubling, Penalty.linearPairs,
    Penalty.cyclicPairs]

omit [Coefficient K] in
/-- A family answers to the flag of its kind only. -/
theorem doubleCounts_withDoubling_ne {c : Constraints K} {b₁ b₂ b₁' b₂' : Bool} {f : Penalty}
    (h : (c.withDoubling b₁ b₂).doubleCounts f ≠ (c.withDoubling b₁' b₂').doubleCounts f) :
    (b₁ ≠ b₁' ∧ f ∈ Penalty.linearPairs) ∨ (b₂ ≠ b₂' ∧ f ∈ Penalty.cyclicPairs) := by
  rw [doubleCounts_withDoubling, doubleCounts_withDoubling] at h
  by_contra hnone
  rw [not_or, not_and', not_and', not_not, not_not] at hnone
  obtain ⟨hlinear, hcyclic⟩ := hnone
  refine h (congrArg₂ (· || ·) ?_ ?_)
  · by_cases hf : f ∈ Penalty.linearPairs
    · rw [hlinear hf]
    · simp only [hf, decide_false, Bool.false_and]
  · by_cases hf : f ∈ Penalty.cyclicPairs
    · rw [hcyclic hf]
    · simp only [hf, decide_false, Bool.false_and]

namespace Layout

variable {l : Layout K} {v q w r : Nat}

/-- The layout over the reversed graph. -/
def reversed (l : Layout K) : Layout K := { l with graph := l.graph.reversed }

/-- Whether the cell of "`v` at `q`" and "`w` at `r`" is that of a pair of nodes which the
family is about, whichever of the two is the smaller one. -/
def Concerns (l : Layout K) (f : Penalty) (v q w r : Nat) : Prop :=
  match f with
  | .edges => q = r ∧ l.graph.Joined v w
  | .nonEdges => q = r ∧ ¬l.graph.Joined v w
  | .edgeWeightsFactor => r = q + 1 ∧ l.graph.Arc v w
  | .invalidTraversal => r = q + 1 ∧ ¬l.graph.Arc v w
  | .edgeWeightsCyclesFactor =>
    (2 ≤ l.positions ∧ q = l.positions - 1 ∧ r = 0) ∧ l.graph.Arc v w
  | .invalidTraversalCycles =>
    (2 ≤ l.positions ∧ q = l.positions - 1 ∧ r = 0) ∧ ¬l.graph.Arc v w
  | _ => False

instance (l : Layout K) (f : Penalty) (v q w r : Nat) : Decidable (l.Concerns f v q w r) :=
  match f with
  | .edges | .nonEdges | .edgeWeightsFactor | .invalidTraversal | .edgeWeightsCyclesFactor
  | .invalidTraversalCycles => inferInstanceAs (Decidable (_ ∧ _))
  | .startNodeScore | .terminalNodeScore | .diagonal | .nodesWithEdges | .oneNodeManyPositions
  | .onePositionManyNodes | .invalidTraversalSelf => inferInstanceAs (Decidable False)

/-! ## What a family brings to a cell, with its flag and without -/

/-- Below the diagonal nothing comes from a family without its flag. -/
theorem reach_below (f : Penalty) (x : K) (h : w < v ∨ (v = w ∧ r < q)) :
    l.reach ⟨f, x, false⟩ v q w r = [] := by
  have hpair : writesPair v w false = false := by
    rw [← Bool.not_eq_true, writesPair_iff]
    simp only [Bool.false_eq_true, false_and, or_false]
    omega
  have hnode : ¬(v = w ∧ q ≤ r) := by omega
  unfold reach Steps Wraps
  cases f <;> simp only [Penalty.wrapsAround, hpair, Bool.false_eq_true, if_true, if_false] <;>
    grind

/-- The flag of a family counts in cells of its pairs below the diagonal only. -/
theorem reach_doubled_ne {f : Penalty} {x : K} {b b' : Bool}
    (h : l.reach ⟨f, x, b⟩ v q w r ≠ l.reach ⟨f, x, b'⟩ v q w r) : w < v ∧ l.Concerns f v q w r := by
  have hlt : w < v := by
    refine Nat.lt_of_not_le fun hle => h ?_
    have hpair : writesPair v w b = writesPair v w b' := by
      rw [Bool.eq_iff_iff, writesPair_iff, writesPair_iff]
      omega
    unfold reach
    cases f <;> simp only [hpair]
  refine ⟨hlt, ?_⟩
  have hvw : ¬v = w := Nat.ne_of_gt hlt
  refine Decidable.byContradiction fun hnot => h ?_
  unfold Concerns at hnot
  unfold reach Steps Wraps
  cases f <;> simp only [Penalty.wrapsAround, hvw, Bool.false_eq_true, if_true, if_false] <;> grind

/-- With its flag, a family of pairs brings to a cell of two nodes what it brings over the
reversed graph to the cell of the two nodes exchanged. -/
theorem reach_reversed {f : Penalty} (x : K) (hf : f ∈ Penalty.linearPairs ++ Penalty.cyclicPairs)
    (hvw : v ≠ w) : l.reach ⟨f, x, true⟩ w q v r = l.reversed.reach ⟨f, x, true⟩ v q w r := by
  have hwv : ¬w = v := fun h => hvw h.symm
  have hpair : writesPair w v true = true ∧ writesPair v w true = true := by
    rw [writesPair_iff, writesPair_iff]
    simp only [true_and]
    omega
  have hjoined : l.graph.Joined w v ↔ l.reversed.graph.Joined v w := by
    rw [reversed, Graph.joined_reversed_iff, Graph.joined_comm]
  have harc : l.graph.Arc w v ↔ l.reversed.graph.Arc v w := Graph.arc_reversed_iff.symm
  have hweight : l.graph.arcWeight w v = l.reversed.graph.arcWeight v w :=
    (Graph.arcWeight_reversed v w).symm
  have hpositions : l.reversed.positions = l.positions := rfl
  unfold reach Steps Wraps
  cases f with
  | edges | nonEdges => simp only [hpair, hjoined, hvw, hwv]
  | edgeWeightsFactor | invalidTraversal | edgeWeightsCyclesFactor | invalidTraversalCycles =>
    simp only [hpair, harc, hweight, hvw, hwv, hpositions, if_false]
  | _ => simp [Penalty.linearPairs, Penalty.cyclicPairs] at hf

/-- What a cell receives depends on what the compiled families bring to it. -/
theorem received_congr {l' : Layout K} {c c' : Constraints K} {v' w' : Nat}
    (hpositions : l.positions = l'.positions) (hweights : c.weights = c'.weights)
    (h : ∀ f x, c.weight f = some x → l.reach ⟨f, x, c.doubleCounts f⟩ v q w r =
      l'.reach ⟨f, x, c'.doubleCounts f⟩ v' q w' r) :
    l.received c v q w r = l'.received c' v' q w' r := by
  have henabled : c.enabled = c'.enabled := by
    unfold Constraints.enabled Constraints.weight
    rw [hweights]
  have horigin : ∀ f, l.origin f q = l'.origin f q := by
    intro f
    rw [origin, origin, hpositions]
  have hleaves : ∀ f, l.leavesOut f = l'.leavesOut f := by
    intro f
    rw [leavesOut, leavesOut, hpositions]
  unfold received terms
  rw [hpositions, ← henabled]
  refine List.flatMap_congr fun x _ => ?_
  rw [List.flatMap_map, List.flatMap_map]
  simp only [hleaves, horigin]
  refine List.flatMap_congr fun e he => ?_
  obtain ⟨f, -, hf⟩ := List.mem_filterMap.1 (List.mem_filter.1 he).1
  obtain ⟨y, hy, rfl⟩ := Option.map_eq_some_iff.1 hf
  simp only [h f y hy]

/-- Without flags nothing reaches a cell below the diagonal. -/
theorem received_below (c : Constraints K) (h : w < v ∨ (v = w ∧ r < q)) :
    l.received (c.withDoubling false false) v q w r = [] := by
  unfold received
  refine List.flatMap_eq_nil_iff.2 fun x _ => List.flatMap_eq_nil_iff.2 fun t ht => ?_
  obtain ⟨e, -, rfl⟩ := List.mem_map.1 ht
  have hflag : (c.withDoubling false false).doubleCounts e.1 = false := by
    simp [doubleCounts_withDoubling]
  rw [hflag, reach_below e.1 e.2 h, ite_self]

/-- Where flags make a difference, the pair is written downwards by a family of a kind whose
flag is another one. -/
theorem received_withDoubling_ne {c : Constraints K} {b₁ b₂ b₁' b₂' : Bool}
    (h : l.received (c.withDoubling b₁ b₂) v q w r ≠ l.received (c.withDoubling b₁' b₂') v q w r) :
    w < v ∧ ∃ f, c.Sets f ∧ l.Concerns f v q w r ∧
      ((b₁ ≠ b₁' ∧ f ∈ Penalty.linearPairs) ∨ (b₂ ≠ b₂' ∧ f ∈ Penalty.cyclicPairs)) := by
  have hsome : ∃ f x, c.weight f = some x ∧
      l.reach ⟨f, x, (c.withDoubling b₁ b₂).doubleCounts f⟩ v q w r ≠
        l.reach ⟨f, x, (c.withDoubling b₁' b₂').doubleCounts f⟩ v q w r := by
    refine Classical.byContradiction fun hnone => h (received_congr rfl rfl fun f x hx => ?_)
    exact Classical.byContradiction fun hne => hnone ⟨f, x, hx, hne⟩
  obtain ⟨f, x, hx, hne⟩ := hsome
  obtain ⟨hlt, hconcerns⟩ := reach_doubled_ne hne
  have hsets : c.Sets f := Constraints.isEnabled_iff.1 (Option.isSome_iff_exists.2 ⟨x, hx⟩)
  exact ⟨hlt, f, hsets, hconcerns, doubleCounts_withDoubling_ne fun heq => hne (by rw [heq])⟩

/-! ## Acceptance -/

/-- Flags speak neither for nor against a configuration. -/
theorem exists_plan_withDoubling {c : Constraints K} (h : ∃ p, l.plan c = .ok p)
    (edges cycles : Bool) : ∃ p, l.plan (c.withDoubling edges cycles) = .ok p := by
  rw [exists_plan_iff] at h ⊢
  exact ⟨h.finite, h.positions, h.room, h.start, h.terminal, h.startScore, h.terminalScore,
    h.weights⟩

/-- What compiles over a graph compiles over the reversed one. -/
theorem exists_plan_reversed {c : Constraints K} (h : ∃ p, l.plan c = .ok p) :
    ∃ p, l.reversed.plan c = .ok p := by
  rw [exists_plan_iff] at h ⊢
  refine ⟨h.finite, h.positions, h.room, h.start, h.terminal, h.startScore, h.terminalScore,
    fun hreads e he => ?_⟩
  obtain ⟨f, hf, hsame⟩ := Graph.exists_mem_of_mem_reversed he
  rw [hsame]
  exact h.weights hreads f hf

end Layout

/-! ## The matrices -/

section

variable {l : Layout K} {c : Constraints K} {p : Plan K}

/-- The layout has the node and the position of a variable. -/
def Layout.Has (l : Layout K) (x : Variable) : Prop :=
  x.node < l.graph.nodeCount ∧ x.position < l.positions

/-- The cell of two variables. -/
def Layout.cellOf? (l : Layout K) (m : Matrix K) (x y : Variable) : Option K :=
  m.get? (x.number l.positions) (y.number l.positions)

/-- Under all flags an accepted configuration compiles, to cells that hold what they
receive. -/
theorem exists_generate_withDoubling (h : l.plan c = .ok p) (edges cycles : Bool) :
    ∃ m, l.generate (c.withDoubling edges cycles) = .ok m ∧
      m.dimension = l.graph.nodeCount * l.positions ∧
      ∀ x y, l.Has x → l.Has y → l.cellOf? m x y =
        some (addAll 0 (l.received (c.withDoubling edges cycles) x.node x.position y.node
          y.position)) := by
  obtain ⟨p', hp'⟩ := l.exists_plan_withDoubling ⟨p, h⟩ edges cycles
  obtain ⟨m, hm, hdim, -, hcells⟩ := exists_generate hp'
  exact ⟨m, hm, hdim, fun x y hx hy => hcells _ _ _ _ hx.1 hy.1 hx.2 hy.2⟩

/-- Without flags, what the cells receive leaves the lower triangle empty. -/
theorem get?_eq_zero_of_below {m : Matrix K}
    (hcell : ∀ x y, l.Has x → l.Has y → l.cellOf? m x y =
      some (addAll 0 (l.received (c.withDoubling false false) x.node x.position y.node
        y.position))) {i j : Nat} (hi : i < l.graph.nodeCount * l.positions) (hji : j < i) :
    m.get? i j = some 0 := by
  obtain ⟨v, hv, q, hq, rfl⟩ := Variable.exists_number hi
  obtain ⟨w, hw, r, hr, rfl⟩ := Variable.exists_number (Nat.lt_trans hji hi)
  have hbelow := Layout.received_below (l := l) c ((Variable.number_lt_iff hq hr).1 hji)
  have hzero := hcell ⟨v, q⟩ ⟨w, r⟩ ⟨hv, hq⟩ ⟨hw, hr⟩
  rw [hbelow] at hzero
  exact hzero

/-- The flags only fill the lower triangle.  Without them it is empty, and the upper
triangle is the same under all flags.  A flag changes cells below the diagonal only, those
of the pairs of nodes that its families are about.  Where nothing but these families is
compiled, what the larger node of a pair writes is what the smaller one writes over the
reversed graph. -/
theorem doubling_fills_lower_triangle (h : l.plan c = .ok p) :
    ∃ M : Bool → Bool → Matrix K,
      (∀ edges cycles, l.generate (c.withDoubling edges cycles) = .ok (M edges cycles) ∧
        (M edges cycles).dimension = l.graph.nodeCount * l.positions) ∧
      (∀ i j, i < l.graph.nodeCount * l.positions → j < i →
        (M false false).get? i j = some 0) ∧
      (∀ edges cycles edges' cycles' i j, i ≤ j →
        (M edges cycles).get? i j = (M edges' cycles').get? i j) ∧
      (∀ cycles x y, l.Has x → l.Has y →
        l.cellOf? (M true cycles) x y ≠ l.cellOf? (M false cycles) x y →
        y.node < x.node ∧ ∃ f ∈ Penalty.linearPairs, c.Sets f ∧
          l.Concerns f x.node x.position y.node y.position) ∧
      (∀ edges x y, l.Has x → l.Has y →
        l.cellOf? (M edges true) x y ≠ l.cellOf? (M edges false) x y →
        y.node < x.node ∧ ∃ f ∈ Penalty.cyclicPairs, c.Sets f ∧
          l.Concerns f x.node x.position y.node y.position) ∧
      ((∀ f, c.Sets f → f ∈ Penalty.linearPairs ++ Penalty.cyclicPairs) →
        (l.graph.directed = false → l.reversed = l) ∧
        ∃ m, l.reversed.generate (c.withDoubling true true) = .ok m ∧
          ∀ v w q r, v ≠ w → l.Has ⟨v, q⟩ → l.Has ⟨w, r⟩ →
            l.cellOf? (M true true) ⟨w, q⟩ ⟨v, r⟩ = l.cellOf? m ⟨v, q⟩ ⟨w, r⟩) := by
  choose M hM hdim hcell using exists_generate_withDoubling h
  -- what makes two cells of variables differ
  have hne : ∀ {b₁ b₂ b₁' b₂' x y}, l.Has x → l.Has y →
      l.cellOf? (M b₁ b₂) x y ≠ l.cellOf? (M b₁' b₂') x y → y.node < x.node ∧
        ∃ f, c.Sets f ∧ l.Concerns f x.node x.position y.node y.position ∧
          ((b₁ ≠ b₁' ∧ f ∈ Penalty.linearPairs) ∨ (b₂ ≠ b₂' ∧ f ∈ Penalty.cyclicPairs)) := by
    intro b₁ b₂ b₁' b₂' x y hx hy hxy
    rw [hcell _ _ _ _ hx hy, hcell _ _ _ _ hx hy] at hxy
    exact Layout.received_withDoubling_ne fun heq => hxy (by rw [heq])
  refine ⟨M, fun b₁ b₂ => ⟨hM b₁ b₂, hdim b₁ b₂⟩,
    fun i j hi hji => get?_eq_zero_of_below (hcell false false) hi hji,
    fun b₁ b₂ b₁' b₂' i j hij => ?_, fun b₂ x y hx hy hxy => ?_, fun b₁ x y hx hy hxy => ?_,
    fun hpairs => ⟨fun hd => ?_, ?_⟩⟩
  · by_cases hj : j < l.graph.nodeCount * l.positions
    · obtain ⟨v, hv, q, hq, rfl⟩ := Variable.exists_number (Nat.lt_of_le_of_lt hij hj)
      obtain ⟨w, hw, r, hr, rfl⟩ := Variable.exists_number hj
      refine Classical.byContradiction fun hdiff => ?_
      have hlt := (hne (x := ⟨v, q⟩) (y := ⟨w, r⟩) ⟨hv, hq⟩ ⟨hw, hr⟩ hdiff).1
      exact Nat.not_lt.2 hij ((Variable.number_lt_iff hq hr).2 (.inl hlt))
    · rw [Matrix.get?_eq_none_iff.2 fun hr => hj (hdim b₁ b₂ ▸ hr.2),
        Matrix.get?_eq_none_iff.2 fun hr => hj (hdim b₁' b₂' ▸ hr.2)]
  · obtain ⟨hlt, f, hsets, hconcerns, ⟨-, hf⟩ | ⟨hflag, -⟩⟩ := hne hx hy hxy
    · exact ⟨hlt, f, hf, hsets, hconcerns⟩
    · exact absurd rfl hflag
  · obtain ⟨hlt, f, hsets, hconcerns, ⟨hflag, -⟩ | ⟨-, hf⟩⟩ := hne hx hy hxy
    · exact absurd rfl hflag
    · exact ⟨hlt, f, hf, hsets, hconcerns⟩
  · rw [Layout.reversed, Graph.reversed_of_undirected hd]
  · obtain ⟨p', hp'⟩ := l.exists_plan_withDoubling ⟨p, h⟩ true true
    obtain ⟨p'', hp''⟩ := l.exists_plan_reversed ⟨p', hp'⟩
    obtain ⟨m, hm, -, -, hcells⟩ := exists_generate hp''
    refine ⟨m, hm, fun v w q r hvw hvq hwr => ?_⟩
    rw [hcell true true ⟨w, q⟩ ⟨v, r⟩ ⟨hwr.1, hvq.2⟩ ⟨hvq.1, hwr.2⟩]
    refine Eq.trans ?_ (hcells v q w r hvq.1 hwr.1 hvq.2 hwr.2).symm
    refine congrArg (fun vs => some (addAll 0 vs)) (Layout.received_congr rfl rfl fun f x hx => ?_)
    have hf : f ∈ Penalty.linearPairs ++ Penalty.cyclicPairs :=
      hpairs f (Constraints.isEnabled_iff.1 (Option.isSome_iff_exists.2 ⟨x, hx⟩))
    have hflag : (c.withDoubling true true).doubleCounts f = true := by
      rw [doubleCounts_withDoubling]
      simpa using hf
    rw [hflag]
    exact Layout.reach_reversed x hf hvw

end

/-- Two nodes and one arc between them. -/
def Graph.oneWayPair : Graph Rat where
  directed := true
  nodeCount := 2
  edges := [⟨0, 1, some 3⟩]
  nodeCount_lt := Graph.pairWithLoop.nodeCount_lt
  sorted := by decide
  bounded := by decide
  oriented := by decide
  weighted := by
    intro e he w hw
    rw [List.mem_singleton.1 he] at hw
    rw [← Option.some.inj hw]
    decide

/-- The arc over two positions. -/
def Layout.oneWayPair : Layout Rat := ⟨.oneWayPair, 2, none, none⟩

/-- Steps along edges, and no steps without one. -/
def Constraints.steps : Constraints Rat :=
  Constraints.empty.setAll [(.edgeWeightsFactor, 1), (.invalidTraversal, 2)]

/-- The step from the second node back to the first is written with the flag only, with
what the reversed arc says of it. -/
theorem doubling_fills_lower_triangle_oneWayPair :
    ∃ M : Bool → Bool → Matrix Rat,
      Layout.oneWayPair.generate (Constraints.steps.withDoubling false false) =
        .ok (M false false) ∧ (M false false).get? 2 1 = some 0 ∧
      ∃ m, Layout.oneWayPair.reversed.generate (Constraints.steps.withDoubling true true) = .ok m ∧
        (M true true).get? 2 1 = m.get? 0 3 := by
  obtain ⟨p, hp⟩ : ∃ p, Layout.oneWayPair.plan .steps = .ok p := ⟨_, rfl⟩
  obtain ⟨M, hM, hbelow, -, -, -, hreversed⟩ := doubling_fills_lower_triangle hp
  have hpairs : ∀ f, Constraints.steps.Sets f → f ∈ Penalty.linearPairs ++ Penalty.cyclicPairs := by
    rintro f ⟨x, hx, -⟩
    cases f <;> first | decide | cases hx
  obtain ⟨-, m, hm, hcell⟩ := hreversed hpairs
  refine ⟨M, (hM false false).1, hbelow 2 1 (by decide) (by decide), m, hm, ?_⟩
  exact hcell 0 1 0 1 (by decide) ⟨by decide, by decide⟩ ⟨by decide, by decide⟩

end GraphQubo
