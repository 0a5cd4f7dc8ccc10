import GraphQubo.Proofs.Compile.Energy
import GraphQubo.Proofs.Matrix.PairSum
import GraphQubo.Proofs.Problem.Placement

/-!
# GraphQubo.Proofs.Problem.Coloring

Problems that give every node one color.

Such a problem has a position for each color.  With strength `a` it rewards every color of a
node and punishes every two colors of a node twice as much; with strength `b` it punishes two
nodes of one color that clash.  So the energy of a set of pairs is `a` times the squared
deviations from one color each, plus `b` for every clash, less `a · n`.  No energy is below
`-a · n`, and what meets it gives every node one color, and clashing nodes different ones.

* `colorEnergy_eq` — the energy by deviations and clashes;
* `colorEnergy_ge`, `colorEnergy_eq_least_iff` — the bound, and where it is met;
* `exists_colorMatrix`, `Matrix.Measures.exists_color_energy` — the matrix of such a problem, and
  the bound for its assignments;
* `graphColoring_energy` — nodes clash that an edge joins;
* `cliqueCover_energy` — nodes clash that no edge joins.
-/

namespace GraphQubo

open Finset

section Energy

variable {n k : Nat} (a b : Rat) (R : Fin n → Fin n → Prop) [DecidableRel R]

/-- The coupling of two pairs of a node and a color.  A color of a node is coupled to all of
its colors, itself included, and earns twice as much for itself. -/
def colorCoupling (x y : Fin n × Fin k) : Rat :=
  (if x.1 = y.1 then a else 0) - (if x = y then 2 * a else 0) +
    if x.2 = y.2 ∧ x.1 ≤ y.1 ∧ R x.1 y.1 then b else 0

/-- The energy of a set of pairs of a node and a color. -/
def colorEnergy (s : Finset (Fin n × Fin k)) : Rat := pairSum (colorCoupling a b R) s

/-- How many colors of the set the node has. -/
def colorsOf (s : Finset (Fin n × Fin k)) (v : Fin n) : Nat := (s.filter fun x => x.1 = v).card

/-- How many clashes there are within the colors; a node can clash with itself. -/
def clashes (s : Finset (Fin n × Fin k)) : Nat :=
  relatedPairs (fun x y => x.2 = y.2 ∧ x.1 ≤ y.1 ∧ R x.1 y.1) s

/-- Each variable is one colour of a node. -/
theorem sum_colorsOf (s : Finset (Fin n × Fin k)) : ∑ v, colorsOf s v = s.card :=
  (card_eq_sum_card_fiberwise fun _ _ => mem_univ _).symm

/-- The energy of a set of pairs: `a` for the squared deviations from one color each, and `b`
for every clash. -/
theorem colorEnergy_eq (s : Finset (Fin n × Fin k)) :
    colorEnergy a b R s =
      a * ∑ v, ((colorsOf s v : Rat) - 1) ^ 2 + b * clashes R s - a * n := by
  have hnodes : ∑ x ∈ s, ∑ y ∈ s, (if x.1 = y.1 then a else 0) =
      a * ∑ v, (colorsOf s v : Rat) ^ 2 := sum_sum_eq_image a s Prod.fst
  have hself : ∑ x ∈ s, ∑ y ∈ s, (if x = y then 2 * a else 0) = 2 * a * s.card := by
    have hone : ∀ x ∈ s, ∑ y ∈ s, (if x = y then 2 * a else 0) = 2 * a := by
      intro x hx
      rw [sum_ite_eq, if_pos hx]
    rw [sum_congr rfl hone, sum_const, nsmul_eq_mul]
    ring
  simp only [colorEnergy, pairSum, colorCoupling, sum_add_distrib, sum_sub_distrib]
  rw [hnodes, hself, sum_sum_ite_eq_relatedPairs, sum_deviation (sum_colorsOf s), clashes]
  ring

/-! ## Colorings -/

/-- The pairs in which every node has the color that `κ` says. -/
def colored (κ : Fin n → Fin k) : Finset (Fin n × Fin k) := univ.image fun v => (v, κ v)

/-- The variables of a colouring. -/
theorem mem_colored {κ : Fin n → Fin k} {x : Fin n × Fin k} : x ∈ colored κ ↔ κ x.1 = x.2 := by
  obtain ⟨v, q⟩ := x
  simp [colored]

/-- One color for each node: a coloring. -/
theorem colorsOf_eq_one_iff {s : Finset (Fin n × Fin k)} :
    (∀ v, colorsOf s v = 1) ↔ ∃ κ, s = colored κ := by
  constructor
  · intro hone
    choose x hx using fun v => card_eq_one.1 (hone v)
    refine ⟨fun v => (x v).2, Finset.ext fun y => ?_⟩
    have hmem : y ∈ s ↔ y = x y.1 := by
      rw [← mem_singleton, ← hx, mem_filter, and_iff_left rfl]
    have hx' : x y.1 ∈ s.filter fun z => z.1 = y.1 := by
      rw [hx]
      exact mem_singleton_self _
    rw [hmem, mem_colored, Prod.ext_iff, (mem_filter.1 hx').2, and_iff_right rfl, eq_comm]
  · rintro ⟨κ, rfl⟩ v
    rw [colorsOf, card_eq_one]
    refine ⟨(v, κ v), Finset.ext fun x => ?_⟩
    rw [mem_filter, mem_colored, mem_singleton, Prod.ext_iff]
    constructor
    · rintro ⟨hcolor, rfl⟩
      exact ⟨rfl, hcolor.symm⟩
    · rintro ⟨rfl, hcolor⟩
      exact ⟨hcolor.symm, rfl⟩

/-- Nodes that clash have different colors. -/
def ClashFree (κ : Fin n → Fin k) : Prop := ∀ v w, R v w → κ v ≠ κ w

variable {a b R}

/-- A colouring clashes nowhere if related nodes differ. -/
theorem clashes_colored_eq_zero_iff (hR : ∀ v w, R v w → R w v) {κ : Fin n → Fin k} :
    clashes R (colored κ) = 0 ↔ ClashFree R κ := by
  simp only [clashes, relatedPairs_eq_zero_iff, mem_colored, not_and]
  constructor
  · intro h v w hclash hcolor
    rcases le_total v w with hle | hle
    · exact h (v, κ v) rfl (w, κ w) rfl hcolor hle hclash
    · exact h (w, κ w) rfl (v, κ v) rfl hcolor.symm hle (hR v w hclash)
  · intro h x hx y hy hcolor _ hclash
    exact h x.1 y.1 hclash (hx.trans (hcolor.trans hy.symm))

/-- No set of pairs has less energy than one color for each node, without a clash. -/
theorem colorEnergy_ge (ha : 0 ≤ a) (hb : 0 ≤ b) (s : Finset (Fin n × Fin k)) :
    -a * n ≤ colorEnergy a b R s := by
  have hdev := mul_nonneg ha (sum_deviation_nonneg (colorsOf s))
  have hclashes := mul_nonneg hb (Nat.cast_nonneg (α := Rat) (clashes R s))
  rw [colorEnergy_eq]
  linarith

/-- And only such colorings have as little. -/
theorem colorEnergy_eq_least_iff (ha : 0 < a) (hb : 0 < b) (hR : ∀ v w, R v w → R w v)
    {s : Finset (Fin n × Fin k)} :
    colorEnergy a b R s = -a * n ↔ ∃ κ, s = colored κ ∧ ClashFree R κ := by
  constructor
  · intro h
    have hdev := mul_nonneg ha.le (sum_deviation_nonneg (colorsOf s))
    have hclashes := mul_nonneg hb.le (Nat.cast_nonneg (α := Rat) (clashes R s))
    rw [colorEnergy_eq] at h
    have hone : ∑ v, ((colorsOf s v : Rat) - 1) ^ 2 = 0 :=
      (mul_eq_zero.1 (le_antisymm (by linarith) hdev)).resolve_left ha.ne'
    have hnone : (clashes R s : Rat) = 0 :=
      (mul_eq_zero.1 (le_antisymm (by linarith) hclashes)).resolve_left hb.ne'
    obtain ⟨κ, rfl⟩ := colorsOf_eq_one_iff.1 (sum_deviation_eq_zero_iff.1 hone)
    exact ⟨κ, rfl, (clashes_colored_eq_zero_iff hR).1 (Nat.cast_eq_zero.1 hnone)⟩
  · rintro ⟨κ, rfl, hfree⟩
    rw [colorEnergy_eq, sum_deviation_eq_zero_iff.2 (colorsOf_eq_one_iff.2 ⟨κ, rfl⟩),
      (clashes_colored_eq_zero_iff hR).2 hfree]
    push_cast
    ring

end Energy

/-! ## Assignments -/

section Assignments

variable {n k : Nat}

/-- The assignment gives every node one color, namely `κ` of it. -/
def Colors (bits : List Bool) (κ : Fin n → Fin k) : Prop :=
  bits.length = n * k ∧ ∀ (v : Fin n) (q : Fin k),
    bits[Variable.number ⟨v, q⟩ k]? = some true ↔ κ v = q

instance (bits : List Bool) (κ : Fin n → Fin k) : Decidable (Colors bits κ) :=
  inferInstanceAs (Decidable (_ ∧ _))

/-- An assignment is a colouring if it occupies just its variables. -/
theorem colors_iff {bits : List Bool} {κ : Fin n → Fin k} :
    Colors bits κ ↔ bits.length = n * k ∧ occupied n k bits = colored κ := by
  simp only [Colors, Finset.ext_iff, occupied, mem_filter, mem_univ, true_and, mem_colored,
    Prod.forall]

namespace Matrix.Measures

variable {m : Matrix Rat} {a b : Rat} {R : Fin n → Fin n → Prop} [DecidableRel R]

/-- Where a matrix measures color energies, no assignment lies below the bound, and those on
it encode the colorings without a clash. -/
theorem exists_color_energy (h : m.Measures (colorEnergy (k := k) a b R)) (ha : 0 < a)
    (hb : 0 < b) (hR : ∀ v w, R v w → R w v) (bits : List Bool) (hlen : bits.length = n * k) :
    ∃ e, m.energy bits = .ok e ∧ -a * n ≤ e ∧
      (e = -a * n ↔ ∃ κ : Fin n → Fin k, Colors bits κ ∧ ClashFree R κ) := by
  refine ⟨_, h.energy bits hlen, colorEnergy_ge ha.le hb.le _, ?_⟩
  rw [colorEnergy_eq_least_iff ha hb hR]
  refine exists_congr fun κ => ?_
  rw [colors_iff, and_iff_right hlen]

/-- The bound is the least energy if and only if there is a coloring without a clash. -/
theorem exists_ground_iff (h : m.Measures (colorEnergy (k := k) a b R)) (ha : 0 < a)
    (hb : 0 < b) (hR : ∀ v w, R v w → R w v) :
    (∃ bits, m.IsGround bits ∧ m.energy bits = .ok (-a * n)) ↔
      ∃ κ : Fin n → Fin k, ClashFree R κ := by
  constructor
  · rintro ⟨bits, -, henergy⟩
    obtain ⟨-, hleast⟩ := h.energy_eq_ok_iff.1 henergy
    obtain ⟨κ, -, hfree⟩ := (colorEnergy_eq_least_iff ha hb hR).1 hleast
    exact ⟨κ, hfree⟩
  · rintro ⟨κ, hfree⟩
    have hleast := (colorEnergy_eq_least_iff ha hb hR).2 ⟨κ, rfl, hfree⟩
    refine ⟨bitsOf (colored κ), h.isGround_iff.2 ⟨length_bitsOf _, fun s => ?_⟩,
      h.energy_eq_ok_iff.2 ⟨length_bitsOf _, ?_⟩⟩
    · rw [occupied_bitsOf, hleast]
      exact colorEnergy_ge ha.le hb.le s
    · rw [occupied_bitsOf, hleast]

end Matrix.Measures

end Assignments

/-! ## From the problem to the energy -/

/-- A placement that rewards a color of a node with `a`, punishes two of them with `2·a`, and
with `b` two nodes of one color that clash. -/
structure Placement.IsColoring (s : Placement) (g : Graph Rat) (a b : Rat)
    (R : Nat → Nat → Prop) [DecidableRel R] : Prop where
  reward_pos : 0 < a
  clash_pos : 0 < b
  repeated : s.repeated = 2 * a
  bond : ∀ v w, s.bond g v w = (if v = w then -a else 0) + if R v w then b else 0
  symm : ∀ v w, R v w → R w v

section

variable {s : Placement} {a b : Rat} {R : Nat → Nat → Prop} [DecidableRel R]

/-- A placement that colours has the energy of colourings. -/
theorem energyOf_eq_colorEnergy {l : Layout Rat} {c : Constraints Rat} (hc : c.IsPlacement s)
    (hs : s.IsColoring l.graph a b R) (X : Finset (Fin l.graph.nodeCount × Fin l.positions)) :
    l.energyOf c X = colorEnergy a b (fun v w => R v w) X := by
  refine pairSum_congr (fun x y => ?_) X
  obtain ⟨v, q⟩ := x
  obtain ⟨w, r⟩ := y
  simp only [meaning_placement hc, hs.repeated, hs.bond, colorCoupling, Prod.mk.injEq,
    Fin.val_inj, Fin.le_def]
  by_cases hqr : q = r
  · subst hqr
    by_cases hvw : v = w
    · subst hvw
      simp only [le_refl, true_and, and_self, if_true]
      ring
    · have hwv : ¬w = v := fun h => hvw h.symm
      simp only [hvw, hwv, false_and, true_and, if_true, if_false, zero_add, sub_zero, ite_and]
  · have hrq : ¬r = q := fun h => hqr h.symm
    by_cases hvw : v = w
    · subst hvw
      rcases Nat.lt_or_gt_of_ne (Fin.val_ne_of_ne hqr) with hlt | hlt
      · simp only [hqr, hrq, hlt, hlt.not_gt, false_and, and_false, true_and, if_true, if_false]
        ring
      · simp only [hqr, hrq, hlt, hlt.not_gt, false_and, and_false, true_and, if_true, if_false]
        ring
    · have hwv : ¬w = v := fun h => hvw h.symm
      simp [hqr, hrq, hvw, hwv]

/-- With a color and room, such a problem compiles to a matrix that measures color energies. -/
theorem exists_colorMatrix {g : Graph Rat} {p : Problem Rat} (h : p.placement? g = some s)
    (hs : s.IsColoring g a b R) (hpos : 0 < p.positions g) (hfits : g.Fits (p.positions g)) :
    ∃ m, p.toMatrix g = .ok m ∧ m.Measures (n := g.nodeCount) (P := p.positions g)
      (colorEnergy a b fun v w => R v w) := by
  obtain ⟨c, plan, hconf, hc, hplan⟩ := Problem.exists_plan_placement h hpos hfits
  obtain ⟨m, hm, hmeasures⟩ := exists_measures hplan
  refine ⟨m, ?_, ?_⟩
  · rw [Problem.toMatrix, hconf]
    exact hm
  · rwa [funext (energyOf_eq_colorEnergy hc hs)] at hmeasures

end

/-! ## Joined nodes apart -/

/-- Nodes that an edge joins, either way, have different colors; a node with a loop can have
none. -/
def Graph.IsProperColoring (g : Graph Rat) {k : Nat} (κ : Fin g.nodeCount → Fin k) : Prop :=
  ∀ v w : Fin g.nodeCount, g.Joined v w → κ v ≠ κ w

instance (g : Graph Rat) {k : Nat} (κ : Fin g.nodeCount → Fin k) :
    Decidable (g.IsProperColoring κ) := inferInstanceAs (Decidable (∀ _, _))

theorem isColoring_graphColoring (g : Graph Rat) :
    Placement.IsColoring { placed := -4, repeated := 8, joined := 4 } g 4 4 g.Joined where
  reward_pos := by norm_num
  clash_pos := by norm_num
  repeated := by norm_num
  bond v w := by
    by_cases hvw : v = w
    · simp [Placement.bond, Placement.own, hvw]
    · simp [Placement.bond, Placement.coupling, hvw]
  symm _ _ := Graph.Joined.symm

/-- No assignment of the coloring problem has an energy below `-4·n`, and those that have it
encode the proper colorings; so it is the least energy if and only if there is one. -/
theorem graphColoring_energy {g : Graph Rat} {colors : Nat} (hpos : 0 < colors)
    (hfits : g.Fits colors) :
    ∃ m, (Problem.graphColoring colors).toMatrix g = .ok m ∧
      m.dimension = g.nodeCount * colors ∧
      (∀ bits, bits.length = g.nodeCount * colors →
        ∃ e, m.energy bits = .ok e ∧ -4 * (g.nodeCount : Rat) ≤ e ∧
          (e = -4 * (g.nodeCount : Rat) ↔
            ∃ κ : Fin g.nodeCount → Fin colors, Colors bits κ ∧ g.IsProperColoring κ)) ∧
      ((∃ bits, m.IsGround bits ∧ m.energy bits = .ok (-4 * (g.nodeCount : Rat))) ↔
        ∃ κ : Fin g.nodeCount → Fin colors, g.IsProperColoring κ) := by
  have hs := isColoring_graphColoring g
  obtain ⟨m, hm, hmeasures⟩ :=
    exists_colorMatrix (p := .graphColoring colors) rfl hs hpos hfits
  have hsymm : ∀ v w : Fin g.nodeCount, g.Joined v w → g.Joined w v := fun v w => hs.symm v w
  exact ⟨m, hm, hmeasures.dimension,
    hmeasures.exists_color_energy hs.reward_pos hs.clash_pos hsymm,
    hmeasures.exists_ground_iff hs.reward_pos hs.clash_pos hsymm⟩

/-- Two nodes with an arc each way, and a third one apart. -/
def Graph.pairAndOne : Graph Rat where
  directed := true
  nodeCount := 3
  edges := [⟨0, 1, none⟩, ⟨1, 0, none⟩]
  nodeCount_lt := Graph.three_lt_nodeLimit
  sorted := by decide
  bounded := by decide
  oriented := by decide
  weighted := by simp

/-- Two colors are enough for the three nodes, but not for the pair to share one. -/
theorem graphColoring_energy_pairAndOne :
    ∃ m, (Problem.graphColoring 2).toMatrix .pairAndOne = .ok m ∧
      m.energy [true, false, false, true, true, false] = .ok (-12) ∧
      ∀ e, m.energy [true, false, true, false, false, true] = .ok e → -12 < e := by
  obtain ⟨m, hm, -, henergy, -⟩ :=
    graphColoring_energy (g := .pairAndOne) Nat.two_pos (by decide)
  have hbound : -4 * (Graph.pairAndOne.nodeCount : Rat) = -12 := by norm_num [Graph.pairAndOne]
  rw [hbound] at henergy
  refine ⟨m, hm, Matrix.energy_eq_of_met (henergy _ rfl) ?_, fun e he =>
    Matrix.lt_of_energy_eq_ok (henergy _ rfl) (by decide) he⟩
  exact ⟨fun v => if (v : Nat) = 1 then 1 else 0, by decide, by decide⟩

/-! ## Strangers apart -/

/-- Different nodes of one color are joined by an edge, at least one way. -/
def Graph.IsCliqueColoring (g : Graph Rat) {k : Nat} (κ : Fin g.nodeCount → Fin k) : Prop :=
  ∀ v w : Fin g.nodeCount, v ≠ w → κ v = κ w → g.Joined v w

instance (g : Graph Rat) {k : Nat} (κ : Fin g.nodeCount → Fin k) :
    Decidable (g.IsCliqueColoring κ) := inferInstanceAs (Decidable (∀ _, _))

/-- Two different nodes that no edge joins. -/
def Graph.Strange (g : Graph Rat) (v w : Nat) : Prop := v ≠ w ∧ ¬g.Joined v w

instance (g : Graph Rat) (v w : Nat) : Decidable (g.Strange v w) :=
  inferInstanceAs (Decidable (_ ∧ _))

theorem Graph.clashFree_strange_iff {g : Graph Rat} {k : Nat} {κ : Fin g.nodeCount → Fin k} :
    ClashFree (fun v w : Fin g.nodeCount => g.Strange v w) κ ↔ g.IsCliqueColoring κ := by
  refine forall₂_congr fun v w => ?_
  simp only [Graph.Strange, ne_eq, Fin.val_inj, and_imp, not_imp_not]

theorem isColoring_cliqueCover (g : Graph Rat) :
    Placement.IsColoring { placed := -1, repeated := 2, apart := 2 } g 1 2 g.Strange where
  reward_pos := one_pos
  clash_pos := two_pos
  repeated := (mul_one 2).symm
  bond v w := by
    by_cases hvw : v = w
    · simp [Placement.bond, Placement.own, Graph.Strange, hvw]
    · simp [Placement.bond, Placement.coupling, Graph.Strange, hvw]
  symm _ _ h := ⟨h.1.symm, fun hj => h.2 hj.symm⟩

/-- No assignment of the clique cover problem has an energy below `-n`, and those that have it
encode the colorings in which all nodes of one color are joined. -/
theorem cliqueCover_energy {g : Graph Rat} {colors : Nat} (hpos : 0 < colors)
    (hfits : g.Fits colors) :
    ∃ m, (Problem.cliqueCover colors).toMatrix g = .ok m ∧
      m.dimension = g.nodeCount * colors ∧
      (∀ bits, bits.length = g.nodeCount * colors →
        ∃ e, m.energy bits = .ok e ∧ -(g.nodeCount : Rat) ≤ e ∧
          (e = -(g.nodeCount : Rat) ↔
            ∃ κ : Fin g.nodeCount → Fin colors, Colors bits κ ∧ g.IsCliqueColoring κ)) ∧
      ((∃ bits, m.IsGround bits ∧ m.energy bits = .ok (-(g.nodeCount : Rat))) ↔
        ∃ κ : Fin g.nodeCount → Fin colors, g.IsCliqueColoring κ) := by
  have hs := isColoring_cliqueCover g
  obtain ⟨m, hm, hmeasures⟩ := exists_colorMatrix (p := .cliqueCover colors) rfl hs hpos hfits
  have hsymm : ∀ v w : Fin g.nodeCount, g.Strange v w → g.Strange w v := fun v w => hs.symm v w
  have henergy := hmeasures.exists_color_energy hs.reward_pos hs.clash_pos hsymm
  have hground := hmeasures.exists_ground_iff hs.reward_pos hs.clash_pos hsymm
  simp only [neg_one_mul, Graph.clashFree_strange_iff] at henergy hground
  exact ⟨m, hm, hmeasures.dimension, henergy, hground⟩

/-- One color covers the pair, whichever arc joins it, but not the third node. -/
theorem cliqueCover_energy_pairAndOne :
    ∃ m, (Problem.cliqueCover 2).toMatrix .pairAndOne = .ok m ∧
      m.energy [true, false, true, false, false, true] = .ok (-3) ∧
      ∀ e, m.energy [true, false, false, true, true, false] = .ok e → -3 < e := by
  obtain ⟨m, hm, -, henergy, -⟩ :=
    cliqueCover_energy (g := .pairAndOne) Nat.two_pos (by decide)
  have hbound : -(Graph.pairAndOne.nodeCount : Rat) = -3 := by norm_num [Graph.pairAndOne]
  rw [hbound] at henergy
  refine ⟨m, hm, Matrix.energy_eq_of_met (henergy _ rfl) ?_, fun e he =>
    Matrix.lt_of_energy_eq_ok (henergy _ rfl) (by decide) he⟩
  exact ⟨fun v => if (v : Nat) = 2 then 1 else 0, by decide, by decide⟩

end GraphQubo
