import GraphQubo.Proofs.Problem.PathSequences

/-!
# GraphQubo.Proofs.Problem.LongestPath

What the assignments of least energy say in the longest path problem.

The energy sees a step only if it ascends to a larger node.  A step that descends needs no
edge and earns no weight, so what is found with three steps or more is a route, a sequence
of different nodes between the two ends, whose ascending steps run along edges with as much
weight as possible.  This is a heaviest path only where every such route is one; on a line
that is walked downwards it is not.  With one or two steps not even a route needs to be
found.

* `longestPath_isGround` — what is found with three steps or more;
* `not_findsHeaviestPath_line` — a line that is walked downwards;
* `not_findsHeaviestPath_square` — one step and two steps.
-/

namespace GraphQubo

open Finset

namespace Graph

variable (g : Graph Rat) {steps : Nat} (s t : Fin g.nodeCount)
  (π : Fin (steps + 1) → Fin g.nodeCount)

/-- A route with every step along an edge. -/
structure IsSimplePath : Prop extends IsRoute s t π where
  arcs : ∀ i : Fin steps, g.Arc (π i.castSucc) (π i.succ)

instance : Decidable (g.IsSimplePath s t π) :=
  decidable_of_iff (IsRoute s t π ∧ ∀ i : Fin steps, g.Arc (π i.castSucc) (π i.succ))
    ⟨fun h => ⟨h.1, h.2⟩, fun h => ⟨h.toIsRoute, h.arcs⟩⟩

/-- The weight of all steps. -/
def pathWeight : Rat := ∑ i : Fin steps, g.arcWeight (π i.castSucc) (π i.succ)

/-- A simple path, and none weighs more. -/
def IsHeaviestPath : Prop :=
  g.IsSimplePath s t π ∧
    ∀ τ : Fin (steps + 1) → Fin g.nodeCount, g.IsSimplePath s t τ → g.pathWeight τ ≤ g.pathWeight π

/-- A route with its ascending steps along edges. -/
structure PassesAsPath : Prop extends IsRoute s t π where
  arcs : ∀ i : Fin steps, π i.castSucc < π i.succ → g.Arc (π i.castSucc) (π i.succ)

instance : Decidable (g.PassesAsPath s t π) :=
  decidable_of_iff (IsRoute s t π ∧
    ∀ i : Fin steps, π i.castSucc < π i.succ → g.Arc (π i.castSucc) (π i.succ))
    ⟨fun h => ⟨h.1, h.2⟩, fun h => ⟨h.toIsRoute, h.arcs⟩⟩

/-- The weight of the ascending steps. -/
def ascent : Rat :=
  ∑ i : Fin steps, if π i.castSucc < π i.succ then g.arcWeight (π i.castSucc) (π i.succ) else 0

/-- It passes as a path, and none that does ascends by more weight. -/
def IsHighestAscent : Prop :=
  g.PassesAsPath s t π ∧
    ∀ τ : Fin (steps + 1) → Fin g.nodeCount, g.PassesAsPath s t τ → g.ascent τ ≤ g.ascent π

instance : Decidable (g.IsHeaviestPath s t π) := inferInstanceAs (Decidable (_ ∧ ∀ _, _ → _))

instance : Decidable (g.IsHighestAscent s t π) := inferInstanceAs (Decidable (_ ∧ ∀ _, _ → _))

variable (steps) in
/-- Over the matrix, every assignment of least energy encodes a heaviest path. -/
def FindsHeaviestPath (m : Matrix Rat) : Prop :=
  ∀ bits, m.IsGround bits →
    ∃ π : Fin (steps + 1) → Fin g.nodeCount, Encodes bits π ∧ g.IsHeaviestPath s t π

end Graph

/-! ## Scores and paths -/

section Score

variable {g : Graph Rat} {a W : Rat} {steps : Nat} {s t : Fin g.nodeCount}
  {π : Fin (steps + 1) → Fin g.nodeCount}

/-- The scores of a path configuration are either a weight or the full penalty. -/
theorem isStepScore_stepScore (ha : 0 ≤ a) (hW : 0 ≤ W) (hmax : ∀ v w, g.arcWeight v w ≤ W)
    (hpos : ∀ v w, g.Arc v w → 0 < g.arcWeight v w) :
    IsStepScore a W fun v w : Fin g.nodeCount => g.stepScore a v w where
  ge v w := by
    have hle := hmax v w
    unfold Graph.stepScore
    split_ifs <;> linarith
  stays v := by simp [Graph.stepScore]
  ascends v w hvw := by
    have hlt : (v : Nat) < w := hvw
    by_cases harc : g.Arc v w
    · simp [Graph.stepScore, hlt, harc, hpos v w harc]
    · simp [Graph.stepScore, hlt, harc]
  descends v w hwv := by
    have hlt : ¬(v : Nat) < w := not_lt.2 hwv.le
    have hne : ¬(v : Nat) = w := fun h => hwv.ne' (Fin.ext h)
    simp [Graph.stepScore, hlt, hne]

/-- A step between two nodes is free or earns if it runs along an edge or descends. -/
theorem stepScore_nonpos_iff (ha : 0 < a) {v w : Fin g.nodeCount} (hvw : v ≠ w) :
    g.stepScore a v w ≤ 0 ↔ (v < w → g.Arc v w) := by
  have hne : ¬(v : Nat) = w := fun h => hvw (Fin.ext h)
  rw [Graph.stepScore, Fin.lt_def]
  by_cases hlt : (v : Nat) < w
  · by_cases harc : g.Arc v w
    · simp [hlt, harc, g.arcWeight_nonneg]
    · simp [hlt, harc, ha]
  · simp [hlt, hne]

theorem castSucc_ne_of_injective (h : Function.Injective π) (i : Fin steps) :
    π i.castSucc ≠ π i.succ := fun heq => Fin.castSucc_lt_succ.ne (h heq)

/-- The admissible sequences are those that pass as paths. -/
theorem admissible_iff (ha : 0 < a) :
    Admissible s t (fun v w => g.stepScore a v w) π ↔ g.PassesAsPath s t π := by
  constructor
  · rintro ⟨hroute, hfree⟩
    exact ⟨hroute, fun i =>
      (stepScore_nonpos_iff ha (castSucc_ne_of_injective hroute.injective i)).1 (hfree i)⟩
  · rintro ⟨hroute, harcs⟩
    exact ⟨hroute, fun i =>
      (stepScore_nonpos_iff ha (castSucc_ne_of_injective hroute.injective i)).2 (harcs i)⟩

/-- A sequence that passes as a path scores what it climbs. -/
theorem walkScore_eq (h : g.PassesAsPath s t π) :
    walkScore (fun v w => g.stepScore a v w) π = -g.ascent π := by
  rw [walkScore, Graph.ascent, ← sum_neg_distrib]
  refine sum_congr rfl fun i _ => ?_
  have hne : ¬(π i.castSucc : Nat) = π i.succ := fun heq =>
    castSucc_ne_of_injective h.injective i (Fin.ext heq)
  by_cases hlt : π i.castSucc < π i.succ
  · have hlt' : (π i.castSucc : Nat) < π i.succ := hlt
    simp [Graph.stepScore, hlt, hlt', h.arcs i hlt]
  · have hlt' : ¬(π i.castSucc : Nat) < π i.succ := hlt
    simp [Graph.stepScore, hlt, hlt', hne]

/-- A simple path passes as one. -/
theorem Graph.IsSimplePath.passes (h : g.IsSimplePath s t π) : g.PassesAsPath s t π :=
  ⟨h.toIsRoute, fun i _ => h.arcs i⟩

end Score

/-! ## The problem -/

/-- With three steps or more, the assignments of least energy encode the routes that pass
as a path with the highest ascent.  So a heaviest path is found if and only if every one of
these is a heaviest path. -/
theorem longestPath_isGround {g : Graph Rat} {steps : Nat} {s t : Fin g.nodeCount}
    (hsteps : 3 ≤ steps) (hfits : g.Fits (steps + 1)) (hloops : ∀ v : Fin g.nodeCount, ¬g.Arc v v)
    (hweights : ∀ e ∈ g.edges, ∃ w, e.weight = some w ∧ 0 < w) (hst : s ≠ t)
    (hpath : ∃ π : Fin (steps + 1) → Fin g.nodeCount, g.IsSimplePath s t π) :
    ∃ W m, g.maxWeight = .ok W ∧ (Problem.longestPath s t steps).toMatrix g = .ok m ∧
      m.dimension = g.nodeCount * (steps + 1) ∧
      (∀ bits, m.IsGround bits ↔ ∃ π : Fin (steps + 1) → Fin g.nodeCount,
        Encodes bits π ∧ g.IsHighestAscent s t π) ∧
      (∀ bits (π : Fin (steps + 1) → Fin g.nodeCount), Encodes bits π → g.PassesAsPath s t π →
        m.energy bits = .ok (-g.ascent π - steps * W * (steps + 3))) ∧
      (g.FindsHeaviestPath steps s t m ↔ ∀ π : Fin (steps + 1) → Fin g.nodeCount,
        g.IsHighestAscent s t π → g.IsHeaviestPath s t π) := by
  have hfull : g.FullyWeighted := fun e he => (hweights e he).imp fun _ h => h.1
  obtain ⟨W, hW, hWnonneg, hmax⟩ := Graph.exists_maxWeight hfull
  have hpos : ∀ v w, g.Arc v w → 0 < g.arcWeight v w := fun _ _ => Graph.arcWeight_pos hweights
  obtain ⟨π₀, hπ₀⟩ := hpath
  have hWpos : 0 < W := (hpos _ _ (hπ₀.arcs ⟨0, by omega⟩)).trans_le (hmax _ _)
  have ha : 0 < (steps : Rat) * W := mul_pos (Nat.cast_pos.2 (by omega)) hWpos
  have hscore := isStepScore_stepScore ha.le hWnonneg hmax hpos
  have hadm₀ := (admissible_iff ha).2 hπ₀.passes
  obtain ⟨m, hm, hmeasures⟩ := exists_pathMatrix s t hfits hloops hfull hW
  have hground : ∀ bits, m.IsGround bits ↔ ∃ π : Fin (steps + 1) → Fin g.nodeCount,
      Encodes bits π ∧ g.IsHighestAscent s t π := by
    intro bits
    rw [hmeasures.isGround_iff, least_iff_admissible hsteps hWpos hst hscore hadm₀]
    simp only [admissible_iff ha, encodes_iff, Graph.IsHighestAscent, ← exists_and_left, and_assoc]
    refine exists_congr fun π => and_congr_right fun _ => and_congr_right fun _ =>
      and_congr_right fun hπ => forall₂_congr fun τ hτ => ?_
    rw [walkScore_eq hπ, walkScore_eq hτ, neg_le_neg_iff]
  refine ⟨W, m, hW, hm, hmeasures.dimension, hground, fun bits π henc hπ => ?_, fun h π hπ => ?_,
    fun h bits hbits => ?_⟩
  · obtain ⟨hlen, hset⟩ := encodes_iff.1 henc
    rw [hmeasures.energy bits hlen, hset, ((admissible_iff ha).2 hπ).pathEnergy_eq,
      walkScore_eq hπ]
  · obtain ⟨τ, henc, hτ⟩ := h _ ((hground _).2 ⟨π, encodes_bitsOf π, hπ⟩)
    rwa [henc.unique (encodes_bitsOf π)] at hτ
  · obtain ⟨π, henc, hπ⟩ := (hground bits).1 hbits
    exact ⟨π, henc, h π hπ⟩

/-- Four nodes in a line. -/
def Graph.line : Graph Rat where
  directed := false
  nodeCount := 4
  edges := [⟨0, 1, some 1⟩, ⟨1, 2, some 1⟩, ⟨2, 3, some 1⟩]
  nodeCount_lt := by decide
  sorted := by decide
  bounded := by decide
  oriented := by decide
  weighted := Graph.weighted_of_all (by decide)

/-- Walked upwards, the line is found. -/
theorem longestPath_isGround_line :
    ∃ m, (Problem.longestPath 0 3 3).toMatrix .line = .ok m ∧
      Graph.line.FindsHeaviestPath 3 ⟨0, by decide⟩ ⟨3, by decide⟩ m := by
  have hpath : Graph.line.IsSimplePath ⟨0, by decide⟩ ⟨3, by decide⟩
      (![⟨0, by decide⟩, ⟨1, by decide⟩, ⟨2, by decide⟩, ⟨3, by decide⟩] : Fin (3 + 1) → _) := by
    decide
  obtain ⟨W, m, -, hm, -, -, -, hiff⟩ := longestPath_isGround (g := .line) (le_refl 3) (by decide)
    (by decide) (by decide) (by decide) ⟨_, hpath⟩
  exact ⟨m, hm, hiff.2 (by decide +kernel)⟩

/-! ## Where no heaviest path is found -/

/-- Four nodes, every two of them joined. -/
def Graph.square : Graph Rat where
  directed := false
  nodeCount := 4
  edges := [⟨0, 1, some 1⟩, ⟨0, 2, some 1⟩, ⟨0, 3, some 1⟩, ⟨1, 2, some 1⟩, ⟨1, 3, some 1⟩,
    ⟨2, 3, some 1⟩]
  nodeCount_lt := by decide
  sorted := by decide
  bounded := by decide
  oriented := by decide
  weighted := Graph.weighted_of_all (by decide)

/-- A set that no simple path encodes, with no more energy than any of them. -/
theorem not_findsHeaviestPath_of_le {g : Graph Rat} {steps : Nat} {s t : Fin g.nodeCount}
    {m : Matrix Rat} {energyOf : Finset (Fin g.nodeCount × Fin (steps + 1)) → Rat}
    (hm : m.Measures energyOf) (X : Finset (Fin g.nodeCount × Fin (steps + 1)))
    (hX : ∀ π, g.IsSimplePath s t π → X ≠ placement π)
    (hle : ∀ π, g.IsSimplePath s t π → energyOf X ≤ energyOf (placement π)) :
    ¬g.FindsHeaviestPath steps s t m := by
  have hground : ∀ Y, (∀ Z, energyOf Y ≤ energyOf Z) → m.IsGround (bitsOf Y) := by
    intro Y hY
    rw [hm.isGround_iff, occupied_bitsOf]
    exact ⟨length_bitsOf Y, hY⟩
  intro hfinds
  have hencoded : ∀ Y, (∀ Z, energyOf Y ≤ energyOf Z) →
      ∃ π, g.IsSimplePath s t π ∧ Y = placement π := by
    intro Y hY
    obtain ⟨π, henc, hπ, -⟩ := hfinds _ (hground Y hY)
    exact ⟨π, hπ, by rw [← (encodes_iff.1 henc).2, occupied_bitsOf]⟩
  obtain ⟨Y, -, hY⟩ := exists_min_image univ energyOf ⟨∅, mem_univ _⟩
  obtain ⟨π, hπ, rfl⟩ := hencoded Y fun Z => hY Z (mem_univ Z)
  obtain ⟨τ, hτ, heq⟩ := hencoded X fun Z => (hle π hπ).trans (hY Z (mem_univ Z))
  exact hX τ hτ heq

/-- Walked downwards, the line is not found: to step up from 1 to 2 earns more. -/
theorem not_findsHeaviestPath_line :
    Graph.line.directed = false ∧
      (∃ π : Fin (3 + 1) → _, Graph.line.IsSimplePath ⟨3, by decide⟩ ⟨0, by decide⟩ π) ∧
      ∃ m, (Problem.longestPath 3 0 3).toMatrix .line = .ok m ∧
        ¬Graph.line.FindsHeaviestPath 3 ⟨3, by decide⟩ ⟨0, by decide⟩ m := by
  have hpath : Graph.line.IsSimplePath ⟨3, by decide⟩ ⟨0, by decide⟩
      (![⟨3, by decide⟩, ⟨2, by decide⟩, ⟨1, by decide⟩, ⟨0, by decide⟩] : Fin (3 + 1) → _) := by
    decide
  have hfits : Graph.line.Fits (3 + 1) := by decide
  obtain ⟨m, hm, hmeasures⟩ := exists_pathMatrix (g := .line) (W := 1) ⟨3, by decide⟩
    ⟨0, by decide⟩ hfits (by decide) (by decide) rfl
  refine ⟨rfl, ⟨_, hpath⟩, m, hm, not_findsHeaviestPath_of_le hmeasures
    (placement ![⟨3, by decide⟩, ⟨1, by decide⟩, ⟨2, by decide⟩, ⟨0, by decide⟩]) ?_ ?_⟩
  · decide +kernel
  · decide +kernel

/-- One step in the square: two nodes at either end earn more than any edge.  Two steps:
two nodes in the middle earn as much as one. -/
theorem not_findsHeaviestPath_square :
    (∃ m, (Problem.longestPath 0 2 1).toMatrix .square = .ok m ∧
      ¬Graph.square.FindsHeaviestPath 1 ⟨0, by decide⟩ ⟨2, by decide⟩ m) ∧
      ∃ m, (Problem.longestPath 0 3 2).toMatrix .square = .ok m ∧
        ¬Graph.square.FindsHeaviestPath 2 ⟨0, by decide⟩ ⟨3, by decide⟩ m := by
  have hfits : Graph.square.Fits (1 + 1) := by decide
  have hfits' : Graph.square.Fits (2 + 1) := by decide
  obtain ⟨m, hm, hmeasures⟩ := exists_pathMatrix (g := .square) (W := 1) ⟨0, by decide⟩
    ⟨2, by decide⟩ hfits (by decide) (by decide) rfl
  obtain ⟨m', hm', hmeasures'⟩ := exists_pathMatrix (g := .square) (W := 1) ⟨0, by decide⟩
    ⟨3, by decide⟩ hfits' (by decide) (by decide) rfl
  refine ⟨⟨m, hm, not_findsHeaviestPath_of_le hmeasures
    {(⟨0, by decide⟩, 0), (⟨1, by decide⟩, 0), (⟨2, by decide⟩, 1), (⟨3, by decide⟩, 1)} ?_ ?_⟩,
    m', hm', not_findsHeaviestPath_of_le hmeasures'
    {(⟨0, by decide⟩, 0), (⟨1, by decide⟩, 1), (⟨2, by decide⟩, 1), (⟨3, by decide⟩, 2)} ?_ ?_⟩
  · decide +kernel
  · decide +kernel
  · decide +kernel
  · decide +kernel

end GraphQubo
