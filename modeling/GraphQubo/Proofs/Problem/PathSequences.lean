import GraphQubo.Proofs.Problem.PathCrowds

/-!
# GraphQubo.Proofs.Problem.PathSequences

The sequences of nodes that have little energy in a path of three steps or more.

Every fault of a sequence, be it a repeated node or a missed end, costs `a = steps · W`, and
its steps earn at most that together.  So a sequence with as little energy as the admissible
ones has no fault — or it climbs all the way and misses one end, and then some admissible
sequence earns as well and has less energy.

* `pathEnergy_eq_faults` — the energy of a sequence by its faults and its steps;
* `admissible_or_climbs` — the sequences of little energy;
* `admissible_or_exists_lt` — all other sets have more energy than some admissible sequence;
* `least_iff_admissible` — the sets of least energy.
-/

namespace GraphQubo

open Finset

section Sequences

variable {n steps : Nat} {a W : Rat} {s t : Fin n} {score : Fin n → Fin n → Rat}

/-! ## Sequences of nodes -/

/-- A sequence of different nodes from one end to the other. -/
structure IsRoute (s t : Fin n) (π : Fin (steps + 1) → Fin n) : Prop where
  injective : Function.Injective π
  first : π 0 = s
  last : π (Fin.last steps) = t

instance (s t : Fin n) (π : Fin (steps + 1) → Fin n) : Decidable (IsRoute s t π) :=
  decidable_of_iff (Function.Injective π ∧ π ⟨0, steps.succ_pos⟩ = s ∧ π (Fin.last steps) = t)
    ⟨fun ⟨hinj, hfirst, hlast⟩ => ⟨hinj, hfirst, hlast⟩,
      fun ⟨hinj, hfirst, hlast⟩ => ⟨hinj, hfirst, hlast⟩⟩

variable (score s t) in
/-- A route without a violating step. -/
structure Admissible (π : Fin (steps + 1) → Fin n) : Prop extends IsRoute s t π where
  free : ∀ i : Fin steps, score (π i.castSucc) (π i.succ) ≤ 0

variable (score) in
/-- Every step of the sequence earns something. -/
def Climbs (π : Fin (steps + 1) → Fin n) : Prop :=
  ∀ i : Fin steps, score (π i.castSucc) (π i.succ) < 0

/-- A sequence that climbs is increasing. -/
theorem Climbs.strictMono (hscore : IsStepScore a W score) (ha : 0 ≤ a)
    {π : Fin (steps + 1) → Fin n} (h : Climbs score π) : StrictMono π := by
  rw [Fin.strictMono_iff_lt_succ]
  intro i
  have hearns := h i
  rcases lt_trichotomy (π i.castSucc) (π i.succ) with hlt | heq | hgt
  · exact hlt
  · rw [heq, hscore.stays] at hearns
    exact absurd hearns (not_lt.2 ha)
  · rw [hscore.descends _ _ hgt] at hearns
    exact absurd hearns (lt_irrefl 0)

/-- All other steps earn at most `W` each. -/
theorem le_walkScore (hscore : IsStepScore a W score) (π : Fin (steps + 1) → Fin n)
    (i : Fin steps) :
    score (π i.castSucc) (π i.succ) - W * (steps - 1) ≤ walkScore score π := by
  have hothers : ∑ j ∈ univ.erase i, -W ≤
      ∑ j ∈ univ.erase i, score (π j.castSucc) (π j.succ) :=
    sum_le_sum fun j _ => hscore.ge _ _
  have hcard : ((univ.erase i).card : Rat) = steps - 1 := by
    rw [card_erase_of_mem (mem_univ i), card_univ, Fintype.card_fin, Nat.cast_pred i.pos]
  rw [sum_const, nsmul_eq_mul, hcard] at hothers
  rw [walkScore, ← sum_erase_add _ _ (mem_univ i)]
  linarith

/-- A walk earns at most the largest weight at each step. -/
theorem walkScore_ge (hscore : IsStepScore a W score) (π : Fin (steps + 1) → Fin n) :
    -(steps * W) ≤ walkScore score π := by
  have hall : ∑ _i : Fin steps, -W ≤ walkScore score π := sum_le_sum fun j _ => hscore.ge _ _
  rw [sum_const, card_univ, Fintype.card_fin, nsmul_eq_mul] at hall
  linarith

/-! ### Faults -/

variable (s t) in
/-- How many faults a sequence has: repeated nodes and missed ends. -/
def faults (π : Fin (steps + 1) → Fin n) : Nat :=
  repeats (placement π) + (2 - endsHeld s t (placement π))

/-- The energy of a placement counts its faults and scores its walk. -/
theorem pathEnergy_eq_faults (π : Fin (steps + 1) → Fin n) :
    pathEnergy a s t score (placement π) =
      a * faults s t π + walkScore score π - a * (steps + 3) := by
  rw [pathEnergy_placement, faults, Nat.cast_add, Nat.cast_sub (endsHeld_le _)]
  push_cast
  ring

/-- A sequence without faults is a route between the ends. -/
theorem faults_eq_zero_iff {π : Fin (steps + 1) → Fin n} :
    faults s t π = 0 ↔ IsRoute s t π := by
  have hends : 2 - endsHeld s t (placement π) = 0 ↔ π 0 = s ∧ π (Fin.last steps) = t := by
    rw [endsHeld_placement]
    by_cases hfirst : π 0 = s <;> by_cases hlast : π (Fin.last steps) = t <;>
      simp [hfirst, hlast]
  rw [faults, Nat.add_eq_zero_iff, repeats_placement_eq_zero_iff, hends]
  exact ⟨fun ⟨hinj, hfirst, hlast⟩ => ⟨hinj, hfirst, hlast⟩,
    fun h => ⟨h.injective, h.first, h.last⟩⟩

/-- With one fault at most, one of the ends is right. -/
theorem end_of_faults_le_one {π : Fin (steps + 1) → Fin n} (h : faults s t π ≤ 1) :
    π 0 = s ∨ π (Fin.last steps) = t := by
  by_contra hneither
  rw [not_or] at hneither
  rw [faults, endsHeld_placement, if_neg hneither.1, if_neg hneither.2] at h
  omega

/-- The energy of an admissible sequence is the score of its walk, shifted. -/
theorem Admissible.pathEnergy_eq {π : Fin (steps + 1) → Fin n} (h : Admissible s t score π) :
    pathEnergy a s t score (placement π) = walkScore score π - a * (steps + 3) := by
  rw [pathEnergy_eq_faults, faults_eq_zero_iff.2 h.toIsRoute, Nat.cast_zero, mul_zero, zero_add]

/-- A sequence that loses nothing has no violating step: the others cannot make up for it. -/
theorem free_of_nonpos (hW : 0 < W) (hscore : IsStepScore (steps * W) W score)
    {π : Fin (steps + 1) → Fin n} (hle : walkScore score π ≤ 0) (i : Fin steps) :
    score (π i.castSucc) (π i.succ) ≤ 0 := by
  rcases hscore.le_zero_or_eq (π i.castSucc) (π i.succ) with hfree | hviolates
  · exact hfree
  · have hwalk := le_walkScore hscore π i
    rw [hviolates] at hwalk
    linarith

/-- All steps together earn the price of one fault. -/
theorem faults_le_one_of_earned (ha : 0 < (steps : Rat) * W)
    (hscore : IsStepScore (steps * W) W score) {π : Fin (steps + 1) → Fin n}
    (hearned : steps * W * faults s t π ≤ -walkScore score π) : faults s t π ≤ 1 := by
  have hwalk := walkScore_ge hscore π
  have hprice : steps * W * (faults s t π : Rat) ≤ steps * W * 1 := by linarith
  exact_mod_cast le_of_mul_le_mul_left hprice ha

/-- All steps but one earn less than that. -/
theorem faults_eq_zero_of_earned (hW : 0 < W) (ha : 0 < (steps : Rat) * W)
    (hscore : IsStepScore (steps * W) W score) {π : Fin (steps + 1) → Fin n}
    (hearned : steps * W * faults s t π ≤ -walkScore score π) (hclimbs : ¬Climbs score π) :
    faults s t π = 0 := by
  simp only [Climbs, not_forall, not_lt] at hclimbs
  obtain ⟨i, hi⟩ := hclimbs
  have hwalk := le_walkScore hscore π i
  have hprice : steps * W * (faults s t π : Rat) < steps * W * 1 := by linarith
  have hless : (faults s t π : Rat) < 1 := lt_of_mul_lt_mul_left hprice ha.le
  exact Nat.lt_one_iff.1 (by exact_mod_cast hless)

/-- A sequence of little energy is admissible, or climbs all the way and misses one end. -/
theorem admissible_or_climbs (hW : 0 < W) (ha : 0 < (steps : Rat) * W)
    (hscore : IsStepScore (steps * W) W score) {π : Fin (steps + 1) → Fin n}
    (hle : pathEnergy (steps * W) s t score (placement π) ≤ -(steps * W) * (steps + 3)) :
    Admissible s t score π ∨
      (Climbs score π ∧ (π 0 = s ∨ π (Fin.last steps) = t) ∧
        pathEnergy (steps * W) s t score (placement π) = -(steps * W) * (steps + 3)) := by
  rw [pathEnergy_eq_faults] at hle ⊢
  have hearned : steps * W * faults s t π ≤ -walkScore score π := by linarith
  have hpaid : 0 ≤ steps * W * (faults s t π : Rat) := mul_nonneg ha.le (Nat.cast_nonneg _)
  have hone := faults_le_one_of_earned ha hscore hearned
  rcases Nat.le_one_iff_eq_zero_or_eq_one.1 hone with hzero | hfault
  · exact .inl ⟨faults_eq_zero_iff.1 hzero, free_of_nonpos hW hscore (by linarith)⟩
  · have hclimbs : Climbs score π := by
      by_contra hclimbs
      have hzero := faults_eq_zero_of_earned hW ha hscore hearned hclimbs
      omega
    have hwalk := walkScore_ge hscore π
    refine .inr ⟨hclimbs, end_of_faults_le_one hone, ?_⟩
    rw [hfault] at hle ⊢
    push_cast at hle ⊢
    linarith

/-! ### What admissible sequences earn -/

/-- An admissible sequence has no step that costs. -/
theorem Admissible.walkScore_nonpos {π : Fin (steps + 1) → Fin n}
    (h : Admissible s t score π) : walkScore score π ≤ 0 :=
  sum_nonpos fun i _ => h.free i

/-- One step that earns makes the score negative. -/
theorem Admissible.walkScore_neg {π : Fin (steps + 1) → Fin n} (h : Admissible s t score π)
    {i : Fin steps} (hi : score (π i.castSucc) (π i.succ) < 0) : walkScore score π < 0 :=
  sum_neg' (fun j _ => h.free j) ⟨i, mem_univ i, hi⟩

/-- On the way to a larger node, some step ascends and earns. -/
theorem Admissible.walkScore_neg_of_lt (hscore : IsStepScore a W score) (ha : 0 < a)
    (hst : s < t) {π : Fin (steps + 1) → Fin n} (h : Admissible s t score π) :
    walkScore score π < 0 := by
  by_contra hnone
  have hdown : ∀ i : Fin steps, π i.succ ≤ π i.castSucc := by
    intro i
    by_contra hup
    rcases hscore.ascends _ _ (not_le.1 hup) with hearns | hviolates
    · exact hnone (h.walkScore_neg hearns)
    · exact absurd (h.free i) (not_le.2 (hviolates ▸ ha))
  have hle := Fin.antitone_iff_succ_le.2 hdown (Fin.zero_le (Fin.last steps))
  rw [h.first, h.last] at hle
  exact absurd hst (not_lt.2 hle)

/-! ### Other ends -/

variable (s t) in
/-- A sequence with its ends replaced. -/
def withEnds (π : Fin (steps + 1) → Fin n) (i : Fin (steps + 1)) : Fin n :=
  if (i : Nat) = 0 then s else if (i : Nat) = steps then t else π i

theorem withEnds_zero (π : Fin (steps + 1) → Fin n) : withEnds s t π 0 = s := if_pos rfl

theorem withEnds_last (hsteps : 0 < steps) (π : Fin (steps + 1) → Fin n) :
    withEnds s t π (Fin.last steps) = t := by
  rw [withEnds, Fin.val_last, if_neg hsteps.ne', if_pos rfl]

/-- Between the ends nothing is changed. -/
theorem withEnds_inner (π : Fin (steps + 1) → Fin n) {i : Fin (steps + 1)} (hi : i ≠ 0)
    (hi' : i ≠ Fin.last steps) : withEnds s t π i = π i := by
  have hzero : ¬(i : Nat) = 0 := fun h => hi (Fin.ext h)
  have hlast : ¬(i : Nat) = steps := fun h => hi' (Fin.ext h)
  rw [withEnds, if_neg hzero, if_neg hlast]

/-- Between its ends, a climbing sequence with one right end keeps clear of both. -/
theorem outside_of_strictMono {π : Fin (steps + 1) → Fin n} (hmono : StrictMono π)
    (hend : π 0 = s ∨ π (Fin.last steps) = t) {i : Fin (steps + 1)} (hi : i ≠ 0)
    (hi' : i ≠ Fin.last steps) : s < π i ∨ π i < t := by
  rcases hend with rfl | rfl
  · exact .inl (hmono (Fin.pos_of_ne_zero hi))
  · exact .inr (hmono (Fin.lt_last_iff_ne_last.2 hi'))

/-- Replacing one end of an increasing sequence repeats no node. -/
theorem withEnds_injective (hsteps : 0 < steps) (hts : t < s) {π : Fin (steps + 1) → Fin n}
    (hmono : StrictMono π) (hend : π 0 = s ∨ π (Fin.last steps) = t) :
    Function.Injective (withEnds s t π) := by
  have hinner : ∀ i, i ≠ 0 → i ≠ Fin.last steps →
      withEnds s t π i ≠ s ∧ withEnds s t π i ≠ t := by
    intro i hi hi'
    rw [withEnds_inner π hi hi']
    rcases outside_of_strictMono hmono hend hi hi' with habove | hbelow
    · exact ⟨habove.ne', (hts.trans habove).ne'⟩
    · exact ⟨(hbelow.trans hts).ne, hbelow.ne⟩
  have hzero := withEnds_zero (s := s) (t := t) π
  have hlast := withEnds_last (s := s) (t := t) hsteps π
  intro i j hij
  by_cases hi : i = 0 ∨ i = Fin.last steps <;> by_cases hj : j = 0 ∨ j = Fin.last steps
  · grind
  · grind
  · grind
  · rw [withEnds_inner π (by tauto) (by tauto), withEnds_inner π (by tauto) (by tauto)] at hij
    exact hmono.injective hij

/-- With the other end put in, the first step is what it was or descends. -/
theorem Climbs.first_nonpos (hscore : IsStepScore a W score) (ha : 0 ≤ a) (hts : t < s)
    {π : Fin (steps + 1) → Fin n} (hclimbs : Climbs score π)
    (hend : π 0 = s ∨ π (Fin.last steps) = t) {i : Fin steps} (hfirst : i.castSucc = 0)
    (hlast : i.succ ≠ Fin.last steps) : score s (π i.succ) ≤ 0 := by
  rcases hend with h | h
  · rw [← h, ← hfirst]
    exact (hclimbs i).le
  · have hbelow : π i.succ < t := h ▸ hclimbs.strictMono hscore ha (Fin.lt_last_iff_ne_last.2 hlast)
    exact (hscore.descends _ _ (hbelow.trans hts)).le

/-- And so is the last one. -/
theorem Climbs.last_nonpos (hscore : IsStepScore a W score) (ha : 0 ≤ a) (hts : t < s)
    {π : Fin (steps + 1) → Fin n} (hclimbs : Climbs score π)
    (hend : π 0 = s ∨ π (Fin.last steps) = t) {i : Fin steps} (hfirst : i.castSucc ≠ 0)
    (hlast : i.succ = Fin.last steps) : score (π i.castSucc) t ≤ 0 := by
  rcases hend with h | h
  · have habove : s < π i.castSucc := h ▸ hclimbs.strictMono hscore ha (Fin.pos_of_ne_zero hfirst)
    exact (hscore.descends _ _ (hts.trans habove)).le
  · rw [← h, ← hlast]
    exact (hclimbs i).le

/-- On the way to a smaller node, a climbing sequence with one right end gets the other
one: the step there descends. -/
theorem Climbs.admissible_withEnds (hsteps : 3 ≤ steps) (hscore : IsStepScore a W score)
    (ha : 0 < a) (hts : t < s) {π : Fin (steps + 1) → Fin n} (hclimbs : Climbs score π)
    (hend : π 0 = s ∨ π (Fin.last steps) = t) :
    Admissible s t score (withEnds s t π) ∧ walkScore score (withEnds s t π) < 0 := by
  have hpos : 0 < steps := by omega
  have hinner : ∀ i : Fin steps, i.castSucc ≠ 0 → i.succ ≠ Fin.last steps →
      score (withEnds s t π i.castSucc) (withEnds s t π i.succ) < 0 := by
    intro i hi hi'
    rw [withEnds_inner π hi (Fin.castSucc_ne_last i), withEnds_inner π (Fin.succ_ne_zero i) hi']
    exact hclimbs i
  have hfree : ∀ i : Fin steps,
      score (withEnds s t π i.castSucc) (withEnds s t π i.succ) ≤ 0 := by
    intro i
    by_cases hfirst : i.castSucc = 0 <;> by_cases hlast : i.succ = Fin.last steps
    · have hval : (i : Nat) = 0 := congrArg Fin.val hfirst
      have hval' : (i : Nat) + 1 = steps := congrArg Fin.val hlast
      omega
    · rw [hfirst, withEnds_zero, withEnds_inner π (Fin.succ_ne_zero i) hlast]
      exact hclimbs.first_nonpos hscore ha.le hts hend hfirst hlast
    · rw [hlast, withEnds_last hpos, withEnds_inner π hfirst (Fin.castSucc_ne_last i)]
      exact hclimbs.last_nonpos hscore ha.le hts hend hfirst hlast
    · exact (hinner i hfirst hlast).le
  have hinj := withEnds_injective hpos hts (hclimbs.strictMono hscore ha.le) hend
  have hadm : Admissible s t score (withEnds s t π) :=
    ⟨⟨hinj, withEnds_zero π, withEnds_last hpos π⟩, hfree⟩
  refine ⟨hadm, hadm.walkScore_neg (hinner ⟨1, by omega⟩ (fun h => ?_) fun h => ?_)⟩
  · exact Nat.one_ne_zero (congrArg Fin.val h)
  · have hval : 1 + 1 = steps := congrArg Fin.val h
    omega

/-! ## The exchange argument -/

/-- An admissible sequence reaches the bound of the ground states. -/
theorem Admissible.pathEnergy_le {π : Fin (steps + 1) → Fin n} (h : Admissible s t score π) :
    pathEnergy a s t score (placement π) ≤ -a * (steps + 3) := by
  have hwalk := h.walkScore_nonpos
  rw [h.pathEnergy_eq]
  linarith

/-- It is below the bound if its walk earns anything. -/
theorem Admissible.pathEnergy_lt {π : Fin (steps + 1) → Fin n} (h : Admissible s t score π)
    (hwalk : walkScore score π < 0) :
    pathEnergy a s t score (placement π) < -a * (steps + 3) := by
  rw [h.pathEnergy_eq]
  linarith

/-- Where some sequence is admissible, a climbing one with one right end is not the best. -/
theorem Climbs.exists_admissible_neg (hsteps : 3 ≤ steps) (hscore : IsStepScore a W score)
    (ha : 0 < a) (hst : s ≠ t) {π₀ π : Fin (steps + 1) → Fin n}
    (hπ₀ : Admissible s t score π₀) (hclimbs : Climbs score π)
    (hend : π 0 = s ∨ π (Fin.last steps) = t) :
    ∃ π' : Fin (steps + 1) → Fin n, Admissible s t score π' ∧ walkScore score π' < 0 := by
  rcases lt_or_gt_of_ne hst with hlt | hgt
  · exact ⟨π₀, hπ₀, hπ₀.walkScore_neg_of_lt hscore ha hlt⟩
  · exact ⟨_, hclimbs.admissible_withEnds hsteps hscore ha hgt hend⟩

/-- A set with one node per position is an admissible sequence or has more energy than
one. -/
theorem OnePerPosition.admissible_or_exists_lt (hsteps : 3 ≤ steps) (hW : 0 < W) (hst : s ≠ t)
    (hscore : IsStepScore (steps * W) W score) {π₀ : Fin (steps + 1) → Fin n}
    (hπ₀ : Admissible s t score π₀) {X : Finset (Fin n × Fin (steps + 1))}
    (hX : OnePerPosition X) :
    (∃ π : Fin (steps + 1) → Fin n, Admissible s t score π ∧ X = placement π) ∨
      ∃ π : Fin (steps + 1) → Fin n, Admissible s t score π ∧
        pathEnergy (steps * W) s t score (placement π) < pathEnergy (steps * W) s t score X := by
  have hpos : 0 < steps := by omega
  have ha : 0 < (steps : Rat) * W := mul_pos (Nat.cast_pos.2 hpos) hW
  rcases Nat.lt_or_ge steps X.card with hfull | hcard
  · obtain ⟨π, rfl⟩ := exists_placement_of_card hX hfull
    rcases le_or_gt (pathEnergy (steps * W) s t score (placement π))
      (-(steps * W) * (steps + 3)) with hle | hgt
    · rcases admissible_or_climbs hW ha hscore hle with hadm | ⟨hclimbs, hend, heq⟩
      · exact .inl ⟨π, hadm, rfl⟩
      · obtain ⟨π', hadm, hneg⟩ := hclimbs.exists_admissible_neg hsteps hscore ha hst hπ₀ hend
        exact .inr ⟨π', hadm, (hadm.pathEnergy_lt hneg).trans_eq heq.symm⟩
    · exact .inr ⟨π₀, hπ₀, hπ₀.pathEnergy_le.trans_lt hgt⟩
  · exact .inr ⟨π₀, hπ₀,
      hπ₀.pathEnergy_le.trans_lt (lt_pathEnergy_of_card_le hpos hW hscore hX hcard)⟩

/-- Every set of pairs that is not an admissible sequence has more energy than one. -/
theorem admissible_or_exists_lt (hsteps : 3 ≤ steps) (hW : 0 < W) (hst : s ≠ t)
    (hscore : IsStepScore (steps * W) W score) {π₀ : Fin (steps + 1) → Fin n}
    (hπ₀ : Admissible s t score π₀) (X : Finset (Fin n × Fin (steps + 1))) :
    (∃ π : Fin (steps + 1) → Fin n, Admissible s t score π ∧ X = placement π) ∨
      ∃ π : Fin (steps + 1) → Fin n, Admissible s t score π ∧
        pathEnergy (steps * W) s t score (placement π) < pathEnergy (steps * W) s t score X := by
  by_cases hX : OnePerPosition X
  · exact hX.admissible_or_exists_lt hsteps hW hst hscore hπ₀
  · obtain ⟨Y, hY, hless⟩ := exists_onePerPosition_lt hsteps hW hscore hX
    rcases hY.admissible_or_exists_lt hsteps hW hst hscore hπ₀ with ⟨π, hadm, rfl⟩ | ⟨π, hadm, hlt⟩
    · exact .inr ⟨π, hadm, hless⟩
    · exact .inr ⟨π, hadm, hlt.trans hless⟩

/-- The sets of least energy are the admissible sequences that earn the most. -/
theorem least_iff_admissible (hsteps : 3 ≤ steps) (hW : 0 < W) (hst : s ≠ t)
    (hscore : IsStepScore (steps * W) W score) {π₀ : Fin (steps + 1) → Fin n}
    (hπ₀ : Admissible s t score π₀) {X : Finset (Fin n × Fin (steps + 1))} :
    (∀ Y : Finset (Fin n × Fin (steps + 1)),
      pathEnergy (steps * W) s t score X ≤ pathEnergy (steps * W) s t score Y) ↔
      ∃ π : Fin (steps + 1) → Fin n, X = placement π ∧ Admissible s t score π ∧
        ∀ τ : Fin (steps + 1) → Fin n, Admissible s t score τ →
          walkScore score π ≤ walkScore score τ := by
  have hexchange : ∀ X : Finset (Fin n × Fin (steps + 1)),
      (∃ π : {π : Fin (steps + 1) → Fin n // Admissible s t score π}, X = placement π.1) ∨
        ∃ π : {π : Fin (steps + 1) → Fin n // Admissible s t score π},
          pathEnergy (steps * W) s t score (placement π.1) <
            pathEnergy (steps * W) s t score X := by
    intro X
    simpa only [Subtype.exists, exists_prop] using
      admissible_or_exists_lt hsteps hW hst hscore hπ₀ X
  rw [least_iff_of_exchange hexchange]
  constructor
  · rintro ⟨⟨π, hπ⟩, hX, hleast⟩
    refine ⟨π, hX, hπ, fun τ hτ => ?_⟩
    have hle := hleast ⟨τ, hτ⟩
    rwa [hπ.pathEnergy_eq, hτ.pathEnergy_eq, sub_le_sub_iff_right] at hle
  · rintro ⟨π, hX, hπ, hleast⟩
    refine ⟨⟨π, hπ⟩, hX, fun ⟨τ, hτ⟩ => ?_⟩
    rw [hπ.pathEnergy_eq, hτ.pathEnergy_eq, sub_le_sub_iff_right]
    exact hleast τ hτ

end Sequences

end GraphQubo
