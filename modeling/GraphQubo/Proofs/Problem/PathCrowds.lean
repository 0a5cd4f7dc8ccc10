import GraphQubo.Proofs.Problem.Path

/-!
# GraphQubo.Proofs.Problem.PathCrowds

Crowded and empty positions in a path of three steps or more.

The strength of a path is `a = steps · W`, where no step earns more than `W`.  Of several
nodes at one position all but one can be dropped: the first of the most crowded positions
pays more for a node than the positions around it let the node earn.  And a position
without a node loses a reward of `a`, which the remaining steps cannot earn.

* `exists_onePerPosition_lt` — a crowded position can be thinned out;
* `lt_pathEnergy_of_card_le` — an empty position is never made up for;
* `exists_placement_of_card` — what is neither crowded nor empty is a sequence of nodes.
-/

namespace GraphQubo

open Finset

/-- The scores of steps with strength `a`: none earns more than `W`, a step earns only if
it ascends, an ascending one earns or violates, and a descending one does neither. -/
structure IsStepScore {n : Nat} (a W : Rat) (score : Fin n → Fin n → Rat) : Prop where
  ge : ∀ v w, -W ≤ score v w
  stays : ∀ v, score v v = a
  ascends : ∀ v w, v < w → score v w < 0 ∨ score v w = a
  descends : ∀ v w, w < v → score v w = 0

section Exchange

variable {n steps : Nat} {a W : Rat} {s t : Fin n} {score : Fin n → Fin n → Rat}

/-- A step is either free of penalty or costs the full strength. -/
theorem IsStepScore.le_zero_or_eq (hscore : IsStepScore a W score) (v w : Fin n) :
    score v w ≤ 0 ∨ score v w = a := by
  rcases lt_trichotomy v w with hlt | rfl | hgt
  · exact (hscore.ascends v w hlt).imp le_of_lt id
  · exact .inr (hscore.stays v)
  · exact .inl (hscore.descends v w hgt).le

/-! ## Crowded positions -/

/-- How many nodes of the set are at the position. -/
def crowdAt (X : Finset (Fin n × Fin (steps + 1))) (q : Nat) : Nat :=
  (X.filter fun x => (x.2 : Nat) = q).card

/-- How many nodes of the set are at the position before. -/
def crowdBefore (X : Finset (Fin n × Fin (steps + 1))) (q : Nat) : Nat :=
  (X.filter fun x => q = (x.2 : Nat) + 1).card

/-- No position of the set has two nodes. -/
def OnePerPosition (X : Finset (Fin n × Fin (steps + 1))) : Prop :=
  ∀ x ∈ X, ∀ y ∈ X, x.2 = y.2 → x = y

/-- At most one node is at each position. -/
theorem onePerPosition_iff {X : Finset (Fin n × Fin (steps + 1))} :
    OnePerPosition X ↔ ∀ q, crowdAt X q ≤ 1 := by
  simp only [crowdAt, card_le_one, mem_filter]
  constructor
  · rintro h q x ⟨hx, rfl⟩ y ⟨hy, hyx⟩
    exact h x hx y hy (Fin.ext hyx.symm)
  · intro h x hx y hy hxy
    exact h x.2 x ⟨hx, rfl⟩ y ⟨hy, congrArg Fin.val hxy.symm⟩

theorem crowdBefore_le {X : Finset (Fin n × Fin (steps + 1))} {p k : Nat}
    (h : ∀ q, q < p → crowdAt X q ≤ k) : crowdBefore X p ≤ k := by
  cases p with
  | zero => simp [crowdBefore]
  | succ q =>
    simpa only [crowdBefore, crowdAt, Nat.add_right_cancel_iff, eq_comm] using h q q.lt_succ_self

/-- More variables leave no position less crowded. -/
theorem crowdAt_mono {X Y : Finset (Fin n × Fin (steps + 1))} (h : X ⊆ Y) (q : Nat) :
    crowdAt X q ≤ crowdAt Y q :=
  card_le_card (filter_subset_filter _ h)

/-- Dropping a variable makes its position less crowded by one. -/
theorem crowdAt_erase {X : Finset (Fin n × Fin (steps + 1))} {x : Fin n × Fin (steps + 1)}
    (hx : x ∈ X) : crowdAt (X.erase x) x.2 + 1 = crowdAt X x.2 := by
  have hmem : x ∈ X.filter fun y => (y.2 : Nat) = x.2 := mem_filter.2 ⟨hx, rfl⟩
  rw [crowdAt, crowdAt, filter_erase, card_erase_add_one hmem]

/-- Two pairs with one position cost `2·a`, and only a step between them can earn. -/
theorem le_pathCoupling (hscore : IsStepScore a W score) (ha : 0 ≤ a)
    {x y : Fin n × Fin (steps + 1)} (hxy : x ≠ y) :
    (if (y.2 : Nat) = x.2 then 2 * a else 0) - (if (y.2 : Nat) = x.2 + 1 then W else 0) -
        (if (x.2 : Nat) = y.2 + 1 then W else 0) ≤
      pathCoupling a s t score x y + pathCoupling a s t score y x := by
  have hposition : (if (y.2 : Nat) = x.2 then 2 * a else 0) ≤
      (if x.2 = y.2 ∧ x.1 < y.1 then 2 * a else 0) +
        if y.2 = x.2 ∧ y.1 < x.1 then 2 * a else 0 := by
    by_cases hsame : y.2 = x.2
    · have hnode : x.1 ≠ y.1 := fun h => hxy (Prod.ext h hsame.symm)
      rcases lt_or_gt_of_ne hnode with hlt | hgt
      · simp [hsame, hlt, hlt.not_gt]
      · simp [hsame, hgt, hgt.not_gt]
    · rw [if_neg fun h => hsame (Fin.ext h)]
      exact add_nonneg (ite_nonneg (by linarith) le_rfl) (ite_nonneg (by linarith) le_rfl)
  have hnext : -(if (y.2 : Nat) = x.2 + 1 then W else 0) ≤
      if (y.2 : Nat) = x.2 + 1 then score x.1 y.1 else 0 := by
    split
    · exact hscore.ge _ _
    · rw [neg_zero]
  have hprevious : -(if (x.2 : Nat) = y.2 + 1 then W else 0) ≤
      if (x.2 : Nat) = y.2 + 1 then score y.1 x.1 else 0 := by
    split
    · exact hscore.ge _ _
    · rw [neg_zero]
  have hlater : 0 ≤ if x.1 = y.1 ∧ x.2 < y.2 then a else 0 := ite_nonneg ha le_rfl
  have hearlier : 0 ≤ if y.1 = x.1 ∧ y.2 < x.2 then a else 0 := ite_nonneg ha le_rfl
  simp only [pathCoupling, hxy, hxy.symm, false_and, if_false]
  linarith

/-- What a node that is not a fixed end brings at least: the price of its position, less
what the positions before and after let it earn. -/
theorem le_field (hscore : IsStepScore a W score) (ha : 0 ≤ a)
    {X : Finset (Fin n × Fin (steps + 1))} {x : Fin n × Fin (steps + 1)} (hx : x ∉ X)
    (hend : ¬IsEnd s t x) :
    2 * a * crowdAt X x.2 - a - W * (crowdAt X (x.2 + 1) + crowdBefore X x.2) ≤
      field (pathCoupling a s t score) X x := by
  have hself : pathCoupling a s t score x x = -a := by
    rw [pathCoupling_self, if_neg fun h => hend (.inl h), if_neg fun h => hend (.inr h),
      add_zero, add_zero]
  have hothers := sum_le_sum fun y (hy : y ∈ X) =>
    le_pathCoupling (s := s) (t := t) hscore ha fun h : x = y => hx (h ▸ hy)
  simp only [sum_sub_distrib, sum_ite_eq_card] at hothers
  rw [field, hself, crowdAt, crowdAt, crowdBefore]
  linarith

/-! ## Thinning out -/

/-- The first of the most crowded positions. -/
theorem exists_first_most_crowded (X : Finset (Fin n × Fin (steps + 1))) :
    ∃ p, (∀ q, crowdAt X q ≤ crowdAt X p) ∧ ∀ q, q < p → crowdAt X q < crowdAt X p := by
  classical
  have hmost : ∃ p, ∀ q, crowdAt X q ≤ crowdAt X p := by
    obtain ⟨p, -, hp⟩ := exists_max_image (range (steps + 1)) (crowdAt X)
      ⟨0, mem_range.2 steps.succ_pos⟩
    refine ⟨p, fun q => ?_⟩
    by_cases hq : q < steps + 1
    · exact hp q (mem_range.2 hq)
    · have hempty : crowdAt X q = 0 := by
        rw [crowdAt, card_eq_zero, filter_eq_empty_iff]
        intro x _ hxq
        exact hq (hxq ▸ x.2.isLt)
      rw [hempty]
      exact Nat.zero_le _
  refine ⟨Nat.find hmost, Nat.find_spec hmost, fun q hq => ?_⟩
  have hless := Nat.find_min hmost hq
  push Not at hless
  obtain ⟨r, hr⟩ := hless
  exact hr.trans_le (Nat.find_spec hmost r)

/-- Of two nodes at one position, one is not a fixed end. -/
theorem exists_not_isEnd (hsteps : 0 < steps) {X : Finset (Fin n × Fin (steps + 1))} {p : Nat}
    (h : 2 ≤ crowdAt X p) : ∃ x ∈ X, (x.2 : Nat) = p ∧ ¬IsEnd s t x := by
  obtain ⟨x, hx, y, hy, hne⟩ := one_lt_card.1 h
  obtain ⟨hx, hxp⟩ := mem_filter.1 hx
  obtain ⟨hy, hyp⟩ := mem_filter.1 hy
  by_cases hend : IsEnd s t x
  · refine ⟨y, hy, hyp, fun hend' => ?_⟩
    have hlast : (Fin.last steps : Nat) ≠ 0 := hsteps.ne'
    rcases hend with rfl | rfl <;> rcases hend' with rfl | rfl
    · exact hne rfl
    · exact hlast (hyp.trans hxp.symm)
    · exact hlast (hxp.trans hyp.symm)
    · exact hne rfl
  · exact ⟨x, hx, hxp, hend⟩

/-- A node at a position with `c` others, and with `k` at the positions around it. -/
theorem le_price (hW : 0 < W) {S c k l : Rat} (hS : 3 ≤ S) (hc : 1 ≤ c) (hk : k ≤ l) :
    W * (3 * (2 * c - 1) - l) ≤ 2 * (S * W) * c - S * W - W * k := by
  have hsteps : 3 * (2 * c - 1) ≤ S * (2 * c - 1) :=
    mul_le_mul_of_nonneg_right hS (by linarith)
  calc W * (3 * (2 * c - 1) - l)
      ≤ W * (S * (2 * c - 1) - k) := mul_le_mul_of_nonneg_left (sub_le_sub hsteps hk) hW.le
    _ = 2 * (S * W) * c - S * W - W * k := by ring

/-- With three steps or more, some set with less energy has no two nodes at a position. -/
theorem exists_onePerPosition_lt (hsteps : 3 ≤ steps) (hW : 0 < W)
    (hscore : IsStepScore (steps * W) W score) {X : Finset (Fin n × Fin (steps + 1))}
    (hcrowded : ¬OnePerPosition X) :
    ∃ Y : Finset (Fin n × Fin (steps + 1)), OnePerPosition Y ∧
      pathEnergy (steps * W) s t score Y < pathEnergy (steps * W) s t score X := by
  induction X using Finset.strongInduction with
  | H X ih =>
    obtain ⟨p, hmost, hfirst⟩ := exists_first_most_crowded X
    have htwo : 2 ≤ crowdAt X p := by
      rw [onePerPosition_iff] at hcrowded
      push Not at hcrowded
      obtain ⟨q, hq⟩ := hcrowded
      exact hq.trans_le (hmost q)
    obtain ⟨x, hx, rfl, hend⟩ := exists_not_isEnd (s := s) (t := t) (by omega) htwo
    have hcrowd := crowdAt_erase hx
    have hfield := le_field hscore (by positivity) (notMem_erase x X) hend
    have henergy : pathEnergy (steps * W) s t score X =
        pathEnergy (steps * W) s t score (X.erase x) +
          field (pathCoupling (steps * W) s t score) (X.erase x) x :=
      pairSum_erase _ hx
    have hothers : (1 : Rat) ≤ crowdAt (X.erase x) x.2 := Nat.one_le_cast.2 (by omega)
    have hS : (3 : Rat) ≤ steps := by exact_mod_cast hsteps
    by_cases hthin : OnePerPosition (X.erase x)
    · -- the positions around it have one node each, and three steps outweigh two
      have haround : (crowdAt (X.erase x) (x.2 + 1) : Rat) + crowdBefore (X.erase x) x.2 ≤ 2 := by
        exact_mod_cast Nat.add_le_add (onePerPosition_iff.1 hthin (x.2 + 1))
          (crowdBefore_le fun q _ => onePerPosition_iff.1 hthin q)
      have hprice := le_price hW hS hothers haround
      have hpos : 0 < W * (3 * (2 * (crowdAt (X.erase x) x.2 : Rat) - 1) - 2) :=
        mul_pos hW (by linarith)
      exact ⟨_, hthin, by linarith⟩
    · -- the position after it is no more crowded than it was, the one before is less
      have hafter := (crowdAt_mono (erase_subset x X) (x.2 + 1)).trans (hmost (x.2 + 1))
      have hbefore : crowdBefore (X.erase x) x.2 ≤ crowdAt (X.erase x) x.2 :=
        crowdBefore_le fun q hq => by
          have hmono := crowdAt_mono (erase_subset x X) q
          have hless := hfirst q hq
          omega
      have haround : (crowdAt (X.erase x) (x.2 + 1) : Rat) + crowdBefore (X.erase x) x.2 ≤
          (crowdAt (X.erase x) x.2 + 1) + crowdAt (X.erase x) x.2 := by
        exact_mod_cast Nat.add_le_add (hafter.trans_eq hcrowd.symm) hbefore
      have hprice := le_price hW hS hothers haround
      have hnonneg : 0 ≤ W * (3 * (2 * (crowdAt (X.erase x) x.2 : Rat) - 1) -
          ((crowdAt (X.erase x) x.2 + 1) + crowdAt (X.erase x) x.2)) :=
        mul_nonneg hW.le (by linarith)
      obtain ⟨Y, hY, hless⟩ := ih _ (erase_ssubset hx) hthin
      exact ⟨Y, hY, by linarith⟩

/-! ## Empty positions -/

/-- A set with one node per position earns at most one step less than it has nodes. -/
theorem le_scoreSum (hW : 0 ≤ W) (hscore : IsStepScore a W score)
    {X : Finset (Fin n × Fin (steps + 1))} (h : OnePerPosition X) (hne : X.Nonempty) :
    -W * (X.card - 1) ≤ scoreSum score X := by
  -- no step leads on from the last of its positions
  obtain ⟨z, hz, hlast⟩ := exists_max_image X (fun x => x.2) hne
  have hend : ∑ y ∈ X, (if (y.2 : Nat) = z.2 + 1 then score z.1 y.1 else 0) = 0 := by
    refine sum_eq_zero fun y hy => if_neg fun hnext => ?_
    have hle : (y.2 : Nat) ≤ z.2 := hlast y hy
    omega
  have hstep : ∀ x ∈ X.erase z,
      -W ≤ ∑ y ∈ X, if (y.2 : Nat) = x.2 + 1 then score x.1 y.1 else 0 := by
    intro x _
    rcases sum_ite_of_subsingleton (s := X) (p := fun y => (y.2 : Nat) = x.2 + 1)
      (fun y hy y' hy' hxy hxy' => h y hy y' hy' (Fin.ext (hxy.trans hxy'.symm)))
      (fun y => score x.1 y.1) with hnone | ⟨y, -, -, hone⟩
    · rw [hnone]
      linarith
    · rw [hone]
      exact hscore.ge _ _
  have hcard := card_erase_add_one hz
  calc -W * (X.card - 1) = ∑ x ∈ X.erase z, -W := by
        rw [sum_const, nsmul_eq_mul, ← hcard]
        push_cast
        ring
    _ ≤ ∑ x ∈ X.erase z, ∑ y ∈ X, (if (y.2 : Nat) = x.2 + 1 then score x.1 y.1 else 0) :=
        sum_le_sum hstep
    _ = scoreSum score X := by
        rw [scoreSum, ← sum_erase_add _ _ hz, hend, add_zero]

/-- There are two ends to hold. -/
theorem endsHeld_le (X : Finset (Fin n × Fin (steps + 1))) : endsHeld s t X ≤ 2 := by
  unfold endsHeld
  split <;> split <;> omega

/-- No steps make up for a position without a node. -/
theorem lt_pathEnergy_of_card_le (hsteps : 0 < steps) (hW : 0 < W)
    (hscore : IsStepScore (steps * W) W score) {X : Finset (Fin n × Fin (steps + 1))}
    (h : OnePerPosition X) (hcard : X.card ≤ steps) :
    -(steps * W) * (steps + 3) < pathEnergy (steps * W) s t score X := by
  have ha : 0 < (steps : Rat) * W := mul_pos (Nat.cast_pos.2 hsteps) hW
  have hpunished : 0 ≤ steps * W * (repeats X + 2 * crowding X : Rat) :=
    mul_nonneg ha.le (by positivity)
  have hheld : (X.card : Rat) + endsHeld s t X ≤ steps + 2 := by
    exact_mod_cast Nat.add_le_add hcard (endsHeld_le X)
  have hreward := mul_le_mul_of_nonneg_left hheld ha.le
  have hearned : -(steps * W) < scoreSum score X := by
    rcases X.eq_empty_or_nonempty with rfl | hne
    · simpa [scoreSum] using ha
    · have hle : ((X.card : Rat) - 1) * W < steps * W := by
        have hcard' : (X.card : Rat) ≤ steps := Nat.cast_le.2 hcard
        exact mul_lt_mul_of_pos_right (by linarith) hW
      have hsum := le_scoreSum hW.le hscore h hne
      linarith
  rw [pathEnergy_eq]
  linarith

/-- One variable at each position is a placement. -/
theorem exists_placement_of_card {X : Finset (Fin n × Fin (steps + 1))} (h : OnePerPosition X)
    (hcard : steps < X.card) : ∃ π, X = placement π := by
  have hall : X.image Prod.snd = univ := by
    refine eq_univ_of_card _ (le_antisymm (card_le_univ _) ?_)
    rw [card_image_of_injOn fun x hx y hy hxy => h x hx y hy hxy, Fintype.card_fin]
    exact hcard
  refine exists_placement (fun q => ?_) h
  obtain ⟨x, hx, rfl⟩ := mem_image.1 (hall ▸ mem_univ q)
  exact ⟨x.1, hx⟩

end Exchange

end GraphQubo
