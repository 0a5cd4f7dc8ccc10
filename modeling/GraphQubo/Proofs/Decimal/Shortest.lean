import GraphQubo.Proofs.Decimal.Rounding

/-!
# GraphQubo.Proofs.Decimal.Shortest

The shortest decimal of a double lies in its interval.

1. The whole number that stands for an interval is in it.
2. An interval that reaches more than a unit above its value holds a whole number.
3. The last power of ten that is tried is less than half of the last place of the
   double, so one of them is found.

* `IsDouble.holds_shortest` — the decimal that is found.
-/

namespace GraphQubo.Decimal

/-! ## Powers of two and of ten -/

/-- Ten is a little less than `2^(309 / 93)` and a little more than `2^(93 / 28)`. -/
theorem zpow_ten_lt {p q : Int} (hpos : 309 * p < 93 * q) (hneg : 93 * p < 28 * q) :
    (10 : ℚ) ^ p < 2 ^ q := by
  have hq : (0 : ℚ) ≤ 2 ^ q := (zpow_pos two_pos q).le
  rcases Int.le_total 0 p with hp | hp
  · obtain ⟨k, rfl⟩ := Int.eq_ofNat_of_zero_le hp
    have htens : (10 : ℚ) ^ 93 ≤ 2 ^ 309 := by
      exact_mod_cast (by decide +kernel : 10 ^ 93 ≤ 2 ^ 309)
    refine lt_of_pow_lt_pow_left₀ 93 hq ?_
    calc ((10 : ℚ) ^ (k : Int)) ^ 93 = (10 ^ 93) ^ k := by rw [zpow_natCast, pow_right_comm]
      _ ≤ (2 ^ 309) ^ k := pow_le_pow_left₀ (by positivity) htens k
      _ = 2 ^ (309 * (k : Int)) := by rw [zpow_mul, zpow_natCast, zpow_ofNat]
      _ < 2 ^ (q * (93 : Nat)) := zpow_lt_zpow_right₀ one_lt_two (by omega)
      _ = (2 ^ q) ^ 93 := by rw [zpow_mul, zpow_natCast]
  · obtain ⟨k, rfl⟩ := Int.exists_eq_neg_ofNat hp
    refine lt_of_pow_lt_pow_left₀ 28 hq ?_
    calc ((10 : ℚ) ^ (-(k : Int))) ^ 28 = ((10 ^ 28) ^ k)⁻¹ := by
          rw [zpow_neg, zpow_natCast, inv_pow, pow_right_comm]
      _ ≤ ((2 ^ 93) ^ k)⁻¹ := by
          gcongr
          norm_num
      _ = 2 ^ (93 * -(k : Int)) := by rw [zpow_mul, zpow_neg, zpow_natCast, zpow_ofNat]
      _ < 2 ^ (q * (28 : Nat)) := zpow_lt_zpow_right₀ one_lt_two (by omega)
      _ = (2 ^ q) ^ 28 := by rw [zpow_mul, zpow_natCast]

theorem cast_powerOfTen_toNat (p : Int) :
    (powerOfTen p.toNat : ℚ) = 10 ^ p * powerOfTen (-p).toNat := by
  have hten : (10 : ℚ) ≠ 0 := by norm_num
  simp only [powerOfTen, Nat.pow_eq, Nat.cast_pow, Nat.cast_ofNat, ← zpow_natCast,
    ← zpow_add₀ hten]
  congr 1
  omega

theorem powerOfTen_pos (n : Nat) : 0 < powerOfTen n := Nat.pow_pos (by decide)

/-! ## Intervals -/

/-- A whole number in an interval that is measured in a power of ten. -/
theorem Interval.holds_of_contains {i : Interval} {p : Int} {n : Nat}
    (h : (i.inPowersOfTen p).contains n = true) : i.Holds (n * 10 ^ p) := by
  have hup : (0 : ℚ) < powerOfTen (-p).toNat := Nat.cast_pos.2 (powerOfTen_pos _)
  have hplace : ((n * (i.unit * powerOfTen p.toNat) : Nat) : ℚ) =
      n * 10 ^ p * i.unit * powerOfTen (-p).toNat := by
    push_cast
    rw [cast_powerOfTen_toNat]
    ring
  have hle {a : Nat} : a * powerOfTen (-p).toNat ≤ n * (i.unit * powerOfTen p.toNat) ↔
      (a : ℚ) ≤ n * 10 ^ p * i.unit := by
    rw [← mul_le_mul_iff_of_pos_right hup, ← hplace]
    exact_mod_cast Iff.rfl
  have hge {a : Nat} : n * (i.unit * powerOfTen p.toNat) ≤ a * powerOfTen (-p).toNat ↔
      n * 10 ^ p * i.unit ≤ (a : ℚ) := by
    rw [← mul_le_mul_iff_of_pos_right hup, ← hplace]
    exact_mod_cast Iff.rfl
  unfold contains at h
  unfold Holds
  split at h
  · rename_i hclosed
    have hclosed : i.closed = true := hclosed
    obtain ⟨h₁, h₂⟩ := Bool.and_eq_true_iff.1 h
    rw [if_pos hclosed]
    exact ⟨hle.1 (of_decide_eq_true h₁), hge.1 (of_decide_eq_true h₂)⟩
  · rename_i hopen
    have hopen : ¬i.closed = true := hopen
    obtain ⟨h₁, h₂⟩ := Bool.and_eq_true_iff.1 h
    rw [if_neg hopen]
    exact ⟨not_le.1 fun h => Nat.not_le.2 (of_decide_eq_true h₁) (hge.2 h),
      not_le.1 fun h => Nat.not_le.2 (of_decide_eq_true h₂) (hle.2 h)⟩

/-- The whole number that is found lies in its interval. -/
theorem Interval.contains_of_whole? {i : Interval} {n : Nat} (h : i.whole? = some n) :
    i.contains n = true := by
  simp only [whole?] at h
  split at h
  · rename_i hdown hup
    obtain rfl := Option.some.inj h
    split
    · exact hdown
    · exact hup
  · rename_i hdown _
    exact Option.some.inj h ▸ hdown
  · rename_i hup
    exact Option.some.inj h ▸ hup
  · cases h

/-- An interval that reaches more than a unit above its value holds a whole number. -/
theorem Interval.isSome_whole? {i : Interval} (hlow : i.low ≤ i.value) (hunit : 0 < i.unit)
    (hhigh : i.value + i.unit < i.high) : i.whole?.isSome = true := by
  have habove : i.value < (i.value / i.unit + 1) * i.unit := by
    rw [mul_comm]
    exact Nat.lt_mul_div_succ _ hunit
  have hnear : (i.value / i.unit + 1) * i.unit ≤ i.value + i.unit := by
    rw [Nat.succ_mul]
    exact Nat.add_le_add_right (Nat.div_mul_le_self _ _) _
  have hup : i.contains (i.value / i.unit + 1) = true := by
    unfold contains
    split
    · exact Bool.and_eq_true_iff.2 ⟨decide_eq_true (by omega), decide_eq_true (by omega)⟩
    · exact Bool.and_eq_true_iff.2 ⟨decide_eq_true (by omega), decide_eq_true (by omega)⟩
  simp only [whole?, hup]
  split <;> simp_all

/-! ## The shortest decimal -/

/-- Twenty powers of ten below the bound the interval of a double holds a whole number. -/
theorem IsDouble.isSome_whole? {m : Nat} {e : Int} (hd : IsDouble m e) :
    ((Interval.ofParts m e).inPowersOfTen (decimalBound m e - 20)).whole?.isSome = true := by
  obtain ⟨p, hp⟩ : ∃ p, p = decimalBound m e - 20 := ⟨_, rfl⟩
  have hlog := hd.log2_le
  have hmin := hd.min
  have hmax := hd.max
  have hfine : (10 : ℚ) ^ p < 2 ^ (e - 1) := by
    unfold decimalBound at hp
    exact zpow_ten_lt (by omega) (by omega)
  rw [← hp]
  have hup := powerOfTen_pos (-p).toNat
  refine Interval.isSome_whole? (Nat.mul_le_mul_right _ ?_)
    (Nat.mul_pos (powerOfTwo_pos _) (powerOfTen_pos _)) ?_
  · exact Nat.mul_le_mul_right _ (Nat.sub_le _ _)
  · have hunit : (0 : ℚ) < powerOfTwo (2 - e).toNat := Nat.cast_pos.2 (powerOfTwo_pos _)
    have hstep : (powerOfTwo (2 - e).toNat : ℚ) * 10 ^ p < 2 * powerOfTwo (e - 2).toNat := by
      calc (powerOfTwo (2 - e).toNat : ℚ) * 10 ^ p
          < powerOfTwo (2 - e).toNat * 2 ^ (e - 1) := mul_lt_mul_of_pos_left hfine hunit
        _ = 2 * powerOfTwo (e - 2).toNat := by
            rw [zpow_sub_one₀ two_ne_zero]
            linear_combination cast_unit e / 2
    have hgap : powerOfTwo (2 - e).toNat * powerOfTen p.toNat <
        2 * powerOfTwo (e - 2).toNat * powerOfTen (-p).toNat := by
      have hcast : (powerOfTwo (2 - e).toNat : ℚ) * powerOfTen p.toNat <
          2 * powerOfTwo (e - 2).toNat * powerOfTen (-p).toNat := by
        rw [cast_powerOfTen_toNat, ← mul_assoc]
        exact mul_lt_mul_of_pos_right hstep (Nat.cast_pos.2 hup)
      exact_mod_cast hcast
    change 4 * m * powerOfTwo (e - 2).toNat * powerOfTen (-p).toNat +
        powerOfTwo (2 - e).toNat * powerOfTen p.toNat <
      (4 * m + 2) * powerOfTwo (e - 2).toNat * powerOfTen (-p).toNat
    rw [Nat.add_mul, Nat.add_mul]
    exact Nat.add_lt_add_left hgap _

/-- The shortest decimal of a double lies in its interval. -/
theorem IsDouble.holds_shortest {m : Nat} {e : Int} (hd : IsDouble m e) :
    (Interval.ofParts m e).Holds ((shortest m e).digits * 10 ^ (shortest m e).exponent) := by
  unfold shortest
  cases hfound : (List.range 21).findSome? fun (step : Nat) =>
      (((Interval.ofParts m e).inPowersOfTen (decimalBound m e - (step : Int))).whole?).map
        fun n => Scaled.mk n (decimalBound m e - (step : Int)) with
  | none =>
    have hlast := List.findSome?_eq_none_iff.1 hfound 20 (by decide)
    have hsome : ((Interval.ofParts m e).inPowersOfTen
        (decimalBound m e - ((20 : Nat) : Int))).whole?.isSome = true := hd.isSome_whole?
    rw [Option.map_eq_none_iff.1 hlast] at hsome
    cases hsome
  | some s =>
    obtain ⟨step, -, hstep⟩ := List.exists_of_findSome?_eq_some hfound
    obtain ⟨n, hn, rfl⟩ := Option.map_eq_some_iff.1 hstep
    simp only [hfound, Option.getD_some]
    exact Interval.holds_of_contains (Interval.contains_of_whole? hn)

/-- The shortest decimal of a double is not zero. -/
theorem IsDouble.digits_shortest_pos {m : Nat} {e : Int} (hd : IsDouble m e) :
    0 < (shortest m e).digits := by
  refine Nat.pos_of_ne_zero fun hzero => ?_
  have hle := hd.le_of_holds hd.holds_shortest
  rw [hzero, Nat.cast_zero, zero_mul] at hle
  exact absurd (zpow_pos two_pos _) (not_lt.2 hle)

end GraphQubo.Decimal
