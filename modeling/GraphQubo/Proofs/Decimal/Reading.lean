import GraphQubo.Decimal.Reading
import GraphQubo.Proofs.Decimal.Binary64

/-!
# GraphQubo.Proofs.Decimal.Reading

A decimal in the interval of a double is read as that double.

Digits below `2^53` with a small power of ten are divided as doubles, which both
are exactly; any others are divided as whole numbers.  Either way the quotient is
rounded once.

* `ofScientific_eq` — a decimal without a sign;
* `toFloat_eq` — a decimal with one.
-/

namespace GraphQubo.Decimal

open Float.Model Float.Model.UnpackedFloat

/-! ## Whole numbers and powers of ten -/

/-- A double is rounded to itself. -/
theorem roundWithAccuracy_exact {m : Nat} {e : Int} (hd : IsDouble m e) (s : Sign) :
    roundWithAccuracy Format.binary64 s m e .exact = .finite s m e hd.pos := by
  have hlog := hd.log2_le
  have hmin := hd.min
  have hshift : (max ((m.log2 : Int) + e - 52) (-1074) - e).toNat = 0 := by omega
  exact roundWithAccuracy_of_rounded hd.pos hshift (Int.add_zero e) rfl
    (shiftToTargetExponent_of_lt hd.lt hmin)

/-- A natural number below the limit of exact integers is a double. -/
theorem isDouble_natural {n : Nat} (hn : 0 < n) (hlt : n < 2 ^ 53) :
    IsDouble (n * 2 ^ (52 - n.log2)) (n.log2 - 52) := by
  have hlog := log2_le_of_lt hlt
  have hsum {j : Nat} (hj : n.log2 ≤ j) : 2 ^ n.log2 * 2 ^ (j - n.log2) = 2 ^ j := by
    rw [← pow_add, Nat.add_sub_cancel' hj]
  refine ⟨by positivity, ?_, by omega, by omega, .inl ?_⟩
  · calc n * 2 ^ (52 - n.log2) < 2 ^ (n.log2 + 1) * 2 ^ (52 - n.log2) := by
          gcongr
          exact Nat.lt_log2_self
      _ = 2 * (2 ^ n.log2 * 2 ^ (52 - n.log2)) := by ring
      _ = 2 ^ 53 := by rw [hsum hlog]; norm_num
  · calc 2 ^ 52 = 2 ^ n.log2 * 2 ^ (52 - n.log2) := (hsum hlog).symm
      _ ≤ n * 2 ^ (52 - n.log2) := by
          gcongr
          exact Nat.log2_self_le hn.ne'

/-- A whole number below `2^53` is a double. -/
theorem unpack_natural {n : Nat} (hn : 0 < n) (hlt : n < 2 ^ 53) :
    (n.toUInt64.toFloat).toModel.unpack =
      .finite .positive (n * 2 ^ (52 - n.log2)) (n.log2 - 52) (isDouble_natural hn hlt).pos := by
  have hd := isDouble_natural hn hlt
  have hlog := log2_le_of_lt hlt
  have hword : n.toUInt64.toNat = n := by
    rw [Nat.toUInt64, UInt64.toNat_ofNat']
    exact Nat.mod_eq_of_lt (by omega)
  have htarget : Format.binary64.targetExponent (totalExponent n 0) = n.log2 - 52 := by
    rw [targetExponent_eq, totalExponent]
    omega
  have hshift : (0 - ((n.log2 : Int) - 52)).toNat = 52 - n.log2 := by omega
  have hexponent : (0 : Int) - (52 - n.log2 : Nat) = n.log2 - 52 := by omega
  have hround : UnpackedFloat.ofNat Format.binary64 n =
      .finite .positive (n * 2 ^ (52 - n.log2)) (n.log2 - 52) hd.pos := by
    rw [UnpackedFloat.ofNat, UnpackedFloat.ofInt, UnpackedFloat.normalize,
      Int.compare_eq_gt.2 (Int.natCast_pos.2 hn)]
    simp only [Int.toNat_natCast, UnpackedFloat.round, htarget, decreaseExponent, hshift,
      hexponent, Nat.shiftLeft_eq, roundWithAccuracy_exact hd]
  change (Float.Model.pack (UnpackedFloat.ofNat Format.binary64 n.toUInt64.toNat)).unpack = _
  rw [hword, hround, hd.unpack_pack]

/-- The powers of ten up to `10^22` are doubles. -/
theorem parts_powerOfTen {k : Nat} (hk : k < Float.exactlyRepresentablePowersOfTen.size) :
    ∃ p q, Parts.of (Float.exactlyRepresentablePowersOfTen[k]) = .finite false p q ∧
      p * 2 ^ q.toNat = 10 ^ k * 2 ^ (-q).toNat := by
  have h : ∀ k : Fin 23,
      Parts.of (Float.exactlyRepresentablePowersOfTen[k.val]) = .finite false
        (10 ^ k.val * 2 ^ (52 - (10 ^ k.val).log2) / 2 ^ ((10 ^ k.val).log2 - 52))
        ((10 ^ k.val).log2 - 52) ∧
      10 ^ k.val * 2 ^ (52 - (10 ^ k.val).log2) / 2 ^ ((10 ^ k.val).log2 - 52) *
        2 ^ (((10 ^ k.val).log2 : Int) - 52).toNat =
          10 ^ k.val * 2 ^ (-(((10 ^ k.val).log2 : Int) - 52)).toNat := by
    decide +kernel
  exact ⟨_, _, h ⟨k, hk⟩⟩

/-! ## Reading -/

/-- The opposite of a double has the opposite sign. -/
theorem IsDouble.neg_pack {m : Nat} {e : Int} (hd : IsDouble m e) (s : Sign) :
    -Float.ofModel (Float.Model.pack (.finite s m e hd.pos)) =
      Float.ofModel (Float.Model.pack (.finite (-s) m e hd.pos)) := by
  change Float.ofModel (Float.Model.pack (Float.Model.pack _).unpack.neg) = _
  rw [hd.unpack_pack]
  rfl

section Reading

variable {m n k : Nat} {e : Int} (hd : IsDouble m e)
  (hx : (Interval.ofParts m e).Holds (n / 10 ^ k))

include hd hx

/-- A quotient by a small power of ten, as it is computed with doubles. -/
theorem div_powerOfTen (hn : 0 < n) (hlt : n < 2 ^ 53)
    (hk : k < Float.exactlyRepresentablePowersOfTen.size) :
    n.toUInt64.toFloat / Float.exactlyRepresentablePowersOfTen[k] =
      Float.ofModel (Float.Model.pack (.finite .positive m e hd.pos)) := by
  obtain ⟨p, q, hparts, hpower⟩ := parts_powerOfTen hk
  have hp : 0 < p := by
    have hpos : 0 < p * 2 ^ q.toNat := by
      rw [hpower]
      positivity
    exact Nat.pos_of_mul_pos_right hpos
  have hnum : ((n * 2 ^ (52 - n.log2) : Nat) : ℚ) * 2 ^ ((n.log2 : Int) - 52) = n := by
    have hlog := log2_le_of_lt hlt
    have hexponents : ((52 - n.log2 : Nat) : Int) + (n.log2 - 52) = 0 := by omega
    push_cast
    rw [mul_assoc, ← zpow_natCast, ← zpow_add₀ two_ne_zero, hexponents, zpow_zero, mul_one]
  have hden : (p : ℚ) * 2 ^ q = 10 ^ k := by
    have hcast : (p : ℚ) * 2 ^ q.toNat = 10 ^ k * 2 ^ (-q).toNat := by exact_mod_cast hpower
    have hexponents : ((q.toNat : Nat) : Int) = q + (-q).toNat := by omega
    have hpow : (2 : ℚ) ^ q.toNat = 2 ^ q * 2 ^ (-q).toNat := by
      rw [← zpow_natCast, hexponents, zpow_add₀ two_ne_zero, zpow_natCast]
    rw [hpow, ← mul_assoc] at hcast
    exact mul_right_cancel₀ (by positivity) hcast
  have hdiv : UnpackedFloat.div Format.binary64
      (.finite .positive _ _ (isDouble_natural hn hlt).pos) (.finite .positive p q hp) =
        .finite .positive m e hd.pos := div_eq hd (by rwa [hnum, hden])
  change Float.ofModel (Float.Model.pack (UnpackedFloat.div Format.binary64
    (n.toUInt64.toFloat).toModel.unpack _)) = _
  rw [unpack_natural hn hlt, unpack_toModel_finite hp hparts]
  exact congrArg (fun f => Float.ofModel (Float.Model.pack f)) hdiv

/-- No decimal that is read as a double is below half of the least double. -/
theorem powerOfTen_le : 10 ^ k ≤ n * 2 ^ 1075 := by
  have hmin := hd.min
  have hleast : (2 : ℚ) ^ (-(1075 : Nat) : Int) ≤ n / 10 ^ k :=
    (zpow_le_zpow_right₀ one_le_two (by omega)).trans (hd.le_of_holds hx)
  rw [zpow_neg, zpow_natCast, le_div_iff₀ (by positivity), inv_mul_le_iff₀ (by positivity)] at hleast
  rw [mul_comm]
  exact_mod_cast hleast

theorem digits_pos : 0 < n := by
  have hlow := powerOfTen_le hd hx
  rcases Nat.eq_zero_or_pos n with rfl | hpos
  · rw [Nat.zero_mul] at hlow
    exact absurd hlow (Nat.not_le.2 (by positivity))
  · exact hpos

theorem lt_log2_digits : k < n.log2 + 1076 := by
  have hlt : 2 ^ k < 2 ^ (n.log2 + 1 + 1075) :=
    calc 2 ^ k ≤ 10 ^ k := Nat.pow_le_pow_left (by decide) k
      _ ≤ n * 2 ^ 1075 := powerOfTen_le hd hx
      _ < 2 ^ (n.log2 + 1) * 2 ^ 1075 :=
        Nat.mul_lt_mul_of_pos_right Nat.lt_log2_self (by positivity)
      _ = 2 ^ (n.log2 + 1 + 1075) := (pow_add _ _ _).symm
  exact (Nat.pow_lt_pow_iff_right (by decide)).1 hlt

theorem lt_length_digits : k < (Nat.toDigits 10 n).length + 400 := by
  have hdigits : n < 10 ^ (Nat.toDigits 10 n).length :=
    (Nat.length_toDigits_le_iff (by decide) Nat.length_toDigits_pos).1 (Nat.le_refl _)
  have hlt : 10 ^ k < 10 ^ ((Nat.toDigits 10 n).length + 400) :=
    calc 10 ^ k ≤ n * 2 ^ 1075 := powerOfTen_le hd hx
      _ < 10 ^ (Nat.toDigits 10 n).length * 2 ^ 1075 :=
        Nat.mul_lt_mul_of_pos_right hdigits (by positivity)
      _ ≤ 10 ^ (Nat.toDigits 10 n).length * 10 ^ 400 :=
        Nat.mul_le_mul_left _ (by decide +kernel)
      _ = 10 ^ ((Nat.toDigits 10 n).length + 400) := (pow_add _ _ _).symm
  exact (Nat.pow_lt_pow_iff_right (by decide)).1 hlt

/-- A decimal in the interval of a double is read as that double. -/
theorem ofScientific_eq (hk : 0 < k) :
    Float.ofScientific n true k =
      Float.ofModel (Float.Model.pack (.finite .positive m e hd.pos)) := by
  have hn := digits_pos hd hx
  unfold Float.ofScientific
  split
  · rename_i h
    exact div_powerOfTen hd hx hn h.1 (Nat.lt_succ_of_le h.2)
  · have hlog := lt_log2_digits hd hx
    have hgreat : ¬(-(k : Int) > 2 ^ Format.binary64.exponentBits) := by
      change ¬(-(k : Int) > 2 ^ 11)
      omega
    have hsmall : ¬(-(k : Int) < -(2 ^ Format.binary64.exponentBits + n.log2)) := by
      change ¬(-(k : Int) < -(2 ^ 11 + n.log2))
      omega
    have hneg : ¬(0 ≤ -(k : Int)) := by omega
    have hten : (- -(k : Int)).toNat = k := by omega
    have hquotient : (n : ℚ) * 2 ^ (0 : Int) / ((10 ^ k : Nat) * 2 ^ (0 : Int)) = n / 10 ^ k := by
      push_cast
      simp
    have hscientific : UnpackedFloat.ofScientific Format.binary64 n (-(k : Int)) =
        .finite .positive m e hd.pos := by
      rw [UnpackedFloat.ofScientific, dif_neg hn.ne', if_neg hgreat, if_neg hsmall, if_neg hneg]
      simp only [hten]
      exact div_eq hd (by rwa [hquotient])
    change Float.ofModel (Float.Model.pack
      (UnpackedFloat.ofScientific Format.binary64 n (Int.negOfNat k))) = _
    rw [Int.negOfNat_eq]
    exact congrArg (fun f => Float.ofModel (Float.Model.pack f)) hscientific

/-- Digits and an exponent in the interval of a double are read as that double. -/
theorem toFloat_eq {x : Float} {negative : Bool} (hparts : Parts.of x = .finite negative m e)
    (hk : 0 < k) : toFloat negative n (-(k : Int)) = x := by
  have hn := (digits_pos hd hx).ne'
  have hlength := lt_length_digits hd hx
  have hsmall : ¬(-(k : Int) + (Nat.toDigits 10 n).length < -400) := by omega
  have hgreat : ¬(400 < -(k : Int)) := by omega
  have hmagnitude : Float.ofScientific n (decide (-(k : Int) < 0)) (-(k : Int)).natAbs =
      Float.ofModel (Float.Model.pack (.finite .positive m e hd.pos)) := by
    rw [decide_eq_true (by omega), Int.natAbs_neg, Int.natAbs_natCast]
    exact ofScientific_eq hd hx hk
  have hx' : x = Float.ofModel (Float.Model.pack (.finite (signOf negative) m e hd.pos)) :=
    (ofModel_pack (unpack_toModel_finite hd.pos hparts)).symm
  rw [toFloat, hx']
  simp only [hn, hgreat, hsmall, if_false, hmagnitude]
  cases negative with
  | false => rfl
  | true => exact hd.neg_pack _

end Reading

end GraphQubo.Decimal
