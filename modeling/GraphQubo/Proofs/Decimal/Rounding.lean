import Mathlib
import GraphQubo.Decimal.Shortest

/-!
# GraphQubo.Proofs.Decimal.Rounding

Numbers in the interval of a double are rounded to that double.

1. While a number is rounded, a mantissa and two bits below it say where the
   number lies: on the mantissa, or before, on or after the half above it.
   Shifting a place to the right keeps that meaning.
2. Rounding to the nearest even mantissa then depends on the number alone, so
   it does not matter in which place the number was measured first.
3. A double counts its last place from `2^52` up.  A number a quarter of a place
   below `2^52` is measured in half places and rounded up to that power of two.

* `Stands.shiftRight`, `Measures.roundToNearestEven` — the two steps of rounding;
* `Interval.Holds.bounds` — the interval of a double in units of its last place;
* `roundWithAccuracy_eq` — rounding a number that was measured finely enough;
* `div_eq` — a quotient.
-/

namespace GraphQubo.Decimal

open Float.Model Float.Model.UnpackedFloat

/-! ## Mantissas and what lies above them -/

/-- A number above a mantissa by less than one, compared with the half. -/
def Measures (m : Nat) (x : ℚ) : Accuracy → Prop
  | .exact => x = m
  | .inexact .lt => m < x ∧ x < m + 1 / 2
  | .inexact .eq => x = m + 1 / 2
  | .inexact .gt => m + 1 / 2 < x ∧ x < m + 1

/-- A mantissa with its two bits stands for a number. -/
def Stands (em : ExtendedMantissa) (x : ℚ) : Prop := Measures em.mantissa x em.accuracy

/-- A mantissa with its accuracy stands for the number that was measured. -/
theorem stands_ofMantissaAndAccuracy {m : Nat} {x : ℚ} {a : Accuracy} (h : Measures m x a) :
    Stands (.ofMantissaAndAccuracy m a) x := by
  rcases a with _ | (_ | _ | _) <;> exact h

/-- Dividing with remainder measures a fraction. -/
theorem measures_fraction (num : Nat) {den : Nat} (hden : 0 < den) :
    Measures (num / den) (num / den) (accuracyOfFraction (num % den) den) := by
  have hr := Nat.mod_lt num hden
  have hsum : (num : ℚ) / den = (num / den : Nat) + (num % den : Nat) / den := by
    have hcast : ((den * (num / den) + num % den : Nat) : ℚ) = num :=
      congrArg Nat.cast (Nat.div_add_mod num den)
    field_simp
    push_cast at hcast ⊢
    linarith
  have hpos : (0 : ℚ) < den := Nat.cast_pos.2 hden
  rw [hsum]
  generalize num / den = q, num % den = r at hr
  unfold accuracyOfFraction
  split
  · subst r
    simp [Measures]
  · have hrpos : (0 : ℚ) < r := Nat.cast_pos.2 (Nat.pos_of_ne_zero ‹_›)
    have hlt : (r : ℚ) / den < 1 := (div_lt_one hpos).2 (Nat.cast_lt.2 hr)
    have hgt : 0 < (r : ℚ) / den := div_pos hrpos hpos
    rcases Nat.lt_trichotomy (2 * r) den with h | h | h
    · have hhalf : (r : ℚ) / den < 1 / 2 := by
        rw [div_lt_div_iff₀ hpos two_pos]
        exact_mod_cast (by omega : r * 2 < 1 * den)
      rw [Nat.compare_eq_lt.2 h]
      exact ⟨by linarith, by linarith⟩
    · have hhalf : (r : ℚ) / den = 1 / 2 := by
        rw [div_eq_div_iff hpos.ne' two_ne_zero]
        exact_mod_cast (by omega : r * 2 = 1 * den)
      rw [Nat.compare_eq_eq.2 h]
      exact congrArg _ hhalf
    · have hhalf : 1 / 2 < (r : ℚ) / den := by
        rw [div_lt_div_iff₀ two_pos hpos]
        exact_mod_cast (by omega : 1 * den < r * 2)
      rw [Nat.compare_eq_gt.2 h]
      exact ⟨by linarith, by linarith⟩

/-- Dropping a bit halves the number, the accuracy keeping what is lost. -/
theorem Stands.shiftRightOne {em : ExtendedMantissa} {x : ℚ} (h : Stands em x) :
    Stands em.shiftRightOne (x / 2) := by
  obtain ⟨m, round, sticky⟩ := em
  have hm : (m : ℚ) = 2 * (m / 2 : Nat) + (m % 2 : Nat) := by
    exact_mod_cast (Nat.div_add_mod m 2).symm
  have hbits : (0 != 0) = false ∧ (1 != 0) = true := ⟨rfl, rfl⟩
  -- one case for each value of the three bits below the new mantissa
  rcases Nat.mod_two_eq_zero_or_one m with hmod | hmod <;> cases round <;> cases sticky <;>
    simp only [Stands, Measures, ExtendedMantissa.accuracy, ExtendedMantissa.shiftRightOne,
      hmod, hbits, Bool.or_self, Bool.or_true, Bool.true_or, Nat.cast_zero,
      Nat.cast_one] at h hm ⊢ <;>
    first | linarith | exact ⟨by linarith, by linarith⟩

/-- Dropping bits divides the number by a power of two. -/
theorem Stands.shiftRight {em : ExtendedMantissa} {x : ℚ} (h : Stands em x) (k : Nat) :
    Stands (em >>> k) (x / 2 ^ k) := by
  induction k with
  | zero => rwa [pow_zero, div_one]
  | succ k ih =>
    rw [pow_succ, ← div_div]
    exact ih.shiftRightOne

/-- A number is rounded to a mantissa that is at most a half away, and to an odd one only if it
is nearer. -/
theorem Measures.roundToNearestEven {m n : Nat} {x : ℚ} {a : Accuracy} (h : Measures m x a)
    (hlow : (n : ℚ) - 1 / 2 ≤ x) (hhigh : x ≤ n + 1 / 2)
    (hodd : n % 2 = 1 → (n : ℚ) - 1 / 2 < x ∧ x < n + 1 / 2) :
    Accuracy.roundToNearestEven m a = n := by
  -- every bound on `m` is one between whole numbers or half of one
  have hle {i j : Int} (hij : (i : ℚ) < j + 1) : i ≤ j := Int.lt_add_one_iff.1 (by exact_mod_cast hij)
  rcases a with _ | (_ | _ | _)
  · obtain rfl : x = m := h
    have h₁ : (n : Int) ≤ m := hle (by push_cast; linarith)
    have h₂ : (m : Int) ≤ n := hle (by push_cast; linarith)
    exact Nat.le_antisymm (by exact_mod_cast h₂) (by exact_mod_cast h₁)
  · obtain ⟨hx, hx'⟩ : (m : ℚ) < x ∧ x < m + 1 / 2 := h
    have h₁ : (n : Int) ≤ m := hle (by push_cast; linarith)
    have h₂ : (m : Int) ≤ n := hle (by push_cast; linarith)
    exact Nat.le_antisymm (by exact_mod_cast h₂) (by exact_mod_cast h₁)
  · obtain rfl : x = m + 1 / 2 := h
    have h₁ : (n : Int) ≤ m + 1 := hle (by push_cast; linarith)
    have h₂ : (m : Int) ≤ n := hle (by push_cast; linarith)
    have hcases : n = m ∨ n = m + 1 := by omega
    have heven : n % 2 = 0 := by
      refine (Nat.mod_two_eq_zero_or_one n).resolve_right fun hn => ?_
      obtain ⟨hlow, hhigh⟩ := hodd hn
      rcases hcases with rfl | rfl
      · exact lt_irrefl _ hhigh
      · push_cast at hlow
        linarith
    rcases hcases with rfl | rfl <;> simp only [Accuracy.roundToNearestEven] <;> omega
  · obtain ⟨hx, hx'⟩ : (m : ℚ) + 1 / 2 < x ∧ x < m + 1 := h
    have h₁ : (n : Int) ≤ m + 1 := hle (by push_cast; linarith)
    have h₂ : (m + 1 : Int) ≤ n := hle (by push_cast; linarith)
    exact Nat.le_antisymm (by exact_mod_cast h₂) (by exact_mod_cast h₁)

/-- A number lies between its mantissa and the next. -/
theorem Measures.bounds {m : Nat} {x : ℚ} {a : Accuracy} (h : Measures m x a) :
    (m : ℚ) ≤ x ∧ x < m + 1 := by
  rcases a with _ | (_ | _ | _)
  · obtain rfl : x = m := h
    exact ⟨le_refl _, by linarith⟩
  · exact ⟨h.1.le, by linarith [h.2]⟩
  · obtain rfl : x = m + 1 / 2 := h
    exact ⟨by linarith, by linarith⟩
  · exact ⟨by linarith [h.1], h.2⟩

/-! ## Intervals -/

/-- The significand and the exponent of a double that is neither zero nor infinite. -/
structure IsDouble (m : Nat) (e : Int) : Prop where
  pos : 0 < m
  lt : m < 2 ^ 53
  min : -1074 ≤ e
  max : e ≤ 971
  normal : 2 ^ 52 ≤ m ∨ e = -1074

/-- A number lies in an interval. -/
def Interval.Holds (i : Interval) (x : ℚ) : Prop :=
  if i.closed then (i.low : ℚ) ≤ x * i.unit ∧ x * i.unit ≤ i.high
  else (i.low : ℚ) < x * i.unit ∧ x * i.unit < i.high

/-- How far an interval reaches below its double, in quarters of the last place. -/
def quartersBelow (m : Nat) (e : Int) : Nat := if m = hiddenBit ∧ -1074 < e then 1 else 2

theorem powerOfTwo_pos (n : Nat) : 0 < powerOfTwo n := Nat.pow_pos (by decide)

/-- Counted in the unit of an interval, the last place of its double is four times the scale. -/
theorem cast_unit (e : Int) :
    (powerOfTwo (2 - e).toNat : ℚ) * 2 ^ e = 4 * powerOfTwo (e - 2).toNat := by
  have hfour : (4 : ℚ) = 2 ^ (2 : Int) := by norm_num
  simp only [powerOfTwo, Nat.pow_eq, Nat.cast_pow, Nat.cast_ofNat, hfour, ← zpow_natCast,
    ← zpow_add₀ (two_ne_zero' ℚ)]
  congr 1
  omega

/-- The interval of a double, measured in its last place. -/
theorem Interval.Holds.bounds {m : Nat} {e : Int} {y : ℚ} (hm : 0 < m)
    (h : (Interval.ofParts m e).Holds (y * 2 ^ e)) :
    ((m : ℚ) - quartersBelow m e / 4 ≤ y ∧ y ≤ m + 1 / 2) ∧
      (m % 2 = 1 → (m : ℚ) - quartersBelow m e / 4 < y ∧ y < m + 1 / 2) := by
  have hscale : (0 : ℚ) < powerOfTwo (e - 2).toNat := Nat.cast_pos.2 (powerOfTwo_pos _)
  have hbelow : quartersBelow m e ≤ 4 * m := by
    unfold quartersBelow
    split <;> omega
  have hlow : ((Interval.ofParts m e).low : ℚ) =
      (4 * m - quartersBelow m e) * powerOfTwo (e - 2).toNat := by
    have heq : (Interval.ofParts m e).low =
        (4 * m - quartersBelow m e) * powerOfTwo (e - 2).toNat := rfl
    rw [heq]
    push_cast [Nat.cast_sub hbelow]
    ring
  have hhigh : ((Interval.ofParts m e).high : ℚ) =
      (4 * m + 2) * powerOfTwo (e - 2).toNat := by
    simp [Interval.ofParts]
  have hplace : y * 2 ^ e * ((Interval.ofParts m e).unit : ℚ) =
      4 * y * powerOfTwo (e - 2).toNat := by
    have hunit : ((Interval.ofParts m e).unit : ℚ) * 2 ^ e = 4 * powerOfTwo (e - 2).toNat :=
      cast_unit e
    linear_combination y * hunit
  unfold Interval.Holds at h
  rw [hlow, hhigh, hplace] at h
  split at h
  · rename_i hclosed
    have heven : m % 2 = 0 := by simpa [Interval.ofParts] using hclosed
    have h₁ := le_of_mul_le_mul_right h.1 hscale
    have h₂ := le_of_mul_le_mul_right h.2 hscale
    exact ⟨⟨by linarith, by linarith⟩, fun hodd => absurd hodd (by omega)⟩
  · have h₁ := lt_of_mul_lt_mul_right h.1 hscale.le
    have h₂ := lt_of_mul_lt_mul_right h.2 hscale.le
    have hstrict : (m : ℚ) - quartersBelow m e / 4 < y ∧ y < m + 1 / 2 :=
      ⟨by linarith, by linarith⟩
    exact ⟨⟨hstrict.1.le, hstrict.2.le⟩, fun _ => hstrict⟩

/-! ## Rounding -/

/-- The exponent that a double of given size gets. -/
theorem targetExponent_eq (t : Int) :
    Format.binary64.targetExponent t = max (t - 53) (-1074) := rfl

theorem log2_le_of_lt {m : Nat} (hm : m < 2 ^ 53) : m.log2 ≤ 52 := by
  rcases Nat.eq_zero_or_pos m with rfl | hpos
  · decide
  · exact Nat.le_of_lt_succ ((Nat.log2_lt hpos.ne').2 hm)

/-- The significand of a double has at most 53 bits. -/
theorem IsDouble.log2_le {m : Nat} {e : Int} (hd : IsDouble m e) : m.log2 ≤ 52 :=
  log2_le_of_lt hd.lt

/-- Shifting to the exponent of a double, with the number of dropped bits. -/
theorem shiftToTargetExponent_eq (m : Nat) (e : Int) (a : Accuracy) :
    shiftToTargetExponent Format.binary64 m e a =
      (ExtendedMantissa.ofMantissaAndAccuracy m a >>> (max (m.log2 + e - 52) (-1074) - e).toNat,
        e + (max (m.log2 + e - 52) (-1074) - e).toNat) := by
  have htarget : Format.binary64.targetExponent (totalExponent m e) =
      max (m.log2 + e - 52) (-1074) := by
    rw [targetExponent_eq, totalExponent]
    congr 1
    omega
  rw [shiftToTargetExponent, htarget]
  rfl

/-- A significand of a double stays as it is. -/
theorem shiftToTargetExponent_of_lt {m : Nat} {e : Int} (hm : m < 2 ^ 53) (he : -1074 ≤ e) :
    shiftToTargetExponent Format.binary64 m e .exact =
      (ExtendedMantissa.ofMantissaAndAccuracy m .exact, e) := by
  have hlog := log2_le_of_lt hm
  have hzero : (max ((m.log2 : Int) + e - 52) (-1074) - e).toNat = 0 := by omega
  rw [shiftToTargetExponent_eq, hzero]
  exact Prod.ext rfl (Int.add_zero e)

/-- A significand that was rounded up to the next power of two loses a place. -/
theorem shiftToTargetExponent_carry {e : Int} (he : -1074 ≤ e) :
    shiftToTargetExponent Format.binary64 (2 ^ 53) e .exact =
      (ExtendedMantissa.ofMantissaAndAccuracy (2 ^ 52) .exact, e + 1) := by
  have hone : (max (((2 ^ 53 : Nat).log2 : Int) + e - 52) (-1074) - e).toNat = 1 := by
    rw [Nat.log2_two_pow]
    omega
  rw [shiftToTargetExponent_eq, hone]
  rfl

/-- What a first rounding gives is the result if it keeps or regains the form of a double. -/
theorem roundWithAccuracy_of_rounded {s : Sign} {m m₀ k : Nat} {t e e₀ : Int} {a : Accuracy}
    (hpos : 0 < m₀) (hshift : (max ((m.log2 : Int) + t - 52) (-1074) - t).toNat = k)
    (hsum : t + k = e) {r : Nat}
    (hr : (ExtendedMantissa.ofMantissaAndAccuracy m a >>> k).roundedMantissa = r)
    (hfinal : shiftToTargetExponent Format.binary64 r e .exact =
      (ExtendedMantissa.ofMantissaAndAccuracy m₀ .exact, e₀)) :
    roundWithAccuracy Format.binary64 s m t a = .finite s m₀ e₀ hpos := by
  rw [roundWithAccuracy, shiftToTargetExponent_eq, hshift]
  simp only [hr, hsum, hfinal]
  exact dif_neg hpos.ne'

namespace Measures

variable {m : Nat} {x : ℚ} {a : Accuracy} (h : Measures m x a)

include h

theorem log2_le {i k : Nat} (hx : x / 2 ^ k < 2 ^ (i + 1)) : m.log2 ≤ i + k := by
  rcases Nat.eq_zero_or_pos m with rfl | hpos
  · exact Nat.zero_le _
  · have hpow : x < 2 ^ (i + 1) * 2 ^ k := (div_lt_iff₀ (pow_pos two_pos k)).1 hx
    have hlt : m < 2 ^ (i + 1) * 2 ^ k := by exact_mod_cast h.bounds.1.trans_lt hpow
    rw [← pow_add, show i + 1 + k = i + k + 1 by omega] at hlt
    exact Nat.le_of_lt_succ ((Nat.log2_lt hpos.ne').2 hlt)

theorem le_log2 {i k : Nat} (hx : 2 ^ i ≤ x / 2 ^ k) : i + k ≤ m.log2 := by
  have hpow : 2 ^ i * 2 ^ k ≤ x := (le_div_iff₀ (pow_pos two_pos k)).1 hx
  have hcast : (2 : ℚ) ^ (i + k) < (m + 1 : Nat) := by
    push_cast
    rw [pow_add]
    exact hpow.trans_lt h.bounds.2
  have hle : 2 ^ (i + k) ≤ m := Nat.lt_succ_iff.1 (by exact_mod_cast hcast)
  have hne : m ≠ 0 := fun hzero => absurd (hzero ▸ hle) (by simp)
  exact (Nat.le_log2 hne).2 hle

end Measures

/-- The interval of a double reaches at most half a unit below it. -/
theorem quartersBelow_le (m : Nat) (e : Int) : (quartersBelow m e : ℚ) ≤ 2 := by
  have hle : quartersBelow m e ≤ 2 := by
    unfold quartersBelow
    split <;> omega
  exact_mod_cast hle

section Round

variable {m k : Nat} {t : Int} {x : ℚ} {a : Accuracy} (hm : Measures m x a) (s : Sign)

include hm

/-- After `k` places a number is rounded to the mantissa next to it. -/
theorem roundedMantissa_shiftRight {n : Nat} (hlow : (n : ℚ) - 1 / 2 ≤ x / 2 ^ k)
    (hhigh : x / 2 ^ k ≤ n + 1 / 2)
    (hodd : n % 2 = 1 → (n : ℚ) - 1 / 2 < x / 2 ^ k ∧ x / 2 ^ k < n + 1 / 2) :
    (ExtendedMantissa.ofMantissaAndAccuracy m a >>> k).roundedMantissa = n :=
  ((stands_ofMantissaAndAccuracy hm).shiftRight k).roundToNearestEven hlow hhigh hodd

/-- A number around a double is rounded to it if it is counted in the same places. -/
theorem roundWithAccuracy_around {m₀ : Nat} (hd : IsDouble m₀ (t + k))
    (hlow : (m₀ : ℚ) - 1 / 2 ≤ x / 2 ^ k) (hhigh : x / 2 ^ k ≤ m₀ + 1 / 2)
    (hodd : m₀ % 2 = 1 → (m₀ : ℚ) - 1 / 2 < x / 2 ^ k ∧ x / 2 ^ k < m₀ + 1 / 2)
    (hnormal : 2 ^ 52 ≤ x / 2 ^ k ∨ t + k = -1074) :
    roundWithAccuracy Format.binary64 s m t a = .finite s m₀ (t + k) hd.pos := by
  have hmin := hd.min
  have hlt : (m₀ : ℚ) + 1 ≤ 2 ^ 53 := by exact_mod_cast hd.lt
  have hupper : m.log2 ≤ 52 + k := hm.log2_le (by linarith)
  have hlower : t + k = -1074 ∨ 52 + k ≤ m.log2 :=
    hnormal.symm.imp_right fun hle => hm.le_log2 hle
  have hshift : (max ((m.log2 : Int) + t - 52) (-1074) - t).toNat = k := by omega
  exact roundWithAccuracy_of_rounded hd.pos hshift rfl
    (roundedMantissa_shiftRight hm hlow hhigh hodd) (shiftToTargetExponent_of_lt hd.lt hmin)

/-- A number just below a power of two is counted in half places and rounded up to it. -/
theorem roundWithAccuracy_below (hd : IsDouble (2 ^ 52) (t + (k + 1 : Nat)))
    (hexp : -1074 < t + (k + 1 : Nat)) (hlow : (2 : ℚ) ^ 52 - 1 / 4 ≤ x / 2 ^ (k + 1))
    (hpower : x / 2 ^ (k + 1) < 2 ^ 52) :
    roundWithAccuracy Format.binary64 s m t a = .finite s (2 ^ 52) (t + (k + 1 : Nat)) hd.pos := by
  have hhalves : x / 2 ^ k = 2 * (x / 2 ^ (k + 1)) := by
    rw [pow_succ]
    field_simp
  have hupper : m.log2 ≤ 52 + k := hm.log2_le (by linarith)
  have hlower : 52 + k ≤ m.log2 := hm.le_log2 (by linarith)
  have hshift : (max ((m.log2 : Int) + t - 52) (-1074) - t).toNat = k := by omega
  have hcarry : shiftToTargetExponent Format.binary64 (2 ^ 53) (t + k) .exact =
      (ExtendedMantissa.ofMantissaAndAccuracy (2 ^ 52) .exact, t + (k + 1 : Nat)) := by
    rw [shiftToTargetExponent_carry (by omega)]
    congr 1
    omega
  refine roundWithAccuracy_of_rounded hd.pos hshift rfl
    (roundedMantissa_shiftRight hm ?_ ?_ fun hodd => absurd hodd (by decide)) hcarry
  · push_cast
    linarith
  · push_cast
    linarith

end Round

/-- A number in the interval of a double is rounded to it, if it is measured finely enough. -/
theorem roundWithAccuracy_eq {m₀ : Nat} {e₀ : Int} (hd : IsDouble m₀ e₀) (s : Sign) {m : Nat}
    {t : Int} {a : Accuracy} {x : ℚ} (hm : Measures m x a)
    (hx : (Interval.ofParts m₀ e₀).Holds (x * 2 ^ t)) (ht : t ≤ e₀)
    (hbelow : x * 2 ^ t < 2 ^ 52 * 2 ^ e₀ → -1074 < e₀ → t < e₀) :
    roundWithAccuracy Format.binary64 s m t a = .finite s m₀ e₀ hd.pos := by
  obtain ⟨k, rfl⟩ := Int.le.dest ht
  have hvalue : x * 2 ^ t = x / 2 ^ k * 2 ^ (t + k : Int) := by
    rw [zpow_add₀ two_ne_zero, zpow_natCast]
    field_simp
  rw [hvalue] at hx hbelow
  obtain ⟨⟨hlow, hhigh⟩, hodd⟩ := hx.bounds hd.pos
  have hquarters := quartersBelow_le m₀ (t + k)
  have hmin := hd.min
  by_cases hnormal : 2 ^ 52 ≤ x / 2 ^ k ∨ t + k = -1074
  · exact roundWithAccuracy_around hm s hd (by linarith) hhigh
      (fun hn => ⟨by linarith [(hodd hn).1], (hodd hn).2⟩) hnormal
  · obtain ⟨hpower, hexp⟩ := not_or.1 hnormal
    have hpower := not_le.1 hpower
    have hexp : -1074 < t + (k : Int) := by omega
    have hfine := hbelow (mul_lt_mul_of_pos_right hpower (zpow_pos two_pos _)) hexp
    obtain ⟨j, rfl⟩ : ∃ j, k = j + 1 := ⟨k - 1, by omega⟩
    -- the significand is at most half a place above a number below `2^52`
    have hm₀ : m₀ = 2 ^ 52 := by
      have hlt : (m₀ : ℚ) < (2 ^ 52 + 1 : Nat) := by
        push_cast
        linarith
      have hge := hd.normal.resolve_right hexp.ne'
      have hle : m₀ < 2 ^ 52 + 1 := by exact_mod_cast hlt
      omega
    subst hm₀
    have hone : quartersBelow (2 ^ 52) (t + (j + 1 : Nat)) = 1 := if_pos ⟨rfl, hexp⟩
    rw [hone] at hlow
    push_cast at hlow
    exact roundWithAccuracy_below hm s hd hexp hlow hpower

/-! ## Division -/

/-- A quotient is more than the power of two that its logarithms tell. -/
theorem zpow_lt_quotient {m₁ m₂ : Nat} (h₁ : 0 < m₁) (h₂ : 0 < m₂) (e₁ e₂ : Int) :
    (2 : ℚ) ^ ((m₁.log2 : Int) + e₁ - m₂.log2 - 1 - e₂) < m₁ * 2 ^ e₁ / (m₂ * 2 ^ e₂) := by
  have hlow : (2 : ℚ) ^ m₁.log2 ≤ m₁ := by exact_mod_cast Nat.log2_self_le h₁.ne'
  have hhigh : (m₂ : ℚ) < 2 ^ (m₂.log2 + 1) := by exact_mod_cast Nat.lt_log2_self
  have hpos : (0 : ℚ) < m₂ := Nat.cast_pos.2 h₂
  have hsplit : (2 : ℚ) ^ ((m₁.log2 : Int) + e₁ - m₂.log2 - 1 - e₂) =
      2 ^ m₁.log2 * 2 ^ e₁ / (2 ^ (m₂.log2 + 1) * 2 ^ e₂) := by
    simp only [← zpow_natCast, ← zpow_add₀ (two_ne_zero' ℚ), ← zpow_sub₀ (two_ne_zero' ℚ)]
    congr 1
    push_cast
    omega
  rw [hsplit]
  calc (2 : ℚ) ^ m₁.log2 * 2 ^ e₁ / (2 ^ (m₂.log2 + 1) * 2 ^ e₂)
      ≤ m₁ * 2 ^ e₁ / (2 ^ (m₂.log2 + 1) * 2 ^ e₂) := by gcongr
    _ < m₁ * 2 ^ e₁ / (m₂ * 2 ^ e₂) := by
      have hnum : (0 : ℚ) < m₁ := Nat.cast_pos.2 h₁
      gcongr

/-- A number in the interval of a double is less than the next power of two. -/
theorem IsDouble.lt_of_holds {m : Nat} {e : Int} (hd : IsDouble m e) {x : ℚ}
    (hx : (Interval.ofParts m e).Holds x) : x < 2 ^ (e + 53) := by
  have hunit : (0 : ℚ) < 2 ^ e := zpow_pos two_pos _
  have hvalue : x / 2 ^ e * 2 ^ e = x := div_mul_cancel₀ _ hunit.ne'
  rw [← hvalue] at hx
  have hhigh := (hx.bounds hd.pos).1.2
  have hlt : (m : ℚ) + 1 ≤ 2 ^ 53 := by exact_mod_cast hd.lt
  rw [← hvalue, zpow_add₀ two_ne_zero, mul_comm]
  refine mul_lt_mul_of_pos_left ?_ hunit
  norm_num at hlt ⊢
  linarith

/-- A number in the interval of a double is at least half of its last place. -/
theorem IsDouble.le_of_holds {m : Nat} {e : Int} (hd : IsDouble m e) {x : ℚ}
    (hx : (Interval.ofParts m e).Holds x) : (2 : ℚ) ^ (e - 1) ≤ x := by
  have hunit : (0 : ℚ) < 2 ^ e := zpow_pos two_pos _
  have hvalue : x / 2 ^ e * 2 ^ e = x := div_mul_cancel₀ _ hunit.ne'
  rw [← hvalue] at hx
  have hlow := (hx.bounds hd.pos).1.1
  have hquarters := quartersBelow_le m e
  have hone : (1 : ℚ) ≤ m := by exact_mod_cast hd.pos
  have hhalf : (1 / 2 : ℚ) ≤ x / 2 ^ e := by linarith
  calc (2 : ℚ) ^ (e - 1) = 1 / 2 * 2 ^ e := by
        rw [zpow_sub_one₀ two_ne_zero]
        ring
    _ ≤ x / 2 ^ e * 2 ^ e := mul_le_mul_of_nonneg_right hhalf hunit.le
    _ = x := hvalue

/-- A quotient in the interval of a double is that double. -/
theorem div_eq {m₀ : Nat} {e₀ : Int} (hd : IsDouble m₀ e₀) {s₁ s₂ : Sign} {m₁ m₂ : Nat}
    {e₁ e₂ : Int} {h₁ : 0 < m₁} {h₂ : 0 < m₂}
    (hx : (Interval.ofParts m₀ e₀).Holds (m₁ * 2 ^ e₁ / (m₂ * 2 ^ e₂))) :
    UnpackedFloat.div Format.binary64 (.finite s₁ m₁ e₁ h₁) (.finite s₂ m₂ e₂ h₂) =
      .finite (s₁ / s₂) m₀ e₀ hd.pos := by
  obtain ⟨t, ht⟩ : ∃ t,
      t = min (e₁ - e₂) (max ((m₁.log2 : Int) + e₁ - m₂.log2 - e₂ - 53) (-1074)) := ⟨_, rfl⟩
  obtain ⟨j, hj⟩ := Int.eq_ofNat_of_zero_le (show 0 ≤ e₁ - e₂ - t by omega)
  have htarget : min (e₁ - e₂) (Format.binary64.targetExponent
      (totalExponent m₁ e₁ - totalExponent m₂ e₂)) = t := by
    rw [ht, targetExponent_eq, totalExponent, totalExponent]
    congr 2
    omega
  have hcore : divCore Format.binary64 m₁ e₁ m₂ e₂ =
      (m₁ * 2 ^ j / m₂, t, accuracyOfFraction (m₁ * 2 ^ j % m₂) m₂) := by
    simp only [divCore, htarget, hj, Int.toNat_natCast, Nat.shiftLeft_eq]
  have hvalue : ((m₁ * 2 ^ j : Nat) : ℚ) / m₂ * 2 ^ t = m₁ * 2 ^ e₁ / (m₂ * 2 ^ e₂) := by
    have hpow : (2 : ℚ) ^ j * 2 ^ t = 2 ^ e₁ / 2 ^ e₂ := by
      rw [← zpow_natCast, ← zpow_add₀ two_ne_zero, ← zpow_sub₀ two_ne_zero]
      congr 1
      omega
    push_cast
    rw [mul_div_right_comm, mul_assoc, hpow]
    field_simp
  have hquotient := zpow_lt_quotient h₁ h₂ e₁ e₂
  have hlog := (zpow_lt_zpow_iff_right₀ one_lt_two).1 (hquotient.trans (hd.lt_of_holds hx))
  have hmin := hd.min
  rw [← hvalue] at hx hquotient
  simp only [UnpackedFloat.div, hcore]
  refine roundWithAccuracy_eq hd _ (measures_fraction _ h₂) hx (by omega) fun hsmall hexp => ?_
  have hsplit : (2 : ℚ) ^ 52 * 2 ^ e₀ = 2 ^ (52 + e₀) := by
    rw [zpow_add₀ two_ne_zero]
    rfl
  rw [hsplit] at hsmall
  have hlog := (zpow_lt_zpow_iff_right₀ one_lt_two).1 (hquotient.trans hsmall)
  omega

end GraphQubo.Decimal
