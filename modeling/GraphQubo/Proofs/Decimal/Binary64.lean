import GraphQubo.Proofs.Decimal.Rounding

/-!
# GraphQubo.Proofs.Decimal.Binary64

The parts that are read off the bits of a double are those that the arithmetic
of the standard library works on.

* `unpack_toModel` — the parts of a double;
* `isDouble_of_parts` — the bounds that its significand and exponent keep;
* `IsDouble.unpack_pack`, `ofModel_pack` — there and back.
-/

namespace GraphQubo.Decimal

open Float.Model Float.Model.UnpackedFloat

/-! ## Fields of a word -/

section Fields

variable (bits : UInt64)

/-- The mantissa in the fields of a double. -/
theorem toNat_unpackMantissa : (@unpackMantissa Format.binary64 bits.toBitVec).toNat =
    (bits &&& 0xfffffffffffff).toNat := by
  have hmask : (0xfffffffffffff : UInt64).toNat = 2 ^ 52 - 1 := rfl
  rw [UInt64.toNat_and, hmask, Nat.and_two_pow_sub_one_eq_mod]
  simp [unpackMantissa]

/-- The exponent in the fields of a double. -/
theorem toNat_unpackExponent : (@unpackExponent Format.binary64 bits.toBitVec).toNat =
    (bits >>> 52 &&& 0x7ff).toNat := by
  have hmask : (0x7ff : UInt64).toNat = 2 ^ 11 - 1 := rfl
  rw [UInt64.toNat_and, hmask, Nat.and_two_pow_sub_one_eq_mod, UInt64.toNat_shiftRight]
  simp [unpackExponent]

/-- The sign in the fields of a double. -/
theorem ofBitVec_unpackSign : Sign.ofBitVec (@unpackSign Format.binary64 bits.toBitVec) =
    if bits >>> 63 == 1 then .negative else .positive := by
  have hsign : (@unpackSign Format.binary64 bits.toBitVec).toNat = (bits >>> 63).toNat := by
    rw [UInt64.toNat_shiftRight]
    have hlt := bits.toNat_lt
    simp [unpackSign, Nat.shiftRight_eq_div_pow]
    omega
  have hlt := (@unpackSign Format.binary64 bits.toBitVec).isLt
  generalize @unpackSign Format.binary64 bits.toBitVec = b at hsign hlt
  have hbit : bits >>> 63 == 1 ↔ b ≠ 0#1 := by
    rw [beq_iff_eq, ← UInt64.toNat_inj, ← hsign, ne_eq, ← BitVec.toNat_inj]
    exact ⟨fun h => by rw [h]; decide, fun h => by
      have hne : b.toNat ≠ 0 := h
      have hone : (1 : UInt64).toNat = 1 := rfl
      omega⟩
  unfold Sign.ofBitVec
  by_cases hb : b = 0#1
  · rw [if_pos hb, if_neg fun h => hbit.1 h hb]
  · rw [if_neg hb, if_pos (hbit.2 hb)]

end Fields

/-! ## Parts -/

/-- The sign of a number. -/
def signOf (negative : Bool) : Sign := if negative then .negative else .positive

/-- Parts as the standard library names them. -/
def Parts.unpacked : Parts → UnpackedFloat
  | .nan => .notANumber
  | .infinite negative => .infinity (signOf negative)
  | .finite negative significand exponent =>
    if h : significand = 0 then .zero (signOf negative)
    else .finite (signOf negative) significand exponent (Nat.pos_of_ne_zero h)

/-- The hidden bit stands above the stored ones. -/
theorem toNat_append_one (b : BitVec 52) : (1#1 ++ b).toNat = hiddenBit + b.toNat := by
  rw [BitVec.toNat_append, ← Nat.shiftLeft_add_eq_or_of_lt b.isLt]
  rfl

/-- The parts of a word are those that it is unpacked into. -/
theorem unpack_eq (bits : UInt64) :
    UnpackedFloat.unpack Format.binary64 bits.toBitVec = (Parts.ofBits bits).unpacked := by
  have hmantissa := toNat_unpackMantissa bits
  have hexponent := toNat_unpackExponent bits
  have hmax : @unpackExponent Format.binary64 bits.toBitVec = -1#11 ↔
      (bits >>> 52 &&& 0x7ff).toNat = 0x7ff := by
    rw [← BitVec.toNat_inj, hexponent]
    rfl
  have hmin : @unpackExponent Format.binary64 bits.toBitVec = 0#11 ↔
      (bits >>> 52 &&& 0x7ff).toNat = 0 := by
    rw [← BitVec.toNat_inj, hexponent]
    rfl
  have hzero : @unpackMantissa Format.binary64 bits.toBitVec = 0#52 ↔
      (bits &&& 0xfffffffffffff).toNat = 0 := by
    rw [← BitVec.toNat_inj, hmantissa]
    rfl
  unfold UnpackedFloat.unpack Parts.ofBits
  simp only [ofBitVec_unpackSign bits, hmax, hmin, hzero, hmantissa, hexponent, toNat_append_one]
  have hbias : (Format.binary64.exponentBias : Int) + (52 : Nat) = 1075 := rfl
  have hnormal (fraction : Nat) : ¬hiddenBit + fraction = 0 := by
    unfold hiddenBit
    omega
  by_cases h₁ : (bits >>> 52 &&& 0x7ff).toNat = 0x7ff
  · by_cases h₂ : (bits &&& 0xfffffffffffff).toNat = 0 <;>
      simp only [h₁, h₂, if_true, if_false, Parts.unpacked, signOf]
  · by_cases h₂ : (bits >>> 52 &&& 0x7ff).toNat = 0
    · rw [h₂] at h₁
      by_cases h₃ : (bits &&& 0xfffffffffffff).toNat = 0 <;>
        simp only [h₁, h₂, h₃, if_true, if_false, dite_true, dite_false, hbias, Parts.unpacked,
          signOf]
      rfl
    · simp only [h₁, h₂, if_false, dite_false, hbias, hnormal, Parts.unpacked, signOf]

/-- The parts of a double are those that it is unpacked into. -/
theorem unpack_toModel (x : Float) : x.toModel.unpack = (Parts.of x).unpacked :=
  unpack_eq x.toBits

/-- A double with finite parts is unpacked into these parts. -/
theorem unpack_toModel_finite {x : Float} {negative : Bool} {m : Nat} {e : Int} (hm : 0 < m)
    (h : Parts.of x = .finite negative m e) :
    x.toModel.unpack = .finite (signOf negative) m e hm := by
  rw [unpack_toModel, h, Parts.unpacked, dif_neg hm.ne']

/-! ## Packing -/

/-- What three fields stand for. -/
def ofFields (s : Sign) (exponent : BitVec 11) (fraction : BitVec 52) : UnpackedFloat :=
  if exponent = -1#11 then if fraction = 0#52 then .infinity s else .notANumber
  else if exponent = 0#11 then
    if h : fraction = 0#52 then .zero s
    else .finite s fraction.toNat (-1074)
      (Nat.pos_of_ne_zero fun hzero => h (BitVec.eq_of_toNat_eq hzero))
  else .finite s (hiddenBit + fraction.toNat) (exponent.toNat - 1075) (Nat.add_pos_left (by decide) _)

/-- Unpacking goes by the three fields. -/
theorem unpack_eq_ofFields (b : BitVec 64) :
    UnpackedFloat.unpack Format.binary64 b =
      ofFields (Sign.ofBitVec (@unpackSign Format.binary64 b)) (@unpackExponent Format.binary64 b)
        (@unpackMantissa Format.binary64 b) := by
  have hbias : (Format.binary64.exponentBias : Int) + (52 : Nat) = 1075 := rfl
  unfold UnpackedFloat.unpack ofFields
  simp only [toNat_append_one, hbias]
  by_cases h : @unpackExponent Format.binary64 b = 0#11
  · simp only [h]
    rfl
  · simp only [h, if_false]

/-- Fields are unpacked as they were packed. -/
theorem unpack_packComponents (s : Sign) (exponent : BitVec 11) (fraction : BitVec 52) :
    UnpackedFloat.unpack Format.binary64 (packComponents Format.binary64 s exponent fraction) =
      ofFields s exponent fraction := by
  rw [unpack_eq_ofFields, unpackSign_packComponents, unpackExponent_packComponents,
    unpackMantissa_packComponents, Sign.ofBitVec_toBitVec]

/-- A double is what it is unpacked into. -/
theorem ofModel_pack {x : Float} {u : UnpackedFloat} (h : x.toModel.unpack = u) :
    Float.ofModel (Float.Model.pack u) = x := by
  subst h
  exact Float.ofBits_toBits x

/-- A double has fields, and the exponent is not that of an infinity. -/
theorem IsDouble.exists_ofFields {m : Nat} {e : Int} (hd : IsDouble m e) (s : Sign) :
    ∃ exponent fraction, exponent ≠ -1#11 ∧ ofFields s exponent fraction = .finite s m e hd.pos := by
  obtain ⟨hpos, hlt, hmin, hmax, hnormal⟩ := hd
  by_cases hm : 2 ^ 52 ≤ m
  · have hexponent : (BitVec.ofNat 11 (e + 1075).toNat).toNat = (e + 1075).toNat := by
      rw [BitVec.toNat_ofNat]
      omega
    have hfraction : (BitVec.ofNat 52 (m - 2 ^ 52)).toNat = m - 2 ^ 52 := by
      rw [BitVec.toNat_ofNat]
      omega
    have hne₁ : BitVec.ofNat 11 (e + 1075).toNat ≠ -1#11 := fun h => by
      have heq : (BitVec.ofNat 11 (e + 1075).toNat).toNat = 2 ^ 11 - 1 := by rw [h]; rfl
      omega
    have hne₂ : BitVec.ofNat 11 (e + 1075).toNat ≠ 0#11 := fun h => by
      have heq : (BitVec.ofNat 11 (e + 1075).toNat).toNat = 0 := by rw [h]; rfl
      omega
    refine ⟨_, BitVec.ofNat 52 (m - 2 ^ 52), hne₁, ?_⟩
    have hsum : hiddenBit + (m - 2 ^ 52) = m := by
      unfold hiddenBit
      omega
    have hdiff : ((e + 1075).toNat : Int) - 1075 = e := by omega
    rw [ofFields, if_neg hne₁, if_neg hne₂]
    simp only [hexponent, hfraction, hsum, hdiff]
  · obtain rfl := hnormal.resolve_left hm
    have hfraction : (BitVec.ofNat 52 m).toNat = m := by
      rw [BitVec.toNat_ofNat]
      omega
    have hne : BitVec.ofNat 52 m ≠ 0#52 := fun h => by
      have heq : (BitVec.ofNat 52 m).toNat = 0 := by rw [h]; rfl
      omega
    refine ⟨0#11, BitVec.ofNat 52 m, by decide, ?_⟩
    rw [ofFields, if_neg (by decide), if_pos rfl, dif_neg hne]
    simp only [hfraction]

/-- A double is unpacked as it was packed. -/
theorem IsDouble.unpack_pack {m : Nat} {e : Int} (hd : IsDouble m e) (s : Sign) :
    (Float.Model.pack (.finite s m e hd.pos)).unpack = .finite s m e hd.pos := by
  obtain ⟨exponent, fraction, hne, hfields⟩ := hd.exists_ofFields s
  have hunpack := (unpack_packComponents s exponent fraction).trans hfields
  have hvalid : Format.binary64.Valid (packComponents Format.binary64 s exponent fraction) :=
    ⟨fun hmax => absurd ((unpackExponent_packComponents ..).symm.trans hmax) hne⟩
  change UnpackedFloat.unpack Format.binary64 (UnpackedFloat.pack Format.binary64 _) = _
  rw [← hunpack, pack_unpack_of_valid hvalid]

/-- The parts of a positive double are a significand and an exponent that doubles have. -/
theorem isDouble_of_parts {bits : UInt64} {negative : Bool} {significand : Nat} {exponent : Int}
    (h : Parts.ofBits bits = .finite negative significand exponent) (hpos : 0 < significand) :
    IsDouble significand exponent := by
  have hbiased : (bits >>> 52 &&& 0x7ff).toNat < 2 ^ 11 := by
    rw [← toNat_unpackExponent]
    exact BitVec.isLt _
  have hfraction : (bits &&& 0xfffffffffffff).toNat < 2 ^ 52 := by
    rw [← toNat_unpackMantissa]
    exact BitVec.isLt _
  unfold Parts.ofBits at h
  simp only at h
  split at h
  · split at h <;> cases h
  · split at h
    · obtain ⟨-, rfl, rfl⟩ := Parts.finite.inj h
      exact ⟨hpos, by omega, by omega, by omega, .inr rfl⟩
    · obtain ⟨-, rfl, rfl⟩ := Parts.finite.inj h
      unfold hiddenBit
      exact ⟨by omega, by omega, by omega, by omega, .inl (by omega)⟩

end GraphQubo.Decimal
