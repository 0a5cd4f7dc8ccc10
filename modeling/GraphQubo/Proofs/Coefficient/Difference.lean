import GraphQubo.Proofs.Coefficient.Order
import GraphQubo.Proofs.Decimal.Binary64

/-!
# GraphQubo.Proofs.Coefficient.Difference

When the difference of two doubles is no number.

Rounding and packing make no NaN: a difference that is too large becomes an infinity.  So a NaN
comes from a NaN, or from an infinity that is taken from itself.

* `isNaN_unpack_pack` — packing keeps NaNs and makes no new ones;
* `isNaN_sub_iff` — the differences that are NaNs;
* `isNaN_magnitude` — the magnitude of a number is a number.
-/

namespace GraphQubo.Coefficient

open Float.Model Float.Model.UnpackedFloat Decimal

/-- Three fields stand for a NaN if the exponent has all bits set and the fraction has any. -/
theorem isNaN_ofFields {s : Sign} {exponent : BitVec 11} {fraction : BitVec 52} :
    (ofFields s exponent fraction).isNaN = true ↔ exponent = -1#11 ∧ fraction ≠ 0#52 := by
  unfold ofFields
  by_cases hexponent : exponent = -1#11
  · rw [if_pos hexponent]
    by_cases hfraction : fraction = 0#52
    · rw [if_pos hfraction]
      exact iff_of_false Bool.false_ne_true fun h => h.2 hfraction
    · rw [if_neg hfraction]
      exact iff_of_true rfl ⟨hexponent, hfraction⟩
  · rw [if_neg hexponent]
    refine iff_of_false ?_ fun h => hexponent h.1
    split
    · split <;> exact Bool.false_ne_true
    · exact Bool.false_ne_true

theorem isNaN_unpack_packComponents {s : Sign} {exponent : BitVec 11} {fraction : BitVec 52} :
    (UnpackedFloat.unpack Format.binary64
      (packComponents Format.binary64 s exponent fraction)).isNaN = true ↔
        exponent = -1#11 ∧ fraction ≠ 0#52 := by
  rw [unpack_packComponents, isNaN_ofFields]

/-- A double is packed as a NaN only if it is one. -/
theorem isNaN_unpack_pack (u : UnpackedFloat) :
    (Float.Model.pack u).unpack.isNaN = u.isNaN := by
  change (UnpackedFloat.unpack Format.binary64 (UnpackedFloat.pack Format.binary64 u)).isNaN = _
  rw [Bool.eq_iff_iff]
  cases u with
  | notANumber => exact iff_of_true (isNaN_unpack_packComponents.2 ⟨rfl, by decide⟩) rfl
  | infinity s =>
    exact iff_of_false (fun h => (isNaN_unpack_packComponents.1 h).2 rfl) Bool.false_ne_true
  | zero s =>
    refine iff_of_false (fun h => ?_) Bool.false_ne_true
    exact absurd (isNaN_unpack_packComponents.1 h).1 (by decide)
  | finite s m e hm =>
    refine iff_of_false ?_ Bool.false_ne_true
    unfold UnpackedFloat.pack
    simp only
    split
    · exact fun h => (isNaN_unpack_packComponents.1 h).2 rfl
    · rename_i hsmall
      split
      · intro h
        have hexponent := congrArg BitVec.toNat (isNaN_unpack_packComponents.1 h).1
        rw [BitVec.toNat_ofNat] at hexponent
        have hmax : (-1#11).toNat = 2 ^ 11 - 1 := rfl
        omega
      · exact fun h => absurd (isNaN_unpack_packComponents.1 h).1 (by decide)

/-- Rounding makes no NaN. -/
theorem isNaN_normalize (spec : Format) (m e : Int) (s : Sign) :
    (UnpackedFloat.normalize spec m e s).isNaN = false := by
  have hround : ∀ s m e, (UnpackedFloat.round spec s m e).isNaN = false := by
    intro s m e
    unfold UnpackedFloat.round roundWithAccuracy
    simp only
    split <;> rfl
  unfold UnpackedFloat.normalize
  split
  · exact hround _ _ _
  · rfl
  · exact hround _ _ _

/-- Two doubles that are unpacked alike are the same. -/
theorem eq_of_unpack_eq {x y : Float} (h : x.toModel.unpack = y.toModel.unpack) : x = y :=
  (ofModel_pack h).symm.trans (ofModel_pack rfl)

theorem isNaN_unpacked_sub_iff {u v : UnpackedFloat} :
    (UnpackedFloat.sub Format.binary64 u v).isNaN = true ↔
      u.isNaN = true ∨ v.isNaN = true ∨ u.isInf = true ∧ u = v := by
  cases u with
  | notANumber => exact iff_of_true rfl (.inl rfl)
  | infinity s =>
    cases v with
    | notANumber => exact iff_of_true rfl (.inr (.inl rfl))
    | infinity t =>
      cases s <;> cases t
      case negative.negative | positive.positive =>
        exact iff_of_true rfl (.inr (.inr ⟨rfl, rfl⟩))
      case negative.positive | positive.negative =>
        exact iff_of_false Bool.false_ne_true (by simp [UnpackedFloat.isNaN])
    | zero t | finite t =>
      exact iff_of_false Bool.false_ne_true (by simp [UnpackedFloat.isNaN])
  | zero s =>
    cases v with
    | notANumber => exact iff_of_true rfl (.inr (.inl rfl))
    | zero t =>
      cases s <;> cases t <;>
        exact iff_of_false Bool.false_ne_true (by simp [UnpackedFloat.isNaN, UnpackedFloat.isInf])
    | infinity t | finite t =>
      exact iff_of_false Bool.false_ne_true (by simp [UnpackedFloat.isNaN])
  | finite s m e hm =>
    cases v with
    | notANumber => exact iff_of_true rfl (.inr (.inl rfl))
    | infinity t | zero t =>
      exact iff_of_false Bool.false_ne_true (by simp [UnpackedFloat.isNaN])
    | finite t =>
      refine iff_of_false ?_ (by simp [UnpackedFloat.isNaN, UnpackedFloat.isInf])
      exact Bool.eq_false_iff.1 (isNaN_normalize _ _ _ _)

/-- A difference is a NaN if one side is, or if both are the same infinity. -/
theorem isNaN_sub_iff {x y : Float} :
    (x - y).isNaN = true ↔ x.isNaN = true ∨ y.isNaN = true ∨ x.isInf = true ∧ x = y := by
  have hsame : x = y ↔ x.toModel.unpack = y.toModel.unpack :=
    ⟨congrArg fun z : Float => z.toModel.unpack, eq_of_unpack_eq⟩
  rw [hsame]
  refine Iff.trans ?_ isNaN_unpacked_sub_iff
  rw [← isNaN_unpack_pack]
  rfl

/-- The magnitude of a double is a NaN only if the double is. -/
theorem isNaN_magnitude (x : Float) : (magnitude x).isNaN = x.isNaN := by
  unfold magnitude
  split
  · rename_i h
    rw [(isNaN_of_atMost h).1, Bool.eq_false_iff]
    intro hnan
    have hzero : (0 : Float).isNaN = false ∧ (0 : Float).isInf = false := by decide +kernel
    rcases isNaN_sub_iff.1 hnan with h₀ | hx | ⟨h₀, -⟩
    · exact Bool.false_ne_true (hzero.1.symm.trans h₀)
    · exact Bool.false_ne_true ((isNaN_of_atMost h).1.symm.trans hx)
    · exact Bool.false_ne_true (hzero.2.symm.trans h₀)
  · rfl

end GraphQubo.Coefficient
