import GraphQubo.Proofs.Coefficient.Order
import GraphQubo.Proofs.Decimal.Reading
import GraphQubo.Proofs.Decimal.Shortest
import GraphQubo.Proofs.Toml.Lines

/-!
# GraphQubo.Proofs.Toml.Number

Numbers are read back as they are written.

1. A number other than an infinity is written as a sign, digits, a point and
   more digits.
2. The digits write the shortest decimal of the number, which lies in its interval.
3. Such a text is no flag, no moment and no whole number, so it is read as the
   double nearest to its decimal.

* `exists_isPointed` — what is written;
* `scalar?_pointed`, `number?_pointed` — how it is read;
* `readsBack_number_of_isNaN` — both together.
-/

namespace GraphQubo.Toml

open Decimal

/-! ## Digits around a point -/

/-- The digits before and after a point. -/
structure IsPointed (whole fraction : List Char) : Prop where
  whole_ne : whole ≠ []
  fraction_ne : fraction ≠ []
  digits : ∀ c ∈ whole ++ fraction, c.isDigit = true
  leading : hasLeadingZero whole = false

/-- The number that digits around a point write. -/
def pointedValue (whole fraction : List Char) : ℚ :=
  (Nat.ofDigitChars 10 (whole ++ fraction) 0 : ℚ) / 10 ^ fraction.length

/-- A single digit is no leading zero. -/
theorem hasLeadingZero_singleton (c : Char) : hasLeadingZero [c] = false := by
  unfold hasLeadingZero
  split <;> simp_all

/-- Digits that do not begin with zero have no leading zero. -/
theorem hasLeadingZero_of_head? {ds : List Char} (h : ds.head? ≠ some '0') :
    hasLeadingZero ds = false := by
  unfold hasLeadingZero
  split <;> simp_all

/-! ## Writing -/

/-- Zeros are dropped without a change of the value. -/
theorem trim_value (s : Scaled) (fuel : Nat) :
    ((s.trim fuel).digits : ℚ) * 10 ^ (s.trim fuel).exponent = s.digits * 10 ^ s.exponent := by
  induction fuel generalizing s with
  | zero => rfl
  | succ fuel ih =>
    rw [Scaled.trim]
    split
    · rename_i h
      have hten : (s.digits : ℚ) = (s.digits / 10 : Nat) * 10 := by
        exact_mod_cast (Nat.div_mul_cancel (Nat.dvd_of_mod_eq_zero h.2)).symm
      rw [ih, hten, zpow_add_one₀ (by norm_num)]
      ring
    · rfl

/-- Digits with a point before the last of them. -/
theorem isPointed_split {ds : List Char} {places : Nat} (hplaces : 0 < places)
    (hlong : places < ds.length) (hds : ∀ c ∈ ds, c.isDigit = true)
    (hhead : ds.length = places + 1 ∨ ds.head? ≠ some '0') :
    IsPointed (ds.take (ds.length - places)) (ds.drop (ds.length - places)) where
  whole_ne := by
    rw [← List.length_pos_iff_ne_nil, List.length_take]
    omega
  fraction_ne := by
    rw [← List.length_pos_iff_ne_nil, List.length_drop]
    omega
  digits := by rwa [List.take_append_drop]
  leading := by
    rcases hhead with hlength | hhead
    · -- a single digit may be a zero
      have hone : (ds.take (ds.length - places)).length = 1 := by
        rw [List.length_take]
        omega
      obtain ⟨c, hc⟩ := List.length_eq_one_iff.1 hone
      rw [hc]
      exact hasLeadingZero_singleton c
    · apply hasLeadingZero_of_head?
      rwa [List.head?_take, if_neg (by omega)]

/-- A positive number with a point before its last digits. -/
theorem exists_isPointed_withPoint {n places : Nat} (hn : 0 < n) (hplaces : 0 < places) :
    ∃ whole fraction, IsPointed whole fraction ∧
      (withPoint (Nat.toDigits 10 n) places).toList = whole ++ '.' :: fraction ∧
      pointedValue whole fraction = n * 10 ^ (-(places : Int)) := by
  obtain ⟨zeros, hzeros⟩ : ∃ k, k = places + 1 - (Nat.toDigits 10 n).length := ⟨_, rfl⟩
  obtain ⟨padded, hpadded⟩ : ∃ cs, cs = List.replicate zeros '0' ++ Nat.toDigits 10 n := ⟨_, rfl⟩
  have hlength : padded.length = zeros + (Nat.toDigits 10 n).length := by
    rw [hpadded, List.length_append, List.length_replicate]
  have hdigits : ∀ c ∈ padded, c.isDigit = true := by
    rw [hpadded]
    refine List.forall_mem_append.2 ⟨fun c hc => ?_, fun c hc => isDigit_of_mem_toDigits hc⟩
    exact List.eq_of_mem_replicate hc ▸ rfl
  have hhead : padded.length = places + 1 ∨ padded.head? ≠ some '0' := by
    rcases Nat.eq_zero_or_pos zeros with rfl | hzero
    · exact .inr (hpadded ▸ head?_toDigits hn)
    · exact .inl (by omega)
  have hdrop : (padded.drop (padded.length - places)).length = places := by
    rw [List.length_drop]
    omega
  refine ⟨_, _, isPointed_split hplaces (by omega) hdigits hhead, ?_, ?_⟩
  · rw [withPoint, String.toList_ofList, ← hzeros, ← hpadded]
  · rw [pointedValue, hdrop, List.take_append_drop, hpadded, Nat.ofDigitChars_append,
      Nat.ofDigitChars_replicate_zero, Nat.mul_zero, Nat.ofDigitChars_ten_toDigits, zpow_neg,
      zpow_natCast, div_eq_mul_inv]

/-- A positive whole number with zeros after it and a point and a zero after them. -/
theorem isPointed_append_zeros {n : Nat} (hn : 0 < n) (zeros : Nat) :
    IsPointed (Nat.toDigits 10 n ++ List.replicate zeros '0') ['0'] where
  whole_ne := List.append_ne_nil_of_left_ne_nil Nat.toDigits_ne_nil _
  fraction_ne := List.cons_ne_nil _ _
  digits c hc := by
    rcases List.mem_append.1 hc with hc | hc
    · rcases List.mem_append.1 hc with hc | hc
      · exact isDigit_of_mem_toDigits hc
      · exact List.eq_of_mem_replicate hc ▸ rfl
    · exact List.mem_singleton.1 hc ▸ rfl
  leading := by
    apply hasLeadingZero_of_head?
    rw [List.head?_append, List.head?_eq_some_head Nat.toDigits_ne_nil, Option.some_or,
      ← List.head?_eq_some_head Nat.toDigits_ne_nil]
    exact head?_toDigits hn

/-- Zeros before the point count as powers of ten. -/
theorem pointedValue_append_zeros (n zeros : Nat) :
    pointedValue (Nat.toDigits 10 n ++ List.replicate zeros '0') ['0'] = n * 10 ^ zeros := by
  rw [pointedValue, List.append_assoc, ← List.replicate_succ', Nat.ofDigitChars_append,
    Nat.ofDigitChars_ten_toDigits, Nat.ofDigitChars_replicate_zero, List.length_singleton,
    pow_one, pow_succ]
  push_cast
  field_simp

/-- Trimming zeros off a positive number leaves a positive number. -/
theorem digits_trim_pos {s : Scaled} (hs : 0 < s.digits) (fuel : Nat) :
    0 < (s.trim fuel).digits := by
  have hpos : (0 : ℚ) < s.digits * 10 ^ s.exponent :=
    mul_pos (Nat.cast_pos.2 hs) (zpow_pos (by norm_num) _)
  refine Nat.pos_of_ne_zero fun hzero => ?_
  rw [← trim_value s fuel, hzero, Nat.cast_zero, zero_mul] at hpos
  exact lt_irrefl _ hpos

/-- The text of a positive decimal, with a point in any case. -/
theorem exists_isPointed (s : Scaled) (hs : 0 < s.digits) :
    ∃ whole fraction, IsPointed whole fraction ∧
      (if s.text.contains '.' then s.text else s.text ++ ".0").toList = whole ++ '.' :: fraction ∧
      pointedValue whole fraction = s.digits * 10 ^ s.exponent := by
  have hpos := digits_trim_pos hs (-s.exponent).toNat
  rw [← trim_value s (-s.exponent).toNat, String.contains_char_eq, Scaled.text]
  generalize s.trim (-s.exponent).toNat = t at hpos
  by_cases hexponent : 0 ≤ t.exponent
  · have hpointed := isPointed_append_zeros hpos t.exponent.toNat
    have hnot : '.' ∉ Nat.toDigits 10 t.digits ++ List.replicate t.exponent.toNat '0' :=
      fun hmem => absurd (hpointed.digits '.' (List.mem_append_left _ hmem)) (by decide)
    refine ⟨_, _, hpointed, ?_, ?_⟩
    · simp [hexponent, hnot]
    · rw [pointedValue_append_zeros, ← zpow_natCast, Int.toNat_of_nonneg hexponent]
  · obtain ⟨whole, fraction, hpointed, htext, hvalue⟩ :=
      exists_isPointed_withPoint hpos (show 0 < (-t.exponent).toNat by omega)
    have hexponents : -((-t.exponent).toNat : Int) = t.exponent := by omega
    rw [hexponents] at hvalue
    refine ⟨whole, fraction, hpointed, ?_, hvalue⟩
    simp [hexponent, htext]

/-! ## What is not read -/

theorem mem_of_withoutUnderscores? {cs ds : List Char} (h : withoutUnderscores? cs = some ds)
    {c : Char} (hc : c ∈ cs) (hne : c ≠ '_') : c ∈ ds := by
  fun_induction withoutUnderscores? cs generalizing ds <;> grind [Option.map_eq_some_iff]

/-- A text with a point is no natural number. -/
theorem natural?_eq_none {radix : Nat} {ds : List Char} (h : '.' ∈ ds) :
    natural? radix ds = none := by
  have hfold : ∀ n, ds.foldlM (digitStep radix) n = none := by
    induction ds with
    | nil => cases h
    | cons c ds ih =>
      intro n
      rw [List.foldlM_cons]
      rcases List.mem_cons.1 h with rfl | h
      · rfl
      · cases digitStep radix n c with
        | none => rfl
        | some m => exact ih h m
  rw [natural?, hfold, ite_self]

/-- A text with a point is no digits. -/
theorem digits?_eq_none {radix : Nat} {cs : List Char} (h : '.' ∈ cs) :
    digits? radix cs = none := by
  rw [digits?, Option.bind_eq_none_iff]
  exact fun ds hds => natural?_eq_none (mem_of_withoutUnderscores? hds h (by decide))

theorem mem_splitSign {cs : List Char} (h : '.' ∈ cs) : '.' ∈ (splitSign cs).2 := by
  unfold splitSign
  split <;> simp_all

/-- There is no whole number with a point. -/
theorem integer?_eq_none {cs : List Char} (h : '.' ∈ cs) : integer? cs = none := by
  have hrest {c d : Char} {ds : List Char} (hc : '.' ≠ c) (hd : '.' ≠ d)
      (h : '.' ∈ c :: d :: ds) : '.' ∈ ds :=
    List.mem_of_ne_of_mem hd (List.mem_of_ne_of_mem hc h)
  unfold integer?
  split
  · rw [digits?_eq_none (hrest (by decide) (by decide) h), Option.bind_none]
  · rw [digits?_eq_none (hrest (by decide) (by decide) h), Option.bind_none]
  · rw [digits?_eq_none (hrest (by decide) (by decide) h), Option.bind_none]
  · simp only [digits?_eq_none (mem_splitSign h), Option.bind_none, ite_self]

/-- A date or a time begins with a digit. -/
theorem isMoment_cons_eq_false {c : Char} (hc : c.isDigit = false) (cs : List Char) :
    isMoment (c :: cs) = false := by
  have hdigits (width : Nat) : fixedDigits? (width + 1) (c :: cs) = none := by
    simp [fixedDigits?, hc]
  simp [isMoment, afterDate?, afterTime?, hdigits]

/-! ## Reading -/

section Reading

variable {whole fraction : List Char} (h : IsPointed whole fraction)

include h

theorem underscore_notMem_pointed : '_' ∉ whole ∧ '_' ∉ fraction := by
  have hnot : '_' ∉ whole ++ fraction := fun hmem => absurd (h.digits _ hmem) (by decide)
  exact ⟨fun hmem => hnot (List.mem_append_left _ hmem),
    fun hmem => hnot (List.mem_append_right _ hmem)⟩

/-- Digits around a point are read as a decimal. -/
theorem decimal?_pointed : decimal? (whole ++ '.' :: fraction) =
    some (Nat.ofDigitChars 10 (whole ++ fraction) 0, -(fraction.length : Int)) := by
  have hrun {cs : List Char} (hcs : ∀ c ∈ cs, c ∈ whole ++ fraction) :
      ∀ c ∈ cs, isDigitOrUnderscore c = true := fun c hc => by
    rw [isDigitOrUnderscore, h.digits c (hcs c hc), Bool.true_or]
  have hwhole := hrun fun c hc => List.mem_append_left fraction hc
  have hfraction := hrun fun c hc => List.mem_append_right whole hc
  have hpoint : Stops isDigitOrUnderscore ('.' :: fraction) := stops_cons (by decide)
  have hunderscore := underscore_notMem_pointed h
  have hnatural : natural? 10 (whole ++ fraction) =
      some (Nat.ofDigitChars 10 (whole ++ fraction) 0) :=
    natural?_eq (List.append_ne_nil_of_left_ne_nil h.whole_ne _) h.digits
  simp only [decimal?, takeWhile_append_of_stops hwhole hpoint,
    dropWhile_append_of_stops hwhole hpoint, List.takeWhile_eq_self_iff.2 hfraction,
    List.dropWhile_eq_nil_iff.2 hfraction, withoutUnderscores?_eq hunderscore.1,
    withoutUnderscores?_eq hunderscore.2, exponentPart?]
  simp [h.whole_ne, h.fraction_ne, h.leading, hnatural]

/-- Digits around a point, with a sign or without, are no flag, no moment and no whole number. -/
theorem scalar?_pointed (negative : Bool) :
    scalar? ((signText negative).toList ++ (whole ++ '.' :: fraction)) =
      number? ((signText negative).toList ++ (whole ++ '.' :: fraction)) := by
  have hpoint : '.' ∈ (signText negative).toList ++ (whole ++ '.' :: fraction) := by simp
  have hword {word : String} (hword : '.' ∉ word.toList) :
      (signText negative).toList ++ (whole ++ '.' :: fraction) ≠ word.toList :=
    fun heq => hword (heq ▸ hpoint)
  have hmoment : isMoment ((signText negative).toList ++ (whole ++ '.' :: fraction)) = false := by
    cases negative with
    | false =>
      have hother : ∀ c : Char, c.isDigit = false → c ≠ '.' → c ∉ whole ++ '.' :: fraction := by
        intro c hc hne hmem
        have hdigits : c ∈ whole ++ fraction := by simpa [hne] using hmem
        rw [h.digits c hdigits] at hc
        cases hc
      exact isMoment_eq_false (hother '-' (by decide) (by decide))
        (hother ':' (by decide) (by decide))
    | true => exact isMoment_cons_eq_false (by decide) _
  rw [scalar?, if_neg (hword (by decide)), if_neg (hword (by decide)), hmoment,
    integer?_eq_none hpoint]
  rfl

/-- The sign is split off the digits. -/
theorem splitSign_pointed (negative : Bool) :
    splitSign ((signText negative).toList ++ (whole ++ '.' :: fraction)) =
      (negative, whole ++ '.' :: fraction) := by
  cases negative with
  | false =>
    obtain ⟨c, rest, rfl⟩ := List.exists_cons_of_ne_nil h.whole_ne
    have hc : c.isDigit = true := h.digits c List.mem_cons_self
    change splitSign (c :: (rest ++ '.' :: fraction)) = _
    unfold splitSign
    split <;> simp_all
  | true => rfl

/-- Digits around a point are read as the double nearest to their decimal. -/
theorem number?_pointed (negative : Bool) {x : Float}
    (hx : toFloat negative (Nat.ofDigitChars 10 (whole ++ fraction) 0) (-(fraction.length : Int)) = x)
    (hfinite : x.isFinite = true) :
    number? ((signText negative).toList ++ (whole ++ '.' :: fraction)) = some (.number x) := by
  have hpoint : '.' ∈ whole ++ '.' :: fraction := by simp
  have hword {word : String} (hword : '.' ∉ word.toList) : whole ++ '.' :: fraction ≠ word.toList :=
    fun heq => hword (heq ▸ hpoint)
  have hne : (x == positiveInfinity) = false := by
    rw [Bool.eq_false_iff, ne_eq, Float.beq_iff_ne_nan_and_eq]
    rintro ⟨-, -, rfl | ⟨-, hzero⟩ | ⟨-, hzero⟩⟩
    · exact absurd hfinite (by decide)
    · exact absurd (congrArg Float.isFinite hzero) (by decide)
    · exact absurd (congrArg Float.isFinite hzero) (by decide)
  simp only [number?, splitSign_pointed h, if_neg (hword (show '.' ∉ "inf".toList by decide)),
    if_neg (hword (show '.' ∉ "nan".toList by decide)), decimal?_pointed h]
  simp [hx, hne]

end Reading

/-! ## Numbers -/

/-- The text of a finite number is that of its amount, with a point in any case. -/
theorem numberText_eq {x : Float} {negative : Bool} {amount : String} (hnan : x.isNaN = false)
    (hinf : x.isInf = false) (htext : text x = signText negative ++ amount) :
    numberText x =
      signText negative ++ if amount.contains '.' then amount else amount ++ ".0" := by
  have hcontains : (signText negative ++ amount).contains '.' = amount.contains '.' := by
    rw [String.contains_char_eq, String.contains_char_eq, String.toList_append]
    cases negative <;> simp [signText]
  unfold numberText
  simp only [htext, hnan, hinf, hcontains, Bool.false_eq_true, if_false, Bool.false_or]
  split
  · rfl
  · exact String.append_assoc ..

section Number

variable {x : Float} {negative : Bool}

/-- A finite number is read as it is written if its amount is. -/
theorem scalar?_numberText_of_pointed {amount : String} {whole fraction : List Char}
    (hfinite : x.isFinite = true) (htext : text x = signText negative ++ amount)
    (h : IsPointed whole fraction)
    (hamount : (if amount.contains '.' then amount else amount ++ ".0").toList =
      whole ++ '.' :: fraction)
    (hx : toFloat negative (Nat.ofDigitChars 10 (whole ++ fraction) 0)
      (-(fraction.length : Int)) = x) :
    scalar? (numberText x).toList = some (.number x) := by
  obtain ⟨hnan, hinf⟩ := Coefficient.isNaN_and_isInf_of_isFinite hfinite
  rw [numberText_eq hnan hinf htext, String.toList_append, hamount, scalar?_pointed h,
    number?_pointed h negative hx hfinite]

/-- The text of a finite double other than zero is read as the double. -/
theorem scalar?_numberText_finite {m : Nat} {e : Int} (hm : 0 < m)
    (hparts : Parts.of x = .finite negative m e) :
    scalar? (numberText x).toList = some (.number x) := by
  have hd := isDouble_of_parts hparts hm
  have hfinite : x.toModel.unpack.isFinite = true := by
    rw [unpack_toModel_finite hm hparts]
    rfl
  have htext : text x = signText negative ++ (shortest m e).text := by
    unfold text
    rw [hparts]
    cases m with
    | zero => cases hm
    | succ m => rfl
  obtain ⟨whole, fraction, hpointed, hamount, hvalue⟩ :=
    exists_isPointed (shortest m e) hd.digits_shortest_pos
  have hholds := hd.holds_shortest
  rw [← hvalue] at hholds
  exact scalar?_numberText_of_pointed hfinite htext hpointed hamount
    (toFloat_eq hd hholds hparts (List.length_pos_of_ne_nil hpointed.fraction_ne))

/-- The text of a zero is read as the zero, with its sign. -/
theorem scalar?_numberText_zero {e : Int} (hparts : Parts.of x = .finite negative 0 e) :
    scalar? (numberText x).toList = some (.number x) := by
  have hunpack : x.toModel.unpack = .zero (signOf negative) := by
    rw [unpack_toModel, hparts]
    rfl
  have hfinite : x.toModel.unpack.isFinite = true := by
    rw [hunpack]
    rfl
  have htext : text x = signText negative ++ "0" := by
    unfold text
    rw [hparts]
    rfl
  have hzero : toFloat negative 0 (-1) = x := by
    rw [← ofModel_pack hunpack]
    cases negative <;> rfl
  have hpointed : IsPointed ['0'] ['0'] :=
    ⟨List.cons_ne_nil _ _, List.cons_ne_nil _ _, List.all_eq_true.1 rfl, rfl⟩
  have hamount : (if "0".contains '.' then "0" else "0" ++ ".0").toList = ['0', '.', '0'] := by
    rw [String.contains_char_eq]
    decide
  exact scalar?_numberText_of_pointed hfinite htext hpointed hamount hzero

/-- The text of an infinity is read as the infinity. -/
theorem scalar?_numberText_infinite (hparts : Parts.of x = .infinite negative) :
    scalar? (numberText x).toList = some (.number x) := by
  have hunpack : x.toModel.unpack = .infinity (signOf negative) := by
    rw [unpack_toModel, hparts]
    rfl
  have hx := ofModel_pack hunpack
  cases negative with
  | false =>
    obtain rfl : positiveInfinity = x := hx
    rfl
  | true =>
    obtain rfl : -positiveInfinity = x := hx
    rfl

/-- A number is read as it is written. -/
theorem readsBack_number_of_isNaN (hx : x.isNaN = false) : (Value.number x).ReadsBack := by
  apply readsBack_number
  cases hparts : Parts.of x with
  | nan =>
    change x.toModel.unpack.isNaN = false at hx
    rw [unpack_toModel, hparts] at hx
    cases hx
  | infinite negative => exact scalar?_numberText_infinite hparts
  | finite negative m e =>
    rcases Nat.eq_zero_or_pos m with rfl | hm
    · exact scalar?_numberText_zero hparts
    · exact scalar?_numberText_finite hm hparts

end Number

end GraphQubo.Toml
