import GraphQubo.Toml.Scalar
import GraphQubo.Toml.Reader
import GraphQubo.Toml.Writer

/-!
# GraphQubo.Proofs.Toml.Scalar

Scalars are read back as they are written.

* `natural?_eq` — digits and their number;
* `scalar?_toDigits` — a whole number that TOML has;
* `readsBack_flag`, `readsBack_natural`, `readsBack_number` — the scalars of a document.
-/

namespace GraphQubo

/-! ## Digits -/

namespace Decimal

/-- A digit appends itself to the number read so far. -/
theorem digitStep_ten {c : Char} (hc : c.isDigit = true) (n : Nat) :
    digitStep 10 n c = some (10 * n + (c.toNat - '0'.toNat)) := by
  have hbounds : '0' ≤ c ∧ c ≤ '9' := by
    simp only [Char.isDigit, Bool.and_eq_true, decide_eq_true_eq] at hc
    exact hc
  have hupper : c.toNat ≤ '9'.toNat := hbounds.2
  have hlt : c.toNat - '0'.toNat < 10 := Nat.lt_of_le_of_lt (Nat.sub_le_sub_right hupper _) (by decide)
  rw [digitStep, digitValue?, if_pos hbounds]
  simp only [hlt, if_true, Nat.mul_comm]

/-- Decimal digits write their number. -/
theorem natural?_eq {ds : List Char} (hne : ds ≠ []) (hds : ∀ c ∈ ds, c.isDigit = true) :
    natural? 10 ds = some (Nat.ofDigitChars 10 ds 0) := by
  have hfold : ∀ n, ds.foldlM (digitStep 10) n = some (Nat.ofDigitChars 10 ds n) := by
    clear hne
    induction ds with
    | nil => exact fun n => rfl
    | cons c ds ih =>
      intro n
      rw [List.foldlM_cons, digitStep_ten (hds c List.mem_cons_self)]
      exact ih (fun d hd => hds d (List.mem_cons_of_mem _ hd)) _
  rw [natural?, List.isEmpty_eq_false_iff.2 hne]
  exact hfold 0

theorem isDigit_of_mem_toDigits {n : Nat} {c : Char} (hc : c ∈ Nat.toDigits 10 n) :
    c.isDigit = true := Nat.isDigit_of_mem_toDigits (by decide) (by decide) hc

/-- The digits of a number are read as the number. -/
theorem natural?_toDigits (n : Nat) : natural? 10 (Nat.toDigits 10 n) = some n := by
  rw [natural?_eq Nat.toDigits_ne_nil fun c => isDigit_of_mem_toDigits,
    Nat.ofDigitChars_ten_toDigits]

/-- The digits of a number begin with a zero only if it is zero. -/
theorem head?_toDigits {n : Nat} (hn : 0 < n) : (Nat.toDigits 10 n).head? ≠ some '0' := by
  induction n using Nat.strongRecOn with
  | ind n ih =>
    by_cases hlt : n < 10
    · rw [Nat.toDigits_of_lt_base hlt]
      have hdigits : ∀ n < 10, 0 < n → [n.digitChar].head? ≠ some '0' := by decide
      exact hdigits n hlt hn
    · rw [Nat.toDigits_of_base_le (by decide) (by omega),
        List.head?_append, List.head?_eq_some_head Nat.toDigits_ne_nil, Option.some_or,
        ← List.head?_eq_some_head Nat.toDigits_ne_nil]
      exact ih (n / 10) (by omega) (by omega)

end Decimal

namespace Toml

/-! ## Whole numbers -/

/-- Digits without separators stay as they are. -/
theorem withoutUnderscores?_eq {cs : List Char} (h : '_' ∉ cs) :
    withoutUnderscores? cs = some cs := by
  fun_induction withoutUnderscores? cs <;> simp_all

/-- The digits of a number are read as the number, also where separators may stand. -/
theorem digits?_toDigits (n : Nat) : digits? 10 (Nat.toDigits 10 n) = some n := by
  rw [digits?, withoutUnderscores?_eq Nat.underscore_not_in_toDigits]
  exact Decimal.natural?_toDigits n

/-- The digits of a number have no zero in front, except that of zero itself. -/
theorem hasLeadingZero_toDigits (n : Nat) : hasLeadingZero (Nat.toDigits 10 n) = false := by
  rcases Nat.eq_zero_or_pos n with rfl | hn
  · rfl
  · have hhead := Decimal.head?_toDigits hn
    cases hds : Nat.toDigits 10 n with
    | nil => rfl
    | cons c rest =>
      rw [hds, List.head?_cons] at hhead
      unfold hasLeadingZero
      split <;> simp_all

/-- A character that does not occur is not found at the front either. -/
theorem expect?_eq_none {c : Char} {cs : List Char} (h : c ∉ cs) : expect? c cs = none := by
  cases cs with
  | nil => rfl
  | cons d rest => exact if_neg fun (hcd : c = d) => h (hcd ▸ List.mem_cons_self)

/-- A field of fixed width takes its width off the front. -/
theorem eq_drop_of_fixedDigits? {width n : Nat} {cs rest : List Char}
    (h : fixedDigits? width cs = some (n, rest)) : rest = cs.drop width := by
  simp only [fixedDigits?] at h
  split at h
  · obtain ⟨_, -, heq⟩ := Option.map_eq_some_iff.1 h
    exact (Prod.mk.inj heq).2.symm
  · cases h

/-- There is no date without a dash. -/
theorem afterDate?_eq_none {cs : List Char} (h : '-' ∉ cs) : afterDate? cs = none := by
  unfold afterDate?
  cases hyear : fixedDigits? 4 cs with
  | none => rfl
  | some x =>
    obtain ⟨year, rest⟩ := x
    have hrest : '-' ∉ rest := fun hmem =>
      h (List.mem_of_mem_drop (eq_drop_of_fixedDigits? hyear ▸ hmem))
    simp [expect?_eq_none hrest]

/-- There is no time without a colon. -/
theorem afterTime?_eq_none {cs : List Char} (h : ':' ∉ cs) : afterTime? cs = none := by
  unfold afterTime?
  cases hhour : fixedDigits? 2 cs with
  | none => rfl
  | some x =>
    obtain ⟨hour, rest⟩ := x
    have hrest : ':' ∉ rest := fun hmem =>
      h (List.mem_of_mem_drop (eq_drop_of_fixedDigits? hhour ▸ hmem))
    simp [expect?_eq_none hrest]

/-- A word without dashes and colons is no date and no time. -/
theorem isMoment_eq_false {cs : List Char} (hdash : '-' ∉ cs) (hcolon : ':' ∉ cs) :
    isMoment cs = false := by
  rw [isMoment, afterDate?_eq_none hdash, afterTime?_eq_none hcolon]
  rfl

/-- A natural number below the limit is an integer of a document. -/
theorem inWord?_natural {n : Nat} (hn : n < integerLimit) :
    inWord? (n : Int) = some (.integer n) := by
  have hlower : -(integerLimit : Int) ≤ n := by omega
  have hupper : (n : Int) < integerLimit := Int.ofNat_lt.2 hn
  rw [inWord?, if_pos ⟨hlower, hupper⟩]

/-- The digits of a number below the limit are read as this integer. -/
theorem integer?_toDigits {n : Nat} (hn : n < integerLimit) :
    integer? (Nat.toDigits 10 n) = some (.integer n) := by
  have hsign : splitSign (Nat.toDigits 10 n) = (false, Nat.toDigits 10 n) := by
    have hother : ∀ c ∈ Nat.toDigits 10 n, c ≠ '-' ∧ c ≠ '+' := by
      intro c hc
      have hdigit := Decimal.isDigit_of_mem_toDigits hc
      constructor <;> rintro rfl <;> cases hdigit
    unfold splitSign
    split <;> simp_all
  have hzero := hasLeadingZero_toDigits n
  unfold integer?
  split
  -- a number in another radix would begin with a zero
  · simp_all [hasLeadingZero]
  · simp_all [hasLeadingZero]
  · simp_all [hasLeadingZero]
  · rw [hsign]
    simp only [hzero, Bool.false_eq_true, if_false]
    exact Option.bind_eq_some_iff.2 ⟨n, digits?_toDigits n, inWord?_natural hn⟩

/-- A whole number is read as it is written. -/
theorem scalar?_toDigits {n : Nat} (hn : n < integerLimit) :
    scalar? (Nat.toDigits 10 n) = some (.integer n) := by
  have hother : ∀ c : Char, c.isDigit = false → c ∉ Nat.toDigits 10 n := fun c hc hmem => by
    rw [Decimal.isDigit_of_mem_toDigits hmem] at hc
    cases hc
  have htrue : Nat.toDigits 10 n ≠ "true".toList := fun h =>
    hother 't' (by decide) (h ▸ by decide)
  have hfalse : Nat.toDigits 10 n ≠ "false".toList := fun h =>
    hother 'f' (by decide) (h ▸ by decide)
  rw [scalar?, if_neg htrue, if_neg hfalse,
    isMoment_eq_false (hother '-' (by decide)) (hother ':' (by decide)), integer?_toDigits hn]
  rfl

/-! ## Numbers -/

theorem isScalarChar_of_isDigit {c : Char} (h : c.isDigit = true) : isScalarChar c = true := by
  simp [isScalarChar, Char.isAlphanum, h]

theorem isScalarChar_of_mem_toDigits {n : Nat} {c : Char} (h : c ∈ Nat.toDigits 10 n) :
    isScalarChar c = true := isScalarChar_of_isDigit (Decimal.isDigit_of_mem_toDigits h)

/-- The characters of a word belong to a scalar, by checking each of them. -/
theorem isScalarChar_of_mem {s : String} (hs : s.toList.all isScalarChar = true) {c : Char}
    (h : c ∈ s.toList) : isScalarChar c = true := List.all_eq_true.1 hs c h

theorem isScalarChar_of_mem_signText {negative : Bool} {c : Char}
    (h : c ∈ (Decimal.signText negative).toList) : isScalarChar c = true := by
  have hall : ∀ negative, ((Decimal.signText negative).toList.all isScalarChar) = true := by decide
  exact isScalarChar_of_mem (hall negative) h

/-- A point among digits leaves a word of scalar characters. -/
theorem isScalarChar_of_mem_withPoint {digits : List Char} {places : Nat} {c : Char}
    (hdigits : ∀ d ∈ digits, isScalarChar d = true)
    (h : c ∈ (Decimal.withPoint digits places).toList) : isScalarChar c = true := by
  have hpadded : ∀ d ∈ List.replicate (places + 1 - digits.length) '0' ++ digits,
      isScalarChar d = true := by
    intro d hd
    rcases List.mem_append.1 hd with hd | hd
    · exact (List.eq_of_mem_replicate hd) ▸ by decide
    · exact hdigits d hd
  simp only [Decimal.withPoint, String.toList_ofList, List.mem_append, List.mem_cons] at h
  rcases h with h | rfl | h
  · exact hpadded c (List.mem_of_mem_take h)
  · decide
  · exact hpadded c (List.mem_of_mem_drop h)

theorem isScalarChar_of_mem_scaledText {s : Decimal.Scaled} {c : Char}
    (h : c ∈ s.text.toList) : isScalarChar c = true := by
  simp only [Decimal.Scaled.text] at h
  split at h
  · rw [String.toList_ofList] at h
    rcases List.mem_append.1 h with h | h
    · exact isScalarChar_of_mem_toDigits h
    · exact (List.eq_of_mem_replicate h) ▸ by decide
  · exact isScalarChar_of_mem_withPoint (fun d hd => isScalarChar_of_mem_toDigits hd) h

/-- The text of a double consists of scalar characters. -/
theorem isScalarChar_of_mem_text {x : Float} {c : Char} (h : c ∈ (Decimal.text x).toList) :
    isScalarChar c = true := by
  unfold Decimal.text at h
  split at h
  · exact isScalarChar_of_mem (by decide) h
  all_goals
    rw [String.toList_append] at h
    rcases List.mem_append.1 h with h | h
    · exact isScalarChar_of_mem_signText h
  · exact isScalarChar_of_mem (by decide) h
  · exact isScalarChar_of_mem (by decide) h
  · exact isScalarChar_of_mem_scaledText h

/-- A number is written without blanks and delimiters. -/
theorem isScalarChar_of_mem_numberText {x : Float} {c : Char} (h : c ∈ (numberText x).toList) :
    isScalarChar c = true := by
  simp only [numberText] at h
  split at h
  · exact isScalarChar_of_mem (by decide) h
  · split at h
    · exact isScalarChar_of_mem_text h
    · rw [String.toList_append] at h
      rcases List.mem_append.1 h with h | h
      · exact isScalarChar_of_mem_text h
      · exact isScalarChar_of_mem (by decide) h

/-! ## Values -/

/-- A value that is written as one word which stands for it. -/
structure Value.ReadsBack (v : Value) : Prop where
  chars : ∀ c ∈ (inlineText v).toList, isScalarChar c = true
  scalar : scalar? (inlineText v).toList = some v

/-- Both flags are read back. -/
theorem readsBack_flag (b : Bool) : (Value.flag b).ReadsBack := by
  cases b <;> exact ⟨fun c => isScalarChar_of_mem (by decide), rfl⟩

theorem toList_inlineText_natural (n : Nat) :
    (inlineText (.integer n)).toList = Nat.toDigits 10 n := by
  rw [inlineText]
  exact Nat.toList_repr

/-- A natural number below the limit is read back. -/
theorem readsBack_natural {n : Nat} (hn : n < integerLimit) : (Value.integer n).ReadsBack where
  chars c hc := isScalarChar_of_mem_toDigits (toList_inlineText_natural n ▸ hc)
  scalar := by rw [toList_inlineText_natural, scalar?_toDigits hn]

/-- A number is read back once its text is read as the number. -/
theorem readsBack_number {x : Float} (hx : scalar? (numberText x).toList = some (.number x)) :
    (Value.number x).ReadsBack := by
  constructor <;> rw [inlineText]
  · exact fun c => isScalarChar_of_mem_numberText
  · exact hx

end Toml

end GraphQubo
