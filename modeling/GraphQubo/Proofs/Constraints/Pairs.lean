import Mathlib.Data.List.Induction
import GraphQubo.Proofs.Compile.Refusal

/-!
# GraphQubo.Proofs.Constraints.Pairs

The configuration that named values describe.

A name is the key of one of the two flags or of a penalty family.  Values may be given for a name
any number of times, and only the last one counts; so it does not matter how values for different
names are mixed.  The first unknown name is reported before any value is looked at.  After that the
weights are looked at in declaration order, as they are in the end: a value that was replaced does
no harm.

* `Constraints.exists_applyPair` — what one pair changes;
* `Constraints.exists_foldlM_applyPair` — what all pairs lead to, if their names are known;
* `Constraints.ofPairs_eq_ok_iff` — which pairs make a configuration, and which one;
* `Constraints.mem_enabled_iff`, `Constraints.pairwise_enabled` — the families that it compiles;
* `ofPairs_lastWins` — the errors, the configuration, and other orders of the pairs.
-/

namespace GraphQubo

open Coefficient (isZero isFinite)

variable {K : Type}

/-! ## Names and their last values -/

/-- The key of a flag or of a family. -/
def KnownKey (key : String) : Prop :=
  key = doubleCountEdgesKey ∨ key = doubleCountCyclesKey ∨ ∃ p : Penalty, p.name = key

instance : DecidablePred KnownKey := fun key =>
  decidable_of_iff (key = doubleCountEdgesKey ∨ key = doubleCountCyclesKey ∨
    ∃ p ∈ Penalty.all, p.name = key) (by simp only [KnownKey, Penalty.mem_all, true_and])

/-- No family has the key of a flag. -/
theorem name_ne_flagKey (p : Penalty) :
    p.name ≠ doubleCountEdgesKey ∧ p.name ≠ doubleCountCyclesKey := by
  cases p <;> decide

theorem flagKeys_ne : doubleCountEdgesKey ≠ doubleCountCyclesKey := by decide

/-- The last value that is given for a name. -/
def lastValue? (pairs : List (String × K)) (key : String) : Option K :=
  ((pairs.filter fun pair => pair.1 = key).getLast?).map Prod.snd

/-- The last pair decides on its own key. -/
theorem lastValue?_concat (pairs : List (String × K)) (name key : String) (v : K) :
    lastValue? (pairs ++ [(name, v)]) key =
      if name = key then some v else lastValue? pairs key := by
  unfold lastValue?
  rw [List.filter_append]
  split
  case isTrue h => simp [h]
  case isFalse h => simp [h]

/-- A name that is not known, and every name before it is. -/
def FirstUnknown (pairs : List (String × K)) (key : String) : Prop :=
  ∃ before v after, pairs = before ++ (key, v) :: after ∧ (∀ pair ∈ before, KnownKey pair.1) ∧
    ¬KnownKey key

/-- It is found by a search from the front. -/
theorem firstUnknown_iff {pairs : List (String × K)} {key : String} : FirstUnknown pairs key ↔
    (pairs.find? fun pair => ¬KnownKey pair.1).map Prod.fst = some key := by
  simp only [FirstUnknown, Option.map_eq_some_iff, List.find?_eq_some_iff_append]
  constructor
  · rintro ⟨before, v, after, hsplit, hbefore, hunknown⟩
    exact ⟨(key, v), ⟨by simpa using hunknown, before, after, hsplit, by simpa using hbefore⟩, rfl⟩
  · rintro ⟨⟨_, v⟩, ⟨hunknown, before, after, hsplit, hbefore⟩, rfl⟩
    exact ⟨before, v, after, hsplit, by simpa using hbefore, by simpa using hunknown⟩

/-- If there is an unknown key there is a first one. -/
theorem exists_firstUnknown {pairs : List (String × K)} (h : ∃ pair ∈ pairs, ¬KnownKey pair.1) :
    ∃ key, FirstUnknown pairs key := by
  have hfound : (pairs.find? fun pair => ¬KnownKey pair.1).isSome := by
    simpa only [List.find?_isSome, decide_eq_true_eq] using h
  obtain ⟨pair, hpair⟩ := Option.isSome_iff_exists.1 hfound
  exact ⟨pair.1, firstUnknown_iff.2 (by rw [hpair, Option.map_some])⟩

variable [Coefficient K]

/-- The last value for a family is not finite, and those for the families declared before it are. -/
def FirstBadValue (pairs : List (String × K)) (p : Penalty) (w : K) : Prop :=
  (lastValue? pairs p.name = some w ∧ isFinite w = false) ∧
    ∀ q : Penalty, q.order < p.order → ∀ v, lastValue? pairs q.name = some v → isFinite v = true

namespace Constraints

variable {pairs : List (String × K)} {c : Constraints K}

/-! ## One pair -/

/-- Every weight is the last value that is given for its family, and none if there is no value.  A
flag is on if there is a last value for it and this is not zero. -/
structure Describes (pairs : List (String × K)) (c : Constraints K) : Prop where
  weight : ∀ p : Penalty, c.weights p = lastValue? pairs p.name
  edges : c.doubleCountEdges = true ↔
    ∃ v, lastValue? pairs doubleCountEdgesKey = some v ∧ isZero v = false
  cycles : c.doubleCountCycles = true ↔
    ∃ v, lastValue? pairs doubleCountCyclesKey = some v ∧ isZero v = false

/-- Pairs describe one configuration only. -/
theorem Describes.unique {d : Constraints K} (hc : Describes pairs c) (hd : Describes pairs d) :
    c = d :=
  ext_weights (fun p => (hc.weight p).trans (hd.weight p).symm)
    (Bool.eq_iff_iff.2 (hc.edges.trans hd.edges.symm))
    (Bool.eq_iff_iff.2 (hc.cycles.trans hd.cycles.symm))

/-- No pairs describe the empty configuration. -/
theorem describes_empty : Describes ([] : List (String × K)) empty where
  weight p := weights_empty p
  edges := by simp [lastValue?, empty]
  cycles := by simp [lastValue?, empty]

/-- The first weight that is not finite is a last value. -/
theorem Describes.firstNonFinite_iff (h : Describes pairs c) {p : Penalty} {w : K} :
    c.FirstNonFinite p w ↔ FirstBadValue pairs p w := by
  simp only [FirstNonFinite, h.weight, FirstBadValue]

/-- A pair with a known name changes what its name stands for, and nothing else. -/
theorem exists_applyPair (h : Describes pairs c) {pair : String × K} (hkey : KnownKey pair.1) :
    ∃ d, c.applyPair pair = .ok d ∧ Describes (pairs ++ [pair]) d := by
  obtain ⟨key, v⟩ := pair
  rcases hkey with rfl | rfl | ⟨p, rfl⟩
  · refine ⟨_, if_pos rfl, ⟨fun q => ?_, ?_, ?_⟩⟩
    · rw [lastValue?_concat, if_neg (name_ne_flagKey q).1.symm]
      exact h.weight q
    · simp [lastValue?_concat]
    · rw [lastValue?_concat, if_neg flagKeys_ne]
      exact h.cycles
  · refine ⟨_, (if_neg flagKeys_ne.symm).trans (if_pos rfl), ⟨fun q => ?_, ?_, ?_⟩⟩
    · rw [lastValue?_concat, if_neg (name_ne_flagKey q).2.symm]
      exact h.weight q
    · rw [lastValue?_concat, if_neg flagKeys_ne.symm]
      exact h.edges
    · simp [lastValue?_concat]
  · obtain ⟨hedges, hcycles⟩ := name_ne_flagKey p
    refine ⟨c.set p v, ?_, ⟨fun q => ?_, ?_, ?_⟩⟩
    · rw [applyPair, if_neg hedges, if_neg hcycles, Penalty.ofName?_name]
    · have hname : q = p ↔ p.name = q.name := by rw [Penalty.name_injective.eq_iff, eq_comm]
      rw [weights_set, lastValue?_concat, ← h.weight q]
      exact if_congr hname rfl rfl
    · rw [doubleCountEdges_set, lastValue?_concat, if_neg hedges]
      exact h.edges
    · rw [doubleCountCycles_set, lastValue?_concat, if_neg hcycles]
      exact h.cycles

/-- An unknown key is refused by name. -/
theorem applyPair_eq_error (c : Constraints K) {pair : String × K} (hkey : ¬KnownKey pair.1) :
    c.applyPair pair = .error (.unknownPenalty pair.1) := by
  have hnone : Penalty.ofName? pair.1 = none :=
    Penalty.ofName?_eq_none fun p hp => hkey (.inr (.inr ⟨p, hp⟩))
  rw [applyPair, if_neg fun h => hkey (.inl h), if_neg fun h => hkey (.inr (.inl h)), hnone]

/-! ## All pairs -/

/-- Pairs with known names are all applied. -/
theorem exists_foldlM_applyPair (h : ∀ pair ∈ pairs, KnownKey pair.1) :
    ∃ c, pairs.foldlM applyPair empty = .ok c ∧ Describes pairs c := by
  induction pairs using List.reverseRecOn with
  | nil => exact ⟨empty, rfl, describes_empty⟩
  | append_singleton pairs pair ih =>
    rw [List.forall_mem_append, List.forall_mem_singleton] at h
    obtain ⟨c, hc, hdescribes⟩ := ih h.1
    obtain ⟨d, hd, hdescribes'⟩ := exists_applyPair hdescribes h.2
    refine ⟨d, ?_, hdescribes'⟩
    rw [List.foldlM_append, hc]
    change List.foldlM applyPair c [pair] = _
    rw [List.foldlM_cons, hd]
    rfl

/-- The first unknown name ends it, whatever the values before it are. -/
theorem foldlM_applyPair_eq_error {key : String} (h : FirstUnknown pairs key) :
    pairs.foldlM applyPair (empty : Constraints K) = .error (.unknownPenalty key) := by
  obtain ⟨before, v, after, rfl, hbefore, hkey⟩ := h
  obtain ⟨c, hc, -⟩ := exists_foldlM_applyPair hbefore
  rw [List.foldlM_append, hc]
  change List.foldlM applyPair c ((key, v) :: after) = _
  rw [List.foldlM_cons, applyPair_eq_error c hkey]
  rfl

/-- The first unknown key decides, whatever the values are. -/
theorem ofPairs_eq_unknown {key : String} (h : FirstUnknown pairs key) :
    ofPairs pairs = .error (.unknownPenalty key) := by
  rw [ofPairs, foldlM_applyPair_eq_error h]
  rfl

/-- Once all names are known, the weights decide. -/
theorem ofPairs_eq_validate (hc : pairs.foldlM applyPair empty = .ok c) :
    ofPairs pairs = c.validate.map fun _ => c := by
  rw [ofPairs, hc]
  change (c.validate >>= fun _ => Except.ok c) = _
  cases c.validate <;> rfl

/-- With known keys the first bad value in declaration order decides. -/
theorem ofPairs_eq_nonFinite (hkeys : ∀ pair ∈ pairs, KnownKey pair.1) {p : Penalty} {w : K}
    (h : FirstBadValue pairs p w) : ofPairs pairs = .error (.nonFiniteWeight p w) := by
  obtain ⟨c, hc, hdescribes⟩ := exists_foldlM_applyPair hkeys
  have hfirst := firstNonFinite?_eq_some_iff.2 (hdescribes.firstNonFinite_iff.2 h)
  rw [ofPairs_eq_validate hc, validate, hfirst]
  rfl

/-- If there is a bad value there is a first one. -/
theorem exists_firstBadValue (hkeys : ∀ pair ∈ pairs, KnownKey pair.1)
    (h : ∃ (p : Penalty) (v : K), lastValue? pairs p.name = some v ∧ isFinite v = false) :
    ∃ p w, FirstBadValue pairs p w := by
  obtain ⟨c, -, hdescribes⟩ := exists_foldlM_applyPair hkeys
  obtain ⟨p, v, hv, hbad⟩ := h
  rcases hfirst : c.firstNonFinite? with _ | ⟨q, w⟩
  · rw [← hdescribes.weight] at hv
    have hfinite := firstNonFinite?_eq_none_iff.1 hfirst p v hv
    exact absurd (hbad.symm.trans hfinite) Bool.false_ne_true
  · exact ⟨q, w, hdescribes.firstNonFinite_iff.1 (firstNonFinite?_eq_some_iff.1 hfirst)⟩

/-- Pairs make a configuration if all names are known and all last values for families are finite,
and then they make the one that they describe. -/
theorem ofPairs_eq_ok_iff : ofPairs pairs = .ok c ↔
    (∀ pair ∈ pairs, KnownKey pair.1) ∧
      (∀ (p : Penalty) (v : K), lastValue? pairs p.name = some v → isFinite v = true) ∧
      Describes pairs c := by
  constructor
  · intro hok
    have hkeys : ∀ pair ∈ pairs, KnownKey pair.1 := by
      by_contra hnot
      obtain ⟨key, hkey⟩ : ∃ key, FirstUnknown pairs key :=
        exists_firstUnknown (by simpa using hnot)
      rw [ofPairs_eq_unknown hkey] at hok
      cases hok
    have hfinite : ∀ (p : Penalty) (v : K), lastValue? pairs p.name = some v →
        isFinite v = true := by
      intro p v hv
      by_contra hnot
      obtain ⟨q, w, hbad⟩ := exists_firstBadValue hkeys ⟨p, v, hv, by simpa using hnot⟩
      rw [ofPairs_eq_nonFinite hkeys hbad] at hok
      cases hok
    obtain ⟨d, hd, hdescribes⟩ := exists_foldlM_applyPair hkeys
    rw [ofPairs_eq_validate hd] at hok
    refine ⟨hkeys, hfinite, ?_⟩
    cases hvalid : d.validate with
    | error err => rw [hvalid] at hok; cases hok
    | ok => rw [hvalid] at hok; exact Except.ok.inj hok ▸ hdescribes
  · rintro ⟨hkeys, hfinite, hdescribes⟩
    obtain ⟨d, hd, hdescribes'⟩ := exists_foldlM_applyPair hkeys
    obtain rfl := hdescribes.unique hdescribes'
    have hnone : c.firstNonFinite? = none :=
      firstNonFinite?_eq_none_iff.2 fun p w hw => hfinite p w ((hdescribes.weight p).symm.trans hw)
    rw [ofPairs_eq_validate hd, validate, hnone]
    rfl

/-- Only the order of the pairs with one name counts. -/
theorem ofPairs_eq_of_filter_eq {others : List (String × K)}
    (hsame : ∀ key, (others.filter fun pair => pair.1 = key) =
      pairs.filter fun pair => pair.1 = key)
    (h : ofPairs pairs = .ok c) : ofPairs others = .ok c := by
  have hlast : lastValue? others = lastValue? pairs := by
    funext key
    rw [lastValue?, hsame, lastValue?]
  obtain ⟨hkeys, hfinite, hweight, hedges, hcycles⟩ := ofPairs_eq_ok_iff.1 h
  refine ofPairs_eq_ok_iff.2 ⟨fun pair hpair => hkeys pair ?_, hlast ▸ hfinite,
    ⟨hlast ▸ hweight, hlast ▸ hedges, hlast ▸ hcycles⟩⟩
  have hfilter : pair ∈ pairs.filter fun q => q.1 = pair.1 := by
    rw [← hsame pair.1]
    exact List.mem_filter.2 ⟨hpair, decide_eq_true rfl⟩
  exact (List.mem_filter.1 hfilter).1

/-! ## The families that are compiled -/

/-- The enabled families are those with a weight other than zero. -/
theorem mem_enabled_iff {p : Penalty} {w : K} :
    (p, w) ∈ c.enabled ↔ c.weights p = some w ∧ isZero w = false := by
  unfold enabled weight
  simp only [List.mem_filterMap, Penalty.mem_all, true_and, Option.map_eq_some_iff,
    Option.filter_eq_some_iff, Prod.mk.injEq, Bool.not_eq_true']
  constructor
  · rintro ⟨q, v, h, rfl, rfl⟩
    exact h
  · exact fun h => ⟨p, w, h, rfl, rfl⟩

/-- Families are listed in declaration order, each at most once. -/
theorem pairwise_enabled (c : Constraints K) :
    c.enabled.Pairwise fun e f => e.1.order < f.1.order := by
  have hall : Penalty.all.Pairwise fun p q => p.order < q.order := by decide
  refine hall.filterMap _ fun p q hpq e he f hf => ?_
  obtain ⟨v, -, rfl⟩ := Option.map_eq_some_iff.1 he
  obtain ⟨w, -, rfl⟩ := Option.map_eq_some_iff.1 hf
  exact hpq

end Constraints

open Constraints

/-- The configuration that named values describe.  If a name is unknown the first such name is
reported, whatever the values are.  Otherwise, if the last value for a family is not finite, the
first such family in declaration order is reported, with that value.  Otherwise there is a
configuration: each weight is the last value for its family, a flag is on if its last value is not
zero, and the families with a weight other than zero are compiled, each once and in declaration
order.  Any list with the same pairs for each name, in the same order, makes the same one. -/
theorem ofPairs_lastWins (pairs : List (String × K)) :
    ((∃ pair ∈ pairs, ¬KnownKey pair.1) →
      ∃ key, FirstUnknown pairs key ∧ ofPairs pairs = .error (.unknownPenalty key)) ∧
    ((∀ pair ∈ pairs, KnownKey pair.1) →
      (∃ (p : Penalty) (v : K), lastValue? pairs p.name = some v ∧ isFinite v = false) →
      ∃ p w, FirstBadValue pairs p w ∧ ofPairs pairs = .error (.nonFiniteWeight p w)) ∧
    ((∀ pair ∈ pairs, KnownKey pair.1) →
      (∀ (p : Penalty) (v : K), lastValue? pairs p.name = some v → isFinite v = true) →
      ∃ c, ofPairs pairs = .ok c ∧ Describes pairs c ∧
        (∀ p w, (p, w) ∈ c.enabled ↔ c.weights p = some w ∧ isZero w = false) ∧
        c.enabled.Pairwise fun e f => e.1.order < f.1.order) ∧
    ∀ c others, ofPairs pairs = .ok c →
      (∀ key, (others.filter fun pair => pair.1 = key) = pairs.filter fun pair => pair.1 = key) →
      ofPairs others = .ok c := by
  refine ⟨fun hunknown => ?_, fun hkeys hbad => ?_, fun hkeys hfinite => ?_,
    fun c others h hsame => ofPairs_eq_of_filter_eq hsame h⟩
  · obtain ⟨key, hkey⟩ := exists_firstUnknown hunknown
    exact ⟨key, hkey, ofPairs_eq_unknown hkey⟩
  · obtain ⟨p, w, h⟩ := exists_firstBadValue hkeys hbad
    exact ⟨p, w, h, ofPairs_eq_nonFinite hkeys h⟩
  · obtain ⟨c, -, hdescribes⟩ := exists_foldlM_applyPair hkeys
    exact ⟨c, ofPairs_eq_ok_iff.2 ⟨hkeys, hfinite, hdescribes⟩, hdescribes,
      fun p w => mem_enabled_iff, c.pairwise_enabled⟩

/-- A NaN that is replaced later, a weight of zero, and a NaN for a flag. -/
def Constraints.replacedPairs : List (String × Float) :=
  [("diagonal", 0 / 0), ("edges", 0), ("double_count_edges", 0 / 0), ("diagonal", -1)]

/-- The replaced NaN does no harm, the weight of zero is kept but not compiled, and the flag is on.
The flag may come last.  With an unknown name at the end that name is reported. -/
theorem ofPairs_lastWins_replaced :
    (∃ c, ofPairs replacedPairs = .ok c ∧ c.weights .diagonal = some (-1) ∧
      c.weights .edges = some 0 ∧ (.diagonal, -1) ∈ c.enabled ∧ (.edges, 0) ∉ c.enabled ∧
      c.doubleCountEdges = true ∧
      ofPairs [("diagonal", 0 / 0), ("diagonal", -1), ("edges", 0),
        ("double_count_edges", 0 / 0)] = .ok c) ∧
    ofPairs [("diagonal", (0 / 0 : Float)), ("diagonl", 1)] =
      .error (.unknownPenalty "diagonl") := by
  have hkeys : ∀ pair ∈ replacedPairs, KnownKey pair.1 := by decide +kernel
  have hfinite : ∀ (p : Penalty) (v : Float), lastValue? replacedPairs p.name = some v →
      isFinite v = true := by
    intro p v hv
    have hall : ((lastValue? replacedPairs p.name).all isFinite) = true := by
      cases p <;> decide +kernel
    rw [hv] at hall
    exact hall
  obtain ⟨-, -, hmade, hothers⟩ := ofPairs_lastWins replacedPairs
  obtain ⟨c, hc, hdescribes, henabled, -⟩ := hmade hkeys hfinite
  have hdiagonal : c.weights .diagonal = some (-1) :=
    (hdescribes.weight .diagonal).trans (by decide +kernel)
  have hedges : c.weights .edges = some 0 := (hdescribes.weight .edges).trans (by decide +kernel)
  refine ⟨⟨c, hc, hdiagonal, hedges, ?_, fun h => ?_, ?_, hothers c _ hc fun key => ?_⟩, ?_⟩
  · exact (henabled _ _).2 ⟨hdiagonal, by decide +kernel⟩
  · exact absurd ((henabled _ _).1 h).2 (by decide +kernel)
  · exact hdescribes.edges.2 ⟨0 / 0, by decide +kernel, by decide +kernel⟩
  · by_cases h : "diagonal" = key
    · subst h
      rfl
    · simp [replacedPairs, List.filter_cons, h]
  · obtain ⟨key, hfirst, herror⟩ :=
      (ofPairs_lastWins [("diagonal", (0 / 0 : Float)), ("diagonl", 1)]).1 (by decide +kernel)
    obtain rfl : "diagonl" = key :=
      Option.some.inj (Eq.trans (by decide +kernel) (firstUnknown_iff.1 hfirst))
    exact herror

end GraphQubo
