import Mathlib.Data.List.Find
import GraphQubo.Graph.Query
import GraphQubo.Proofs.Coefficient.Order

/-!
# GraphQubo.Proofs.Graph.Weight

The heaviest edge of a graph.

The weights of edges are finite and not below zero.  So they are in order, and the search for the
largest one may start from zero: the weight of the first edge takes its place.

* `foldlM_heavier_eq_error` — the search fails at the first edge without a weight;
* `exists_foldlM_heavier`, `exists_isLargestWeight` — where all edges have weights it ends at the
  largest one.
-/

namespace GraphQubo

open Coefficient (isFinite atMost larger Ordered)

variable {K : Type} [Coefficient K]

/-! ## Weights in order -/

/-- A valid weight is finite. -/
theorem isFinite_of_validWeight {w : K} (h : validWeight w = true) : isFinite w = true :=
  (Bool.and_eq_true_iff.1 h).1

/-- A weight that an edge may carry is at least zero. -/
theorem atMost_of_validWeight [Ordered K] {w : K} (h : validWeight w = true) :
    atMost 0 w = true := by
  have hbelow := (Bool.and_eq_true_iff.1 h).2
  rwa [Ordered.below_eq (isFinite_of_validWeight h) Ordered.isFinite_zero, Bool.not_not] at hbelow

/-- The larger of two values is one of them. -/
theorem larger_eq_or (x y : K) : larger x y = x ∨ larger x y = y := by
  unfold larger
  split
  · exact .inr rfl
  · exact .inl rfl

/-- The larger of two finite coefficients is at least both. -/
theorem atMost_larger [Ordered K] {x y : K} (hx : isFinite x = true) (hy : isFinite y = true) :
    atMost x (larger x y) = true ∧ atMost y (larger x y) = true := by
  unfold larger
  split
  case isTrue h => exact ⟨h, Ordered.refl hy⟩
  case isFalse h => exact ⟨Ordered.refl hx, (Ordered.total hx hy).resolve_left h⟩

namespace Graph

/-! ## The search for the heaviest edge -/

/-- The search fails at the first edge without a weight. -/
theorem foldlM_heavier_eq_error {es : List (Edge K)} {e : Edge K}
    (h : es.find? (fun e => e.weight.isNone) = some e) (most : K) :
    es.foldlM heavier most = .error (.unweightedEdge e.source e.target) := by
  induction es generalizing most with
  | nil => cases h
  | cons x es ih =>
    rw [List.foldlM_cons, heavier]
    cases hx : x.weight with
    | none =>
      rw [List.find?_cons_of_pos (by simp [hx])] at h
      obtain rfl := Option.some.inj h
      rfl
    | some w =>
      rw [List.find?_cons_of_neg (by simp [hx])] at h
      exact ih h _

variable [Ordered K]

/-- Starting from a finite coefficient the search ends at one that is at least that and all
weights of the list, and it is one of them. -/
theorem exists_foldlM_heavier {es : List (Edge K)}
    (h : ∀ e ∈ es, ∃ w, e.weight = some w ∧ isFinite w = true) {most : K}
    (hmost : isFinite most = true) :
    ∃ W, es.foldlM heavier most = .ok W ∧ isFinite W = true ∧ atMost most W = true ∧
      (∀ e ∈ es, ∀ w, e.weight = some w → atMost w W = true) ∧
      (W = most ∨ ∃ e ∈ es, e.weight = some W) := by
  induction es generalizing most with
  | nil => exact ⟨most, rfl, hmost, Ordered.refl hmost, by simp, .inl rfl⟩
  | cons e es ih =>
    obtain ⟨w, hw, hfinite⟩ := h e List.mem_cons_self
    obtain ⟨hle, hle'⟩ := atMost_larger hmost hfinite
    have hlarger : isFinite (larger most w) = true := by
      rcases larger_eq_or most w with heq | heq
      · rwa [heq]
      · rwa [heq]
    obtain ⟨W, hW, hWfinite, hfrom, hall, hwhich⟩ :=
      ih (fun f hf => h f (List.mem_cons_of_mem _ hf)) hlarger
    refine ⟨W, ?_, hWfinite, Ordered.trans hmost hlarger hWfinite hle hfrom, ?_, ?_⟩
    · rw [List.foldlM_cons, heavier, hw]
      exact hW
    · intro f hf v hv
      rcases List.mem_cons.1 hf with rfl | hf
      · obtain rfl : w = v := Option.some.inj (hw.symm.trans hv)
        exact Ordered.trans hfinite hlarger hWfinite hle' hfrom
      · exact hall f hf v hv
    · rcases hwhich with rfl | ⟨f, hf, hfw⟩
      · rcases larger_eq_or most w with heq | heq
        · exact .inl heq
        · exact .inr ⟨e, List.mem_cons_self, hw.trans (congrArg some heq.symm)⟩
      · exact .inr ⟨f, List.mem_cons_of_mem _ hf, hfw⟩

/-- The weight of an edge that no edge outweighs; zero where there is no edge. -/
structure IsLargestWeight (g : Graph K) (W : K) : Prop where
  largest : ∀ e ∈ g.edges, ∃ w, e.weight = some w ∧ atMost w W = true
  attained : if g.edges = [] then W = 0 else ∃ e ∈ g.edges, e.weight = some W

/-- Where every edge has a weight the largest one is found. -/
theorem exists_isLargestWeight {g : Graph K} (h : g.firstUnweighted? = none) :
    ∃ W, g.maxWeight = .ok W ∧ g.IsLargestWeight W := by
  have hweighted : ∀ e ∈ g.edges, ∃ w, e.weight = some w ∧ validWeight w = true := by
    intro e he
    have hne : e.weight ≠ none := by simpa using List.find?_eq_none.1 h e he
    obtain ⟨w, hw⟩ := Option.ne_none_iff_exists'.1 hne
    exact ⟨w, hw, g.weighted e he w hw⟩
  rcases hedges : g.edges with _ | ⟨e, es⟩
  · refine ⟨0, by rw [maxWeight, hedges]; rfl, ?_, ?_⟩
    · simp [hedges]
    · rw [if_pos hedges]
  · rw [hedges] at hweighted
    obtain ⟨w, hw, hvalid⟩ := hweighted e List.mem_cons_self
    have hfinite := isFinite_of_validWeight hvalid
    -- zero is no more than the first weight, so from there on it is out of the search
    have hfirst : heavier 0 e = .ok w := by
      rw [heavier, hw]
      exact congrArg Except.ok (if_pos (atMost_of_validWeight hvalid))
    have hrest : ∀ f ∈ es, ∃ v, f.weight = some v ∧ isFinite v = true := by
      intro f hf
      obtain ⟨v, hv, hvalid⟩ := hweighted f (List.mem_cons_of_mem e hf)
      exact ⟨v, hv, isFinite_of_validWeight hvalid⟩
    obtain ⟨W, hW, -, hfrom, hall, hwhich⟩ := exists_foldlM_heavier hrest hfinite
    refine ⟨W, ?_, fun f hf => ?_, ?_⟩
    · rw [maxWeight, hedges, List.foldlM_cons, hfirst]
      exact hW
    · rw [hedges] at hf
      obtain ⟨v, hv, -⟩ := hweighted f hf
      refine ⟨v, hv, ?_⟩
      rcases List.mem_cons.1 hf with rfl | hf
      · obtain rfl : w = v := Option.some.inj (hw.symm.trans hv)
        exact hfrom
      · exact hall f hf v hv
    · rw [if_neg (by simp [hedges]), hedges]
      rcases hwhich with rfl | ⟨f, hf, hfw⟩
      · exact ⟨e, List.mem_cons_self, hw⟩
      · exact ⟨f, List.mem_cons_of_mem e hf, hfw⟩

end Graph

end GraphQubo
