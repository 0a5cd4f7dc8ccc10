import GraphQubo.Error

/-!
# GraphQubo.Proofs.Compile.Objection

Reasons for refusal in order, and computations that answer to them.

An objection is a reason for refusal together with the errors that name it.  Of
several objections the first that applies decides: `FirstOf os e` says that `e`
is its error.  A computation answers to a list of objections when it fails just
so, and succeeds if none applies.

* `answers_single` — a single check;
* `Answers.bind` — checks made one after the other answer to the objections of
  the first followed by those of the second;
* `Answers.error_iff`, `Answers.ok_iff` — when the computation fails, with what, and
  when it succeeds.
-/

namespace GraphQubo

variable {K : Type}

/-- A reason for refusal: the kind of its errors, and the errors that name it. -/
structure Objection (K : Type) where
  kind : ErrorKind
  names : Error K → Prop

/-- The error is the one that the first applicable objection names. -/
def FirstOf : List (Objection K) → Error K → Prop
  | [], _ => False
  | o :: os, e => (o.names e ∧ e.kind = o.kind) ∨ ((∀ e', ¬o.names e') ∧ FirstOf os e)

/-- No objection applies. -/
def NoneOf (os : List (Objection K)) : Prop := ∀ o ∈ os, ∀ e, ¬o.names e

/-- A computation answers to objections: it fails with the error of the first
applicable one, and succeeds if none applies. -/
def Answers {α : Type} (os : List (Objection K)) : Except (Error K) α → Prop
  | .ok _ => NoneOf os
  | .error e => ∀ e', FirstOf os e' ↔ e' = e

/-- A computation in two steps succeeds if both steps do. -/
theorem bind_eq_ok {ε α β : Type} {x : Except ε α} {f : α → Except ε β} {b : β} :
    x >>= f = .ok b ↔ ∃ a, x = .ok a ∧ f a = .ok b := by
  cases x <;> simp [bind, Except.bind]

/-! ## Objections in order -/

/-- No objection of two lists applies if none of either does. -/
theorem NoneOf.append {os os' : List (Objection K)} (h : NoneOf os) (h' : NoneOf os') :
    NoneOf (os ++ os') := fun o ho =>
  (List.mem_append.1 ho).elim (h o) (h' o)

/-- Where an error is named, an objection applies. -/
theorem FirstOf.not_noneOf {os : List (Objection K)} {e : Error K} (h : FirstOf os e) :
    ¬NoneOf os := by
  induction os with
  | nil => exact h.elim
  | cons o os ih =>
    intro hnone
    rcases h with ⟨ho, -⟩ | ⟨-, hos⟩
    · exact hnone o List.mem_cons_self e ho
    · exact ih hos fun o' ho' => hnone o' (List.mem_cons_of_mem _ ho')

/-- Objections that do not apply leave the decision to those that follow. -/
theorem firstOf_append_of_noneOf {os os' : List (Objection K)} (h : NoneOf os) (e : Error K) :
    FirstOf (os ++ os') e ↔ FirstOf os' e := by
  induction os with
  | nil => exact Iff.rfl
  | cons o os ih =>
    have ho := h o List.mem_cons_self
    have hos : NoneOf os := fun o' ho' => h o' (List.mem_cons_of_mem _ ho')
    rw [List.cons_append, FirstOf, ih hos]
    exact ⟨fun hf => hf.elim (fun hn => absurd hn.1 (ho e)) And.right, fun hf => .inr ⟨ho, hf⟩⟩

/-- Once an objection applies, those that follow do not count. -/
theorem firstOf_append_of_firstOf {os os' : List (Objection K)} {e₀ : Error K}
    (h : FirstOf os e₀) (e : Error K) : FirstOf (os ++ os') e ↔ FirstOf os e := by
  induction os with
  | nil => exact h.elim
  | cons o os ih =>
    rw [List.cons_append, FirstOf, FirstOf]
    rcases h with ⟨ho, -⟩ | ⟨-, hos⟩
    · have hdecided : ¬∀ e', ¬o.names e' := fun hn => hn e₀ ho
      simp only [hdecided, false_and]
    · rw [ih hos]

/-! ## Computations that answer to objections -/

section

variable {α β : Type} {os os' : List (Objection K)}

/-- A computation that cannot fail answers to no objection. -/
theorem answers_ok (a : α) : Answers (K := K) [] (.ok a : Except (Error K) α) := by
  intro o ho
  cases ho

/-- A single check: it fails exactly under its objection, with the error that names it. -/
theorem answers_single {o : Objection K} {x : Except (Error K) α}
    (h : ∀ e, o.names e ↔ x = .error e) (hkind : ∀ e, o.names e → e.kind = o.kind) :
    Answers [o] x := by
  cases x with
  | ok a =>
    intro o' ho' e
    rw [List.mem_singleton.1 ho', h]
    exact nofun
  | error e₀ =>
    intro e
    have hnames : o.names e ↔ e = e₀ := by
      rw [h]
      exact ⟨fun hx => (Except.error.inj hx).symm, fun hx => by rw [hx]⟩
    simp only [FirstOf, and_false, or_false, ← hnames]
    exact ⟨And.left, fun ho => ⟨ho, hkind e ho⟩⟩

/-- A check of a yes-or-no question. -/
theorem answers_if {kind : ErrorKind} {p : Prop} [Decidable p] {e : Error K}
    (hkind : e.kind = kind) :
    Answers [⟨kind, fun e' => p ∧ e' = e⟩]
      (if p then .error e else .ok () : Except (Error K) Unit) := by
  refine answers_single (fun e' => ?_) fun e' he' => he'.2 ▸ hkind
  by_cases hp : p
  · simp [hp, eq_comm]
  · simp [hp]

/-- Checks made one after the other. -/
theorem Answers.bind {x : Except (Error K) α} {f : α → Except (Error K) β} (h : Answers os x)
    (hf : ∀ a, x = .ok a → Answers os' (f a)) : Answers (os ++ os') (x >>= f) := by
  cases x with
  | ok a =>
    have hfa := hf a rfl
    show Answers (os ++ os') (f a)
    cases hx : f a with
    | ok b =>
      rw [hx] at hfa
      exact NoneOf.append h hfa
    | error e =>
      rw [hx] at hfa
      intro e'
      rw [firstOf_append_of_noneOf h, hfa]
  | error e =>
    have he : FirstOf os e := (h e).2 rfl
    intro e'
    rw [firstOf_append_of_firstOf he, h]

/-- A computation that answers to objections fails with the error of the first. -/
theorem Answers.error_iff {x : Except (Error K) α} (h : Answers os x) (e : Error K) :
    x = .error e ↔ FirstOf os e := by
  cases x with
  | ok a => exact ⟨nofun, fun hf => absurd h hf.not_noneOf⟩
  | error e₀ =>
    rw [h e]
    exact ⟨fun hx => (Except.error.inj hx).symm, fun hx => by rw [hx]⟩

/-- It succeeds if and only if none applies. -/
theorem Answers.ok_iff {x : Except (Error K) α} (h : Answers os x) :
    (∃ a, x = .ok a) ↔ NoneOf os := by
  cases x with
  | ok a => exact ⟨fun _ => h, fun _ => ⟨a, rfl⟩⟩
  | error e =>
    have he : FirstOf os e := (h e).2 rfl
    exact ⟨nofun, fun hn => absurd hn he.not_noneOf⟩

end

end GraphQubo
