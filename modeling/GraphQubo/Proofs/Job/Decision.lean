import GraphQubo.Job.Basic
import GraphQubo.Proofs.Compile.Memory

/-!
# GraphQubo.Proofs.Job.Decision

One decision for all that compiles, but for memory.

The estimate of the work decides as the layout does: it fails exactly with the error
of the first objection that applies, and succeeds when none does.  A compilation in
memory makes the same decision and adds one of its own: a layout that is accepted may
lack room for its matrix (`Layout.LacksRoom`).  Nothing else separates the two, as
nothing else fails after a plan.

* `Layout.compileInMemory_eq_error_iff`, `Layout.exists_compileInMemory_iff` — the
  decision of a compilation, whichever way it fills the matrix;
* `Job.compileInMemory_eq` — a job is a compilation in one of the two ways;
* `one_decision_but_for_room` — all of them, and a job from its description;
* `decisions_differ_loopedNode` — a layout on which the estimate and the compilations
  part.
-/

namespace GraphQubo

variable {K : Type}

/-- A job fails with an error of its graph, wrapped. -/
theorem asJobAnswer_eq_error_iff {α : Type} {x : Except (Error K) α} {y : ConfigError K} :
    asJobAnswer x = .error y ↔ ∃ e, y = .graph e ∧ x = .error e := by
  cases x <;> simp [asJobAnswer, Except.mapError, eq_comm]

/-- Wrapping errors changes no success. -/
theorem asJobAnswer_eq_ok_iff {α : Type} {x : Except (Error K) α} {a : α} :
    asJobAnswer x = .ok a ↔ x = .ok a := by
  cases x <;> simp [asJobAnswer, Except.mapError]

/-- A computation in two steps fails in the first, or in the second after the first. -/
theorem bind_eq_error {ε α β : Type} {x : Except ε α} {f : α → Except ε β} {e : ε} :
    x >>= f = .error e ↔ x = .error e ∨ ∃ a, x = .ok a ∧ f a = .error e := by
  cases x <;> simp [bind, Except.bind]

variable [Coefficient K]

namespace Layout

/-- The computation fails exactly where the layout refuses the configuration, with the
same error, and succeeds exactly where nothing speaks against it. -/
def DecidesAs {α : Type} (l : Layout K) (c : Constraints K) (x : Except (Error K) α) : Prop :=
  (∀ e, x = .error e ↔ l.Refuses c e) ∧ ((∃ a, x = .ok a) ↔ l.Accepts c)

/-- The layout is accepted, and no block of memory holds the cells of its matrix. -/
def LacksRoom (l : Layout K) (c : Constraints K) : Prop :=
  l.Accepts c ∧ 2 ^ 30 ≤ l.graph.nodeCount * l.positions

/-- What compiling ends with instead of a matrix: the error that the layout is refused
with, or the lack of room. -/
def FailsWith (l : Layout K) (c : Constraints K) (e : Error K) : Prop :=
  l.Refuses c e ∨ (l.LacksRoom c ∧ e = .noRoom (l.graph.nodeCount * l.positions))

/-- The computation decides as the layout does, except that it also fails for lack of
room. -/
def DecidesInMemory {α : Type} (l : Layout K) (c : Constraints K) (x : Except (Error K) α) :
    Prop :=
  (∀ e, x = .error e ↔ l.FailsWith c e) ∧
    ((∃ a, x = .ok a) ↔ l.Accepts c ∧ l.graph.nodeCount * l.positions < 2 ^ 30)

variable {l : Layout K} {c : Constraints K}

/-- What either way of filling the matrix fails with. -/
theorem compileInMemory_eq_error_iff (parallel : Bool) (e : Error K) :
    l.compileInMemory c parallel = .error e ↔ l.FailsWith c e := by
  cases h : l.plan c with
  | error e₀ =>
    have hrefuses : l.Refuses c e₀ := ((l.plan_answers c).error_iff e₀).1 h
    have hlacks : ¬l.LacksRoom c := fun hl => hrefuses.not_noneOf hl.1
    have heq : l.Refuses c e ↔ e₀ = e := by
      rw [Refuses, ← (l.plan_answers c).error_iff, h, Except.error.injEq]
    simp [compileInMemory_of_error h, FailsWith, hlacks, heq]
  | ok p =>
    have haccepts : l.Accepts c := (l.plan_answers c).ok_iff.1 ⟨p, h⟩
    have hrefuses : ¬l.Refuses c e := fun he => he.not_noneOf haccepts
    obtain ⟨rfl, -, hp⟩ := plan_eq_ok h
    rw [FailsWith, LacksRoom, ← hp.dimension]
    rcases Nat.lt_or_ge p.dimension (2 ^ 30) with hroom | hroom
    · obtain ⟨m, hm, -⟩ := Plan.exists_fill hp
      rw [compileInMemory_of_lt h hroom, hm]
      refine iff_of_false nofun ?_
      rintro (he | ⟨⟨-, hle⟩, -⟩)
      · exact hrefuses he
      · exact Nat.not_lt.2 hle hroom
    · rw [compileInMemory_of_le h hroom, Except.error.injEq]
      constructor
      · rintro rfl
        exact .inr ⟨⟨haccepts, hroom⟩, rfl⟩
      · rintro (he | ⟨-, rfl⟩)
        · exact absurd he hrefuses
        · rfl

/-- When either way of filling the matrix ends with it. -/
theorem exists_compileInMemory_iff (parallel : Bool) :
    (∃ m, l.compileInMemory c parallel = .ok m) ↔
      l.Accepts c ∧ l.graph.nodeCount * l.positions < 2 ^ 30 := by
  rw [Accepts, ← (l.plan_answers c).ok_iff]
  constructor
  · rintro ⟨m, hm⟩
    obtain ⟨p, hp, -⟩ := bind_eq_ok.1 hm
    obtain ⟨rfl, -, hsound⟩ := plan_eq_ok hp
    refine ⟨⟨p, hp⟩, hsound.dimension ▸ Nat.lt_of_not_le fun hroom => ?_⟩
    rw [compileInMemory_of_le hp hroom] at hm
    cases hm
  · rintro ⟨⟨p, hp⟩, hroom⟩
    obtain ⟨rfl, -, hsound⟩ := plan_eq_ok hp
    obtain ⟨m, hm, -⟩ := Plan.exists_fill hsound
    exact ⟨m, (compileInMemory_of_lt hp (hsound.dimension ▸ hroom) parallel).trans hm⟩

/-- Both ways of filling the matrix decide as the layout does but for memory. -/
theorem decidesInMemory_compileInMemory (l : Layout K) (c : Constraints K) (parallel : Bool) :
    l.DecidesInMemory c (l.compileInMemory c parallel) :=
  ⟨compileInMemory_eq_error_iff parallel, exists_compileInMemory_iff parallel⟩

/-- The estimate asks for no memory and decides as the layout does. -/
theorem decidesAs_estimateWork (l : Layout K) (c : Constraints K) :
    l.DecidesAs c (l.estimateWork c) := by
  have hanswers : Answers (l.objections c ++ []) (l.estimateWork c) :=
    (l.plan_answers c).bind fun p _ => answers_ok p.work
  rw [List.append_nil] at hanswers
  exact ⟨hanswers.error_iff, hanswers.ok_iff⟩

/-- Deciding in memory is deciding as the layout does, unless room is lacking. -/
theorem DecidesInMemory.decidesAs_iff {α : Type} {x : Except (Error K) α}
    (h : l.DecidesInMemory c x) : l.DecidesAs c x ↔ ¬l.LacksRoom c := by
  constructor
  · rintro hdecides ⟨haccepts, hroom⟩
    exact Nat.not_lt.2 hroom (h.2.1 (hdecides.2.2 haccepts)).2
  · intro hroom
    have hfits : l.Accepts c → l.graph.nodeCount * l.positions < 2 ^ 30 := fun haccepts =>
      Nat.lt_of_not_le fun hle => hroom ⟨haccepts, hle⟩
    refine ⟨fun e => ?_, h.2.trans (and_iff_left_of_imp hfits)⟩
    rw [h.1, FailsWith]
    simp only [hroom, false_and, or_false]

end Layout

namespace Job

/-- A job is compiled over its graph in one of the two ways. -/
theorem compileInMemory_eq (j : Job K) (g : Graph K) :
    ∃ parallel, j.compileInMemory g = (j.layout g).compileInMemory j.constraints parallel := by
  unfold compileInMemory
  cases h : (j.layout g).plan j.constraints with
  | error e =>
    refine ⟨false, ?_⟩
    rw [Layout.compileInMemory_of_error h, Layout.estimateWork, h]
    rfl
  | ok p =>
    have hwork : (j.layout g).estimateWork j.constraints = .ok p.work := by
      rw [Layout.estimateWork, h]
      rfl
    simp only [hwork, bind, Except.bind]
    split
    · exact ⟨true, rfl⟩
    · exact ⟨false, rfl⟩

/-- Over its graph a job decides as its layout does but for memory. -/
theorem decidesInMemory_compileInMemory (j : Job K) (g : Graph K) :
    (j.layout g).DecidesInMemory j.constraints (j.compileInMemory g) := by
  obtain ⟨parallel, h⟩ := j.compileInMemory_eq g
  exact h ▸ Layout.decidesInMemory_compileInMemory _ _ parallel

/-- A job fails when its graph is refused, or when compiling over that graph fails. -/
theorem runInMemory_eq_error_iff (j : Job K) (x : ConfigError K) :
    j.runInMemory = .error x ↔ ∃ e, x = .graph e ∧ (j.graph.toGraph = .error e ∨
      ∃ g, j.graph.toGraph = .ok g ∧ (j.layout g).FailsWith j.constraints e) := by
  have hcompile : ∀ g e, j.compileInMemory g = .error e ↔ (j.layout g).FailsWith j.constraints e :=
    fun g => (j.decidesInMemory_compileInMemory g).1
  simp only [runInMemory, asJobAnswer_eq_error_iff, bind_eq_error, hcompile]

/-- A job succeeds when it describes a graph over which its layout is accepted and has room. -/
theorem exists_runInMemory_iff (j : Job K) :
    (∃ m, j.runInMemory = .ok m) ↔ ∃ g, j.graph.toGraph = .ok g ∧
      (j.layout g).Accepts j.constraints ∧ g.nodeCount * j.positions < 2 ^ 30 := by
  have hcompile : ∀ g, (∃ m, j.compileInMemory g = .ok m) ↔
      (j.layout g).Accepts j.constraints ∧ g.nodeCount * j.positions < 2 ^ 30 :=
    fun g => (j.decidesInMemory_compileInMemory g).2
  simp only [runInMemory, asJobAnswer_eq_ok_iff, bind_eq_ok, ← hcompile]
  constructor
  · rintro ⟨m, g, hg, hm⟩
    exact ⟨g, hg, m, hm⟩
  · rintro ⟨g, hg, m, hm⟩
    exact ⟨m, g, hg, hm⟩

end Job

/-- The estimate makes the decision of the layout.  Both ways to compile and the compilation in one
call make it too, and fail besides where an accepted layout lacks room; so they decide as the
estimate does if and only if room is not lacking.  A job decides like a compilation once its
description is a graph, its errors wrapped as those of a graph. -/
theorem one_decision_but_for_room :
    (∀ (l : Layout K) (c : Constraints K),
      l.DecidesAs c (l.estimateWork c) ∧
        ∀ x ∈ [l.generateInMemory c, l.generateParallelInMemory c,
            generateInMemory l.graph l.positions l.startNode l.terminalNode c],
          l.DecidesInMemory c x ∧ (l.DecidesAs c x ↔ ¬l.LacksRoom c)) ∧
      ∀ j : Job K,
        (∀ x, j.runInMemory = .error x ↔ ∃ e, x = .graph e ∧ (j.graph.toGraph = .error e ∨
          ∃ g, j.graph.toGraph = .ok g ∧ (j.layout g).FailsWith j.constraints e)) ∧
        ((∃ m, j.runInMemory = .ok m) ↔ ∃ g, j.graph.toGraph = .ok g ∧
          (j.layout g).Accepts j.constraints ∧ g.nodeCount * j.positions < 2 ^ 30) := by
  constructor
  · intro l c
    refine ⟨l.decidesAs_estimateWork c, fun x hx => ?_⟩
    -- the compilation in one call is the one node after node
    have hdecides : l.DecidesInMemory c x := by
      simp only [List.mem_cons, List.not_mem_nil, or_false] at hx
      rcases hx with rfl | rfl | rfl
      · exact l.decidesInMemory_compileInMemory c false
      · exact l.decidesInMemory_compileInMemory c true
      · exact l.decidesInMemory_compileInMemory c false
    exact ⟨hdecides, hdecides.decidesAs_iff⟩
  · intro j
    exact ⟨j.runInMemory_eq_error_iff, j.exists_runInMemory_iff⟩

/-- A single node with an edge to itself. -/
def Graph.loopedNode : Graph Rat where
  directed := false
  nodeCount := 1
  edges := [⟨0, 0, none⟩]
  nodeCount_lt := one_lt_nodeLimit
  sorted := by decide
  bounded := by decide
  oriented := by decide
  weighted := List.forall_mem_singleton.2 nofun

/-- The node can occupy `2^31` positions: there are `2^62` cells. -/
def Layout.loopedNode : Layout Rat := ⟨.loopedNode, 2147483648, none, none⟩

/-- The configuration in which a step from a node without a loop to itself costs 1. -/
def Constraints.selfTraversal : Constraints Rat := Constraints.empty.set .invalidTraversalSelf 1

/-- The layout and the configuration as a job. -/
def Job.loopedNode : Job Rat :=
  ⟨Layout.loopedNode.positions, none, none, .selfTraversal, .ofGraph .loopedNode⟩

/-- The estimate goes through, every compilation of the same layout ends for lack of room, and so
does the job. -/
theorem decisions_differ_loopedNode :
    Layout.loopedNode.estimateWork .selfTraversal = .ok 2147483647 ∧
      Layout.loopedNode.generateInMemory .selfTraversal = .error (.noRoom 2147483648) ∧
      Layout.loopedNode.generateParallelInMemory .selfTraversal = .error (.noRoom 2147483648) ∧
      generateInMemory .loopedNode 2147483648 none none .selfTraversal =
        .error (.noRoom 2147483648) ∧
      Job.loopedNode.runInMemory = .error (.graph (.noRoom 2147483648)) :=
  ⟨by decide, by decide, by decide, by decide, by decide⟩

end GraphQubo
