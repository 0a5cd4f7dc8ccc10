import GraphQubo.Proofs.Problem.Tour

/-!
# GraphQubo.Proofs.Problem.Rotation

A tour has no first position.

Where steps around the end are like all other steps, an assignment may be turned by any
number of positions without a change of its energy.  Where steps are also the same in both
directions it may be read backwards.  Both problems of tours compile to such a matrix.

* `no_position_comes_first` — for all accepted inputs, and for the two problems.
-/

namespace GraphQubo

/-- An accepted problem with the constraints of a tour has no first position. -/
theorem exists_turning_tourMatrix {g : Graph Rat} {pr : Problem Rat} {c : Constraints Rat}
    {p : Plan Rat} {a b : Rat} (hc : c.IsTour a b) (hconf : pr.configuration g = .ok c)
    (hplan : (pr.layout g).plan c = .ok p) :
    ∃ m, pr.toMatrix g = .ok m ∧
      (∀ k, m.KeepsEnergies g.nodeCount (pr.positions g) fun q => (q + k) % pr.positions g) ∧
      (g.directed = false →
        m.KeepsEnergies g.nodeCount (pr.positions g) fun q => pr.positions g - 1 - q) := by
  obtain ⟨m, hm, hmeasures⟩ := exists_measures hplan
  refine ⟨m, ?_, Layout.keepsEnergies_turned hc.isCyclic hmeasures, fun hd => ?_⟩
  · rw [Problem.toMatrix, hconf]
    exact hm
  · exact Layout.keepsEnergies_reversed hc.isCyclic hc.edges hd hmeasures

/-- If the steps around the end have the weights and the flag of the other steps, and nothing
is said of single positions, assignments may be turned, and read backwards over an undirected
graph with both flags on.  So they may in the matrices of the two problems of tours. -/
theorem no_position_comes_first :
    (∀ (l : Layout Rat) (c : Constraints Rat) (p : Plan Rat), l.plan c = .ok p → c.IsCyclic →
      ∃ m, l.generate c = .ok m ∧
        (∀ k, m.KeepsEnergies l.graph.nodeCount l.positions fun q => (q + k) % l.positions) ∧
        (c.doubleCountEdges = true → c.doubleCountCycles = true → l.graph.directed = false →
          m.KeepsEnergies l.graph.nodeCount l.positions fun q => l.positions - 1 - q)) ∧
    ∀ (g : Graph Rat) (pr : Problem Rat) (c : Constraints Rat) (p : Plan Rat),
      (pr = .hamiltonianCycle ∨ ∃ b, pr = .travelingSalesperson b) →
      pr.configuration g = .ok c → (pr.layout g).plan c = .ok p →
      ∃ m, pr.toMatrix g = .ok m ∧
        (∀ k, m.KeepsEnergies g.nodeCount (max g.nodeCount 1) fun q =>
          (q + k) % max g.nodeCount 1) ∧
        (g.directed = false →
          m.KeepsEnergies g.nodeCount (max g.nodeCount 1) fun q => max g.nodeCount 1 - 1 - q) := by
  constructor
  · intro l c p hplan hc
    obtain ⟨m, hm, hmeasures⟩ := exists_measures hplan
    refine ⟨m, hm, Layout.keepsEnergies_turned hc hmeasures, fun hflag _ hd => ?_⟩
    exact Layout.keepsEnergies_reversed hc hflag hd hmeasures
  · rintro g pr c p (rfl | ⟨b, rfl⟩) hconf hplan
    · obtain rfl : Problem.tourConstraints 1 = c := Except.ok.inj hconf
      exact exists_turning_tourMatrix (isTour_tourConstraints 1) hconf hplan
    · obtain ⟨W, -, hW⟩ := bind_eq_ok.1 hconf
      obtain rfl := Except.ok.inj hW
      exact exists_turning_tourMatrix (isTour_travelingSalesperson (b * W + 1) b) hconf hplan

/-- Weight one for whatever does not tell positions apart. -/
def Constraints.circle : Constraints Rat :=
  ((Constraints.ones.clear .startNodeScore).clear .terminalNodeScore).clear .invalidTraversalSelf

/-- A pair of nodes over three positions, turned by one and read backwards; a tour through the
pair turned by one. -/
theorem no_position_comes_first_pairWithLoop :
    (∃ m e, (⟨.pairWithLoop, 3, none, none⟩ : Layout Rat).generate .circle = .ok m ∧
      m.energy [true, false, false, false, false, true] = .ok e ∧
      m.energy [false, true, false, true, false, false] = .ok e ∧
      m.energy [false, false, true, true, false, false] = .ok e) ∧
    ∃ m e, Problem.hamiltonianCycle.toMatrix .pairWithLoop = .ok m ∧
      m.energy [true, false, false, true] = .ok e ∧
      m.energy [false, true, true, false] = .ok e := by
  obtain ⟨hcyclic, htour⟩ := no_position_comes_first
  constructor
  · obtain ⟨p, hp⟩ :
        ∃ p, (⟨.pairWithLoop, 3, none, none⟩ : Layout Rat).plan .circle = .ok p := ⟨_, rfl⟩
    obtain ⟨m, hm, hturned, hreversed⟩ := hcyclic _ _ p hp ⟨rfl, rfl, rfl, rfl, rfl, rfl⟩
    obtain ⟨e, he, hturn⟩ := hturned 1 [true, false, false, false, false, true]
      [false, true, false, true, false, false] rfl rfl (by decide)
    obtain ⟨e', he', hback⟩ := hreversed rfl rfl rfl [true, false, false, false, false, true]
      [false, false, true, true, false, false] rfl rfl (by decide)
    obtain rfl : e = e' := Except.ok.inj (he.symm.trans he')
    exact ⟨m, e, hm, he, hturn, hback⟩
  · obtain ⟨p, hp⟩ := (isTour_tourConstraints 1).exists_plan
      (l := Problem.hamiltonianCycle.layout Graph.pairWithLoop) (by decide) (by decide) rfl rfl
      fun h => absurd rfl h
    obtain ⟨m, hm, hturned, -⟩ := htour _ _ _ p (.inl rfl) rfl hp
    obtain ⟨e, he, hturn⟩ := hturned 1 [true, false, false, true] [false, true, true, false]
      rfl rfl (by decide)
    exact ⟨m, e, hm, he, hturn⟩

end GraphQubo
