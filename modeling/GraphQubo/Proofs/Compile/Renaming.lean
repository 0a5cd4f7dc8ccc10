import GraphQubo.Proofs.Compile.Doubling
import GraphQubo.Proofs.Compile.Rearranged
import GraphQubo.Proofs.Graph.Renamed

/-!
# GraphQubo.Proofs.Compile.Renaming

The names of the nodes do not count where steps are written both ways.

The smaller node of a pair writes it, so a cell says whose number is smaller.  Couplings at
one position add up to the same for both orders of two nodes, whichever of them writes.  A
step leads from one node to another; written for one order only it would be missing for the
other one, so every enabled family of steps has to be mirrored.

* `meaning_renamed` — what two variables bring together, under old names and new ones;
* `exists_plan_renamed` — the renamed layout is accepted as well;
* `renaming_keeps_energies` — the renamed assignment has the same energy.
-/

namespace GraphQubo

/-- Every family of steps that is enabled is written for both orders of two nodes. -/
def Constraints.MirrorsSteps {K : Type} [Coefficient K] (c : Constraints K) : Prop :=
  ∀ f, f.isStep = true → c.isEnabled f = true → c.doubleCounts f = true

namespace Layout

/-- The layout with its nodes renamed. -/
def renamed {K : Type} [Coefficient K] (l : Layout K) (π : Equiv.Perm (Fin l.graph.nodeCount)) :
    Layout K :=
  ⟨l.graph.renamed π, l.positions, l.startNode.map (newName π), l.terminalNode.map (newName π)⟩

/-! ## Acceptance -/

section

variable {K : Type} [Coefficient K] {l : Layout K} (π : Equiv.Perm (Fin l.graph.nodeCount))

/-- What compiles over a layout compiles over the renamed one. -/
theorem exists_plan_renamed {c : Constraints K} (h : ∃ p, l.plan c = .ok p) :
    ∃ p, (l.renamed π).plan c = .ok p := by
  rw [exists_plan_iff] at h ⊢
  have hrange : ∀ node : Option Nat, (∀ v, node = some v → v < l.graph.nodeCount) →
      ∀ v, node.map (newName π) = some v → v < l.graph.nodeCount := by
    intro node hnode v hv
    obtain ⟨u, hu, rfl⟩ := Option.map_eq_some_iff.1 hv
    exact newName_lt π (hnode u hu)
  refine ⟨h.finite, h.positions, h.room, hrange _ h.start, hrange _ h.terminal,
    fun hset => mt Option.map_eq_none_iff.1 (h.startScore hset),
    fun hset => mt Option.map_eq_none_iff.1 (h.terminalScore hset), fun hreads e he => ?_⟩
  obtain ⟨f, hf, hsame⟩ := Graph.exists_mem_of_mem_renamed π he
  rw [hsame]
  exact h.weights hreads f hf

end

/-! ## Meanings under new names -/

section

variable {l : Layout Rat} {c : Constraints Rat}

/-- Families of steps that have their flag are written whichever node is the smaller one. -/
theorem written_of_flag {walked jumped : Penalty} {flag : Bool}
    (hwalked : c.isEnabled walked = true → flag = true)
    (hjumped : c.isEnabled jumped = true → flag = true) (v w : Nat) :
    (if v < w ∨ flag = true then
      if l.graph.Arc v w then c.strength walked * l.graph.arcWeight v w else c.strength jumped
    else 0) =
      if l.graph.Arc v w then c.strength walked * l.graph.arcWeight v w
      else c.strength jumped := by
  by_cases hflag : flag = true
  · rw [if_pos (.inr hflag)]
  · have hwalked' := c.strength_of_not_isEnabled fun h => hflag (hwalked h)
    have hjumped' := c.strength_of_not_isEnabled fun h => hflag (hjumped h)
    simp only [hwalked', hjumped', zero_mul, ite_self]

/-- With mirrored steps the cell of a step depends on its arc only. -/
theorem stepMeaning_of_mirrorsSteps (hc : c.MirrorsSteps) (v w : Nat) :
    l.stepMeaning c v w = if l.graph.Arc v w then
      c.strength .edgeWeightsFactor * l.graph.arcWeight v w else c.strength .invalidTraversal :=
  written_of_flag (hc .edgeWeightsFactor rfl) (hc .invalidTraversal rfl) v w

theorem cycleMeaning_of_mirrorsSteps (hc : c.MirrorsSteps) (v w : Nat) :
    l.cycleMeaning c v w = if l.graph.Arc v w then
      c.strength .edgeWeightsCyclesFactor * l.graph.arcWeight v w
    else c.strength .invalidTraversalCycles :=
  written_of_flag (hc .edgeWeightsCyclesFactor rfl) (hc .invalidTraversalCycles rfl) v w

variable (π : Equiv.Perm (Fin l.graph.nodeCount))

/-- A diagonal cell moves with its node. -/
theorem variableMeaning_renamed {v : Nat} (hv : v < l.graph.nodeCount) (q : Nat) :
    (l.renamed π).variableMeaning c (newName π v) q = l.variableMeaning c v q := by
  have hfixed : ∀ node : Option Nat, node.map (newName π) = some (newName π v) ↔ node = some v :=
    fun node => (Option.map_injective (newName_injective π)).eq_iff (b := some v)
  have hdegree := Graph.degree_renamed π hv
  have hloop := Graph.arc_renamed_iff π hv hv
  simp only [variableMeaning, renamed, hfixed, hdegree, hloop]

/-- So does a cell of one node. -/
theorem nodeMeaning_renamed {v : Nat} (hv : v < l.graph.nodeCount) (q r : Nat) :
    (l.renamed π).nodeMeaning c (newName π v) q r = l.nodeMeaning c v q r := by
  have hloop := Graph.arc_renamed_iff π hv hv
  have hweight := Graph.arcWeight_renamed π hv hv
  simp only [nodeMeaning, renamed, hloop, hweight]

/-- Two variables bring the same together under their old names and the new ones. -/
theorem meaning_renamed (hc : c.MirrorsSteps) {v w : Nat} (hv : v < l.graph.nodeCount)
    (hw : w < l.graph.nodeCount) (q r : Nat) :
    (l.renamed π).meaning c (newName π v) q (newName π w) r +
        (l.renamed π).meaning c (newName π w) r (newName π v) q =
      l.meaning c v q w r + l.meaning c w r v q := by
  have hsame := (newName_injective π).eq_iff (a := v) (b := w)
  have hjoined := Graph.joined_renamed_iff π hv hw
  have harc := Graph.arc_renamed_iff π hv hw
  have harc' := Graph.arc_renamed_iff π hw hv
  have hweight := Graph.arcWeight_renamed π hv hw
  have hweight' := Graph.arcWeight_renamed π hw hv
  unfold meaning
  by_cases hvw : v = w
  · subst hvw
    simp only [if_true, variableMeaning_renamed π hv, nodeMeaning_renamed π hv]
  · have hwv : ¬w = v := fun h => hvw h.symm
    have hnew : ¬newName π v = newName π w := fun h => hvw (hsame.1 h)
    have hnew' : ¬newName π w = newName π v := fun h => hnew h.symm
    simp only [hvw, hwv, hnew, hnew', if_false]
    by_cases hqr : q = r
    · subst hqr
      simp only [if_true]
      rw [positionMeaning_add_swap hvw, positionMeaning_add_swap hnew]
      simp only [renamed, hjoined]
    · have hrq : ¬r = q := fun h => hqr h.symm
      simp only [hqr, hrq, if_false, stepMeaning_of_mirrorsSteps hc,
        cycleMeaning_of_mirrorsSteps hc, renamed, harc, harc', hweight, hweight']

end

end Layout

/-- Renaming the nodes of an accepted input keeps it accepted.  If all enabled families of
steps are mirrored, an assignment has the energy of the one that sets the same positions of
the renamed nodes. -/
theorem renaming_keeps_energies {l : Layout Rat} {c : Constraints Rat} {p : Plan Rat}
    (h : l.plan c = .ok p) (hc : c.MirrorsSteps) (π : Equiv.Perm (Fin l.graph.nodeCount)) :
    Graph.ofEdges l.graph.directed l.graph.nodeCount (l.graph.edges.map (Edge.renamed π)) =
        .ok (l.renamed π).graph ∧
      ∃ m m', l.generate c = .ok m ∧ (l.renamed π).generate c = .ok m' ∧
        ∀ bits bits' : List Bool, bits.length = l.graph.nodeCount * l.positions →
          bits'.length = l.graph.nodeCount * l.positions →
          (∀ (v : Fin l.graph.nodeCount) (q : Fin l.positions),
            bits'[Variable.number ⟨π v, q⟩ l.positions]? =
              bits[Variable.number ⟨v, q⟩ l.positions]?) →
          ∃ e, m.energy bits = .ok e ∧ m'.energy bits' = .ok e := by
  refine ⟨l.graph.ofEdges_renamed π, ?_⟩
  obtain ⟨p', hp'⟩ := Layout.exists_plan_renamed π ⟨p, h⟩
  obtain ⟨m, hm, hmeasures⟩ := exists_measures h
  obtain ⟨m', hm', hmeasures'⟩ := exists_measures hp'
  refine ⟨m, m', hm, hm', fun bits bits' hlen hlen' hbits => ?_⟩
  have hcarries : Carries (π.prodCongr (Equiv.refl (Fin l.positions))) bits bits' :=
    ⟨hlen, hlen', fun x => hbits x.1 x.2⟩
  refine hmeasures.energy_of_carries hmeasures' (fun x y => ?_) hcarries
  have hmeaning := Layout.meaning_renamed π hc x.1.isLt y.1.isLt x.2 y.2
  rw [newName_val, newName_val] at hmeaning
  exact hmeaning

/-- Each of two nodes gets the name of the other one. -/
def exchange : Equiv.Perm (Fin 2) := Equiv.swap 0 1

/-- With the two nodes exchanged the loop is at the second one. -/
theorem renaming_keeps_energies_pairWithLoop :
    ∃ m m', Layout.pairWithLoop.generate .ones = .ok m ∧
      (Layout.pairWithLoop.renamed exchange).generate .ones = .ok m' ∧
      (Layout.pairWithLoop.renamed exchange).graph.Arc 1 1 ∧
      ∃ e, m.energy [true, false, true, true] = .ok e ∧
        m'.energy [true, true, true, false] = .ok e := by
  obtain ⟨p, hp⟩ : ∃ p, Layout.pairWithLoop.plan .ones = .ok p := ⟨_, rfl⟩
  have hmirrors : Constraints.ones.MirrorsSteps := by
    intro f hf _
    cases f <;> first | rfl | cases hf
  obtain ⟨-, m, m', hm, hm', henergy⟩ :=
    renaming_keeps_energies hp hmirrors exchange
  refine ⟨m, m', hm, hm', by decide +kernel, ?_⟩
  exact henergy [true, false, true, true] [true, true, true, false] rfl rfl (by decide)

end GraphQubo
