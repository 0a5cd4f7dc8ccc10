import GraphQubo.Proofs.Graph.Building
import GraphQubo.Proofs.Job.Decision

/-!
# GraphQubo.Proofs.Job.Description

Graphs, their descriptions and the jobs that hold them.

The edges of a graph are listed in order, turned the way they are stored and with one weight for
each pair of ends.  Put into a graph again, each of them takes the place that it had.  A
description that someone wrote lists edges as they come; describing the graph that it builds
puts it into this form.  A job only looks at the graph of its description, and both ways to
compile give one matrix, so a job over a described graph is the compilation over the graph.

* `toGraph_ofGraph` — a graph is built from its own description;
* `toGraph_eq_ok` — the graph of a description;
* `run_eq_generate` — the matrix of a job;
* `Job.compileInMemory_eq_compile` — in memory it is the same matrix, if there is room for it;
* `describing_changes_nothing` — all of this together.
-/

namespace GraphQubo

variable {K : Type} [Coefficient K]

/-! ## Descriptions -/

/-- The edges of a graph are stored already. -/
theorem Graph.stored_of_mem {g : Graph K} {e : Edge K} (he : e ∈ g.edges) :
    e.stored g.directed = e := by
  unfold Edge.stored orient
  cases hd : g.directed with
  | true => rfl
  | false =>
    have hle := g.oriented hd e he
    simp only [Bool.false_eq_true, if_false, Nat.min_eq_left hle, Nat.max_eq_right hle]

/-- The edges of a graph are in order already. -/
theorem Graph.sort_edges (g : Graph K) :
    Edge.sort (g.edges.map (Edge.stored g.directed)).reverse = g.edges := by
  have hstored : g.edges.map (Edge.stored g.directed) = g.edges :=
    (List.map_congr_left fun e he => stored_of_mem he).trans (List.map_id _)
  rw [hstored]
  refine Edge.eq_of_mem_iff (Edge.pairwise_sort _) g.sorted fun e => ?_
  rw [← Edge.mem_sort_iff (Edge.apart_of_pairwise g.sorted),
    Edge.sort_congr (Edge.apart_of_pairwise g.sorted) fun e => List.mem_reverse.symm]

namespace GraphDescription

/-- A graph is built from its own description. -/
theorem toGraph_ofGraph (g : Graph K) : (ofGraph g).toGraph = .ok g := by
  refine Graph.ofEdges_eq_ok_iff.2 ⟨⟨g.nodeCount_lt, fun e he => ?_⟩, rfl, rfl, g.sort_edges.symm⟩
  exact ⟨(g.bounded e he).1, (g.bounded e he).2, g.weighted e he⟩

/-- What a description builds, if it builds a graph. -/
theorem toGraph_eq_ok {d : GraphDescription K} {g : Graph K} (h : d.toGraph = .ok g) :
    g.directed = d.directed ∧ g.nodeCount = d.nodeCount.getD d.inferredNodeCount ∧
      ∀ e, e ∈ g.edges ↔ Edge.LastOf d.directed d.edges e := by
  obtain ⟨-, hdirected, hcount, hedges⟩ := Graph.ofEdges_eq_ok_iff.1 h
  refine ⟨hdirected, hcount, fun e => ?_⟩
  rw [hedges, Edge.mem_sort_reverse_iff]

end GraphDescription

/-! ## Jobs -/

/-- Rows that are filled side by side make the matrix that is filled in turn. -/
theorem Layout.generateParallel_eq_generate (l : Layout K) (c : Constraints K) :
    l.generateParallel c = l.generate c := by
  unfold generateParallel generate
  cases h : l.plan c with
  | error => rfl
  | ok p => exact Plan.fillParallel_eq_fill (plan_eq_ok h).2.2

/-- Whichever way its work asks for, a job compiles its configuration over its layout. -/
theorem Job.compile_eq_generate (j : Job K) (g : Graph K) :
    j.compile g = (j.layout g).generate j.constraints := by
  unfold compile
  rw [Layout.generateParallel_eq_generate]
  unfold Layout.estimateWork Layout.generate
  cases (j.layout g).plan j.constraints with
  | error => rfl
  | ok p => exact ite_self _

/-- A job is compiled in memory by asking for room for its matrix. -/
theorem Job.compileInMemory_eq_compile (j : Job K) (g : Graph K) :
    j.compileInMemory g = j.compile g >>= Matrix.withRoom := by
  obtain ⟨parallel, h⟩ := j.compileInMemory_eq g
  rw [h, compile_eq_generate, Layout.compileInMemory_eq]

/-- A job is the compilation over the graph that it describes. -/
theorem Job.run_eq_generate {j : Job K} {g : Graph K} (h : j.graph.toGraph = .ok g) :
    j.run = asJobAnswer (generate g j.positions j.startNode j.terminalNode j.constraints) := by
  have hcompile : j.run = asJobAnswer (j.compile g) := by
    unfold run
    rw [h]
    rfl
  rw [hcompile, compile_eq_generate]
  rfl

/-- Describing a graph loses nothing.  The description builds the graph again; a description that
builds a graph is put in order, with the last weight for each pair of ends; and a job over a
described graph answers as the compilation over the graph does, both ways to compile alike. -/
theorem describing_changes_nothing :
    (∀ g : Graph K, (GraphDescription.ofGraph g).toGraph = .ok g) ∧
      (∀ (d : GraphDescription K) (g : Graph K), d.toGraph = .ok g →
        (GraphDescription.ofGraph g).directed = d.directed ∧
          (GraphDescription.ofGraph g).nodeCount = some g.nodeCount ∧
          g.nodeCount = d.nodeCount.getD d.inferredNodeCount ∧
          (GraphDescription.ofGraph g).edges.Pairwise Edge.Precedes ∧
          ∀ e, e ∈ (GraphDescription.ofGraph g).edges ↔ Edge.LastOf d.directed d.edges e) ∧
      ∀ (g : Graph K) (positions : Nat) (startNode terminalNode : Option Nat)
        (c : Constraints K),
        (Job.mk positions startNode terminalNode c (.ofGraph g)).run =
            asJobAnswer (generate g positions startNode terminalNode c) ∧
          Layout.generateParallel ⟨g, positions, startNode, terminalNode⟩ c =
            generate g positions startNode terminalNode c := by
  refine ⟨GraphDescription.toGraph_ofGraph, fun d g h => ?_, fun g positions start terminal c => ?_⟩
  · obtain ⟨hdirected, hcount, hedges⟩ := GraphDescription.toGraph_eq_ok h
    exact ⟨hdirected, rfl, hcount, g.sorted, hedges⟩
  · exact ⟨Job.run_eq_generate (GraphDescription.toGraph_ofGraph g),
      Layout.generateParallel_eq_generate _ c⟩

/-- Three undirected edges without a node count, two of them between the same nodes. -/
def GraphDescription.twiceJoined : GraphDescription Rat :=
  ⟨false, none, [⟨1, 0, some 5⟩, ⟨2, 1, none⟩, ⟨0, 1, some 3⟩]⟩

/-- The last weight counts, whichever way its edge was written. -/
theorem describing_changes_nothing_twiceJoined :
    ∃ g, GraphDescription.twiceJoined.toGraph = .ok g ∧
      (GraphDescription.ofGraph g).nodeCount = some 3 ∧
      ⟨0, 1, some 3⟩ ∈ (GraphDescription.ofGraph g).edges ∧
      (GraphDescription.ofGraph g).toGraph = .ok g := by
  obtain ⟨g, hg⟩ : ∃ g, GraphDescription.twiceJoined.toGraph = .ok g := ⟨_, rfl⟩
  obtain ⟨hbuilds, hdescribes, -⟩ := describing_changes_nothing (K := Rat)
  obtain ⟨-, hnodes, hcount, -, hedges⟩ := hdescribes _ g hg
  refine ⟨g, hg, ?_, (hedges _).2 ?_, hbuilds g⟩
  · rw [hnodes, hcount]
    rfl
  · exact ⟨[⟨1, 0, some 5⟩, ⟨2, 1, none⟩], ⟨0, 1, some 3⟩, [], rfl, rfl, by simp⟩

end GraphQubo
