import GraphQubo.Coefficient

/-!
# GraphQubo.Graph.Edge

Edges and lists of edges sorted by their ends.

A list of edges is kept strictly sorted by `(source, target)`, so that it holds
one edge for each pair of ends and two lists with the same edges are equal.
`Edge.insert` puts an edge at its place and replaces the one that is there: of
several edges with the same ends the last one counts.
-/

namespace GraphQubo

/-- An edge between two nodes, with or without a weight. -/
structure Edge (K : Type) where
  source : Nat
  target : Nat
  weight : Option K
  deriving DecidableEq, Repr

namespace Edge

variable {K : Type}

/-- Whether the ends of one edge come before those of another. -/
def Precedes (e f : Edge K) : Prop :=
  e.source < f.source ∨ (e.source = f.source ∧ e.target < f.target)

instance (e f : Edge K) : Decidable (e.Precedes f) :=
  inferInstanceAs (Decidable (_ ∨ _))

/-- The order of edges is transitive. -/
theorem Precedes.trans {e f g : Edge K} (h : e.Precedes f) (h' : f.Precedes g) :
    e.Precedes g := by
  unfold Precedes at *
  omega

/-- Puts an edge into a sorted list, in place of the one with the same ends. -/
def insert (e : Edge K) : List (Edge K) → List (Edge K)
  | [] => [e]
  | f :: rest =>
    if e.Precedes f then e :: f :: rest
    else if f.Precedes e then f :: insert e rest
    else e :: rest

/-- What is in the list after an insertion was in it before, or is new. -/
theorem mem_of_mem_insert {e g : Edge K} {es : List (Edge K)} (h : g ∈ insert e es) :
    g = e ∨ g ∈ es := by
  induction es with
  | nil => simpa [insert] using h
  | cons f rest ih =>
    unfold insert at h
    split at h
    · simpa using h
    · split at h
      · rcases List.mem_cons.1 h with h | h
        · exact .inr (h ▸ List.mem_cons_self ..)
        · exact (ih h).imp_right (List.mem_cons_of_mem _)
      · rcases List.mem_cons.1 h with h | h
        · exact .inl h
        · exact .inr (List.mem_cons_of_mem _ h)

/-- An insertion keeps the list sorted. -/
theorem pairwise_insert {e : Edge K} {es : List (Edge K)} (h : es.Pairwise Precedes) :
    (insert e es).Pairwise Precedes := by
  induction es with
  | nil => simp [insert]
  | cons f rest ih =>
    have hf := List.pairwise_cons.1 h
    unfold insert
    split
    · rename_i hef
      refine List.pairwise_cons.2 ⟨fun g hg => ?_, h⟩
      rcases List.mem_cons.1 hg with rfl | hg
      · exact hef
      · exact hef.trans (hf.1 g hg)
    · rename_i hef
      split
      · rename_i hfe
        refine List.pairwise_cons.2 ⟨fun g hg => ?_, ih hf.2⟩
        rcases mem_of_mem_insert hg with rfl | hg
        · exact hfe
        · exact hf.1 g hg
      · rename_i hfe
        refine List.pairwise_cons.2 ⟨fun g hg => ?_, hf.2⟩
        have hfg := hf.1 g hg
        unfold Precedes at *
        omega

/-- Whether the edge leads from `source` to `target`. -/
def leads (source target : Nat) (e : Edge K) : Bool :=
  e.source == source && e.target == target

/-- An edge leads from its source to its target. -/
theorem leads_iff {a b : Nat} {e : Edge K} :
    e.leads a b = true ↔ e.source = a ∧ e.target = b := by
  simp [leads]

/-- After an insertion the new edge is found under its ends, and under all other
ends what was found before. -/
theorem find?_insert (a b : Nat) (e : Edge K) (es : List (Edge K)) :
    (insert e es).find? (leads a b) =
      if e.leads a b then some e else es.find? (leads a b) := by
  induction es with
  | nil => simp [insert, List.find?_cons]; split <;> simp_all
  | cons f rest ih =>
    unfold insert
    split
    · simp only [List.find?_cons]
      cases e.leads a b <;> rfl
    · split
      · rename_i hfe
        rw [List.find?_cons, List.find?_cons, ih]
        cases hf : f.leads a b with
        | false => rfl
        | true =>
          have he : ¬e.leads a b = true := by
            rw [leads_iff] at hf ⊢
            unfold Precedes at hfe
            omega
          simp [he]
      · rename_i hef hfe
        have hiff : f.leads a b = e.leads a b := by
          rw [Bool.eq_iff_iff, leads_iff, leads_iff]
          unfold Precedes at hef hfe
          omega
        simp only [List.find?_cons, hiff]
        cases e.leads a b <;> rfl

end Edge

end GraphQubo
