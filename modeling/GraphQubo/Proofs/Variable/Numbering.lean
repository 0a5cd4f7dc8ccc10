import Mathlib.Data.Prod.Lex
import GraphQubo.Variable

/-!
# GraphQubo.Proofs.Variable.Numbering

The numbers of the variables, computed in 64-bit words.

There is a numbering if there is a position, and a matrix if its side and its number of cells are
words.  Then the numbers of the variables are all numbers below the side, each once, node by node
and position by position; and no number is so large that a word wraps around on the way to it.

* `Variable.number_lt_iff`, `Variable.number_lt`, `Variable.exists_number` — order and range of
  the numbers;
* `ofPositions_eq_ok_iff`, `dimension_eq_ok_iff` — when there is a numbering, and a matrix;
* `toNat_wordNumber` — what words compute in place of the number;
* `Enumerates`, `variables_numbered` — all of it for the matrices that are accepted.
-/

namespace GraphQubo

variable {K : Type}

/-! ## Numbers -/

namespace Variable

/-- The order of the numbers of variables: by node, then by position. -/
theorem number_lt_iff {v q w r P : Nat} (hq : q < P) (hr : r < P) :
    number ⟨w, r⟩ P < number ⟨v, q⟩ P ↔ w < v ∨ (v = w ∧ r < q) := by
  simp only [number]
  rcases Nat.lt_trichotomy v w with h | h | h
  · have hle := Nat.mul_le_mul_right P (Nat.succ_le_of_lt h)
    rw [Nat.succ_mul] at hle
    omega
  · subst h
    omega
  · have hle := Nat.mul_le_mul_right P (Nat.succ_le_of_lt h)
    rw [Nat.succ_mul] at hle
    omega

/-- The number of a variable of `n` nodes is one below `n · P`. -/
theorem number_lt {v q n P : Nat} (hv : v < n) (hq : q < P) : number ⟨v, q⟩ P < n * P := by
  have hle := Nat.mul_le_mul_right P (Nat.succ_le_of_lt hv)
  rw [Nat.succ_mul] at hle
  simp only [number]
  omega

/-- Every number below `n · P` is that of a variable. -/
theorem exists_number {i n P : Nat} (h : i < n * P) :
    ∃ v < n, ∃ q < P, i = number ⟨v, q⟩ P := by
  have hpos : 0 < P := Nat.pos_of_mul_pos_left (Nat.zero_lt_of_lt h)
  exact ⟨i / P, Nat.div_lt_of_lt_mul (Nat.mul_comm n P ▸ h), i % P, Nat.mod_lt i hpos,
    (Nat.div_add_mod' i P).symm⟩

end Variable

namespace Numbering

/-! ## What is refused -/

/-- A numbering has the positions that it is made for. -/
theorem ofPositions_eq_ok_iff {positions : Nat} {m : Numbering} :
    (ofPositions positions : Except (Error K) Numbering) = .ok m ↔ m.positions = positions := by
  unfold ofPositions
  split
  · constructor
    · intro h
      cases h
      rfl
    · rintro rfl
      rfl
  · rename_i hnone
    constructor
    · intro h
      cases h
    · rintro rfl
      exact absurd m.positive hnone

/-- When there is a dimension, and which. -/
theorem dimension_eq_ok_iff {m : Numbering} {nodeCount d : Nat} :
    (m.dimension nodeCount : Except (Error K) Nat) = .ok d ↔
      d = nodeCount * m.positions ∧ d < wordLimit ∧ d * d < wordLimit := by
  simp only [dimension]
  split
  · rename_i hfits
    constructor
    · intro h
      cases h
      exact ⟨rfl, hfits⟩
    · rintro ⟨rfl, -⟩
      rfl
  · rename_i hnone
    constructor
    · intro h
      cases h
    · rintro ⟨rfl, hfits⟩
      exact absurd hfits hnone

/-! ## Words -/

/-- The number of a variable as words compute it, whose products and sums wrap around. -/
def wordNumber (m : Numbering) (node position : Nat) : UInt64 :=
  .ofNat node * .ofNat m.positions + .ofNat position

/-- Words compute the number up to multiples of `2^64`. -/
theorem toNat_wordNumber (m : Numbering) (node position : Nat) :
    (m.wordNumber node position).toNat = m.number node position % wordLimit := by
  simp only [wordNumber, UInt64.toNat_add, UInt64.toNat_mul, UInt64.toNat_ofNat', number,
    Variable.number]
  rw [← Nat.mul_mod, ← Nat.add_mod]
  rfl

/-! ## The enumeration -/

/-- The numbers of the variables of `n` nodes are all numbers below `n · P`. -/
structure Enumerates (m : Numbering) (n : Nat) : Prop where
  /-- Neither the product nor the sum wraps around. -/
  word : ∀ v q, v < n → q < m.positions →
    v * m.positions < wordLimit ∧ (m.wordNumber v q).toNat = m.number v q
  /-- The numbers lie below the side of the matrix. -/
  below : ∀ v q, v < n → q < m.positions → m.number v q < n * m.positions
  /-- A variable is read back from its number. -/
  readsBack : ∀ v q, v < n → q < m.positions → m.variableAt (m.number v q) = ⟨v, q⟩
  /-- What is read from a number is a variable of one of the nodes, and the only one with it. -/
  onlyOne : ∀ i, i < n * m.positions →
    (m.variableAt i).node < n ∧ (m.variableAt i).position < m.positions ∧
      ∀ v q, q < m.positions → (m.number v q = i ↔ m.variableAt i = ⟨v, q⟩)
  /-- The numbers ascend by node, then by position. -/
  ascending : ∀ v q w r, q < m.positions → r < m.positions →
    (m.number v q < m.number w r ↔ toLex (v, q) < toLex (w, r))
  /-- All numbers of a node lie below those of a later one. -/
  nodeByNode : ∀ v q w r, v < w → q < m.positions → r < m.positions →
    m.number v q < m.number w r

/-- A numbering that fits enumerates the variables. -/
theorem enumerates {m : Numbering} {n : Nat} (hfits : n * m.positions < wordLimit) :
    m.Enumerates n where
  word v q hv hq := by
    have hlt : m.number v q < wordLimit := Nat.lt_trans (Variable.number_lt hv hq) hfits
    refine ⟨?_, ?_⟩
    · exact Nat.lt_of_le_of_lt (Nat.le_add_right _ q) hlt
    · rw [toNat_wordNumber, Nat.mod_eq_of_lt hlt]
  below _ _ hv hq := Variable.number_lt hv hq
  readsBack v q _ hq := m.variableAt_number v hq
  onlyOne i hi := by
    refine ⟨Nat.div_lt_of_lt_mul (Nat.mul_comm n _ ▸ hi), Nat.mod_lt i m.positive, ?_⟩
    intro v q hq
    constructor
    · rintro rfl
      exact m.variableAt_number v hq
    · intro h
      rw [← m.number_variableAt i, h]
  ascending v q w r hq hr := by
    rw [Prod.Lex.toLex_lt_toLex]
    exact (Variable.number_lt_iff hr hq).trans (by rw [eq_comm])
  nodeByNode v q w r hvw hq hr := (Variable.number_lt_iff hr hq).2 (.inl hvw)

end Numbering

/-- A numbering exists if and only if there is a position.  A matrix over `n` nodes exists if and
only if its side `n · P` and its number of cells are 64-bit words, and then the numbers of its
variables are the numbers below its side, each once and in lexicographic order. -/
theorem variables_numbered (P n : Nat) :
    ((∃ m, (Numbering.ofPositions P : Except (Error K) Numbering) = .ok m) ↔ 1 ≤ P) ∧
    ∀ m, (Numbering.ofPositions P : Except (Error K) Numbering) = .ok m →
      m.positions = P ∧
      ((∃ d, (m.dimension n : Except (Error K) Nat) = .ok d) ↔
        n * P < wordLimit ∧ n * P * (n * P) < wordLimit) ∧
      ∀ d, (m.dimension n : Except (Error K) Nat) = .ok d → d = n * P ∧ m.Enumerates n := by
  constructor
  · simp only [Numbering.ofPositions_eq_ok_iff]
    constructor
    · rintro ⟨m, rfl⟩
      exact m.positive
    · intro h
      exact ⟨⟨P, h⟩, rfl⟩
  · intro m hm
    obtain rfl := Numbering.ofPositions_eq_ok_iff.1 hm
    refine ⟨rfl, ?_, fun d hd => ?_⟩
    · simp only [Numbering.dimension_eq_ok_iff, exists_eq_left]
    · obtain ⟨rfl, hfits, -⟩ := Numbering.dimension_eq_ok_iff.1 hd
      exact ⟨rfl, Numbering.enumerates hfits⟩

/-- The largest matrix that three nodes can have: its side is `2^32 - 1`. -/
theorem variables_numbered_largestOfThree :
    ∃ m : Numbering, (Numbering.ofPositions 1431655765 : Except (Error Rat) Numbering) = .ok m ∧
      (m.dimension 3 : Except (Error Rat) Nat) = .ok 4294967295 ∧
      (m.wordNumber 2 1431655764).toNat = 4294967294 ∧
      m.variableAt 4294967294 = ⟨2, 1431655764⟩ := by
  obtain ⟨hexists, hall⟩ := variables_numbered (K := Rat) 1431655765 3
  obtain ⟨m, hm⟩ := hexists.2 (by decide)
  obtain ⟨hpositions, hroom, hnumbers⟩ := hall m hm
  obtain ⟨d, hd⟩ := hroom.2 (by decide)
  obtain ⟨rfl, h⟩ := hnumbers d hd
  have hlast : 1431655764 < m.positions := hpositions ▸ (by decide)
  have hnumber : m.number 2 1431655764 = 4294967294 := by
    rw [Numbering.number, hpositions]
    rfl
  refine ⟨m, hm, hd, ?_, ?_⟩
  · exact hnumber ▸ (h.word 2 1431655764 (by decide) hlast).2
  · exact hnumber ▸ h.readsBack 2 1431655764 (by decide) hlast

end GraphQubo
