import GraphQubo.Proofs.Toml.Content
import GraphQubo.Proofs.Toml.Document
import GraphQubo.Proofs.Toml.Number

/-!
# GraphQubo.Proofs.Toml.Library

What is relied on of a library that writes and reads TOML texts.

A library is faithful if it writes flags, whole numbers up to `2^63 - 1`, numbers other than NaN,
arrays and tables so that they are read back unchanged, leaves out the fields without a value, and
refuses greater whole numbers.  Nothing is asked of it for other values, nor for tables in which a
line stands below a section.

* `Holds` — the tables that are read back;
* `Library.IsFaithful` — the two laws;
* `Library.standard_isFaithful` — the library of this project keeps them.
-/

namespace GraphQubo.Toml

open Content (Fields naturals naturalsOfFields)

/-- A value that stands on a line and is read back: a flag, a whole number that TOML has, a number
other than NaN, or an array without items. -/
inductive Value.IsWord : Value → Prop where
  | flag (b : Bool) : IsWord (.flag b)
  | natural {n : Nat} (h : n < integerLimit) : IsWord (.integer n)
  | number {x : Float} (h : x.isNaN = false) : IsWord (.number x)
  | nothing : IsWord (.array [])

/-- A table with distinct bare keys: first its lines, then its sections, which are tables or arrays
of tables of this kind. -/
inductive Holds : Table → Prop where
  | intro {lines below : Table} (hkeys : ∀ e ∈ lines ++ below, IsBareKey e.1)
      (hnodup : ((lines ++ below).map Prod.fst).Nodup)
      (hlines : ∀ e ∈ lines, e.2.IsWord)
      (hsection : ∀ e ∈ below, e.2.isSection = true)
      (hbelow : ∀ e ∈ below, ∀ t ∈ e.2.tables, Holds t) : Holds (lines ++ below)

/-- The laws of a library. -/
structure Library.IsFaithful (library : Library) : Prop where
  /-- The fields with a value are read back; the others are skipped. -/
  readsBack : ∀ fields : Fields, Holds (entries fields) →
    ∃ text, library.write? fields = some text ∧ library.read? text = some (entries fields)
  /-- A whole number that TOML does not have is refused, wherever it stands. -/
  refuses : ∀ (fields : Fields) (n : Nat), n ∈ naturalsOfFields fields → integerLimit ≤ n →
    library.write? fields = none

/-! ## The library of this project -/

/-- Words are written on a line and read back from it. -/
theorem Value.IsWord.plain {v : Value} (h : v.IsWord) : v.Plain ∧ v.isSection = false := by
  cases h with
  | flag b => exact ⟨.word (readsBack_flag b), rfl⟩
  | natural h => exact ⟨.word (readsBack_natural h), rfl⟩
  | number h => exact ⟨.word (readsBack_number_of_isNaN h), rfl⟩
  | nothing => exact ⟨.nothing, rfl⟩

theorem Holds.fits {t : Table} (h : Holds t) : Fits t := by
  induction h with
  | intro hkeys hnodup hlines hsection _ ih =>
    exact .intro hkeys hnodup (fun e he => (hlines e he).plain) hsection ih

/-- A record that is an item of an array. -/
theorem exists_fields_of_mem {items : List Content} {c : Content} (hc : c ∈ items)
    (htables : (ofItems items).all Value.isTable = true) :
    ∃ fields, c = .record fields ∧ entries fields ∈ (Value.array (ofItems items)).tables := by
  rw [ofItems_eq, List.all_map, List.all_eq_true] at htables
  have htable := htables c hc
  cases c with
  | record fields =>
    refine ⟨fields, rfl, List.mem_filterMap.2 ⟨.table (entries fields), ?_, rfl⟩⟩
    rw [ofItems_eq]
    exact List.mem_map_of_mem (f := ofContent) hc
  | _ => cases htable

/-- TOML has the whole numbers of a table that is read back. -/
theorem Holds.lt_of_mem {fields : Fields} (h : Holds (entries fields)) {n : Nat}
    (hn : n ∈ naturalsOfFields fields) : n < integerLimit := by
  generalize ht : entries fields = t at h
  induction h generalizing fields n with
  | @intro lines below _ _ hlines hsection _ ih =>
    obtain ⟨key, c, hmem, hc⟩ := exists_of_mem_naturalsOfFields hn
    have hentry := mem_entries hmem
    rw [ht] at hentry
    rcases List.mem_append.1 hentry with hline | hbelow
    · have hword := hlines _ hline
      cases c with
      | natural m =>
        obtain rfl := List.mem_singleton.1 hc
        cases hword with
        | natural hm => exact hm
      | list items =>
        cases items with
        | nil => cases hc
        | cons c items => cases hword
      | record fields => cases hword
      | _ => cases hc
    · have hsections := hsection _ hbelow
      cases c with
      | record inner => exact ih _ hbelow _ (List.mem_singleton_self _) hc rfl
      | list items =>
        have htables : (ofItems items).all Value.isTable = true :=
          (Bool.and_eq_true_iff.1 hsections).2
        rw [naturals, naturalsOfItems_eq, List.mem_flatMap] at hc
        obtain ⟨c, hitem, hn⟩ := hc
        obtain ⟨inner, rfl, hinner⟩ := exists_fields_of_mem hitem htables
        exact ih _ hbelow _ hinner hn rfl
      | _ => cases hsections

/-- The library of this project is faithful. -/
theorem Library.standard_isFaithful : Library.standard.IsFaithful where
  readsBack fields h := by
    have hall : ((naturalsOfFields fields).all fun n => decide (n < integerLimit)) = true :=
      List.all_eq_true.2 fun n hn => decide_eq_true (h.lt_of_mem hn)
    exact ⟨render (entries fields), if_pos hall, parse?_render h.fits⟩
  refuses fields n hn hle := by
    refine if_neg fun hall => ?_
    have hlt := of_decide_eq_true (List.all_eq_true.1 hall n hn)
    exact absurd hlt (Nat.not_lt.2 hle)

end GraphQubo.Toml
