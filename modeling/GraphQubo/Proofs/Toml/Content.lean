import Mathlib.Data.List.Basic
import GraphQubo.Toml.Library

/-!
# GraphQubo.Proofs.Toml.Content

What is handed to a writer of TOML texts, as a table.

A field has an entry if and only if it has a value, and the whole numbers of a record are those of
the values of its fields.

* `entries_append`, `entries_optionalField`, `entries_fieldIfSet` — the entries of some fields;
* `naturalsOfFields_append`, `exists_of_mem_naturalsOfFields` — their whole numbers.
-/

namespace GraphQubo.Toml

open Content

/-! ## Entries -/

/-- The entry of an optional field, none if it is unset. -/
def fieldEntries {α : Type} (key : String) (value : α → Value) (field : Option α) : Table :=
  (field.map fun x => (key, value x)).toList

/-- The entries of two lists of fields, one after the other. -/
theorem entries_append (fs gs : Fields) : entries (fs ++ gs) = entries fs ++ entries gs := by
  induction fs with
  | nil => rfl
  | cons f fs ih =>
    obtain ⟨key, none | c⟩ := f
    · exact ih
    · exact congrArg ((key, ofContent c) :: ·) ih

/-- A field with a value has an entry. -/
theorem mem_entries {key : String} {c : Content} {fs : Fields} (h : (key, some c) ∈ fs) :
    (key, ofContent c) ∈ entries fs := by
  obtain ⟨before, after, rfl⟩ := List.append_of_mem h
  rw [entries_append]
  exact List.mem_append_right _ List.mem_cons_self

/-- A field that is handed over unset has no entry. -/
theorem entries_optionalField {α : Type} (key : String) (value : α → Content) (x : Option α) :
    entries (optionalField key value x) = fieldEntries key (fun v => ofContent (value v)) x := by
  cases x <;> rfl

/-- A field that is left out when unset has the same entry as one that is handed over unset. -/
theorem entries_fieldIfSet {α : Type} (key : String) (value : α → Content) (x : Option α) :
    entries (fieldIfSet key value x) = fieldEntries key (fun v => ofContent (value v)) x := by
  cases x <;> rfl

/-- The items of a list are turned into values one by one. -/
theorem ofItems_eq (items : List Content) : ofItems items = items.map ofContent := by
  induction items with
  | nil => rfl
  | cons c items ih => rw [ofItems, ih, List.map_cons]

/-! ## Whole numbers -/

/-- The whole numbers of two lists of fields. -/
theorem naturalsOfFields_append (fs gs : Fields) :
    naturalsOfFields (fs ++ gs) = naturalsOfFields fs ++ naturalsOfFields gs := by
  induction fs with
  | nil => rfl
  | cons f fs ih =>
    obtain ⟨key, none | c⟩ := f
    · exact ih
    · exact (congrArg (c.naturals ++ ·) ih).trans (List.append_assoc ..).symm

/-- A whole number of a record is one of the value of a field. -/
theorem exists_of_mem_naturalsOfFields {n : Nat} {fs : Fields} (h : n ∈ naturalsOfFields fs) :
    ∃ key c, (key, some c) ∈ fs ∧ n ∈ c.naturals := by
  induction fs with
  | nil => cases h
  | cons f fs ih =>
    obtain ⟨key, none | c⟩ := f
    · obtain ⟨key', c, hmem, hn⟩ := ih h
      exact ⟨key', c, List.mem_cons_of_mem _ hmem, hn⟩
    · rcases List.mem_append.1 h with h | h
      · exact ⟨key, c, List.mem_cons_self, h⟩
      · obtain ⟨key', c', hmem, hn⟩ := ih h
        exact ⟨key', c', List.mem_cons_of_mem _ hmem, hn⟩

/-- The whole numbers of a list are those of its items. -/
theorem naturalsOfItems_eq (items : List Content) :
    naturalsOfItems items = items.flatMap naturals := by
  induction items with
  | nil => rfl
  | cons c items ih => rw [naturalsOfItems, ih, List.flatMap_cons]

/-- An optional number is a whole number of the record if it is set. -/
theorem naturalsOfFields_optionalField (key : String) (x : Option Nat) :
    naturalsOfFields (optionalField key .natural x) = x.toList := by
  cases x <;> rfl

theorem naturalsOfFields_fieldIfSet (key : String) (x : Option Float) :
    naturalsOfFields (fieldIfSet key .number x) = [] := by
  cases x <;> rfl

end GraphQubo.Toml
