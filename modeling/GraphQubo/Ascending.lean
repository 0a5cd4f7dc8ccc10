/-!
# GraphQubo.Ascending

Ascending numbers: putting them in order, dropping repetitions, and searching.

A list is put in order by insertion.  Equal numbers then stand next to each
other, and `dedup` keeps one of each.  An ascending array is searched by
halving the stretch in which the wanted number must be.
-/

namespace GraphQubo.Ascending

/-- Puts a number in front of the first one that is not smaller. -/
def place (x : Nat) : List Nat → List Nat
  | [] => [x]
  | y :: rest => if x ≤ y then x :: y :: rest else y :: place x rest

/-- The numbers in ascending order. -/
def sort : List Nat → List Nat
  | [] => []
  | x :: rest => place x (sort rest)

/-- Drops the numbers that are equal to the one before them. -/
def dedup : List Nat → List Nat
  | x :: y :: rest => if x = y then dedup (y :: rest) else x :: dedup (y :: rest)
  | xs => xs

/-- One turn of a search looks at the middle of the `size` items from `base`
on: the search goes on behind it if it is above the wanted number, and from it
on otherwise.  The position that is left holds the number if any does. -/
def narrow (xs : Array Nat) (wanted : Nat) : (turns base size : Nat) → Nat
  | 0, base, _ => base
  | turns + 1, base, size =>
    if size ≤ 1 then base
    else
      let middle := base + size / 2
      narrow xs wanted turns (if wanted < xs.getD middle 0 then base else middle)
        (size - size / 2)

/-- Whether an ascending array holds a number. -/
def search (xs : Array Nat) (wanted : Nat) : Bool :=
  xs[narrow xs wanted xs.size 0 xs.size]? == some wanted

end GraphQubo.Ascending
