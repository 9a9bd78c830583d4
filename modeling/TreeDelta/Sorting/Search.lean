/-!
# Searching a sorted array

`bisect` finds a place by halving, and `gallop` by steps that double from a hint and then by
halving. The place is told by `before`, which says whether an element comes before it. A
comparison may fail, and then so does the search. On an array in which `before` holds up to
some place and nowhere behind, both find that place; on any other they still end, and what
they find depends on which elements they ask for.
-/

namespace TreeDelta.Sorting

variable {α : Type}

/-- The place between `low` and `high`; `fuel` bounds the number of halvings. -/
def bisect (before : α → Option Bool) (items : Array α) : Nat → Nat → Nat → Option Nat
  | 0, _, high => some high
  | fuel + 1, low, high =>
    if low < high then do
      let middle := low + (high - low) / 2
      if ← before (← items[middle]?) then bisect before items fuel (middle + 1) high
      else bisect before items fuel low middle
    else some high

/-- Doubles a step as long as `holds` says so of it, up to `limit`. Returns the last step of
which it was said, and the next one. -/
def widen (holds : Nat → Option Bool) (limit : Nat) : Nat → Nat → Nat → Option (Nat × Nat)
  | 0, last, step => some (last, min step limit)
  | fuel + 1, last, step =>
    if step < limit then do
      if ← holds step then widen holds limit fuel step (2 * step + 1)
      else some (last, step)
    else some (last, limit)

/-- The place, searched outward from `hint`. -/
def gallop (before : α → Option Bool) (items : Array α) (hint : Nat) : Option Nat := do
  let n := items.size
  if ← before (← items[hint]?) then
    let (last, step) ←
      widen (fun step => do before (← items[hint + step]?)) (n - hint) n 0 1
    bisect before items n (hint + last + 1) (hint + step)
  else
    let (last, step) ←
      widen (fun step => do return !(← before (← items[hint - step]?))) (hint + 1) n 0 1
    bisect before items n (hint + 1 - step) (hint - last)

end TreeDelta.Sorting
