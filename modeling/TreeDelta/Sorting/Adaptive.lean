import TreeDelta.Sorting.Merge
/-!
# Adaptive sort

`adaptiveSort` sorts by a comparison that may fail, and fails with the first comparison that
does. It takes the list apart into the runs that are in it, lengthens short ones by insertion,
and merges neighbours as the balance of the runs demands.

For an order it returns the one stable arrangement, like any stable sort. It is meant for
comparisons that are no order, such as those of numbers among which some are NaN: then the
result depends on which items are compared, and this module fixes that.
-/

namespace TreeDelta.Sorting

variable {α : Type}

/-- Continues a run behind `last` as long as `lt` of an item and the one before it is `falling`.
Returns the rest of the run and the list behind it. -/
def runBehind (lt : α → α → Option Bool) (falling : Bool) (last : α) :
    List α → Option (List α × List α)
  | [] => some ([], [])
  | x :: rest => do
    if (← lt x last) = falling then
      let (run, after) ← runBehind lt falling x rest
      some (x :: run, after)
    else some ([], x :: rest)

/-- The run at the start of a list, a falling one turned round, and the list behind it. -/
def firstRun (lt : α → α → Option Bool) : List α → Option (List α × List α)
  | [] => some ([], [])
  | [x] => some ([x], [])
  | x :: y :: rest => do
    let falling ← lt y x
    let (run, after) ← runBehind lt falling y rest
    some (if falling then (x :: y :: run).reverse else x :: y :: run, after)

/-- Inserts items into a sorted list, each behind all that it does not come before. -/
def insertAll (lt : α → α → Option Bool) (sorted : List α) : List α → Option (List α)
  | [] => some sorted
  | x :: rest => do
    let place ← bisect (fun y => (lt x y).map (!·)) sorted.toArray sorted.length 0 sorted.length
    insertAll lt (sorted.take place ++ x :: sorted.drop place) rest

/-- The least length of the runs of a list of `n` items: `n` itself if small, and otherwise
such that the number of runs is a power of two or a little less. -/
def leastRun (n : Nat) : Nat := halve n n false
where
  halve : Nat → Nat → Bool → Nat
    | 0, n, odd => n + odd.toNat
    | fuel + 1, n, odd => if n < 64 then n + odd.toNat else halve fuel (n / 2) (odd || n % 2 = 1)

/-- A run that waits to be merged: where it starts, its items, and how deep in a balanced tree
over the list the border behind it lies. -/
structure Pending (α : Type) where
  start : Nat
  items : List α
  power : Nat

/-- The depth of the border between two runs: the first binary digit in which the middles of
the runs differ, as fractions of the list. `a` and `b` are twice the middles. -/
def power (n : Nat) : Nat → Nat → Nat → Nat
  | 0, _, _ => 0
  | fuel + 1, a, b =>
    if n ≤ a then power n fuel (2 * (a - n)) (2 * (b - n)) + 1
    else if n ≤ b then 1
    else power n fuel (2 * a) (2 * b) + 1

def Pending.merge (lt : α → α → Option Bool) (patience : Nat) (left right : Pending α) :
    Option (Pending α × Nat) := do
  let (items, patience) ← mergeRuns lt patience left.items right.items
  some (⟨left.start, items, left.power⟩, patience)

/-- Merges the last runs as long as the border before them lies deeper than `depth`. The last
run comes first in the list. -/
def settle (lt : α → α → Option Bool) (depth : Nat) :
    Nat → Nat → List (Pending α) → Option (List (Pending α) × Nat)
  | 0, patience, runs => some (runs, patience)
  | fuel + 1, patience, last :: before :: runs =>
    if depth < before.power then do
      let (run, patience) ← before.merge lt patience last
      settle lt depth fuel patience (run :: runs)
    else some (last :: before :: runs, patience)
  | _ + 1, patience, runs => some (runs, patience)

/-- Merges all runs, a small one with the smaller of its neighbours. -/
def collapse (lt : α → α → Option Bool) :
    Nat → Nat → List (Pending α) → Option (List α)
  | 0, _, runs => some (runs.reverse.flatMap Pending.items)
  | fuel + 1, patience, last :: middle :: first :: runs => do
    if first.items.length < last.items.length then
      let (run, patience) ← first.merge lt patience middle
      collapse lt fuel patience (last :: run :: runs)
    else
      let (run, patience) ← middle.merge lt patience last
      collapse lt fuel patience (run :: first :: runs)
  | fuel + 1, patience, [last, first] => do
    let (run, patience) ← first.merge lt patience last
    collapse lt fuel patience [run]
  | _ + 1, _, runs => some (runs.reverse.flatMap Pending.items)

/-- Takes runs off a list of `n` items, the next one starting at `start`, and merges them. -/
def sortRuns (lt : α → α → Option Bool) (n least : Nat) :
    Nat → Nat → Nat → List (Pending α) → List α → Option (List α)
  | 0, _, _, runs, rest => some (runs.reverse.flatMap Pending.items ++ rest)
  | fuel + 1, patience, start, runs, rest =>
    if rest.isEmpty then collapse lt (n + 1) patience runs
    else do
      let (run, after) ← firstRun lt rest
      let wanted := least - run.length
      let run ← insertAll lt run (after.take wanted)
      let after := after.drop wanted
      let (runs, patience) ← match runs with
        | [] => some ([], patience)
        | last :: _ => do
          let a := 2 * last.start + last.items.length
          let depth := power n 64 a (a + last.items.length + run.length)
          match ← settle lt depth (n + 1) patience runs with
          | (last :: runs, patience) => some ({ last with power := depth } :: runs, patience)
          | ([], patience) => some ([], patience)
      sortRuns lt n least fuel patience (start + run.length) (⟨start, run, 0⟩ :: runs) after

/-- The items in increasing order, if all comparisons made on the way succeed. -/
def adaptiveSort (lt : α → α → Option Bool) (items : List α) : Option (List α) :=
  let n := items.length
  sortRuns lt n (leastRun n) (n + 1) leastGallop 0 [] items

end TreeDelta.Sorting
