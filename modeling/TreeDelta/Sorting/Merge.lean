import TreeDelta.Sorting.Search
/-!
# Merging two runs

Two neighbouring runs are merged item by item until one of them wins `patience` times in a row,
and then by galloping as long as that moves enough items at once. Patience grows each time
galloping is left and shrinks while it pays. `mergeUp` works from the front, for a shorter
left run, and `mergeDown` from the back.

Whatever the comparison says, the result holds the items of both runs: every way out of a
merge puts the three lists it works on one after the other.
-/

namespace TreeDelta.Sorting

variable {α : Type}

/-- Galloping that moves fewer items at once is left. -/
def leastGallop : Nat := 7

/-- How far a merge has come: the items left in both runs and those merged. -/
structure Halves (α : Type) where
  left : List α
  right : List α
  merged : List α

inductive Progress (α : Type) where
  | done (items : List α)
  | working (halves : Halves α)

namespace Up

/-- All items: the merged ones, which are held in reverse, and the rest of a run. -/
def finish (merged rest : List α) : Progress α := .done (merged.reverse ++ rest)

/-- Moves single items from the fronts until a run wins `patience` times in a row. -/
def single (lt : α → α → Option Bool) (patience : Nat) :
    Nat → Nat → Nat → Halves α → Option (Progress α)
  | 0, _, _, h => some (finish h.merged (h.left ++ h.right))
  | fuel + 1, wonLeft, wonRight, h =>
    match h.left, h.right with
    | x :: left, y :: right => do
      if ← lt y x then
        let merged := y :: h.merged
        if right.isEmpty then some (finish merged (x :: left))
        else if patience ≤ wonRight + 1 then some (.working ⟨x :: left, right, merged⟩)
        else single lt patience fuel 0 (wonRight + 1) ⟨x :: left, right, merged⟩
      else
        let merged := x :: h.merged
        if left.length = 1 then some (finish merged (y :: right ++ left))
        else if patience ≤ wonLeft + 1 then some (.working ⟨left, y :: right, merged⟩)
        else single lt patience fuel (wonLeft + 1) 0 ⟨left, y :: right, merged⟩
    | left, right => some (finish h.merged (left ++ right))

/-- Moves many items at once, first from the left run and then from the right. Returns the
patience left. -/
def many (lt : α → α → Option Bool) :
    Nat → Nat → Halves α → Option (Progress α × Nat)
  | 0, patience, h => some (finish h.merged (h.left ++ h.right), patience)
  | fuel + 1, patience, h =>
    let patience := patience - (if 1 < patience then 1 else 0)
    match h.right with
    | [] => some (finish h.merged h.left, patience)
    | y :: right => do
      let k ← gallop (fun x => (lt y x).map (!·)) h.left.toArray 0
      let merged := (h.left.take k).reverse ++ h.merged
      let left := h.left.drop k
      if k ≠ 0 && left.length = 1 then some (finish merged (y :: right ++ left), patience)
      else if left.isEmpty then some (finish merged (y :: right), patience)
      else
        let merged := y :: merged
        match left with
        | [] => some (finish merged right, patience)
        | x :: left =>
          if right.isEmpty then some (finish merged (x :: left), patience)
          else
            let j ← gallop (fun z => lt z x) right.toArray 0
            let merged := (right.take j).reverse ++ merged
            let right := right.drop j
            if right.isEmpty then some (finish merged (x :: left), patience)
            else if left.length = 1 then some (finish (x :: merged) (right ++ left), patience)
            else if leastGallop ≤ k || leastGallop ≤ j then
              many lt fuel patience ⟨left, right, x :: merged⟩
            else some (.working ⟨left, right, x :: merged⟩, patience + 1)

def both (lt : α → α → Option Bool) : Nat → Nat → Halves α → Option (List α × Nat)
  | 0, patience, h => some (h.merged.reverse ++ (h.left ++ h.right), patience)
  | fuel + 1, patience, h => do
    let n := h.left.length + h.right.length
    match ← single lt patience (n + 1) 0 0 h with
    | .done items => some (items, patience)
    | .working h =>
      match ← many lt (n + 1) (patience + 1) h with
      | (.done items, patience) => some (items, patience)
      | (.working h, patience) => both lt fuel patience h

end Up

/-- Merges from the front; the first item of the right run is known to come first. -/
def mergeUp (lt : α → α → Option Bool) (patience : Nat) (left right : List α) :
    Option (List α × Nat) :=
  match right with
  | [] => some (left, patience)
  | y :: right =>
    if right.isEmpty then some (y :: left, patience)
    else if left.length = 1 then some (y :: right ++ left, patience)
    else Up.both lt (left.length + right.length + 1) patience ⟨left, right, [y]⟩

namespace Down

/-- All items; those left in the runs are held in reverse. -/
def finish (rest merged : List α) : Progress α := .done (rest.reverse ++ merged)

def single (lt : α → α → Option Bool) (patience : Nat) :
    Nat → Nat → Nat → Halves α → Option (Progress α)
  | 0, _, _, h => some (finish (h.right ++ h.left) h.merged)
  | fuel + 1, wonLeft, wonRight, h =>
    match h.left, h.right with
    | x :: left, y :: right => do
      if ← lt y x then
        let merged := x :: h.merged
        if left.isEmpty then some (finish (y :: right) merged)
        else if patience ≤ wonLeft + 1 then some (.working ⟨left, y :: right, merged⟩)
        else single lt patience fuel (wonLeft + 1) 0 ⟨left, y :: right, merged⟩
      else
        let merged := y :: h.merged
        if right.length = 1 then some (finish (x :: left ++ right) merged)
        else if patience ≤ wonRight + 1 then some (.working ⟨x :: left, right, merged⟩)
        else single lt patience fuel 0 (wonRight + 1) ⟨x :: left, right, merged⟩
    | left, right => some (finish (right ++ left) h.merged)

/-- Moves many items at once, first from the left run and then from the right. Returns the
patience left. -/
def many (lt : α → α → Option Bool) :
    Nat → Nat → Halves α → Option (Progress α × Nat)
  | 0, patience, h => some (finish (h.right ++ h.left) h.merged, patience)
  | fuel + 1, patience, h =>
    let patience := patience - (if 1 < patience then 1 else 0)
    match h.right with
    | [] => some (finish h.left h.merged, patience)
    | y :: right => do
      let n := h.left.length
      let k := n - (← gallop (fun x => (lt y x).map (!·)) h.left.reverse.toArray (n - 1))
      let merged := (h.left.take k).reverse ++ h.merged
      match h.left.drop k with
      | [] => some (finish (y :: right) merged, patience)
      | x :: left =>
        let merged := y :: merged
        if right.length = 1 then some (finish (x :: left ++ right) merged, patience)
        else
          let m := right.length
          let j := m - (← gallop (fun z => lt z x) right.reverse.toArray (m - 1))
          let merged := (right.take j).reverse ++ merged
          let right := right.drop j
          if right.isEmpty then some (finish (x :: left) merged, patience)
          else if j ≠ 0 && right.length = 1 then
            some (finish (x :: left ++ right) merged, patience)
          else if left.isEmpty then some (finish right (x :: merged), patience)
          else if leastGallop ≤ k || leastGallop ≤ j then
            many lt fuel patience ⟨left, right, x :: merged⟩
          else some (.working ⟨left, right, x :: merged⟩, patience + 1)

def both (lt : α → α → Option Bool) : Nat → Nat → Halves α → Option (List α × Nat)
  | 0, patience, h => some ((h.right ++ h.left).reverse ++ h.merged, patience)
  | fuel + 1, patience, h => do
    let n := h.left.length + h.right.length
    match ← single lt patience (n + 1) 0 0 h with
    | .done items => some (items, patience)
    | .working h =>
      match ← many lt (n + 1) (patience + 1) h with
      | (.done items, patience) => some (items, patience)
      | (.working h, patience) => both lt fuel patience h

end Down

/-- Merges from the back; the last item of the left run is known to come last. -/
def mergeDown (lt : α → α → Option Bool) (patience : Nat) (left right : List α) :
    Option (List α × Nat) :=
  match left.reverse with
  | [] => some (right, patience)
  | x :: rest =>
    if rest.isEmpty then some (right ++ [x], patience)
    else if right.length = 1 then some (right ++ rest.reverse ++ [x], patience)
    else Down.both lt (left.length + right.length + 1) patience ⟨rest, right.reverse, [x]⟩

/-- Merges two runs. What of the left run comes before all of the right one, and what of the
right one comes behind all of the left, stays where it is. -/
def mergeRuns (lt : α → α → Option Bool) (patience : Nat) (left right : List α) :
    Option (List α × Nat) :=
  match right with
  | [] => some (left, patience)
  | y :: _ => do
    let k ← gallop (fun x => (lt y x).map (!·)) left.toArray 0
    let before := left.take k
    let left := left.drop k
    match left.getLast? with
    | none => some (before ++ right, patience)
    | some x =>
      let j ← gallop (fun z => lt z x) right.toArray (right.length - 1)
      let behind := right.drop j
      let right := right.take j
      if right.isEmpty then some (before ++ left ++ behind, patience)
      else
        let (merged, patience) ←
          if left.length ≤ right.length then mergeUp lt patience left right
          else mergeDown lt patience left right
        some (before ++ merged ++ behind, patience)

end TreeDelta.Sorting
