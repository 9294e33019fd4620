/-!
# Sorting with a comparison that may fail

A stable sort whose comparison may fail. The first run that is in order already, or strictly in
reverse, is taken as it is; every further element is put in place by bisection. The sort fails iff
one of the comparisons that it makes fails, so the order in which it compares is part of its
meaning.
-/

namespace ManifestLens

variable {α ε : Type}

namespace BinaryInsertion

/-- The length of the run that continues after `last`: as long as `lt` between an element and the
one before it answers `expected`. -/
def runLength (lt : α → α → Except ε Bool) (expected : Bool) (last : α) :
    List α → Except ε Nat
  | [] => .ok 0
  | x :: rest => do
      if (← lt x last) = expected then
        return (← runLength lt expected x rest) + 1
      else return 0

/-- The first run of a list in ascending order, and the elements after it. A strictly descending run
is reversed. -/
def firstRun (lt : α → α → Except ε Bool) : List α → Except ε (List α × List α)
  | x :: y :: rest => do
      let descending ← lt y x
      let more ← runLength lt descending y rest
      let run := x :: y :: rest.take more
      return (if descending then run.reverse else run, rest.drop more)
  | xs => .ok (xs, [])

/-- The place for `x` between positions `low` and `high` of a sorted array: after every element that
is not greater. -/
def place (lt : α → α → Except ε Bool) (sorted : Array α) (x : α) :
    Nat → Nat → Nat → Except ε Nat
  | 0, low, _ => .ok low
  | fuel + 1, low, high =>
      if low < high then
        let middle := low + (high - low) / 2
        match sorted[middle]? with
        | none => .ok low
        | some y => do
            if ← lt x y then place lt sorted x fuel low middle
            else place lt sorted x fuel (middle + 1) high
      else .ok low

/-- The sorted list with `x` put in its place. -/
def insert (lt : α → α → Except ε Bool) (sorted : List α) (x : α) : Except ε (List α) := do
  let position ← place lt sorted.toArray x (sorted.length + 1) 0 sorted.length
  return sorted.take position ++ x :: sorted.drop position

end BinaryInsertion

/-- The elements in ascending order; equal ones stay in the order they came in. -/
def sortAscending (lt : α → α → Except ε Bool) (xs : List α) : Except ε (List α) := do
  let (run, rest) ← BinaryInsertion.firstRun lt xs
  rest.foldlM (BinaryInsertion.insert lt) run

/-- The elements in descending order; equal ones stay in the order they came in. -/
def sortDescending (lt : α → α → Except ε Bool) (xs : List α) : Except ε (List α) := do
  return (← sortAscending lt xs.reverse).reverse

end ManifestLens
