import ManifestLens.Number.Basic

/-!
# Timers

The timers of waiting tasks in a binary heap. The timer that is due first stands at the root; among timers due
together the shape of the heap decides, so it is part of the meaning: a timer that is taken out is replaced
by the last one, which moves down to a leaf, to the right where two children are due together, and then up
again as far as it belongs.
-/

namespace ManifestLens

/-- A timer of a task. -/
structure Timer where
  due : Binary64
  task : Nat
  /-- The number of the timer, by which it can be cancelled. -/
  serial : Nat
deriving DecidableEq, Repr

/-- Timers in heap order. -/
structure TimerHeap where
  timers : Array Timer := #[]
deriving Repr

namespace TimerHeap

/-- The timer at one position is due before that at another one. -/
def isBefore (timers : Array Timer) (i j : Nat) : Bool :=
  match timers[i]?, timers[j]? with
  | some a, some b => a.due.lt b.due
  | _, _ => false

/-- Moves a timer toward the root, past every parent that is due later. -/
def rise (timers : Array Timer) (position : Nat) : Array Timer :=
  if 0 < position then
    let parent := (position - 1) / 2
    if isBefore timers position parent then rise (timers.swapIfInBounds position parent) parent
    else timers
  else timers
termination_by position
decreasing_by omega

/-- The child to which a timer moves down: the one due first, the right one of two due together. -/
def childOf (timers : Array Timer) (position : Nat) : Nat :=
  let left := 2 * position + 1
  if left + 1 < timers.size && !isBefore timers left (left + 1) then left + 1 else left

/-- Moves a timer down to a leaf, at most `fuel` steps, and tells where it ends. -/
def sink : Nat → Array Timer → Nat → Array Timer × Nat
  | 0, timers, position => (timers, position)
  | fuel + 1, timers, position =>
      if 2 * position + 1 < timers.size then
        let child := childOf timers position
        sink fuel (timers.swapIfInBounds position child) child
      else (timers, position)

def insert (heap : TimerHeap) (timer : Timer) : TimerHeap :=
  ⟨rise (heap.timers.push timer) heap.timers.size⟩

def first? (heap : TimerHeap) : Option Timer := heap.timers[0]?

/-- The heap without the timer that is due first. -/
def dropFirst (heap : TimerHeap) : TimerHeap :=
  match heap.timers.back? with
  | none => heap
  | some last =>
      let rest := heap.timers.pop
      if rest.isEmpty then ⟨rest⟩
      else
        let (timers, leaf) := sink rest.size (rest.setIfInBounds 0 last) 0
        ⟨rise timers leaf⟩

end TimerHeap

end ManifestLens
