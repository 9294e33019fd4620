import ManifestLens.Text.Trim

/-!
# Spans

A span is a range of columns within one line, held as its first column and its length, so that it
can never end before it starts.
-/

namespace ManifestLens

/-- A half-open range of columns. -/
structure Span where
  start : Nat
  length : Nat
deriving DecidableEq, Repr, Inhabited

namespace Span

/-- The column after the last one of the span. -/
def stop (span : Span) : Nat := span.start + span.length

def between (start stop : Nat) : Span := ⟨start, stop - start⟩

/-- The span with the given bounds, if they are in order and not negative. -/
def ofBounds? (start stop : Int) : Option Span :=
  if 0 ≤ start ∧ start ≤ stop then some ⟨start.toNat, (stop - start).toNat⟩ else none

/-- No character lies in the span. -/
def isEmpty (span : Span) : Bool := span.length == 0

/-- A cursor at the column touches the span; a cursor right after the last character does. -/
def contains (span : Span) (column : Int) : Bool :=
  (span.start : Int) ≤ column && column ≤ (span.stop : Int)

/-- The two spans share a column. -/
def overlaps (left right : Span) : Bool := left.start < right.stop && right.start < left.stop

/-- The characters of a text that lie in the span. -/
def slice (span : Span) (text : List Char) : List Char := (text.drop span.start).take span.length

/-- The span without the white space at either end of what it covers. A span over white space alone
shrinks to its end. -/
def trimmed (text : List Char) (span : Span) : Span :=
  let covered := span.slice text
  ⟨span.start + (covered.takeWhile Text.isBlank).length, (Text.trim covered).length⟩

@[simp] theorem stop_between {start stop : Nat} (h : start ≤ stop) :
    (between start stop).stop = stop := by
  simp only [Span.stop, between]
  omega

theorem isEmpty_iff {span : Span} : span.isEmpty = true ↔ span.start = span.stop := by
  simp [isEmpty, stop]

end Span

end ManifestLens
