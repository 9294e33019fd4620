import ManifestLens.Manifest.Span
import ManifestLens.Proofs.Text.Trim

/-!
# Spans that cover a text

A reader reports columns. What they are worth is said by `Span.Covers`: the line has the reported text
at exactly these columns, so replacing the columns replaces that text and nothing else.
-/

namespace ManifestLens

open Text

namespace Span

/-- At the columns of the span the line has the given word. -/
def Covers (span : Span) (line word : List Char) : Prop :=
  ∃ before after, line = before ++ word ++ after ∧ span = ⟨before.length, word.length⟩

/-- The span some columns further to the right. -/
def moved (shift : Nat) (span : Span) : Span := ⟨span.start + shift, span.length⟩

theorem slice_of_covers {span : Span} {line word : List Char} (h : span.Covers line word) :
    span.slice line = word := by
  obtain ⟨before, after, rfl, rfl⟩ := h
  simp [slice]

theorem stop_le_of_covers {span : Span} {line word : List Char} (h : span.Covers line word) :
    span.stop ≤ line.length := by
  obtain ⟨before, after, rfl, rfl⟩ := h
  simp only [stop, List.length_append]
  omega

/-- Whatever lies before and behind the line, the word stays covered. -/
theorem Covers.append {span : Span} {line word : List Char} (h : span.Covers line word)
    (before after : List Char) : (span.moved before.length).Covers (before ++ line ++ after) word := by
  obtain ⟨left, right, rfl, rfl⟩ := h
  refine ⟨before ++ left, right ++ after, by simp, ?_⟩
  simp [moved, Nat.add_comm]

theorem Covers.append_right {span : Span} {line word : List Char} (h : span.Covers line word)
    (after : List Char) : span.Covers (line ++ after) word := by
  simpa [moved] using h.append [] after

theorem trimmed_margins (before after : List Char) {lead word trail : List Char} (hlead : IsBlankRun lead)
    (hword : IsTrimmed word) (htrail : IsBlankRun trail) (hbare : word = [] → trail = []) :
    (⟨before.length, (lead ++ word ++ trail).length⟩ : Span).trimmed
        (before ++ (lead ++ word ++ trail) ++ after)
      = ⟨before.length + lead.length, word.length⟩ := by
  have hslice : (⟨before.length, (lead ++ word ++ trail).length⟩ : Span).slice
      (before ++ (lead ++ word ++ trail) ++ after) = lead ++ word ++ trail :=
    slice_of_covers ⟨before, after, rfl, rfl⟩
  have htake : (lead ++ word ++ trail).takeWhile isBlank = lead := by
    by_cases hne : word = []
    · rw [hne, hbare hne, List.append_nil, List.append_nil]
      exact takeWhile_all hlead
    · rw [List.append_assoc]
      exact takeWhile_blank hlead (hword.head.append fun h => absurd h hne)
  simp only [trimmed, hslice, htake, trim_margins hlead hword htrail]

end Span

end ManifestLens
