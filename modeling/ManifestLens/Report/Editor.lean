import ManifestLens.Editor.Request
import ManifestLens.Json.Access
import ManifestLens.Manifest.Completion

/-!
# Editor results for other tools

Completions, hover texts and actions as JSON.
-/

/-!
## Dependencies for other tools

Dependencies and completion sites as JSON.
-/

namespace ManifestLens

open Json (ofChars ofNat)

/-- The first column of a span and the one after its last. -/
def Span.toJson (span : Span) : Json := .array [ofNat span.start, ofNat span.stop]

/-- A dependency with all that is known of it. -/
def Dependency.toJson (dependency : Dependency) : Json :=
  .object [
    ("name", ofChars dependency.name), ("constraint", ofChars dependency.constraint),
    ("span", dependency.span.toJson), ("name_span", dependency.nameSpan.toJson),
    ("line", ofNat dependency.line), ("source", .string dependency.group.label),
    ("dialect", .string dependency.dialect.label),
    ("extras", .array (dependency.extras.map ofChars)),
    ("normalized", ofChars dependency.canonicalName),
    ("operator", ofChars (Operator.textOf dependency.operator?)),
    ("has_constraint", .bool dependency.isConstrained)]

def CompletionSite.toJson (site : CompletionSite) : Json :=
  .object [
    ("name", ofChars site.dependency.name), ("replace", site.replace.toJson),
    ("prefix", ofChars site.typed), ("needs_operator", .bool site.needsOperator),
    ("default_operator", ofChars site.defaultOperator.text)]

end ManifestLens

/-! ## Completions, hover texts and actions -/

namespace ManifestLens

open Json (ofChars ofInt ofNat)

/-- A completion, with line and columns counted from one. -/
def Suggestion.toJson (item : Suggestion) : Json :=
  .object [
    ("label", .string item.label), ("insert_text", .string item.inserted),
    ("line", ofInt (item.edit.line + 1)),
    ("replace", .array [ofNat (item.edit.span.start + 1), ofNat (item.edit.span.stop + 1)]),
    ("sort_text", .string item.sortText), ("detail", .string item.detail),
    ("deprecated", .bool item.isDeprecated), ("preselect", .bool item.isPreselected)]

def Edit.toJson (edit : Edit) : Json :=
  .object [("line", ofInt edit.line), ("span", edit.span.toJson), ("text", ofChars edit.text)]

def Hover.toJson (hover : Hover) : Json :=
  .object [
    ("contents", .string hover.contents), ("line", ofNat hover.line),
    ("span", hover.span.toJson)]

end ManifestLens
