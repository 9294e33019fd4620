import ManifestLens.Proofs.Index.Document
import ManifestLens.Proofs.Service.Coherence

/-!
# Malformed documents

An index may answer a lookup with any object. The lookup then ends with the view of that object, or with a
failure that calls the document malformed and names the package as the caller spelled it, unless the object has
what keeps a view from being made without being taken for malformed: an offered version without a place in the
natural order, or, for the descriptive view, classifiers that are not a collection.
-/

namespace ManifestLens

open PackageDocument

/-- There is a value, or a failure that calls the document of the package malformed. -/
def IsContained {α : Type} (package : String) (result : Except Fault α) : Prop :=
  (∃ value, result = .ok value) ∨ ∃ fault, result = .error fault ∧ fault.IsMalformed package

namespace Lookup

variable {view : Lookup} {document : List (String × Json)} {fault : Fault}

/-- The document has nothing that the view cannot deal with: if it has descriptive fields and releases at all,
the versions on offer have a place in the natural order, or the classifiers are a collection. -/
def Digests (view : Lookup) (document : List (String × Json)) : Prop :=
  ∀ fields files, HasParts document fields files →
    match view with
    | .metadata includePre | .releases includePre =>
        ∀ version ∈ offered includePre files, NaturalVersion.IsReadable version.toList
    | .info => HasClassifiers fields

/-- A failure that a document causes without being called malformed. -/
inductive Escapes (document : List (String × Json)) : Lookup → Fault → Prop where
  | metadata {includePre : Bool} {fields files : List (String × Json)} {version : String}
      {failure : NaturalVersion.Failure} (hparts : HasParts document fields files)
      (hoffered : version ∈ offered includePre files) (hfails : NaturalVersion.Fails version.toList failure) :
      Escapes document (.metadata includePre) (.unordered failure)
  | releases {includePre : Bool} {fields files : List (String × Json)} {version : String}
      {failure : NaturalVersion.Failure} (hparts : HasParts document fields files)
      (hoffered : version ∈ offered includePre files) (hfails : NaturalVersion.Fails version.toList failure) :
      Escapes document (.releases includePre) (.unordered failure)
  | info {fields files : List (String × Json)} (hparts : HasParts document fields files)
      (hclassifiers : ¬ HasClassifiers fields) :
      Escapes document .info (.wrongKind (Json.memberOrNull fields "classifiers").notCollection)

theorem Escapes.not_digests (h : view.Escapes document fault) : ¬ view.Digests document := by
  intro hdigests
  cases h with
  | metadata hparts hoffered hfails => exact hfails.not_isReadable (hdigests _ _ hparts _ hoffered)
  | releases hparts hoffered hfails => exact hfails.not_isReadable (hdigests _ _ hparts _ hoffered)
  | info hparts hclassifiers => exact hclassifiers (hdigests _ _ hparts)

theorem Escapes.not_isMalformed {package : String} (h : view.Escapes document fault) :
    ¬ fault.IsMalformed package := by
  rintro ⟨error, rfl, -⟩
  cases h

end Lookup

namespace Work

variable {view : Lookup} {name : String} {document : List (String × Json)} {fault : Fault}

theorem derive_eq_error (h : derive view name document = .error fault) :
    fault.IsMalformed name ∨ view.Escapes document fault := by
  cases view with
  | metadata includePre =>
      refine (metadata_eq_error (map_eq_error_iff.mp h)).imp_right ?_
      rintro ⟨fields, files, failure, hparts, rfl, version, hoffered, hfails⟩
      exact .metadata hparts hoffered hfails
  | releases includePre =>
      refine (releases_eq_error (map_eq_error_iff.mp h)).imp_right ?_
      rintro ⟨fields, files, failure, hparts, rfl, version, hoffered, hfails⟩
      exact .releases hparts hoffered hfails
  | info =>
      refine (info_eq_error (map_eq_error_iff.mp h)).imp_right ?_
      rintro ⟨fields, files, hparts, hclassifiers, rfl⟩
      exact .info hparts hclassifiers

/-- The descriptive view fails in an unexpected way on every document that it cannot deal with. -/
theorem exists_escapes_of_not_digests (name : String) (h : ¬ Lookup.info.Digests document) :
    ∃ fault, derive .info name document = .error fault ∧ Lookup.info.Escapes document fault := by
  simp only [Lookup.Digests, not_forall] at h
  obtain ⟨fields, files, hparts, hclassifiers⟩ := h
  exact ⟨_, map_eq_error_iff.mpr (info_of_not_hasClassifiers hparts hclassifiers), .info hparts hclassifiers⟩

/-- Every version without a place escapes from some document. -/
theorem exists_escapes_of_not_isReadable {version : String} (h : ¬ NaturalVersion.IsReadable version.toList)
    (name : String) : ∃ document fields files failure, HasParts document fields files ∧
      version ∈ offered true files ∧ derive (.metadata true) name document = .error (.unordered failure) := by
  obtain ⟨other, failure, hmetadata⟩ := exists_metadata_pair h name
  refine ⟨pair version other, _, _, failure, ⟨rfl, rfl⟩, ?_, map_eq_error_iff.mpr hmetadata⟩
  simp [offered]

end Work

/-- What comes of a document, as the reply to who asked for a view of a package. -/
structure Containment (view : Lookup) (name : String) (document : List (String × Json)) (outcome : Outcome) :
    Prop where
  /-- There is the view or the report of a malformed document. -/
  contained : view.Digests document → IsContained name outcome
  /-- Any other failure is one of those that documents are known to cause. -/
  escaped : ∀ fault, outcome = .error fault → fault.IsMalformed name ∨ view.Escapes document fault
  /-- The descriptive view is made of all documents that it can deal with and of no others. -/
  exact : view = .info → (IsContained name outcome ↔ view.Digests document)

theorem containment_derive {call : ServiceCall} {preferred : Bool} {view : Lookup} {name : String}
    (hsought : call.sought? preferred = some (view, name)) (document : List (String × Json)) :
    Containment view name document ((Work.derive view name document).bind call.replyTo) := by
  have hescaped (fault : Fault) (hfault : (Work.derive view name document).bind call.replyTo = .error fault) :
      fault.IsMalformed name ∨ view.Escapes document fault := by
    cases hderive : Work.derive view name document with
    | error other =>
        rw [hderive] at hfault
        cases hfault
        exact Work.derive_eq_error hderive
    | ok found =>
        obtain ⟨value, hvalue⟩ := ServiceRun.Coherent.exists_replyTo hsought hderive
        rw [hderive, Except.bind, hvalue] at hfault
        cases hfault
  have hcontained (hdigests : view.Digests document) :
      IsContained name ((Work.derive view name document).bind call.replyTo) := by
    cases houtcome : (Work.derive view name document).bind call.replyTo with
    | ok value => exact .inl ⟨value, rfl⟩
    | error fault =>
        refine .inr ⟨fault, rfl, (hescaped fault houtcome).resolve_right fun hescapes => ?_⟩
        exact hescapes.not_digests hdigests
  refine ⟨hcontained, hescaped, ?_⟩
  rintro rfl
  refine ⟨fun hresult => ?_, hcontained⟩
  by_contra hnot
  obtain ⟨fault, hderive, hescapes⟩ := Work.exists_escapes_of_not_digests name hnot
  rw [hderive] at hresult
  rcases hresult with ⟨value, hvalue⟩ | ⟨other, hother, hmalformed⟩
  · cases hvalue
  · cases hother
    exact hescapes.not_isMalformed hmalformed

theorem World.answerTo_constant {world : World} {exchange : Exchange} (h : world.script = .constant exchange)
    (url : List Char) (index : Nat) : world.answerTo url index = exchange.answer := by
  have hafter (index : Nat) : (AnswerScript.constant exchange).after url index = .constant exchange := by
    induction index with
    | zero => rfl
    | succ index ih => exact ih
  rw [answerTo, h, AnswerScript.exchange, hafter]
  rfl

end ManifestLens
