import ManifestLens.Editor.Action
import ManifestLens.Editor.Completion
import ManifestLens.Proofs.Editor.Carry
import ManifestLens.Proofs.Manifest.Completion
import ManifestLens.Proofs.Manifest.Statement

/-!
# What an offered edit does

Actions and completions write a version, with or without an operator before it, over a constraint or over
one of the constraints that commas join. As long as the versions on offer are plain, every such edit is a
revision of the constraint, so the edited manifest states what it stated before with that one constraint
changed.
-/

namespace ManifestLens

open Text

/-! ### Plain versions -/

/-- Every version that an index offers is plain. -/
structure PackageOverview.HasPlainVersions (metadata : PackageOverview) : Prop where
  latest : metadata.latest.isTrue = true → IsPlainVersion metadata.latest.display.toList
  versions : ∀ version ∈ metadata.versions, IsPlainVersion version.toList

theorem isPatch_of_isPlainVersion {version : List Char} (h : IsPlainVersion version)
    (operator : Option Operator) : IsPatch (Operator.textOf operator ++ version) := by
  have hversion : ∀ c ∈ version, isConstraintChar c = true ∧ isBlank c = false :=
    fun c hc => isConstraintChar_of_isVersionChar (h.all c hc)
  cases operator with
  | none =>
      obtain ⟨c, rest, rfl, hdigit⟩ := h.head
      exact ⟨⟨c, rest, rfl, Or.inr hdigit⟩, hversion⟩
  | some operator =>
      obtain ⟨⟨c, rest, htext, hstart⟩, hall⟩ := operator.exists_text
      refine ⟨⟨c, rest ++ version, by rw [Operator.textOf, htext]; rfl, Or.inl hstart⟩, fun x hx => ?_⟩
      rcases List.mem_append.mp hx with hx | hx
      · exact ⟨isConstraintChar_of_isOperatorStart (hall x hx),
          (isOperatorStart_excludes (hall x hx)).1⟩
      · exact hversion x hx

/-! ### Patches as revisions -/

theorem IsPatch.isTrimmed {text : List Char} (h : IsPatch text) : IsTrimmed text :=
  ⟨fun c hc => (h.all c (List.mem_of_head? hc)).2, fun c hc => (h.all c (List.mem_of_getLast? hc)).2⟩

/-- The text starts in one class of characters and goes on in another one. -/
def StartsIn (first other : Char → Bool) (text : List Char) : Prop :=
  ∃ c rest, text = c :: rest ∧ first c = true ∧ ∀ x ∈ rest, other x = true

theorem isOperatorConstraint_iff {text : List Char} :
    isOperatorConstraint text = true ↔ StartsIn isOperatorStart isConstraintChar text := by
  cases text with
  | nil => simp [isOperatorConstraint, StartsIn]
  | cons c rest => simp [isOperatorConstraint, StartsIn]

theorem isPoetryConstraint_iff {text : List Char} (hne : text ≠ []) :
    isPoetryConstraint text = true ↔ StartsIn (fun c => isOperatorStart c || c == '*' || isDecimal c)
      (fun c => isConstraintChar c || c == '|') text := by
  cases text with
  | nil => exact absurd rfl hne
  | cons c rest => simp [isPoetryConstraint, StartsIn]

section Exchange

variable {front old new back : List Char}

/-- A part is exchanged for a text of the class that the others are in. Where the part comes first, the
new text has to start as the whole does. -/
theorem StartsIn.exchange {first other : Char → Bool}
    (h : front ++ old ++ back ≠ [] → StartsIn first other (front ++ old ++ back))
    (hnew : ∀ c ∈ new, other c = true) (hhead : front = [] → StartsIn first other new)
    (hback : front ++ old = [] → back = []) : StartsIn first other (front ++ new ++ back) := by
  have hbacks : ∀ x ∈ back, other x = true := by
    intro x hx
    have hne : front ++ old ≠ [] := fun hnil => by simp [hback hnil] at hx
    obtain ⟨c, rest, htext, -, hrest⟩ := h (by simp [List.ne_nil_of_mem hx])
    obtain ⟨d, more, hmore⟩ := List.exists_cons_of_ne_nil hne
    rw [hmore, List.cons_append, List.cons.injEq] at htext
    exact hrest x (by simp [← htext.2, hx])
  cases hfront : front with
  | nil =>
      obtain ⟨c, rest, rfl, hc, hrest⟩ := hhead hfront
      refine ⟨c, rest ++ back, rfl, hc, fun x hx => ?_⟩
      rcases List.mem_append.mp hx with hx | hx
      · exact hrest x hx
      · exact hbacks x hx
  | cons c more =>
      obtain ⟨d, rest, htext, hd, hrest⟩ := h (by simp [hfront])
      rw [hfront, List.cons_append, List.cons_append, List.cons.injEq] at htext
      obtain ⟨rfl, htext⟩ := htext
      refine ⟨c, more ++ new ++ back, rfl, hd, fun x hx => ?_⟩
      rcases List.mem_append.mp hx with hx | hx
      · rcases List.mem_append.mp hx with hx | hx
        · exact hrest x (by simp [← htext, hx])
        · exact hnew x hx
      · exact hbacks x hx

/-- **A patch leaves a constraint a constraint.** In a table any patch will do, elsewhere one that comes
first has to bring an operator. -/
theorem Dialect.accepts_exchange {dialect : Dialect} (h : dialect.Accepts (front ++ old ++ back))
    (hnew : IsPatch new)
    (hhead : front = [] → dialect ≠ .poetryTable → ∃ c rest, new = c :: rest ∧ isOperatorStart c = true)
    (hback : front ++ old = [] → back = []) : dialect.Accepts (front ++ new ++ back) := by
  have hne : front ++ new ++ back ≠ [] := by simp [hnew.ne_nil]
  have hchars : ∀ c ∈ new, isConstraintChar c = true := fun c hc => (hnew.all c hc).1
  by_cases htable : dialect = .poetryTable
  · subst htable
    have hvalid : IsTableConstraint (front ++ old ++ back) := h
    refine ⟨hvalid.trimmed.exchange hnew.isTrimmed hnew.ne_nil, ?_⟩
    rw [isPoetryConstraint_iff hne]
    refine StartsIn.exchange (fun hold => (isPoetryConstraint_iff hold).mp hvalid.valid)
      (fun c hc => by simp [hchars c hc]) (fun _ => ?_) hback
    obtain ⟨c, rest, rfl, hc⟩ := hnew.head
    refine ⟨c, rest, rfl, ?_, fun x hx => by simp [hchars x (List.mem_cons_of_mem c hx)]⟩
    rcases hc with hc | hc
    · simp [hc]
    · simp [isDecimal_of_isAsciiDigit hc]
  · have haccepts : ∀ text, dialect.Accepts text ↔ IsConstraintText text := by
      intro text
      cases dialect with
      | poetryTable => exact absurd rfl htable
      | array | poetryParentheses | requirementsLine => exact Iff.rfl
    rw [haccepts] at h ⊢
    refine ⟨h.trimmed.exchange hnew.isTrimmed hnew.ne_nil, fun _ => ?_⟩
    rw [isOperatorConstraint_iff]
    refine StartsIn.exchange (fun hold => isOperatorConstraint_iff.mp (h.valid hold)) hchars
      (fun hnil => ?_) hback
    obtain ⟨c, rest, rfl, hc⟩ := hhead hnil htable
    exact ⟨c, rest, rfl, hc, fun x hx => hchars x (List.mem_cons_of_mem c hx)⟩

end Exchange

section Revision

variable {d : Dependency} {number : Nat} {line : List Char}

theorem Dependency.StandsOn.isUnbroken (h : d.StandsOn number line) (hline : IsUnbroken line) :
    IsUnbroken d.constraint := by
  obtain ⟨before, after, rfl, -⟩ := h.covers
  exact hline.of_append.1.of_append.2

theorem Dependency.StandsOn.span_eq (h : d.StandsOn number line) :
    d.span = ⟨d.span.start, d.constraint.length⟩ := by
  obtain ⟨before, after, -, hspan⟩ := h.covers
  rw [hspan]

theorem isUnbroken_exchange {front old new back : List Char} (h : IsUnbroken (front ++ old ++ back))
    (hnew : IsUnbroken new) : IsUnbroken (front ++ new ++ back) :=
  (h.of_append.1.of_append.1.append hnew).append h.of_append.2

/-- The revision that puts a patch in the place of a part of the constraint. -/
def Revision.ofPatch (front old new back : List Char) (hconstraint : d.constraint = front ++ old ++ back)
    (haccepted : d.dialect.Accepts d.constraint) (hunbroken : IsUnbroken d.constraint)
    (hnew : IsPatch new)
    (hhead : front = [] → d.dialect ≠ .poetryTable →
      ∃ c rest, new = c :: rest ∧ isOperatorStart c = true)
    (hback : front ++ old = [] → back = []) : Revision d where
  front := front
  old := old
  new := new
  back := back
  constraint_eq := hconstraint
  ne_nil := by simp [hnew.ne_nil]
  accepted := Dialect.accepts_exchange (hconstraint ▸ haccepted) hnew hhead hback
  unbroken := isUnbroken_exchange (hconstraint ▸ hunbroken)
    (isUnbroken_of_not_blank fun c hc => (hnew.all c hc).2)
  patch := fun _ => hnew

end Revision

/-! ### Actions -/

section Actions

variable {d : Dependency} {number : Nat} {line : List Char} {metadata : PackageOverview}

/-- Writing a version over the whole constraint is a revision. -/
theorem exists_revision_of_constraintEdit (hstands : d.StandsOn number line) (hline : IsUnbroken line)
    {operator : Option Operator} {version : List Char} (hversion : IsPlainVersion version)
    (hoperator : d.dialect ≠ .poetryTable → operator.isSome = true) :
    ∃ revision : Revision d, revision.edit = QuickAction.constraintEdit d operator version := by
  refine ⟨.ofPatch [] d.constraint (Operator.textOf operator ++ version) [] (by simp)
    hstands.accepted (hstands.isUnbroken hline) (isPatch_of_isPlainVersion hversion operator)
    (fun _ hdialect => ?_) (fun _ => rfl), ?_⟩
  · obtain ⟨operator, rfl⟩ := Option.isSome_iff_exists.mp (hoperator hdialect)
    obtain ⟨⟨c, rest, htext, hc⟩, -⟩ := operator.exists_text
    exact ⟨c, rest ++ version, by rw [Operator.textOf, htext]; rfl, hc⟩
  · rw [QuickAction.constraintEdit, hstands.span_eq]
    rfl

theorem isSome_updateOperator (h : d.dialect ≠ .poetryTable) :
    (QuickAction.updateOperator d).isSome = true := by
  unfold QuickAction.updateOperator
  split
  · rfl
  · rw [if_neg h]
    rfl

theorem mem_of_mem_firstConstraint {c : Char} (h : c ∈ (QuickAction.firstConstraint d).2) :
    c ∈ d.constraint := by
  have htrim : ∀ {text : List Char}, c ∈ trim text → c ∈ text := by
    intro text hmem
    obtain ⟨lead, trail, htext, -⟩ := exists_margins text
    rw [htext]
    simp [hmem]
  have hbody := List.mem_of_mem_drop (htrim h)
  exact (List.takeWhile_sublist _).subset (htrim (htrim hbody))

/-- Another operator before the version of a single constraint is a revision. -/
theorem exists_revision_of_operatorChange (hstands : d.StandsOn number line)
    (hline : IsUnbroken line) (harray : d.dialect = .array)
    (hcurrent : (QuickAction.firstConstraint d).2 ≠ []) (operator : Operator) :
    ∃ revision : Revision d, revision.edit
      = QuickAction.constraintEdit d (some operator) (QuickAction.firstConstraint d).2 := by
  have haccepted : IsConstraintText d.constraint := by
    have := hstands.accepted
    rwa [harray] at this
  obtain ⟨⟨first, rest, htext, hfirst⟩, hall⟩ := operator.exists_text
  set current := (QuickAction.firstConstraint d).2
  have hchars : ∀ c ∈ current, isConstraintChar c = true := fun c hc =>
    haccepted.all c (mem_of_mem_firstConstraint hc)
  have hunbroken : IsUnbroken (operator.text ++ current) :=
    IsUnbroken.append
      (isUnbroken_of_not_blank fun c hc => (isOperatorStart_excludes (hall c hc)).1)
      fun c hc => hstands.isUnbroken hline c (mem_of_mem_firstConstraint hc)
  have hvalid : IsConstraintText (operator.text ++ current) := by
    refine ⟨⟨?_, ?_⟩, fun _ => ?_⟩
    · rw [htext]
      exact headNot_cons.mpr (isOperatorStart_excludes hfirst).1
    · have htrimmed : IsTrimmed current := by
        obtain ⟨-, -, -, -, -, htrimmed, -⟩ :=
          exists_margins ((trim (trim (d.constraint.takeWhile (· != ',')))).drop
            (Operator.textOf (QuickAction.firstConstraint d).1).length)
        exact htrimmed
      intro c hc
      refine htrimmed.last c ?_
      simpa [List.getLast?_append, List.getLast?_eq_some_getLast hcurrent] using hc
    · rw [isOperatorConstraint_iff]
      refine ⟨first, rest ++ current, by rw [htext]; rfl, hfirst, fun x hx => ?_⟩
      rcases List.mem_append.mp hx with hx | hx
      · exact isConstraintChar_of_isOperatorStart (hall x (by simp [htext, hx]))
      · exact hchars x hx
  refine ⟨{ front := [], old := d.constraint, new := operator.text ++ current, back := []
            constraint_eq := by simp
            ne_nil := by simp [htext]
            accepted := by simpa [harray, Dialect.Accepts] using hvalid
            unbroken := by simpa using hunbroken
            patch := fun h => by rw [harray] at h; cases h }, ?_⟩
  rw [QuickAction.constraintEdit, hstands.span_eq]
  rfl

/-- **Actions revise.** Every edit of every action is a revision of the constraint. -/
theorem exists_revision_of_action (hstands : d.StandsOn number line) (hline : IsUnbroken line)
    (hversions : metadata.HasPlainVersions) {action : QuickAction}
    (haction : action ∈ QuickAction.ofMetadata d metadata) {edit : Edit} (hedit : edit ∈ action.edits) :
    ∃ revision : Revision d, revision.edit = edit := by
  have hupdate : ∀ {version : String}, IsPlainVersion version.toList →
      ∃ revision : Revision d, revision.edit = QuickAction.updateEdit d version :=
    fun hversion => exists_revision_of_constraintEdit hstands hline hversion isSome_updateOperator
  rw [QuickAction.ofMetadata, List.mem_append, List.mem_append] at haction
  rcases haction with (haction | haction) | haction
  · -- the latest version
    rw [Option.mem_toList] at haction
    unfold QuickAction.latestUpdate? at haction
    split at haction
    · cases haction
    · next hlatest =>
        obtain rfl := (Option.some.inj haction).symm
        obtain rfl := List.mem_singleton.mp hedit
        exact hupdate (hversions.latest (by simp_all))
  · -- a recent version
    obtain ⟨⟨version, index⟩, hmem, rfl⟩ := List.mem_map.mp haction
    obtain rfl := List.mem_singleton.mp hedit
    have hstable := List.mem_of_mem_take (List.fst_mem_of_mem_zipIdx (List.mem_of_mem_filter hmem))
    exact hupdate (hversions.versions version (List.mem_of_mem_filter hstable))
  · -- another operator
    unfold QuickAction.operatorChanges at haction
    split at haction
    · next hconditions =>
        obtain ⟨⟨operator, meaning⟩, -, rfl⟩ := List.mem_map.mp haction
        obtain rfl := List.mem_singleton.mp hedit
        exact exists_revision_of_operatorChange hstands hline hconditions.1 hconditions.2.1 operator
    · cases haction

end Actions

/-! ### Completions -/

section Completions

variable {d : Dependency} {number : Nat} {line : List Char} {metadata : PackageOverview}

theorem Dialect.not_accepts_comma (dialect : Dialect) (rest : List Char) :
    ¬ dialect.Accepts (',' :: rest) := by
  intro h
  have hoperator : isOperatorStart ',' = false := by decide
  cases dialect with
  | poetryTable =>
      have hvalid := IsTableConstraint.valid h
      have hdigit : isDecimal ',' = false := by decide
      simp [isPoetryConstraint, hoperator, hdigit] at hvalid
  | array | poetryParentheses | requirementsLine =>
      have hvalid := IsConstraintText.valid h (by simp)
      simp [isOperatorConstraint, hoperator] at hvalid

/-- A completion replaces the version in one of the pieces of the constraint. Where nothing stands before
it, it brings an operator unless the dialect does without. -/
theorem Dependency.exists_of_completionSite? (hstands : d.StandsOn number line) {column : Int}
    {site : CompletionSite} (h : d.completionSite? line column = some site) :
    ∃ front old back, d.constraint = front ++ old ++ back ∧
      site.replace = ⟨d.span.start + front.length, old.length⟩ ∧ site.defaultOperator = .default ∧
      (front = [] → d.dialect ≠ .poetryTable → site.needsOperator = true) ∧
      (front ++ old = [] → back = []) := by
  obtain ⟨before, after, hwhole, hspan⟩ := hstands.covers
  unfold completionSite? at h
  split at h
  · cases h
  split at h
  · -- a bare name
    next hempty =>
      obtain rfl := (Option.some.inj h).symm
      have hnil : d.constraint = [] := by simpa [hspan, Span.isEmpty] using hempty
      exact ⟨[], [], [], hnil, by simp [hspan, hnil], rfl, fun _ hdialect => by simpa using hdialect,
        fun _ => rfl⟩
  · -- one of the pieces between the commas
    rw [Span.slice_of_covers hstands.covers] at h
    obtain ⟨span, hpiece, rfl⟩ := Option.map_eq_some_iff.mp h
    obtain ⟨left, piece, right, hjoin, rfl, -, -, -, hright⟩ := exists_of_pieceAt? hpiece
    rw [joinWith_splitOn] at hjoin
    have hline : line = (before ++ left) ++ piece ++ (right ++ after) := by
      rw [hwhole, hjoin]
      simp
    have hstart : d.span.start + left.length = (before ++ left).length := by
      rw [hspan, List.length_append]
    rw [hline, hstart]
    obtain ⟨lead, gap, version, trail, htext, -, -, -, -, hbare, hreplace⟩ :=
      d.exists_of_pieceSite (before ++ left) piece (right ++ after) column
    generalize hfront : lead ++ Operator.textOf (Operator.detect? piece) ++ gap = front at htext hreplace
    refine ⟨left ++ front, version, trail ++ right, by rw [hjoin, htext]; simp, ?_, rfl, ?_, ?_⟩
    · rw [hreplace, ← hstart, List.length_append, Nat.add_assoc]
    · intro hnil hdialect
      have hnone : Operator.detect? piece = none :=
        Operator.eq_none_of_textOf_eq_nil (by simp_all)
      have hslice : (⟨(before ++ left).length, piece.length⟩ : Span).slice
          (before ++ left ++ piece ++ (right ++ after)) = piece :=
        Span.slice_of_covers ⟨before ++ left, right ++ after, rfl, rfl⟩
      simp only [pieceSite, hslice, hnone]
      simpa using hdialect
    · intro hnil
      obtain ⟨hstart, rfl⟩ := List.append_eq_nil_iff.mp hnil
      obtain ⟨rfl, rfl⟩ := List.append_eq_nil_iff.mp hstart
      rw [htext, hbare rfl] at hjoin
      rw [hbare rfl]
      rcases hright with rfl | ⟨more, rfl⟩
      · rfl
      · have haccepted := hstands.accepted
        rw [hjoin] at haccepted
        exact absurd haccepted (Dialect.not_accepts_comma _ _)

theorem isPlainVersion_of_latestVersion? (hversions : metadata.HasPlainVersions) {version : String}
    (h : Suggestion.latestVersion? metadata = .ok (some version)) : IsPlainVersion version.toList := by
  unfold Suggestion.latestVersion? at h
  split at h
  · next latest hlatest =>
      split at h
      · cases h
      · next hne =>
          obtain rfl := Option.some.inj (Except.ok.inj h)
          have := hversions.latest (by simp [hlatest, Json.isTrue, hne])
          rwa [hlatest] at this
  · split at h <;> cases h

/-- **Completions revise.** Every edit of a completion is a revision of the constraint. -/
theorem exists_revision_of_completion (hstands : d.StandsOn number line) (hline : IsUnbroken line)
    (hversions : metadata.HasPlainVersions) {column : Int} {site : CompletionSite}
    (hsite : d.completionSite? line column = some site) {items : List Suggestion}
    (hitems : Suggestion.ofMetadata metadata site d.line = .ok items) {item : Suggestion}
    (hitem : item ∈ items) : ∃ revision : Revision d, revision.edit = item.edit := by
  obtain ⟨front, old, back, hconstraint, hreplace, hdefault, hneeds, hback⟩ :=
    Dependency.exists_of_completionSite? hstands hsite
  -- What an item writes: the operator that the site needs, and a version.
  have hrevision : ∀ {version : String} {rank : Suggestion.Rank} {index : Nat},
      IsPlainVersion version.toList → ∃ revision : Revision d, revision.edit
        = (Suggestion.ofVersion metadata site d.line version rank index).edit := by
    intro version rank index hversion
    have htext : (Suggestion.operatorText site ++ version).toList
        = Operator.textOf (if site.needsOperator then some .default else none) ++ version.toList := by
      rw [Suggestion.operatorText, hdefault, String.toList_append]
      split <;> simp [Operator.textOf]
    refine ⟨.ofPatch front old _ back hconstraint hstands.accepted (hstands.isUnbroken hline)
      (isPatch_of_isPlainVersion hversion (if site.needsOperator then some .default else none))
      (fun hnil hdialect => ?_) hback, ?_⟩
    · rw [if_pos (hneeds hnil hdialect)]
      exact ⟨'~', '=' :: version.toList, rfl, by decide⟩
    · rw [Suggestion.ofVersion, htext, hreplace]
      rfl
  cases hlatest : Suggestion.latestVersion? metadata with
  | error fault =>
      rw [Suggestion.ofMetadata, hlatest] at hitems
      cases hitems
  | ok latest =>
      rw [Suggestion.ofMetadata, hlatest] at hitems
      obtain rfl := Except.ok.inj hitems
      rcases List.mem_append.mp hitem with hitem | hitem
      · obtain ⟨version, hmem, rfl⟩ := List.mem_map.mp hitem
        rw [Option.mem_toList] at hmem
        subst hmem
        exact hrevision (isPlainVersion_of_latestVersion? hversions hlatest)
      · obtain ⟨index, hindex, rfl⟩ := List.mem_mapIdx.mp hitem
        exact hrevision (hversions.versions _
          (List.mem_of_mem_filter (List.mem_of_mem_take (List.getElem_mem hindex))))

end Completions

/-! ### Edited texts -/

/-- The edits that are offered for a dependency: those of its actions, and those of the completions with
the cursor anywhere in its constraint. -/
def Dependency.Offers (d : Dependency) (metadata : PackageOverview) (line : List Char) (edit : Edit) :
    Prop :=
  (∃ action ∈ QuickAction.ofMetadata d metadata, edit ∈ action.edits) ∨
    ∃ column site items, d.completionSite? line column = some site ∧
      Suggestion.ofMetadata metadata site d.line = .ok items ∧ ∃ item ∈ items, item.edit = edit

theorem exists_revision_of_offers {d : Dependency} {number : Nat} {line : List Char}
    {metadata : PackageOverview} {edit : Edit} (hstands : d.StandsOn number line)
    (hline : IsUnbroken line) (hversions : metadata.HasPlainVersions)
    (h : d.Offers metadata line edit) : ∃ revision : Revision d, revision.edit = edit := by
  rcases h with ⟨action, haction, hedit⟩ | ⟨column, site, items, hsite, hitems, item, hitem, rfl⟩
  · exact exists_revision_of_action hstands hline hversions haction hedit
  · exact exists_revision_of_completion hstands hline hversions hsite hitems hitem

/-- **An offered edit changes one constraint.** In a text with plain breaks and without quoted array keys
every dependency is on a line of the buffer. If its extras are not open where its constraint stands, every
edit that is offered for it goes through, and the edited text states what the text stated before, carried
over by the edit. -/
theorem readText_edited {reader : ManifestReader} {buffer : Buffer} {kind : ManifestKind}
    {d : Dependency} (hplain : breaksPlainly buffer.text = true)
    (hkeys : ∀ line ∈ splitLines buffer.text, ¬ opensQuotedKey line)
    (hd : d ∈ reader.readText buffer.text kind) :
    ∃ line, buffer.lineAt? d.line = some line ∧ ∀ metadata : PackageOverview, ∀ edit : Edit,
      d.OutsideExtras line → metadata.HasPlainVersions → d.Offers metadata line edit →
        ∃ edited, buffer.withEdits [edit] = .ok edited ∧
          reader.readText edited kind = (reader.readText buffer.text kind).map (edit.carry d) := by
  obtain ⟨lines, hlines⟩ := exists_writtenLines hplain
  have hfeeds : ∀ line ∈ lines, '\n' ∉ line := fun line hmem =>
    (isUnbroken_of_mem hlines hmem).notMem (by decide)
  have hread := hd
  rw [ManifestReader.readText, splitLines_of_written hlines] at hread
  obtain ⟨line, htext, hstands⟩ := ManifestReader.standsOn_of_mem_readAll hfeeds hread
  have hline := Buffer.lineAt?_of_written hlines htext
  refine ⟨line, hline, fun metadata edit houtside hversions hoffers => ?_⟩
  obtain ⟨revision, rfl⟩ := exists_revision_of_offers hstands
    (isUnbroken_of_mem hlines (List.mem_of_getElem? htext)) hversions hoffers
  exact readText_revised hplain hkeys hd hline houtside revision

def sampleOverview : PackageOverview := ⟨.null, ["2.0"], .null, .null, [], .null, [], []⟩

theorem hasPlainVersions_sampleOverview : sampleOverview.HasPlainVersions where
  latest := by
    intro h
    cases h
  versions := by
    intro version hversion
    obtain rfl := List.mem_singleton.mp hversion
    exact ⟨⟨'2', _, rfl, by decide⟩, by decide⟩

theorem not_opensQuotedKey {line : List Char} (h : (openedArray? (codePart line)).isSome = false) :
    ¬ opensQuotedKey line := by
  rintro ⟨hopened, -⟩
  rw [h] at hopened
  cases hopened

/-- The requirement of a file is updated, and nothing else is stated after that. -/
theorem readText_edited_requirement :
    ∃ edited, (Buffer.mk "flask==1.0\nrequests".toList none none).withEdits
        [⟨0, ⟨5, 5⟩, "==2.0".toList⟩] = .ok edited ∧
      ManifestReader.standard.readText edited .requirements
        = [⟨"flask".toList, "==2.0".toList, ⟨5, 5⟩, ⟨0, 5⟩, 0, .main, .requirementsLine, []⟩,
          ⟨"requests".toList, [], ⟨8, 0⟩, ⟨0, 8⟩, 1, .main, .requirementsLine, []⟩] := by
  have hclosed : ∀ line ∈ splitLines "flask==1.0\nrequests".toList,
      (openedArray? (codePart line)).isSome = false := by decide
  obtain ⟨line, hline, hedited⟩ := @readText_edited .standard
    ⟨"flask==1.0\nrequests".toList, none, none⟩ .requirements
    ⟨"flask".toList, "==1.0".toList, ⟨5, 5⟩, ⟨0, 5⟩, 0, .main, .requirementsLine, []⟩
    (by decide) (fun line hline => not_opensQuotedKey (hclosed line hline)) (by decide)
  obtain rfl : "flask==1.0".toList = line := Option.some.inj hline
  obtain ⟨edited, hok, hread⟩ := hedited sampleOverview ⟨0, ⟨5, 5⟩, "==2.0".toList⟩
    (fun extras hextras => by cases hextras) hasPlainVersions_sampleOverview (Or.inl (by decide))
  refine ⟨edited, hok, ?_⟩
  rw [hread]
  decide

/-- A constraint that is found within the brackets of the extras is a part of the extras too, so an update
changes both. -/
theorem readText_edited_within_extras :
    ∃ (buffer : Buffer) (d : Dependency) (line : List Char) (metadata : PackageOverview) (edit : Edit)
      (edited : List Char),
      breaksPlainly buffer.text = true ∧ (∀ line ∈ splitLines buffer.text, ¬ opensQuotedKey line) ∧
      d ∈ ManifestReader.standard.readText buffer.text .pyproject ∧
      buffer.lineAt? d.line = some line ∧
      -- The bracket of the extras is closed.
      ']' ∈ line.dropWhile (· != '[') ∧
      metadata.HasPlainVersions ∧ d.Offers metadata line edit ∧ buffer.withEdits [edit] = .ok edited ∧
      ManifestReader.standard.readText edited .pyproject
        ≠ (ManifestReader.standard.readText buffer.text .pyproject).map (edit.carry d) := by
  have hclosed : ∀ line ∈ splitLines
      "[tool.poetry.dependencies]\nfoo = \x7b extras = [\"version = '1.0'\"] \x7d".toList,
      (openedArray? (codePart line)).isSome = false := by decide
  refine ⟨⟨"[tool.poetry.dependencies]\nfoo = \x7b extras = [\"version = '1.0'\"] \x7d".toList, none, none⟩,
    ⟨"foo".toList, "1.0".toList, ⟨30, 3⟩, ⟨0, 3⟩, 1, .main, .poetryTable, ["version = '1.0".toList]⟩,
    "foo = \x7b extras = [\"version = '1.0'\"] \x7d".toList, sampleOverview, ⟨1, ⟨30, 3⟩, "2.0".toList⟩,
    "[tool.poetry.dependencies]\nfoo = \x7b extras = [\"version = '2.0'\"] \x7d".toList,
    by decide, fun line hline => not_opensQuotedKey (hclosed line hline), by decide, by decide,
    by decide, hasPlainVersions_sampleOverview, Or.inl (by decide), ?_, by decide⟩
  simp only [Buffer.withEdits, List.map_cons, List.map_nil, List.mergeSort_singleton]
  decide

end ManifestLens
