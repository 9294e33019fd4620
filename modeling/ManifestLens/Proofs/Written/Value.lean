import ManifestLens.Proofs.Written.Array
import ManifestLens.Proofs.Written.Table

/-!
# Written values

A key with a value on one line is an entry where the table holds Poetry dependencies, and nothing
elsewhere. In the table of a single package only the version counts.
-/

namespace ManifestLens

open Text

/-! ### Values -/

/-- An inline table that has its constraint in the version field. -/
structure WrittenInline where
  shape : TableShape
  quote : Char
  pieces : List WrittenPiece
  quote_isQuote : isQuote quote = true
  isTable : shape.opening ≠ []

namespace WrittenInline

/-- The constraint in the version field. -/
def constraint (inline : WrittenInline) : List Char := joinWith [','] (inline.pieces.map WrittenPiece.text)

def text (inline : WrittenInline) : List Char :=
  inline.shape.opening
    ++ inline.quote :: (inline.constraint ++ inline.quote :: inline.shape.closing)

def entry (inline : WrittenInline) (key : KeyForm) {trail : List Char} (htrail : IsBlankRun trail) :
    WrittenEntry :=
  ⟨key, inline.quote, inline.pieces, inline.shape, trail, inline.quote_isQuote, htrail⟩

theorem text_entry (inline : WrittenInline) (key : KeyForm) {trail : List Char}
    (htrail : IsBlankRun trail) : (inline.entry key htrail).text = key.text ++ (inline.text ++ trail) := by
  simp [entry, WrittenEntry.text, WrittenEntry.head, WrittenEntry.statement, Statement.constraint, text,
    constraint]

/-- An inline table starts with its brace. -/
theorem exists_text (inline : WrittenInline) : ∃ rest, inline.text = '\x7b' :: rest := by
  cases hshape : inline.shape with
  | string => exact absurd (by rw [hshape]; rfl) inline.isTable
  | version | versionFirst | extrasFirst => exact ⟨_, by rw [text, hshape]; rfl⟩

end WrittenInline

/-- A value on one line. -/
inductive WrittenValue where
  | scalar (value : BareScalar)
  | string (value : WrittenString)
  | inline (value : WrittenInline)

namespace WrittenValue

def text : WrittenValue → List Char
  | scalar value => value.text
  | string value => value.text
  | inline value => value.text

/-- The constraint in a string, if a table may state it. -/
def version? : WrittenValue → Option (List Char)
  | string value =>
      if isPoetryConstraint (trim value.content) then some (trim value.content) else none
  | _ => none

def stated? : WrittenValue → Option (List Char × List (List Char))
  | scalar _ => none
  | string value => (version? (string value)).map (·, [])
  | inline value => some (value.constraint, value.shape.listed.map WrittenExtra.name)

end WrittenValue

/-- A key with its value, and the end of the line. -/
structure WrittenPair where
  key : BarePart
  after : List Char
  value : WrittenValue
  ending : LineEnd
  after_blank : IsBlankRun after

namespace WrittenPair

def front (pair : WrittenPair) : List Char := pair.key.text ++ '=' :: pair.after

def text (pair : WrittenPair) : List Char := pair.front ++ pair.value.text ++ pair.ending.text

def accepted? (rule : NameRule) (number : Nat) (group : Group) (name : List Char)
    (stated : List Char × List (List Char)) : Option ManifestEntry :=
  if rule.accepts name then some ⟨number, name, stated.1, stated.2, group, .poetryTable⟩ else none

def entries (pair : WrittenPair) (rule : NameRule) (table : List Char) (number : Nat) :
    List ManifestEntry :=
  match PoetryTable.ofTable? table with
  | none => []
  | some ⟨group, none⟩ =>
      if reservedKeys.contains (asciiLower pair.key.name) then []
      else (pair.value.stated?.bind (accepted? rule number group pair.key.name)).toList
  | some ⟨group, some package⟩ =>
      if pair.key.name = "version".toList then
        ((pair.value.version?.map (·, [])).bind (accepted? rule number group package)).toList
      else []

end WrittenPair

/-! ### What the readers of a line see -/

theorem map_entry_toDependency? (r : Requirement) (rule : NameRule) (number : Nat) (group : Group) :
    (r.toDependency? rule .poetryTable number group).map Dependency.entry
      = WrittenPair.accepted? rule number group r.name (r.constraint, r.extras) := by
  rw [Requirement.toDependency?, WrittenPair.accepted?]
  split <;> rfl

namespace WrittenString

variable {string : WrittenString} {rest : List Char}

theorem stringValue?_text (string : WrittenString) (column : Nat) (rest : List Char) :
    stringValue? column (string.text ++ rest) = some ⟨column + 1, string.content.length⟩ := by
  have htake : (string.content ++ string.quote :: rest).takeWhile (· != string.quote)
      = string.content := by
    refine takeWhile_run (fun c hc => ?_) (headNot_cons.mpr (by simp))
    simp only [bne_iff_ne, ne_eq]
    rintro rfl
    exact string.closed hc
  have hsplit : string.text ++ rest = string.quote :: (string.content ++ string.quote :: rest) := by
    simp [text]
  rw [hsplit, stringValue?]
  simp only [string.quote_isQuote, if_true, htake]

end WrittenString

/-- A bare scalar starts neither a string nor an inline table nor an array. -/
theorem BareScalar.exists_head (scalar : BareScalar) : ∃ c rest, scalar.text = c :: rest ∧
    isQuote c = false ∧ isBlank c = false ∧ c ≠ '\x7b' ∧ c ≠ '[' := by
  obtain ⟨c, rest, htext⟩ := List.exists_cons_of_ne_nil scalar.text_ne_nil
  obtain ⟨hquote, hmark⟩ := scalar.all c (by simp [htext])
  have hhead := scalar.head
  rw [htext] at hhead
  refine ⟨c, rest, htext, hquote, headNot_cons.mp hhead, ?_, ?_⟩ <;> rintro rfl <;>
    exact hmark (by decide)

namespace WrittenValue

theorem isCode_text (value : WrittenValue) : IsCode value.text := by
  cases value with
  | scalar scalar => exact IsCode.of_isPlain scalar.isPlain
  | string string => exact IsCode.of_quoted string.quote_isQuote string.closed
  | inline inline =>
      have hquote : inline.quote ∉ inline.constraint :=
        Statement.quote_notMem_constraint (s := ⟨[], [], inline.pieces, by simp⟩) inline.quote_isQuote
      have hsplit : inline.text = inline.shape.opening ++ (inline.quote ::
          (inline.constraint ++ [inline.quote]) ++ inline.shape.closing) := by
        simp [WrittenInline.text]
      rw [text, hsplit]
      exact TableShape.isCode_opening.append
        ((IsCode.of_quoted inline.quote_isQuote hquote).append TableShape.isCode_closing)

/-- A value starts with a visible character that opens no array. -/
theorem exists_head (value : WrittenValue) : ∃ c rest, value.text = c :: rest ∧ isBlank c = false ∧
    c ≠ '[' := by
  cases value with
  | scalar scalar =>
      obtain ⟨c, rest, htext, -, hblank, -, hbracket⟩ := scalar.exists_head
      exact ⟨c, rest, htext, hblank, hbracket⟩
  | string string =>
      exact ⟨_, _, rfl, isBlank_of_isQuote string.quote_isQuote,
        (ne_bracket_of_isQuote string.quote_isQuote).1⟩
  | inline inline =>
      obtain ⟨rest, htext⟩ := inline.exists_text
      exact ⟨'\x7b', rest, htext, by decide, by decide⟩

theorem stringValue?_text {value : WrittenValue} (hvalue : ∀ string, value ≠ .string string) (column : Nat)
    (rest : List Char) : stringValue? column (value.text ++ rest) = none := by
  cases value with
  | scalar value =>
      obtain ⟨c, more, htext, hquote, -⟩ := value.exists_head
      simp [text, htext, stringValue?, hquote]
  | string value => exact absurd rfl (hvalue value)
  | inline value =>
      obtain ⟨more, htext⟩ := value.exists_text
      simp only [text, htext, List.cons_append, stringValue?]
      rfl

end WrittenValue

/-! ### Keys of entries -/

theorem isNameChar_of_isBareKeyChar {c : Char} (h : isBareKeyChar c = true) :
    Package.isNameChar c = true := by
  simp only [isBareKeyChar, Package.isNameChar, Bool.or_eq_true] at h ⊢
  rcases h with (h | h) | h
  · exact Or.inl (Or.inl (Or.inl h))
  · exact Or.inl (Or.inr h)
  · exact Or.inr h

/-- The name of the piece may start a key of an entry. -/
def BarePart.StartsKey (part : BarePart) : Prop :=
  ∃ first rest, part.name = first :: rest ∧ isAsciiAlnum first = true

namespace BarePart

variable {part : BarePart} {after : List Char}

/-- The piece as the key of an entry. -/
def keyForm (part : BarePart) (after : List Char) (hafter : IsBlankRun after) (hstart : part.StartsKey) :
    KeyForm where
  indent := part.lead
  quote := none
  name := part.name
  before := part.trail
  after := after
  indent_blank := part.lead_blank
  bare_name := fun _ => ⟨hstart, fun c hc => isNameChar_of_isBareKeyChar (part.name_bare c hc)⟩
  quoted_name := fun q hq => by cases hq
  before_blank := part.trail_blank
  after_blank := hafter

theorem text_keyForm (hafter : IsBlankRun after) (hstart : part.StartsKey) :
    (part.keyForm after hafter hstart).text = part.text ++ '=' :: after := by
  simp [keyForm, KeyForm.text, KeyForm.keyText, text]

theorem feed_notMem_name (part : BarePart) : '\n' ∉ part.name := fun hmem =>
  absurd (part.name_bare _ hmem) (by decide)

theorem startsKey_of_accepts {rule : NameRule} (h : rule.accepts part.name = true) : part.StartsKey :=
  (isWrittenName_of_accepts h part.feed_notMem_name).head

/-- A key that starts with a hyphen or an underscore is read in no table of entries. -/
theorem read?_eq_none (hstart : ¬part.StartsKey) (rest : List Char) :
    TableKey.read? (part.text ++ rest) = none := by
  obtain ⟨c, more, hname⟩ := List.exists_cons_of_ne_nil part.name_ne_nil
  obtain ⟨hquote, hblank, -⟩ := isQuote_of_isBareKeyChar (part.name_bare c (by simp [hname]))
  have halnum : isAsciiAlnum c = false := by
    by_contra h
    exact hstart ⟨c, more, hname, by simpa using h⟩
  have hsplit : part.text ++ rest = part.lead ++ (c :: (more ++ (part.trail ++ rest))) := by
    simp [text, hname]
  rw [hsplit, TableKey.read?, takeWhile_blank part.lead_blank (headNot_cons.mpr hblank)]
  simp only [List.drop_left, hquote, halnum, Bool.false_eq_true, if_false]

end BarePart

/-! ### Pairs -/

section Entries

variable {key : KeyForm} {value : WrittenValue} {trail : List Char}

theorem HeadNot.isBlank_value (value : WrittenValue) (trail : List Char) :
    HeadNot isBlank (value.text ++ trail) := by
  obtain ⟨c, rest, htext, hblank, -⟩ := value.exists_head
  rw [htext]
  exact headNot_cons.mpr hblank

theorem entryOfTable?_reserved (hreserved : reservedKeys.contains (asciiLower key.name) = true) :
    entryOfTable? (key.text ++ (value.text ++ trail)) = none := by
  have hread := key.read?_text (HeadNot.isBlank_value value trail)
  have hname : reservedKeys.contains (asciiLower (key.key (value.text ++ trail)).name) = true := hreserved
  simp only [entryOfTable?, hread, Option.bind_eq_bind, Option.bind_some, hname, if_true]

/-- The string of a pair is narrowed to its constraint, if it has one. -/
theorem exists_tableRequirement?_string (key : KeyForm) (string : WrittenString)
    (trail name : List Char) (nameSpan : Span) : ∃ span,
      tableRequirement? (key.text ++ (string.text ++ trail)) name nameSpan []
          ⟨key.text.length + 1, string.content.length⟩
        = (WrittenValue.version? (.string string)).map fun constraint =>
            ⟨name, nameSpan, [], constraint, span⟩ := by
  obtain ⟨lead, -, -, -, -, -, -, hread⟩ := exists_margins_tableRequirement? (key.text ++ [string.quote])
    string.content (string.quote :: trail) name nameSpan []
  have hsplit : key.text ++ (string.text ++ trail)
      = key.text ++ [string.quote] ++ string.content ++ string.quote :: trail := by
    simp [WrittenString.text]
  have hlength : key.text.length + 1 = (key.text ++ [string.quote]).length := by simp
  refine ⟨⟨(key.text ++ [string.quote]).length + lead.length, (trim string.content).length⟩, ?_⟩
  rw [hsplit, hlength, hread, WrittenValue.version?]
  split <;> rfl

/-- **The entry of a pair** is read with what its value states. -/
theorem map_entryOfTable? (rule : NameRule) (number : Nat) (group : Group) (htrail : IsBlankRun trail)
    (hfree : reservedKeys.contains (asciiLower key.name) = false)
    (hline : '\n' ∉ key.text ++ (value.text ++ trail)) :
    ((entryOfTable? (key.text ++ (value.text ++ trail))).bind
        (Requirement.toDependency? rule .poetryTable number group)).map Dependency.entry
      = value.stated?.bind (WrittenPair.accepted? rule number group key.name) := by
  have hread := key.read?_text (HeadNot.isBlank_value value trail)
  have hfree' : reservedKeys.contains (asciiLower (key.key (value.text ++ trail)).name) = false := hfree
  cases value with
  | scalar scalar =>
      obtain ⟨c, rest, htext, hquote, -, hbrace, -⟩ := scalar.exists_head
      have hvalue : (key.key (WrittenValue.text (.scalar scalar) ++ trail)).value = c :: (rest ++ trail) := by
        simp [KeyForm.key, WrittenValue.text, htext]
      simp [entryOfTable?, hread, hvalue, stringValue?, hquote, hbrace, WrittenValue.stated?]
  | string string =>
      obtain ⟨span, hfound⟩ := exists_tableRequirement?_string key string trail key.name
        (key.key (string.text ++ trail)).span
      have hstring : stringValue? (key.key (string.text ++ trail)).valueColumn
          (key.key (string.text ++ trail)).value = some ⟨key.text.length + 1, string.content.length⟩ :=
        string.stringValue?_text key.text.length trail
      have hentry : entryOfTable? (key.text ++ (string.text ++ trail))
          = (WrittenValue.version? (.string string)).map fun constraint =>
              ⟨key.name, (key.key (string.text ++ trail)).span, [], constraint, span⟩ := by
        rw [WrittenValue.text] at hread hfree'
        simp only [entryOfTable?, hread, Option.bind_eq_bind, Option.bind_some, hfree',
          Bool.false_eq_true, if_false, hstring]
        exact hfound
      rw [WrittenValue.text, hentry, WrittenValue.stated?]
      cases WrittenValue.version? (.string string) with
      | none => rfl
      | some constraint => exact map_entry_toDependency? _ rule number group
  | inline inline =>
      have htext : (inline.entry key htrail).form.text = key.text ++ (inline.text ++ trail) := by
        rw [WrittenEntry.text_form, inline.text_entry]
      have hfound := (inline.entry key htrail).form.entryOfTable?_text (by rwa [htext]) hfree
      have hextras := (inline.entry key htrail).extras_form
      rw [htext] at hfound
      rw [WrittenValue.text, hfound, Option.bind_some, map_entry_toDependency?]
      simp only [TableForm.requirement, hextras]
      rfl

/-- **The version of a package** is read from the string of its pair. -/
theorem map_versionKeyDependency? (rule : NameRule) (package : List Char) (number : Nat) (group : Group)
    {line : List Char} (hcode : codePart line = key.text ++ (value.text ++ trail))
    (hbare : key.quote = none) :
    (versionKeyDependency? rule line package number group).map Dependency.entry
      = if key.name = "version".toList then
          (value.version?.map (·, [])).bind (WrittenPair.accepted? rule number group package)
        else none := by
  have hread := key.read?_text (HeadNot.isBlank_value value trail)
  have hbare' : (key.key (value.text ++ trail)).isBare = true := by simp [KeyForm.key, hbare]
  by_cases hversion : key.name = "version".toList
  · have hkey : ((key.key (value.text ++ trail)).isBare
        && decide ((key.key (value.text ++ trail)).name = "version".toList)) = true := by
      rw [hbare', Bool.true_and]
      exact decide_eq_true hversion
    have hsplit : versionKeyDependency? rule line package number group
        = (stringValue? key.text.length (value.text ++ trail)).bind fun span =>
            (tableRequirement? (key.text ++ (value.text ++ trail)) package
              (key.key (value.text ++ trail)).span [] span).bind
                (Requirement.toDependency? rule .poetryTable number group) := by
      rw [versionKeyDependency?, hcode, hread]
      simp only [Option.bind_eq_bind, Option.bind_some]
      rw [if_pos hkey]
      rfl
    rw [hsplit, if_pos hversion]
    cases value with
    | string string =>
        obtain ⟨span, hfound⟩ := exists_tableRequirement?_string key string trail package
          (key.key (string.text ++ trail)).span
        rw [WrittenValue.text, string.stringValue?_text, Option.bind_some, hfound]
        cases WrittenValue.version? (.string string) with
        | none => rfl
        | some constraint => exact map_entry_toDependency? _ rule number group
    | scalar | inline => rw [WrittenValue.stringValue?_text (by simp)]; rfl
  · have hkey : ((key.key (value.text ++ trail)).isBare
        && decide ((key.key (value.text ++ trail)).name = "version".toList)) = false := by
      rw [hbare', Bool.true_and]
      exact decide_eq_false hversion
    rw [versionKeyDependency?, hcode, hread, if_neg hversion]
    simp only [Option.bind_eq_bind, Option.bind_some]
    rw [if_neg (ne_true_of_eq_false hkey)]
    rfl

end Entries

namespace WrittenPair

variable {pair : WrittenPair}

theorem isCode_front (pair : WrittenPair) : IsCode pair.front :=
  have hkey : IsPlain (DottedName.bare pair.key).text := DottedName.isPlain_text
  (IsCode.of_isPlain hkey).append
    ((IsCode.of_isBlankRun pair.after_blank).cons (by decide) (by decide))

theorem codePart_text (pair : WrittenPair) :
    codePart pair.text = pair.front ++ (pair.value.text ++ pair.ending.blanks) := by
  rw [text, pair.ending.codePart_text (pair.isCode_front.append pair.value.isCode_text),
    List.append_assoc]

theorem tableHeader?_text (pair : WrittenPair) : tableHeader? pair.text = none :=
  tableHeader?_key (.bare pair.key) (by simpa [front, DottedName.text] using pair.codePart_text)

theorem openedArray?_text (pair : WrittenPair) : openedArray? (codePart pair.text) = none := by
  obtain ⟨c, rest, htext, -, hbracket⟩ := pair.value.exists_head
  have hsplit : pair.front ++ (pair.value.text ++ pair.ending.blanks)
      = (DottedName.bare pair.key).text
        ++ '=' :: (pair.after ++ (pair.value.text ++ pair.ending.blanks)) := by
    simp [front, DottedName.text]
  rw [codePart_text, hsplit, openedArray?_key _ pair.after_blank (HeadNot.isBlank_value _ _),
    htext, List.cons_append, List.head?_cons, if_neg (by simpa using hbracket)]

/-- **A written pair** yields the entries that it states in its table. -/
theorem tableEntries_text (pair : WrittenPair) (reader : ManifestReader) (table : List Char) (number : Nat)
    (hline : '\n' ∉ pair.text) :
    (reader.tableEntries pair.text number table).map Dependency.entry
      = pair.entries reader.rule table number := by
  have hcode := pair.codePart_text
  have hfeed : '\n' ∉ pair.front ++ (pair.value.text ++ pair.ending.blanks) := by
    rw [← hcode]
    exact fun hmem => hline ((codePart_isPrefix pair.text).subset hmem)
  rw [ManifestReader.tableEntries, entries]
  by_cases hstart : pair.key.StartsKey
  · have hkey : pair.front = (pair.key.keyForm pair.after pair.after_blank hstart).text := by
      rw [BarePart.text_keyForm, front]
    have hname : (pair.key.keyForm pair.after pair.after_blank hstart).name = pair.key.name := rfl
    rw [hkey] at hcode hfeed
    cases PoetryTable.ofTable? table with
    | none => rfl
    | some found =>
        obtain ⟨group, package⟩ := found
        cases package with
        | none =>
            simp only [tableDependencies, hcode]
            split
            · next hreserved => rw [entryOfTable?_reserved (hname ▸ hreserved)]; rfl
            · next hreserved =>
                rw [← Option.toList_map, map_entryOfTable? reader.rule number group pair.ending.blanks_blank
                  (by rw [hname]; simpa using hreserved) hfeed, hname]
        | some package =>
            simp only
            rw [← Option.toList_map,
              map_versionKeyDependency? reader.rule package number group hcode rfl, hname]
            split <;> rfl
  · -- Neither is the key read, nor is its name that of an entry.
    have hread : TableKey.read? (pair.front ++ (pair.value.text ++ pair.ending.blanks)) = none := by
      rw [front, List.append_assoc]
      exact BarePart.read?_eq_none hstart _
    have haccepts : reader.rule.accepts pair.key.name = false := by
      by_contra h
      exact hstart (BarePart.startsKey_of_accepts (by simpa using h))
    have hversion : pair.key.name ≠ "version".toList := fun h => hstart ⟨'v', _, h, by decide⟩
    cases PoetryTable.ofTable? table with
    | none => rfl
    | some found =>
        obtain ⟨group, package⟩ := found
        cases package with
        | none =>
            have hentry : pair.value.stated?.bind (accepted? reader.rule number group pair.key.name)
                = none := by
              cases pair.value.stated? with
              | none => rfl
              | some stated => simp [accepted?, haccepts]
            simp [tableDependencies, hcode, entryOfTable?, hread, hentry]
        | some package =>
            simp only [versionKeyDependency?, hcode, hread, if_neg hversion]
            rfl

end WrittenPair

end ManifestLens
