import ManifestLens.Proofs.Manifest.TableKey

/-!
# Fields of an inline table

A field is searched by its key alone, wherever it stands in the table. What may be changed without
disturbing the search is behind a barrier: a visible character that belongs to no key and is no equals
sign, such as the quote that opens a version string. Up to a barrier the search finds the same key
whatever follows, and behind it it starts anew.
-/

namespace ManifestLens

open Text

/-- The value of a key that starts the text, with the distance to it. -/
def fieldHere? (key text : List Char) : Option (Nat × List Char) :=
  if key.isPrefixOf text then TableKey.afterEquals? (text.drop key.length) else none

/-- The column and the text of the first value that belongs to a key and starts as accepted. -/
def firstField (key : List Char) (accepts : Option Char → Bool) (previous : Char) (column : Nat)
    (text : List Char) : Option (Nat × List Char) :=
  findField key (fun column value => if accepts value.head? then some (column, value) else none)
    previous column text

/-- A character that no key and no equals sign goes across. -/
structure IsBarrier (key : List Char) (c : Char) : Prop where
  key_ne_nil : key ≠ []
  notMem : c ∉ key
  visible : isBlank c = false
  ne_equals : c ≠ '='

section Fields

variable {key : List Char} {previous : Char} {column : Nat}

theorem findField_cons {α : Type} (read : Nat → List Char → Option α) (c : Char)
    (rest : List Char) : findField key read previous column (c :: rest)
      = ((if isWordChar previous then none else fieldHere? key (c :: rest)).bind (fun found =>
          read (column + key.length + found.1) found.2)
        <|> findField key read c (column + 1) rest) := by
  rw [findField, fieldHere?]
  cases isWordChar previous <;> cases key.isPrefixOf (c :: rest) <;> rfl

theorem findField_map {α β : Type} (f : α → β) (read : Nat → List Char → Option α)
    (text : List Char) : findField key (fun column value => (read column value).map f) previous column text
      = (findField key read previous column text).map f := by
  induction text generalizing previous column with
  | nil => rfl
  | cons c rest ih =>
      rw [findField_cons, findField_cons, ih]
      generalize (if isWordChar previous then none else fieldHere? key (c :: rest)) = found
      cases found with
      | none => rfl
      | some found =>
          simp only [Option.bind_some]
          cases read (column + key.length + found.1) found.2 <;> rfl

theorem exists_of_fieldHere? {text value : List Char} {length : Nat}
    (h : fieldHere? key text = some (length, value)) :
    ∃ before after, text = key ++ (before ++ '=' :: (after ++ value)) ∧ IsBlankRun before ∧
      IsBlankRun after ∧ HeadNot isBlank value ∧ length = before.length + 1 + after.length := by
  rw [fieldHere?] at h
  split at h
  · next hprefix =>
      obtain ⟨more, rfl⟩ := List.isPrefixOf_iff_prefix.mp hprefix
      rw [List.drop_left] at h
      obtain ⟨before, after, rfl, hbefore, hafter, hvalue, hlength⟩ := exists_of_afterEquals? h
      exact ⟨before, after, rfl, hbefore, hafter, hvalue, hlength⟩
  · cases h

theorem fieldHere?_text (key : List Char) {before after value : List Char} (hbefore : IsBlankRun before)
    (hafter : IsBlankRun after) (hvalue : HeadNot isBlank value) :
    fieldHere? key (key ++ (before ++ '=' :: (after ++ value)))
      = some (before.length + 1 + after.length, value) := by
  rw [fieldHere?, if_pos (List.isPrefixOf_iff_prefix.mpr (List.prefix_append _ _)), List.drop_left]
  exact TableKey.afterEquals?_text hbefore hafter hvalue

/-- What is read at the start of a text is settled before a barrier, except for what the value is behind
it. -/
theorem exists_fieldHere?_barrier {q : Char} (hq : IsBarrier key q) (front : List Char) :
    (∀ rest, fieldHere? key (front ++ q :: rest) = none) ∨
      ∃ length value, value <:+ front ∧ key.length + length + value.length = front.length ∧
        ∀ rest, fieldHere? key (front ++ q :: rest) = some (length, value ++ q :: rest) := by
  by_cases hprefix : key <+: front
  · obtain ⟨more, rfl⟩ := hprefix
    obtain ⟨before, back, rfl, hbefore, hback, -, -⟩ := exists_run isBlank more
    have hhead : ∀ rest, HeadNot isBlank (back ++ q :: rest) := fun rest =>
      hback.append fun _ => headNot_cons.mpr hq.visible
    by_cases hequals : back.head? = some '='
    · obtain ⟨body, rfl⟩ : ∃ body, back = '=' :: body := by
        cases back with
        | nil => cases hequals
        | cons c body => exact ⟨body, by rw [Option.some.inj hequals]⟩
      obtain ⟨after, value, rfl, hafter, hvalue, -, -⟩ := exists_run isBlank body
      refine Or.inr ⟨before.length + 1 + after.length, value, ?_, ?_, fun rest => ?_⟩
      · exact ⟨key ++ (before ++ '=' :: after), by simp⟩
      · simp only [List.length_append, List.length_cons]
        omega
      · have hbehind : HeadNot isBlank (value ++ q :: rest) :=
          hvalue.append fun _ => headNot_cons.mpr hq.visible
        have := fieldHere?_text key hbefore hafter hbehind
        simpa using this
    · refine Or.inl fun rest => ?_
      rw [fieldHere?, List.append_assoc, if_pos (List.isPrefixOf_iff_prefix.mpr (List.prefix_append _ _)),
        List.drop_left, List.append_assoc, TableKey.afterEquals?, takeWhile_blank hbefore (hhead rest)]
      simp only [List.drop_left]
      cases back with
      | nil =>
          split
          · next heq =>
              obtain ⟨hc, -⟩ := List.cons.inj heq
              exact absurd hc hq.ne_equals
          · rfl
      | cons c body =>
          split
          · next heq =>
              obtain ⟨rfl, -⟩ := List.cons.inj heq
              exact absurd rfl hequals
          · rfl
  · refine Or.inl fun rest => ?_
    rw [fieldHere?, if_neg]
    rw [List.isPrefixOf_iff_prefix]
    intro h
    obtain ⟨more, hmore⟩ := h
    rcases List.append_eq_append_iff.mp hmore with ⟨gap, hfront, -⟩ | ⟨gap, hkey, hgap⟩
    · exact hprefix ⟨gap, hfront.symm⟩
    · cases gap with
      | nil => exact hprefix ⟨[], by simpa using hkey⟩
      | cons c gap =>
          obtain ⟨rfl, -⟩ := List.cons.inj hgap
          exact hq.notMem (by simp [hkey])

variable {accepts : Option Char → Bool}

theorem firstField_cons_none {c : Char} {rest : List Char}
    (h : isWordChar previous = true ∨ fieldHere? key (c :: rest) = none) :
    firstField key accepts previous column (c :: rest)
      = firstField key accepts c (column + 1) rest := by
  rw [firstField, findField_cons]
  rcases h with h | h
  · rw [if_pos h]
    rfl
  · rw [h, ite_self]
    rfl

theorem firstField_cons_some (accepts : Option Char → Bool) (column : Nat) {c : Char}
    {rest value : List Char} {length : Nat} (hprevious : isWordChar previous = false)
    (h : fieldHere? key (c :: rest) = some (length, value)) :
    firstField key accepts previous column (c :: rest)
      = if accepts value.head? then some (column + key.length + length, value)
        else firstField key accepts c (column + 1) rest := by
  rw [firstField, findField_cons, hprevious, h]
  simp only [Bool.false_eq_true, if_false, Option.bind_some]
  split <;> rfl

/-- A value stands in the text behind its key and an equals sign, and starts as accepted. -/
theorem exists_of_firstField {text value : List Char} {found : Nat}
    (h : firstField key accepts previous column text = some (found, value)) :
    ∃ front before after, text = front ++ (key ++ (before ++ '=' :: (after ++ value))) ∧
      IsBlankRun after ∧ accepts value.head? = true ∧
      found = column + front.length + key.length + (before.length + 1 + after.length) := by
  induction text generalizing previous column with
  | nil => cases h
  | cons c rest ih =>
      have hrest : firstField key accepts c (column + 1) rest = some (found, value) →
          ∃ front before after, c :: rest = front ++ (key ++ (before ++ '=' :: (after ++ value))) ∧
            IsBlankRun after ∧ accepts value.head? = true ∧
            found = column + front.length + key.length + (before.length + 1 + after.length) := by
        intro h
        obtain ⟨front, before, after, htext, hafter, haccepts, hfound⟩ := ih h
        refine ⟨c :: front, before, after, by rw [htext]; rfl, hafter, haccepts, ?_⟩
        rw [hfound, List.length_cons]
        omega
      cases hhere : fieldHere? key (c :: rest) with
      | none =>
          rw [firstField_cons_none (Or.inr hhere)] at h
          exact hrest h
      | some here =>
          cases hprevious : isWordChar previous with
          | true =>
              rw [firstField_cons_none (Or.inl hprevious)] at h
              exact hrest h
          | false =>
              rw [firstField_cons_some _ _ hprevious hhere] at h
              split at h
              · next haccepts =>
                  obtain ⟨rfl, rfl⟩ := Prod.mk.inj (Option.some.inj h)
                  obtain ⟨before, after, htext, -, hafter, -, hlength⟩ := exists_of_fieldHere? hhere
                  exact ⟨[], before, after, htext, hafter, haccepts, by rw [hlength]; rfl⟩
              · exact hrest h

theorem length_of_firstField {text value : List Char} {found : Nat} (hkey : key ≠ [])
    (h : firstField key accepts previous column text = some (found, value)) :
    value.length < text.length ∧ found + value.length = column + text.length ∧ value <:+ text := by
  obtain ⟨front, before, after, htext, -, -, hfound⟩ := exists_of_firstField h
  have hpositive := List.length_pos_iff.mpr hkey
  have htotal := congrArg List.length htext
  simp only [List.length_append, List.length_cons] at htotal
  exact ⟨by omega, by omega, front ++ (key ++ (before ++ '=' :: after)), by simp [htext]⟩

theorem accepts_of_firstField {text value : List Char} {found : Nat}
    (h : firstField key accepts previous column text = some (found, value)) :
    accepts value.head? = true := by
  obtain ⟨-, -, -, -, -, haccepts, -⟩ := exists_of_firstField h
  exact haccepts

/-- **The search up to a barrier.** Either the field is found before the barrier, whatever follows it, or
the search goes on behind the barrier, whatever stands before it. -/
theorem firstField_append (accepts : Option Char → Bool) (previous : Char) (column : Nat) {q : Char}
    (hq : IsBarrier key q) (front : List Char) :
    (∃ found value, value <:+ front ∧ accepts (value ++ [q]).head? = true ∧
      found + value.length = column + front.length ∧
      ∀ rest, firstField key accepts previous column (front ++ q :: rest)
        = some (found, value ++ q :: rest)) ∨
    ∀ rest, firstField key accepts previous column (front ++ q :: rest)
      = firstField key accepts q (column + front.length + 1) rest := by
  have hhead : ∀ value rest : List Char, (value ++ q :: rest).head? = (value ++ [q]).head? := by
    intro value rest
    cases value <;> rfl
  induction front generalizing previous column with
  | nil =>
      refine Or.inr fun rest => ?_
      rcases exists_fieldHere?_barrier hq [] with hnone | ⟨length, value, -, hlength, -⟩
      · exact firstField_cons_none (Or.inr (hnone rest))
      · have hpositive := List.length_pos_iff.mpr hq.key_ne_nil
        rw [List.length_nil] at hlength
        omega
  | cons c front ih =>
      -- Past the first character, the alternatives are those of the rest.
      have hpast : (∀ rest, firstField key accepts previous column (c :: front ++ q :: rest)
          = firstField key accepts c (column + 1) (front ++ q :: rest)) →
          (∃ found value, value <:+ c :: front ∧ accepts (value ++ [q]).head? = true ∧
            found + value.length = column + (c :: front).length ∧
            ∀ rest, firstField key accepts previous column (c :: front ++ q :: rest)
              = some (found, value ++ q :: rest)) ∨
          ∀ rest, firstField key accepts previous column (c :: front ++ q :: rest)
            = firstField key accepts q (column + (c :: front).length + 1) rest := by
        intro hskip
        rcases @ih c (column + 1) with ⟨found, value, hsuffix, haccepts, hcolumn, hfound⟩ | hbehind
        · refine Or.inl ⟨found, value, hsuffix.trans (List.suffix_cons c front), haccepts, ?_,
            fun rest => by rw [hskip, hfound]⟩
          rw [List.length_cons]
          omega
        · refine Or.inr fun rest => ?_
          rw [hskip, hbehind, List.length_cons]
          congr 1
          omega
      rcases exists_fieldHere?_barrier hq (c :: front) with
        hnone | ⟨length, value, hsuffix, hlength, hhere⟩
      · exact hpast fun rest => firstField_cons_none (Or.inr (hnone rest))
      · cases hprevious : isWordChar previous with
        | true => exact hpast fun rest => firstField_cons_none (Or.inl hprevious)
        | false =>
            cases haccepts : accepts (value ++ [q]).head? with
            | true =>
                refine Or.inl ⟨column + key.length + length, value, hsuffix, haccepts, by omega,
                  fun rest => ?_⟩
                have := firstField_cons_some accepts column hprevious
                  (hhere rest)
                rw [hhead, haccepts, if_pos rfl] at this
                exact this
            | false =>
                refine hpast fun rest => ?_
                have := firstField_cons_some accepts column hprevious
                  (hhere rest)
                rw [hhead, haccepts, if_neg (by simp)] at this
                exact this

/-- A field whose value starts with a barrier is found there whatever follows the barrier. -/
theorem firstField_exchange {q : Char} (hq : IsBarrier key q) {front rest : List Char} {found : Nat}
    (h : firstField key accepts previous column (front ++ q :: rest) = some (found, q :: rest))
    (other : List Char) :
    firstField key accepts previous column (front ++ q :: other) = some (found, q :: other) := by
  rcases firstField_append accepts previous column hq front with
    ⟨place, value, -, -, -, hfound⟩ | hbehind
  · have hsame := h
    rw [hfound] at hsame
    obtain ⟨rfl, hvalue⟩ := Prod.mk.inj (Option.some.inj hsame)
    have hnil : value = [] := by simpa using hvalue
    rw [hfound, hnil, List.nil_append]
  · rw [hbehind] at h
    have := (length_of_firstField hq.key_ne_nil h).1
    rw [List.length_cons] at this
    omega

theorem firstField_skip (accepts : Option Char → Bool) (previous : Char) (column : Nat) {q : Char}
    (hq : IsBarrier key q) {front : List Char}
    (hfront : ∀ c ∈ front, accepts (some c) = false) (haccepts : accepts (some q) = false)
    (rest : List Char) : firstField key accepts previous column (front ++ q :: rest)
      = firstField key accepts q (column + front.length + 1) rest := by
  rcases firstField_append accepts previous column hq front with
    ⟨found, value, hsuffix, hvalue, -, -⟩ | hbehind
  · cases value with
    | nil =>
        rw [List.nil_append, List.head?_cons, haccepts] at hvalue
        cases hvalue
    | cons c more =>
        rw [List.cons_append, List.head?_cons, hfront c (hsuffix.subset (by simp))] at hvalue
        cases hvalue
  · exact hbehind rest

theorem firstField_barrier {q : Char} (hq : IsBarrier key q) (rest : List Char) :
    firstField key accepts previous column (q :: rest) = firstField key accepts q (column + 1) rest := by
  refine firstField_cons_none (Or.inr ?_)
  obtain ⟨first, more, hkey⟩ := List.exists_cons_of_ne_nil hq.key_ne_nil
  have hne : first ≠ q := fun h => hq.notMem (by simp [hkey, h])
  rw [fieldHere?, if_neg]
  simp [hkey, hne]

theorem firstField_skip_unequal {q : Char} (hq : IsBarrier key q) {front : List Char}
    (hfront : '=' ∉ front) (rest : List Char) :
    firstField key accepts previous column (front ++ q :: rest)
      = firstField key accepts q (column + front.length + 1) rest := by
  induction front generalizing previous column with
  | nil => exact firstField_barrier hq rest
  | cons c more ih =>
      simp only [List.mem_cons, not_or] at hfront
      have hnone : fieldHere? key (c :: more ++ q :: rest) = none := by
        rcases exists_fieldHere?_barrier hq (c :: more) with h | ⟨length, value, -, -, hhere⟩
        · exact h rest
        · obtain ⟨before, after, hsplit, -⟩ := exists_of_fieldHere? (hhere rest)
          have hequals : (c :: more) = key ++ (before ++ '=' :: after) ++ value :=
            @List.append_cancel_right _ _ (q :: rest) _ (by simpa using hsplit)
          exact absurd (by rw [hequals]; simp : '=' ∈ c :: more) (by simp [hfront])
      rw [List.cons_append] at hnone ⊢
      rw [firstField_cons_none (Or.inr hnone), ih hfront.2, List.length_cons]
      congr 1
      omega

theorem firstField_blanks {run before after value : List Char} (hkey : HeadNot isBlank key)
    (hprevious : isWordChar previous = false) (hrun : IsBlankRun run) (hbefore : IsBlankRun before)
    (hafter : IsBlankRun after) (hvalue : HeadNot isBlank value) (hne : key ≠ [])
    (haccepts : accepts value.head? = true) :
    firstField key accepts previous column (run ++ (key ++ (before ++ '=' :: (after ++ value))))
      = some (column + (run ++ key ++ before ++ '=' :: after).length, value) := by
  obtain ⟨first, more, rfl⟩ := List.exists_cons_of_ne_nil hne
  induction run generalizing previous column with
  | nil =>
      have hhere := fieldHere?_text (first :: more) hbefore hafter hvalue
      rw [List.nil_append, List.cons_append]
      rw [List.cons_append] at hhere
      rw [firstField_cons_some accepts column hprevious hhere, if_pos haccepts]
      simp only [List.nil_append, List.length_append, List.length_cons]
      congr 2
      omega
  | cons c rest ih =>
      have hblank := hrun c (by simp)
      have hne : c ≠ first := by
        rintro rfl
        rw [headNot_cons.mp hkey] at hblank
        cases hblank
      have hnone : fieldHere? (first :: more) (c :: (rest ++ (first :: more ++
          (before ++ '=' :: (after ++ value))))) = none := by
        rw [fieldHere?, if_neg]
        simp [hne.symm]
      rw [List.cons_append, firstField_cons_none (Or.inr hnone),
        ih (isWordChar_of_isBlank hblank) fun x hx => hrun x (List.mem_cons_of_mem c hx)]
      simp only [List.cons_append, List.length_cons]
      congr 2
      omega

theorem firstField_eq_none {text : List Char}
    (htext : ∀ c ∈ text, accepts (some c) = false) (hnone : accepts none = false) :
    firstField key accepts previous column text = none := by
  induction text generalizing previous column with
  | nil => rfl
  | cons c rest ih =>
      have hrest := @ih c (column + 1) fun x hx => htext x (List.mem_cons_of_mem c hx)
      cases hhere : fieldHere? key (c :: rest) with
      | none => rw [firstField_cons_none (Or.inr hhere), hrest]
      | some here =>
          cases hprevious : isWordChar previous with
          | true => rw [firstField_cons_none (Or.inl hprevious), hrest]
          | false =>
              obtain ⟨before, after, hsplit, -⟩ := exists_of_fieldHere? hhere
              have hvalue : accepts here.2.head? = false := by
                cases hcases : here.2 with
                | nil => exact hnone
                | cons d more => exact htext d (by rw [hsplit, hcases]; simp)
              rw [firstField_cons_some _ _ hprevious hhere, hvalue, if_neg (by simp), hrest]

theorem firstField_column (key : List Char) (accepts : Option Char → Bool) (previous : Char)
    (column : Nat) (text : List Char) (shift : Nat) :
    firstField key accepts previous (column + shift) text
      = (firstField key accepts previous column text).map fun found => (found.1 + shift, found.2) := by
  induction text generalizing previous column with
  | nil => rfl
  | cons c rest ih =>
      have hrest := @ih c (column + 1)
      have hcolumn : column + shift + 1 = column + 1 + shift := by omega
      cases hhere : fieldHere? key (c :: rest) with
      | none =>
          rw [firstField_cons_none (Or.inr hhere), firstField_cons_none (Or.inr hhere), hcolumn, hrest]
      | some here =>
          cases hprevious : isWordChar previous with
          | true =>
              rw [firstField_cons_none (Or.inl hprevious), firstField_cons_none (Or.inl hprevious),
                hcolumn, hrest]
          | false =>
              rw [firstField_cons_some _ _ hprevious hhere, firstField_cons_some _ _ hprevious hhere, hcolumn,
                hrest]
              split
              · rw [Option.map_some]
                congr 2
                omega
              · rfl

end Fields

/-! ### Version and extras -/

def isStringStart (c : Option Char) : Bool := c.any isQuote

def isListStart (c : Option Char) : Bool := c == some '['

/-- The columns of the string that a value is, up to its quote or the end of the line. -/
def stringSpan (found : Nat × List Char) : Span :=
  ⟨found.1 + 1, (found.2.tail.takeWhile fun c => some c != found.2.head? && c != '\n').length⟩

def listedExtras (value : List Char) : List (List Char) := extrasOf (value.tail.takeWhile (· != ']'))

theorem statedVersion?_eq (table : List Char) (column : Nat) : statedVersion? table column
    = (firstField "version".toList isStringStart ' ' column table).map stringSpan := by
  rw [statedVersion?, firstField, ← findField_map]
  congr 1
  funext column value
  cases value with
  | nil => rfl
  | cons q body =>
      cases hquote : isQuote q with
      | false => simp [isStringStart, hquote]
      | true =>
          simp only [isStringStart, List.head?_cons, Option.any_some, hquote, if_true,
            Option.map_some, stringSpan, List.tail_cons]
          rfl

/-- A version that an inline table states is a string behind some text of the table. -/
theorem exists_field_of_statedVersion? {table : List Char} {column : Nat} {span : Span}
    (h : statedVersion? table column = some span) :
    ∃ opening quote body, table = opening ++ quote :: body ∧ isQuote quote = true ∧
      firstField "version".toList isStringStart ' ' 0 table = some (opening.length, quote :: body) ∧
      span = ⟨opening.length + column + 1,
        (body.takeWhile fun c => some c != some quote && c != '\n').length⟩ := by
  rw [statedVersion?_eq] at h
  obtain ⟨⟨start, string⟩, hfield, rfl⟩ := Option.map_eq_some_iff.mp h
  have hmoved := firstField_column "version".toList isStringStart ' ' 0 table column
  rw [Nat.zero_add, hfield] at hmoved
  obtain ⟨⟨found, string'⟩, hfound, hboth⟩ := Option.map_eq_some_iff.mp hmoved.symm
  obtain ⟨rfl, rfl⟩ := Prod.mk.inj hboth
  obtain ⟨-, hlength, opening, rfl⟩ := length_of_firstField (by decide) hfound
  have hopening : opening.length = found := by
    rw [List.length_append] at hlength
    omega
  have hstring := accepts_of_firstField hfound
  cases string' with
  | nil => cases hstring
  | cons quote body =>
      subst hopening
      exact ⟨opening, quote, body, rfl, hstring, hfound, rfl⟩

theorem statedExtras_eq (table : List Char) : statedExtras table
    = ((firstField "extras".toList isListStart ' ' 0 table).map fun found =>
        listedExtras found.2).getD [] := by
  rw [statedExtras, firstField, ← findField_map]
  congr 2
  funext column value
  cases value with
  | nil => rfl
  | cons c body =>
      by_cases hc : c = '['
      · subst hc
        rfl
      · simp [isListStart, hc]

theorem isBarrier_of_isQuote {key : List Char} {quote : Char} (hkey : key ≠ [])
    (hquote : isQuote quote = true) (hplain : ∀ c ∈ key, isQuote c = false) : IsBarrier key quote where
  key_ne_nil := hkey
  notMem := fun hmem => by
    have := hplain quote hmem
    rw [hquote] at this
    cases this
  visible := isBlank_of_isQuote hquote
  ne_equals := by
    rintro rfl
    revert hquote
    decide

theorem isBarrier_version {quote : Char} (hquote : isQuote quote = true) :
    IsBarrier "version".toList quote :=
  isBarrier_of_isQuote (by decide) hquote (by decide)

theorem isBarrier_extras {quote : Char} (hquote : isQuote quote = true) :
    IsBarrier "extras".toList quote :=
  isBarrier_of_isQuote (by decide) hquote (by decide)

theorem isListStart_of_isQuote {quote : Char} (hquote : isQuote quote = true) :
    isListStart (some quote) = false := by
  simp only [isQuote, Bool.or_eq_true, beq_iff_eq] at hquote
  rcases hquote with rfl | rfl <;> rfl

/-- **The extras behind an exchanged string.** The content of a string does not count for the extras,
unless they are listed in brackets that enclose it. -/
theorem statedExtras_exchange {front content other back lead : List Char} {quote : Char}
    (hquote : isQuote quote = true) (hcontent : '[' ∉ content) (hother : '[' ∉ other)
    (hback : back = [] ∨ ∃ more, back = quote :: more) (hlead : IsBlankRun lead)
    (hclosed : ∀ found, firstField "extras".toList isListStart ' ' 0 (front ++ quote :: lead) = some found →
      ']' ∈ found.2) :
    statedExtras (front ++ quote :: (other ++ back))
      = statedExtras (front ++ quote :: (content ++ back)) := by
  rw [statedExtras_eq, statedExtras_eq]
  rcases firstField_append isListStart ' ' 0
    (isBarrier_extras hquote) front with ⟨found, value, -, hvalue, -, hfound⟩ | hbehind
  · have hmem := hclosed _ (hfound lead)
    have hclose : ']' ∈ value := by
      simp only [List.mem_append, List.mem_cons] at hmem
      rcases hmem with hmem | hmem | hmem
      · exact hmem
      · exact absurd hmem.symm (ne_bracket_of_isQuote hquote).2
      · exact absurd hmem (hlead.notMem (by decide))
    obtain ⟨body, rfl⟩ : ∃ body, value = '[' :: body := by
      cases value with
      | nil => cases hclose
      | cons c body => exact ⟨body, by simpa [isListStart] using hvalue⟩
    have hbody : ∃ c ∈ body, (c != ']') = false := ⟨']', by simpa using hclose, by simp⟩
    rw [hfound, hfound]
    simp only [Option.map_some, listedExtras, List.cons_append, List.tail_cons,
      takeWhile_of_stop hbody]
  · -- The brackets, if any, open behind the string, where both tables are the same.
    have hskip : ∀ text : List Char, '[' ∉ text →
        (firstField "extras".toList isListStart quote (0 + front.length + 1) (text ++ back)).map
            (fun found => listedExtras found.2)
          = (firstField "extras".toList isListStart quote 0 (back.drop 1)).map
            fun found => listedExtras found.2 := by
      intro text htext
      have hplain : ∀ c ∈ text, isListStart (some c) = false := by
        intro c hc
        have hne : c ≠ '[' := by
          rintro rfl
          exact htext hc
        simpa [isListStart] using hne
      rcases hback with rfl | ⟨more, rfl⟩
      · rw [List.append_nil, firstField_eq_none hplain rfl]
        rfl
      · rw [firstField_skip _ _ _ (isBarrier_extras hquote) hplain (isListStart_of_isQuote hquote)]
        have := firstField_column "extras".toList isListStart quote 0 more
          (0 + front.length + 1 + text.length + 1)
        rw [Nat.zero_add] at this
        rw [this, Option.map_map]
        rfl
    rw [hbehind, hbehind, hskip other hother, hskip content hcontent]

end ManifestLens
