import ManifestLens.Manifest.Dialect.PoetryTable
import ManifestLens.Manifest.Table
import ManifestLens.Proofs.Manifest.Quoted
import ManifestLens.Proofs.Manifest.Requirement

/-!
# The written form of a table key

A `KeyForm` is the text `key =` cut into its parts. The key reader of Poetry tables accepts these texts
and nothing else, and the reader of array keys, which has to tell an array from an entry, agrees with it
on where the value starts.
-/

namespace ManifestLens

open Text

/-- The part of a line up to its value: a bare or quoted key and the equals sign. -/
structure KeyForm where
  indent : List Char
  /-- The quote around the key, if there is one. -/
  quote : Option Char
  name : List Char
  before : List Char
  after : List Char
  indent_blank : IsBlankRun indent
  bare_name : quote = none → IsWrittenName name
  quoted_name : ∀ q, quote = some q → isQuote q = true ∧ name ≠ [] ∧ q ∉ name
  before_blank : IsBlankRun before
  after_blank : IsBlankRun after

theorem TableKey.afterEquals?_text {before after value : List Char} (hbefore : IsBlankRun before)
    (hafter : IsBlankRun after) (hvalue : HeadNot isBlank value) :
    TableKey.afterEquals? (before ++ '=' :: (after ++ value))
      = some (before.length + 1 + after.length, value) := by
  have hequals : HeadNot isBlank ('=' :: (after ++ value)) := headNot_cons.mpr (by decide)
  rw [TableKey.afterEquals?, takeWhile_blank hbefore hequals]
  simp only [List.drop_left, takeWhile_blank hafter hvalue]

theorem exists_of_afterEquals? {text value : List Char} {length : Nat}
    (h : TableKey.afterEquals? text = some (length, value)) :
    ∃ before after, text = before ++ '=' :: (after ++ value) ∧ IsBlankRun before ∧
      IsBlankRun after ∧ HeadNot isBlank value ∧ length = before.length + 1 + after.length := by
  obtain ⟨before, rest, rfl, hbefore, -, htake, hdrop⟩ := exists_run isBlank text
  rw [TableKey.afterEquals?, htake] at h
  simp only [hdrop] at h
  split at h
  · next more =>
      obtain ⟨after, value', rfl, hafter, hvalue, htakeAfter, hdropAfter⟩ := exists_run isBlank more
      simp only [htakeAfter, hdropAfter, Option.some.injEq, Prod.mk.injEq] at h
      obtain ⟨hlength, rfl⟩ := h
      exact ⟨before, after, rfl, hbefore, hafter, hvalue, hlength.symm⟩
  · cases h

namespace KeyForm

def keyText (form : KeyForm) : List Char := form.quote.toList ++ form.name ++ form.quote.toList

/-- The written key with its equals sign. -/
def text (form : KeyForm) : List Char :=
  form.indent ++ form.keyText ++ form.before ++ '=' :: form.after

/-- What is read where a value follows. -/
def key (form : KeyForm) (value : List Char) : TableKey where
  name := form.name
  span := ⟨form.indent.length + form.quote.toList.length, form.name.length⟩
  isBare := form.quote.isNone
  valueColumn := form.text.length
  value := value

theorem headNot_isNameChar_before (form : KeyForm) (rest : List Char) :
    HeadNot Package.isNameChar (form.before ++ '=' :: rest) := by
  refine HeadNot.append ?_ fun _ => headNot_cons.mpr (by decide)
  intro c hc
  exact isNameChar_of_isBlank (form.before_blank c (List.mem_of_head? hc))

/-- The key starts with a quote or with a letter or digit. -/
theorem exists_first (form : KeyForm) : ∃ first rest, form.keyText = first :: rest ∧
    (isQuote first = true ∨ isAsciiAlnum first = true) := by
  cases hquote : form.quote with
  | none =>
      obtain ⟨first, rest, hname, hfirst⟩ := (form.bare_name hquote).head
      exact ⟨first, rest, by simp [keyText, hquote, hname], Or.inr hfirst⟩
  | some q =>
      exact ⟨q, form.name ++ [q], by simp [keyText, hquote], Or.inl (form.quoted_name q hquote).1⟩

theorem headNot_isBlank_keyText (form : KeyForm) (rest : List Char) :
    HeadNot isBlank (form.keyText ++ rest) := by
  obtain ⟨first, more, hkey, hfirst⟩ := form.exists_first
  rw [hkey]
  refine headNot_cons.mpr ?_
  rcases hfirst with h | h
  · exact isBlank_of_isQuote h
  · exact isBlank_of_isAsciiAlnum h

theorem isQuote_of_isAsciiAlnum {c : Char} (h : isAsciiAlnum c = true) : isQuote c = false := by
  have := isAsciiAlnum_bounds h
  simp only [isQuote, Bool.or_eq_false_iff, beq_eq_false_iff_ne, ne_eq]
  refine ⟨?_, ?_⟩ <;> rintro rfl <;> simp at this

theorem isCode_text (form : KeyForm) : IsCode form.text := by
  have hname : IsCode form.keyText := by
    cases hquote : form.quote with
    | none =>
        have hwritten := form.bare_name hquote
        have hplain : IsPlain form.name := by
          intro c hc
          refine ⟨isQuote_of_isNameChar (hwritten.all c hc), ?_⟩
          rintro rfl
          exact absurd (hwritten.all _ hc) (by decide)
        simpa [keyText, hquote] using IsCode.of_isPlain hplain
    | some q =>
        obtain ⟨hq, -, hmem⟩ := form.quoted_name q hquote
        simpa [keyText, hquote] using IsCode.of_quoted hq hmem
  exact (((IsCode.of_isBlankRun form.indent_blank).append hname).append
    (IsCode.of_isBlankRun form.before_blank)).append
      ((IsCode.of_isBlankRun form.after_blank).cons (by decide) (by decide))

theorem read?_text (form : KeyForm) {value : List Char} (hvalue : HeadNot isBlank value) :
    TableKey.read? (form.text ++ value) = some (form.key value) := by
  have htext : form.text ++ value
      = form.indent ++ (form.keyText ++ (form.before ++ '=' :: (form.after ++ value))) := by
    simp [text]
  have hequals := TableKey.afterEquals?_text form.before_blank form.after_blank hvalue
  rw [TableKey.read?, htext, takeWhile_blank form.indent_blank (form.headNot_isBlank_keyText _)]
  simp only [List.drop_left]
  cases hquote : form.quote with
  | some q =>
      obtain ⟨hq, hne, hmem⟩ := form.quoted_name q hquote
      have hname : ∀ c ∈ form.name, (c != q) = true := by
        intro c hc
        simp only [bne_iff_ne, ne_eq]
        rintro rfl
        exact hmem hc
      have htake : (form.name ++ q :: (form.before ++ '=' :: (form.after ++ value))).takeWhile
          (· != q) = form.name := takeWhile_run hname (headNot_cons.mpr (by simp))
      have hempty : form.name.isEmpty = false := by simpa using hne
      simp only [keyText, hquote, Option.toList_some, List.cons_append, List.nil_append,
        List.append_assoc, hq, if_true, htake, hempty, Bool.false_eq_true, if_false, List.drop_left,
        hequals, Option.map_some]
      simp [key, text, keyText, hquote]
      omega
  | none =>
      have hwritten := form.bare_name hquote
      obtain ⟨first, rest, hname, hfirst⟩ := hwritten.head
      have htake : (form.name ++ (form.before ++ '=' :: (form.after ++ value))).takeWhile
          Package.isNameChar = form.name :=
        takeWhile_run hwritten.all (form.headNot_isNameChar_before _)
      have hcons : form.name ++ (form.before ++ '=' :: (form.after ++ value))
          = first :: (rest ++ (form.before ++ '=' :: (form.after ++ value))) := by
        rw [hname]
        rfl
      simp only [keyText, hquote, Option.toList_none, List.nil_append, List.append_nil]
      rw [hcons]
      simp only [isQuote_of_isAsciiAlnum hfirst, hfirst, Bool.false_eq_true, if_false, if_true]
      rw [← hcons, htake, List.drop_left, hequals]
      simp [key, text, keyText, hquote]
      omega

end KeyForm

/-- Every key that is read is a written one. -/
theorem exists_keyForm {code : List Char} {found : TableKey} (h : TableKey.read? code = some found) :
    ∃ form : KeyForm, code = form.text ++ found.value ∧ found = form.key found.value ∧
      HeadNot isBlank found.value := by
  obtain ⟨indent, body, rfl, hindent, -, htake, hdrop⟩ := exists_run isBlank code
  rw [TableKey.read?, htake] at h
  simp only [hdrop] at h
  cases body with
  | nil => cases h
  | cons first rest =>
      simp only at h
      split at h
      · next hquote =>
          obtain ⟨name, more, rfl, hname, hmore, htakeName, hdropName⟩ := exists_run (· != first) rest
          simp only [htakeName, hdropName] at h
          split at h
          · cases h
          · next hne =>
              cases more with
              | nil => cases h
              | cons c tail =>
                  have hc : c = first := by simpa using headNot_cons.mp hmore
                  subst hc
                  obtain ⟨⟨length, value⟩, hequals, rfl⟩ := Option.map_eq_some_iff.mp h
                  obtain ⟨before, after, rfl, hbefore, hafter, hvalue, rfl⟩ :=
                    exists_of_afterEquals? hequals
                  have hmem : c ∉ name := fun hmem => by simpa using hname c hmem
                  refine ⟨⟨indent, some c, name, before, after, hindent, by simp, ?_, hbefore,
                    hafter⟩, ?_, ?_, hvalue⟩
                  · rintro q ⟨rfl⟩
                    exact ⟨hquote, by simpa using hne, hmem⟩
                  · simp [KeyForm.text, KeyForm.keyText]
                  · simp [KeyForm.key, KeyForm.text, KeyForm.keyText]
                    omega
      · split at h
        · next hfirst =>
            obtain ⟨name, tail, hname, hall, -, htakeName, hdropName⟩ :=
              exists_run Package.isNameChar (first :: rest)
            simp only [htakeName, hdropName] at h
            obtain ⟨⟨length, value⟩, hequals, rfl⟩ := Option.map_eq_some_iff.mp h
            obtain ⟨before, after, rfl, hbefore, hafter, hvalue, rfl⟩ :=
              exists_of_afterEquals? hequals
            have hwritten : IsWrittenName name := by
              refine ⟨?_, hall⟩
              cases name with
              | nil =>
                  have hnot : Package.isNameChar first = true := by
                    simp [Package.isNameChar, hfirst]
                  rw [List.takeWhile_cons_of_pos hnot] at htakeName
                  cases htakeName
              | cons c more =>
                  obtain ⟨rfl, -⟩ := List.cons.inj hname
                  exact ⟨first, more, rfl, hfirst⟩
            refine ⟨⟨indent, none, name, before, after, hindent, fun _ => hwritten, by simp, hbefore,
              hafter⟩, ?_, ?_, hvalue⟩
            · simp [KeyForm.text, KeyForm.keyText, hname]
            · simp [KeyForm.key, KeyForm.text, KeyForm.keyText]
              omega
        · cases h

end ManifestLens
