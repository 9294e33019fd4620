import ManifestLens.Constraint.Satisfaction
import ManifestLens.Proofs.Constraint.Operator
import ManifestLens.Proofs.Text.Lines
import ManifestLens.Proofs.Version.Release

/-!
# Compound constraints

A constraint is translated piece by piece. Every piece between two commas is written as one or two specifiers, and the
texts of all of them, joined by commas, are read again as one list. No text that is made of a piece is blank or holds
a comma, so every text is read as it was written, and a compound constraint stands for what its pieces stand for, one
after another.
-/

namespace ManifestLens

/-! ### Reading lists -/

section Lists

variable {α β γ : Type} {f : α → Option β}

theorem mapM_option_eq_none_iff {as : List α} : as.mapM f = none ↔ ∃ a ∈ as, f a = none := by
  induction as with
  | nil => simp
  | cons a rest ih =>
      rw [List.mapM_cons]
      cases ha : f a with
      | none => simp [ha]
      | some b => cases hrest : rest.mapM f <;> simp [ha, hrest, ← ih]

theorem mapM_option_congr {g : α → Option β} {as : List α} (h : ∀ a ∈ as, f a = g a) : as.mapM f = as.mapM g := by
  induction as with
  | nil => rfl
  | cons a rest ih =>
      obtain ⟨ha, hrest⟩ := List.forall_mem_cons.mp h
      rw [List.mapM_cons, List.mapM_cons, ha, ih hrest]

theorem exists_of_mem_mapM_option {as : List α} {bs : List β} (h : as.mapM f = some bs) {b : β} (hb : b ∈ bs) :
    ∃ a ∈ as, f a = some b := by
  induction as generalizing bs with
  | nil =>
      cases h
      cases hb
  | cons a rest ih =>
      simp only [List.mapM_cons, Option.bind_eq_bind, Option.bind_eq_some_iff, Option.pure_def, Option.some.injEq] at h
      obtain ⟨first, hfirst, others, hothers, rfl⟩ := h
      rcases List.mem_cons.mp hb with rfl | hb
      · exact ⟨a, by simp, hfirst⟩
      · obtain ⟨a', ha', hb'⟩ := ih hothers hb
        exact ⟨a', List.mem_cons_of_mem a ha', hb'⟩

theorem mapM_flatten_option (f : α → Option (List β)) (g : β → Option γ) (as : List α) :
    (as.mapM f).bind (fun lists => lists.flatten.mapM g)
      = (as.mapM fun a => (f a).bind fun list => list.mapM g).map List.flatten := by
  induction as with
  | nil => rfl
  | cons a rest ih =>
      rw [List.mapM_cons, List.mapM_cons]
      cases f a with
      | none => rfl
      | some list =>
          cases hrest : rest.mapM f with
          | none =>
              rw [hrest, Option.bind_none, eq_comm, Option.map_eq_none_iff] at ih
              cases hlist : list.mapM g <;> simp [hlist, ih]
          | some lists =>
              rw [hrest, Option.bind_some] at ih
              simp only [Option.bind_eq_bind, Option.bind_some, Option.pure_def, List.flatten_cons, List.mapM_append,
                ih]
              cases list.mapM g with
              | none => rfl
              | some found => cases rest.mapM fun a => (f a).bind fun list => list.mapM g <;> rfl

theorem forall_mem_flatten_mapM_iff {f : α → Option (List β)} {P : β → Prop} {as : List α} :
    (∃ bs, (as.mapM f).map List.flatten = some bs ∧ ∀ b ∈ bs, P b) ↔ ∀ a ∈ as, ∃ bs, f a = some bs ∧ ∀ b ∈ bs, P b := by
  induction as with
  | nil => simp
  | cons a rest ih =>
      rw [List.forall_mem_cons, ← ih, List.mapM_cons]
      cases f a with
      | none => simp
      | some first => cases rest.mapM f <;> simp [or_imp, forall_and]

end Lists

theorem infix_of_joinWith {separator : Char} {word : List Char} (hword : separator ∉ word)
    {pieces : List (List Char)} (hne : pieces ≠ []) (h : word <:+: Text.joinWith [separator] pieces) :
    ∃ piece ∈ pieces, word <:+: piece := by
  induction pieces with
  | nil => exact absurd rfl hne
  | cons piece rest ih =>
      by_cases hrest : rest = []
      · subst hrest
        exact ⟨piece, by simp, h⟩
      · rw [Text.joinWith_cons hrest, List.append_assoc, List.singleton_append] at h
        rcases Text.infix_of_append_cons hword h with h | h
        · exact ⟨piece, by simp, h⟩
        · obtain ⟨other, hother, h⟩ := ih hrest h
          exact ⟨other, List.mem_cons_of_mem piece hother, h⟩

namespace Specifier

/-- A text that is found again in a list between commas. -/
def IsItem (text : List Char) : Prop := ',' ∉ text ∧ Text.trim text ≠ []

theorem isItem_relation (relation : Relation) {version : List Char} (h : ',' ∉ version) :
    IsItem (relation.text ++ version) := by
  have hrelation (c : Char) (hc : c ∈ relation.text) : Text.isBlank c = false ∧ c ≠ ',' := by
    have hmem := @Operator.mem_text (.standard relation) c hc
    exact ⟨hmem.1, hmem.2.1⟩
  constructor
  · rw [List.mem_append, not_or]
    exact ⟨fun hc => (hrelation _ hc).2 rfl, h⟩
  · obtain ⟨c, rest, htext⟩ := List.exists_cons_of_ne_nil (Operator.text_ne_nil (.standard relation))
    have hc : c ∈ relation.text := by
      change c ∈ (Operator.standard relation).text
      simp [htext]
    exact List.ne_nil_of_mem (Text.mem_trim (hrelation c hc).1 (List.mem_append_left _ hc))

theorem parseList?_joinWith {texts : List (List Char)} (h : ∀ text ∈ texts, IsItem text) :
    parseList? (Text.joinWith [','] texts) = texts.mapM parse? := by
  by_cases hne : texts = []
  · subst hne
    rfl
  · have hkept : texts.filter (fun piece => !(Text.trim piece).isEmpty) = texts := by
      apply List.filter_eq_self.mpr
      intro text htext
      simp [(h text htext).2]
    rw [parseList?, Text.splitOn_joinWith hne fun text htext => (h text htext).1, hkept]

end Specifier

namespace Constraint

open Specifier (IsItem isItem_relation)

/-! ### Pieces -/

theorem notMem_releaseText (numbers : List Nat) : ',' ∉ Version.releaseText numbers := by
  cases numbers with
  | nil => decide
  | cons major minors =>
      intro hmem
      rcases Version.isPlainChar_of_mem_releaseText hmem with hdigit | hdot
      · exact absurd hdigit (by decide)
      · exact absurd hdot (by decide)

theorem notMem_tildeBound (version : List Char) : ',' ∉ tildeBound version := by
  unfold tildeBound
  split
  · exact notMem_releaseText _
  · exact notMem_releaseText _
  · exact List.not_mem_nil

theorem isItem_of_pieceTexts? {piece : List Char} {texts : List (List Char)} (hpiece : ',' ∉ piece)
    (h : pieceTexts? piece = some texts) : ∀ text ∈ texts, IsItem text := by
  have hversion : ',' ∉ (operatorAndVersion piece).2 := by
    intro hmem
    exact hpiece (Text.mem_of_mem_trim (List.mem_of_mem_drop (Text.mem_of_mem_trim hmem)))
  simp only [pieceTexts?] at h
  split at h
  · cases h
  · obtain rfl := Option.some.inj h
    intro text htext
    split at htext
    · rcases List.mem_cons.mp htext with rfl | htext
      · exact isItem_relation .atLeast hversion
      · rw [List.mem_singleton.mp htext]
        exact isItem_relation .below (notMem_releaseText _)
    · rcases List.mem_cons.mp htext with rfl | htext
      · exact isItem_relation .atLeast hversion
      · rw [List.mem_singleton.mp htext]
        exact isItem_relation .below (notMem_tildeBound _)
    · rw [List.mem_singleton.mp htext]
      exact isItem_relation _ hversion
    · rw [List.mem_singleton.mp htext]
      exact isItem_relation .equal hversion

theorem pieceTexts?_trim (piece : List Char) : pieceTexts? (Text.trim piece) = pieceTexts? piece := by
  have hpair : operatorAndVersion (Text.trim piece) = operatorAndVersion piece := by
    rw [operatorAndVersion, operatorAndVersion, Text.trim_trim]
  rw [pieceTexts?, pieceTexts?, hpair]

def pieceSpecifiers? (piece : List Char) : Option (List Specifier) :=
  (pieceTexts? piece).bind fun texts => texts.mapM Specifier.parse?

theorem specifiers?_eq_pieces {constraint : List Char} (hvisible : Text.trim constraint ≠ [])
    (hstar : Text.trim constraint ≠ ['*']) (hbars : ¬ Text.hasInfix ['|', '|'] (Text.trim constraint) = true) :
    specifiers? constraint = ((Text.splitOn ',' constraint).mapM pieceSpecifiers?).map List.flatten := by
  have hspecial : ¬ ((Text.trim constraint).isEmpty || Text.trim constraint == ['*']) = true := by
    simp [hvisible, hstar]
  have htrim : (Text.splitOn ',' (Text.trim constraint)).mapM pieceTexts?
      = (Text.splitOn ',' constraint).mapM pieceTexts? := by
    have hfunction : pieceTexts? ∘ Text.trim = pieceTexts? := funext pieceTexts?_trim
    rw [← hfunction, ← List.mapM_map, ← List.mapM_map, Text.map_trim_splitOn (by decide)]
  have hread (texts : List (List (List Char))) (h : (Text.splitOn ',' constraint).mapM pieceTexts? = some texts) :
      Specifier.parseList? (Text.joinWith [','] texts.flatten) = texts.flatten.mapM Specifier.parse? := by
    apply Specifier.parseList?_joinWith
    intro text htext
    obtain ⟨list, hlist, htext⟩ := List.mem_flatten.mp htext
    obtain ⟨piece, hpiece, hlist⟩ := exists_of_mem_mapM_option h hlist
    exact isItem_of_pieceTexts? (Text.notMem_of_mem_splitOn hpiece) hlist text htext
  calc specifiers? constraint
      = ((Text.splitOn ',' constraint).mapM pieceTexts?).bind fun texts =>
          Specifier.parseList? (Text.joinWith [','] texts.flatten) := by
        rw [← htrim, specifiers?]
        simp only [if_neg hspecial, if_neg hbars]
        rfl
    _ = ((Text.splitOn ',' constraint).mapM pieceTexts?).bind fun texts =>
          texts.flatten.mapM Specifier.parse? := by
        cases hpieces : (Text.splitOn ',' constraint).mapM pieceTexts? with
        | none => rfl
        | some texts => exact hread texts hpieces
    _ = ((Text.splitOn ',' constraint).mapM pieceSpecifiers?).map List.flatten :=
        mapM_flatten_option pieceTexts? Specifier.parse? _

/-! ### Constraints between commas -/

/-- A constraint of one piece, which neither allows everything nor offers alternatives. -/
structure IsSingle (constraint : List Char) : Prop where
  comma : ',' ∉ constraint
  bars : ¬ Text.hasInfix ['|', '|'] constraint = true
  visible : Text.trim constraint ≠ []
  star : Text.trim constraint ≠ ['*']

theorem hasInfix_of_trim {word text : List Char} (h : Text.hasInfix word (Text.trim text) = true) :
    Text.hasInfix word text = true := by
  rw [Text.hasInfix_iff] at h ⊢
  obtain ⟨lead, trail, htext, -⟩ := Text.exists_margins text
  exact h.trans ⟨lead, trail, htext.symm⟩

theorem IsSingle.specifiers?_eq {constraint : List Char} (h : IsSingle constraint) :
    specifiers? constraint = pieceSpecifiers? constraint := by
  rw [specifiers?_eq_pieces h.visible h.star (mt hasInfix_of_trim h.bars), Text.splitOn_of_notMem h.comma]
  cases hpiece : pieceSpecifiers? constraint <;> simp [List.mapM_cons, hpiece]

variable {constraints : List (List Char)}

section Joined

variable (hne : constraints ≠ []) (h : ∀ constraint ∈ constraints, IsSingle constraint)

include hne h

theorem trim_joinWith_ne_nil : Text.trim (Text.joinWith [','] constraints) ≠ [] := by
  obtain ⟨first, rest, rfl⟩ := List.exists_cons_of_ne_nil hne
  obtain ⟨c, more, hfirst⟩ := List.exists_cons_of_ne_nil (h first (by simp)).visible
  have hblank : Text.isBlank c = false := by
    obtain ⟨-, -, -, -, -, htrimmed, -, -⟩ := Text.exists_margins first
    exact htrimmed.head c (by simp [hfirst])
  have hc : c ∈ first := Text.mem_of_mem_trim (by simp [hfirst])
  have hwithin : first <:+: Text.joinWith [','] (first :: rest) := Text.infix_of_mem_joinWith (by simp)
  exact List.ne_nil_of_mem (Text.mem_trim hblank (hwithin.subset hc))

theorem trim_joinWith_ne_star : Text.trim (Text.joinWith [','] constraints) ≠ ['*'] := by
  obtain ⟨first, rest, rfl⟩ := List.exists_cons_of_ne_nil hne
  by_cases hrest : rest = []
  · subst hrest
    exact (h first (by simp)).star
  · intro hstar
    have hcomma : ',' ∈ Text.trim (Text.joinWith [','] (first :: rest)) := by
      apply Text.mem_trim (by decide)
      rw [Text.joinWith_cons hrest]
      simp
    rw [hstar] at hcomma
    exact absurd hcomma (by decide)

theorem not_hasInfix_joinWith : ¬ Text.hasInfix ['|', '|'] (Text.trim (Text.joinWith [','] constraints)) = true := by
  intro hbars
  have hbars := (Text.hasInfix_iff _ _).mp (hasInfix_of_trim hbars)
  obtain ⟨constraint, hconstraint, hbars⟩ := infix_of_joinWith (by decide) hne hbars
  exact (h constraint hconstraint).bars ((Text.hasInfix_iff _ _).mpr hbars)

theorem specifiers?_joinWith : specifiers? (Text.joinWith [','] constraints)
    = (constraints.mapM specifiers?).map List.flatten := by
  have hparts : constraints.mapM pieceSpecifiers? = constraints.mapM specifiers? :=
    mapM_option_congr fun constraint hconstraint => (h constraint hconstraint).specifiers?_eq.symm
  rw [specifiers?_eq_pieces (trim_joinWith_ne_nil hne h) (trim_joinWith_ne_star hne h) (not_hasInfix_joinWith hne h),
    Text.splitOn_joinWith hne fun constraint hconstraint => (h constraint hconstraint).comma, hparts]

end Joined

theorem satisfies_iff {version constraint : List Char} : satisfies version constraint = true ↔
    ∃ specifiers, specifiers? constraint = some specifiers ∧
      ∀ specifier ∈ specifiers, specifier.contains version = true := by
  unfold satisfies
  cases specifiers? constraint <;> simp

instance (constraint : List Char) : Decidable (IsSingle constraint) :=
  decidable_of_iff (',' ∉ constraint ∧ ¬ Text.hasInfix ['|', '|'] constraint = true ∧ Text.trim constraint ≠ [] ∧
      Text.trim constraint ≠ ['*'])
    ⟨fun ⟨comma, bars, visible, star⟩ => ⟨comma, bars, visible, star⟩, fun ⟨comma, bars, visible, star⟩ =>
      ⟨comma, bars, visible, star⟩⟩

end Constraint

end ManifestLens
