import ManifestLens.Editor.Card
import ManifestLens.Editor.Completion
import ManifestLens.Proofs.Editor.Cancellation
import ManifestLens.Proofs.Editor.Views
import ManifestLens.Proofs.Error.Result

/-!
# What can be shown of a package

An index may put values of any kind into the fields of a document, and the views pass them on. Most of what is
shown takes whatever is there, but some fields have to hold a text, or nothing at all. Where they do not, neither
a list of completions nor a card comes about.
-/

namespace ManifestLens

/-- The value is a text, unless it counts as none. -/
def Json.IsTextOrNothing (value : Json) : Prop := value.isTrue = true → ∃ s, value = .string s

/-- The fault is about a value of a wrong kind. -/
def Fault.IsMisfit (fault : Fault) : Prop := ∃ detail, fault = .wrongKind detail ∨ fault = .noPart detail

/-- There is a value just if a condition is met, and otherwise the failure is about a value of a wrong kind. -/
def Requires {α : Type} (result : Except Fault α) (fit : Prop) : Prop :=
  fit ∧ (∃ value, result = .ok value) ∨ ¬ fit ∧ ∃ fault, result = .error fault ∧ fault.IsMisfit

namespace Requires

variable {α β : Type} {result : Except Fault α} {fit other : Prop}

theorem ok {value : α} : Requires (.ok value) True := .inl ⟨trivial, value, rfl⟩

theorem congr (h : Requires result fit) (hiff : fit ↔ other) : Requires result other := propext hiff ▸ h

/-- What has a value in the end has one in every step. -/
theorem bind {f : α → Except Fault β} (h : Requires result fit) (hnext : ∀ value, Requires (f value) other) :
    Requires (result >>= f) (fit ∧ other) := by
  rcases h with ⟨hfit, value, rfl⟩ | ⟨hfit, fault, rfl, hmisfit⟩
  · exact (hnext value).congr (by simp [hfit])
  · exact .inr ⟨fun hboth => hfit hboth.1, fault, rfl, hmisfit⟩

theorem isMisfit {fault : Fault} (h : Requires result fit) (herror : result = .error fault) :
    fault.IsMisfit := by
  subst herror
  rcases h with ⟨-, value, ⟨⟩⟩ | ⟨-, other, ⟨⟩, hmisfit⟩
  exact hmisfit

/-- Every element of a list has to meet the condition. -/
theorem mapM {f : α → Except Fault β} {fits : α → Prop} (h : ∀ a, Requires (f a) (fits a)) (as : List α) :
    Requires (as.mapM f) (∀ a ∈ as, fits a) := by
  induction as with
  | nil => exact ok.congr (by simp)
  | cons a as ih =>
      rw [List.mapM_cons]
      exact ((h a).bind fun _ => ih.bind fun _ => ok).congr (by simp)

end Requires

/-! ### Completions -/

theorem Suggestion.requires_latestVersion (metadata : PackageOverview) :
    Requires (latestVersion? metadata) metadata.latest.IsTextOrNothing := by
  unfold latestVersion?
  split
  · next version hversion => exact Requires.ok.congr (by simp [Json.IsTextOrNothing, hversion])
  · next value hvalue =>
    split
    · next htrue =>
      refine .inr ⟨fun hfit => ?_, _, rfl, _, .inl rfl⟩
      obtain ⟨s, hs⟩ := hfit htrue
      exact hvalue s hs
    · next hfalse => exact Requires.ok.congr (by simp [Json.IsTextOrNothing, hfalse])

/-- **Completions** need a latest version that is a text or missing. -/
theorem Suggestion.requires_ofMetadata (metadata : PackageOverview) (site : CompletionSite) (line : Int) :
    Requires (ofMetadata metadata site line) metadata.latest.IsTextOrNothing :=
  ((requires_latestVersion metadata).bind fun _ => Requires.ok).congr (iff_of_eq (and_true _))

/-! ### Cards -/

namespace Card

/-- The fields of which a card needs more than that they can be displayed. -/
structure IsShowable (metadata : PackageOverview) (info : PackageProfile) : Prop where
  requiresPython : metadata.requiresPython.IsTextOrNothing
  /-- The license has a length. -/
  license : info.license.isTrue = true → info.license.elements?.isSome = true
  classifiers : ∀ classifier ∈ metadata.classifiers, ∃ s, classifier = .string s
  summary : metadata.summary.IsTextOrNothing

theorem requires_runsOn (metadata : PackageOverview) (python : List Char) :
    Requires (metadata.runsOn python) metadata.requiresPython.IsTextOrNothing := by
  unfold PackageOverview.runsOn
  split
  · next s hs => exact Requires.ok.congr (by simp [Json.IsTextOrNothing, hs])
  · next value hvalue =>
    split
    · next hfalse =>
      rw [Bool.not_eq_true'] at hfalse
      exact Requires.ok.congr (by simp [Json.IsTextOrNothing, hfalse])
    · next htrue =>
      rw [Bool.not_eq_true', Bool.not_eq_false] at htrue
      have hnot : ¬ metadata.requiresPython.IsTextOrNothing := fun hfit => (hfit htrue).elim hvalue
      split
      · exact .inr ⟨hnot, _, rfl, _, .inl rfl⟩
      · exact .inr ⟨hnot, _, rfl, _, .inr rfl⟩

theorem requires_facts (metadata : PackageOverview) (python : String) :
    Requires (facts metadata python) metadata.requiresPython.IsTextOrNothing := by
  unfold facts
  dsimp only
  split
  · exact ((requires_runsOn metadata _).bind fun _ => Requires.ok).congr (iff_of_eq (and_true _))
  · next hfalse => exact Requires.ok.congr (by simp [Json.IsTextOrNothing, hfalse])

theorem requires_licenseText (info : PackageProfile) :
    Requires (licenseText? info) (info.license.isTrue = true → info.license.elements?.isSome = true) := by
  unfold licenseText? lengthOf
  cases htrue : info.license.isTrue with
  | false => exact Requires.ok.congr (by simp)
  | true =>
      cases helements : info.license.elements? with
      | none => exact .inr ⟨by simp, _, rfl, _, .inl rfl⟩
      | some elements =>
          refine .inl ⟨by simp, ?_⟩
          change ∃ text, (if elements.length ≤ maxLicenseLength then .ok _ else .ok _) = Except.ok text
          split <;> exact ⟨_, rfl⟩

theorem requires_important (metadata : PackageOverview) :
    Requires (important metadata) (∀ classifier ∈ metadata.classifiers, ∃ s, classifier = .string s) := by
  unfold important
  refine ((Requires.mapM (fun classifier => ?_) _).bind fun _ => Requires.ok).congr (iff_of_eq (and_true _))
  cases classifier with
  | string s => exact Requires.ok.congr (by simp)
  | _ => exact .inr ⟨by simp, _, rfl, _, .inr rfl⟩

theorem isShowable_iff (metadata : PackageOverview) (info : PackageProfile) : IsShowable metadata info ↔
    metadata.requiresPython.IsTextOrNothing ∧ (info.license.isTrue = true → info.license.elements?.isSome = true) ∧
      (∀ classifier ∈ metadata.classifiers, ∃ s, classifier = .string s) ∧ metadata.summary.IsTextOrNothing := by
  constructor
  · exact fun h => ⟨h.requiresPython, h.license, h.classifiers, h.summary⟩
  · rintro ⟨hpython, hlicense, hclassifiers, hsummary⟩
    exact ⟨hpython, hlicense, hclassifiers, hsummary⟩

/-- **Cards** need texts where they join them, and a license that has a length. -/
theorem requires_render (metadata : PackageOverview) (releases : List Release) (info : PackageProfile)
    (python : String) : Requires (render metadata releases info python) (IsShowable metadata info) := by
  refine ((requires_facts metadata python).bind fun facts => (requires_licenseText info).bind fun license =>
    (requires_important metadata).bind fun important => ?_).congr (isShowable_iff metadata info).symm
  dsimp only
  split
  · next s hs => exact Requires.ok.congr (by simp [Json.IsTextOrNothing, hs])
  · next value hvalue =>
    split
    · next htrue => exact .inr ⟨fun hfit => (hfit htrue).elim hvalue, _, rfl, _, .inl rfl⟩
    · next hfalse => exact Requires.ok.congr (by simp [Json.IsTextOrNothing, hfalse])

end Card

end ManifestLens

/-!
## What requests end with

A lookup of a request may fail in any way: the failure is written to the log, and the request has nothing to show.
What is made of the views afterwards is not guarded. Completions and cards therefore come about just if the views
that the index has provided hold texts where texts are needed; otherwise the request ends with a failure about a value
of a wrong kind, and with no other. Quick actions always come about.
-/

namespace ManifestLens

def ServiceRun.logging (s : ServiceRun) (records : List LogRecord) : ServiceRun :=
  { s with state := { s.state with log := s.state.log ++ records } }

theorem ServiceRun.logging_nil (s : ServiceRun) : s.logging [] = s := by rw [logging, List.append_nil]

theorem ServiceRun.IsResting.logging {s : ServiceRun} (h : s.IsResting) (records : List LogRecord) :
    (s.logging records).IsResting := h.withState rfl

/-- The lookup of a request that has not been cancelled ends with a value, and the request has still not been
cancelled. -/
def ServiceRun.Finds {α : Type} (s : ServiceRun) (lookup : FallibleWork α) (value : α) : Prop :=
  s.state.isCancelled = false ∧
    ∃ found : ServiceRun, s.Ends Work.program lookup.run found (.ok value) ∧ found.state.isCancelled = false

namespace Work

variable {α β : Type} {s mid after : ServiceRun}

/-! ### Steps of a request -/

theorem ends_bind {x : FallibleWork α} {f : α → FallibleWork β} {value : α} {result : Except Fault β}
    (h : s.Ends program x.run mid (.ok value)) (hrest : mid.Ends program (f value).run after result) :
    s.Ends program (x >>= f).run after result := by
  rw [Process.run_bind]
  exact h.andThen hrest

theorem exists_ends_bind {x : FallibleWork α} {f : α → FallibleWork β} {value : α}
    (h : s.Ends program x.run mid (.ok value))
    (hrest : ∃ after found, mid.Ends program (f value).run after (.ok found)) :
    ∃ after found, s.Ends program (x >>= f).run after (.ok found) := by
  obtain ⟨after, found, hends⟩ := hrest
  exact ⟨after, found, ends_bind h hends⟩

theorem ends_lift {p : Work α} {value : α} (h : s.Ends program p mid value) :
    s.Ends program (ExceptT.lift p : FallibleWork α).run mid (.ok value) := by
  rw [Process.run_lift]
  exact h.andThen (Scheduler.ends_done _)

theorem ends_logAll (s : ServiceRun) (records : List LogRecord) :
    s.Ends program (logAll records) (s.logging records) () :=
  Scheduler.ends_change (Scheduler.ends_done _)

theorem ends_isCancelled (s : ServiceRun) : s.Ends program isCancelled s s.state.isCancelled :=
  Scheduler.ends_look (Scheduler.ends_done _)

theorem ends_pure (s : ServiceRun) (value : α) : s.Ends program (pure value : FallibleWork α).run s (.ok value) :=
  Scheduler.ends_done _

/-- **A guarded lookup** ends with the value, or with nothing if there is none or the request has been cancelled. -/
theorem exists_ends_guarded {lookup : FallibleWork α} {result : Except Fault α} (name : String)
    (h : s.Ends program lookup.run mid result) (hresult : result ≠ .error .cancelled) :
    ∃ records, s.Ends program (guarded name lookup).run (mid.logging records)
      (.ok (if mid.state.isCancelled then none else result.toOption)) := by
  unfold guarded
  cases result with
  | error fault =>
      refine ⟨[failureRecord name fault], h.andThen ?_⟩
      cases fault with
      | cancelled => exact absurd rfl hresult
      | _ =>
        simp only [ite_self, Except.toOption]
        exact (ends_logAll _ _).andThen (Scheduler.ends_done _)
  | ok value =>
      cases hcancelled : mid.state.isCancelled with
      | true =>
          refine ⟨[.of "providers" .debug ("Request for " ++ name ++ " cancelled")], h.andThen ?_⟩
          refine (ends_isCancelled mid).andThen ?_
          rw [hcancelled]
          exact (ends_logAll _ _).andThen (Scheduler.ends_done _)
      | false =>
          refine ⟨[], h.andThen ?_⟩
          refine (ends_isCancelled mid).andThen ?_
          rw [hcancelled, ServiceRun.logging_nil]
          exact Scheduler.ends_done _

/-! ### Requests for what is shown -/

/-- What is made of a value at once comes about just if the value meets the condition. -/
theorem exists_ends_mk_bind {result : Except Fault α} {fit : Prop} (h : Requires result fit) (s : ServiceRun)
    {f : α → FallibleWork β} (hf : ∀ value, ∃ after found, s.Ends program (f value).run after (.ok found)) :
    ∃ after outcome, s.Ends program (ExceptT.mk (pure result) >>= f).run after outcome ∧ Requires outcome fit := by
  rcases h with ⟨hfit, value, rfl⟩ | ⟨hnot, fault, rfl, hmisfit⟩
  · obtain ⟨after, found, hends⟩ := hf value
    exact ⟨after, .ok found, hends, .inl ⟨hfit, found, rfl⟩⟩
  · exact ⟨s, .error fault, Scheduler.ends_done _, .inr ⟨hnot, fault, rfl, hmisfit⟩⟩

theorem finds_iff_of_ends {lookup : FallibleWork α} {result : Except Fault α} {value : α}
    (h : s.Ends program lookup.run mid result) (hgoing : s.state.isCancelled = false) :
    s.Finds lookup value ↔ (if mid.state.isCancelled then none else result.toOption) = some value := by
  constructor
  · rintro ⟨-, found, hfound, hkept⟩
    obtain ⟨rfl, rfl⟩ := h.unique hfound
    rw [hkept]
    rfl
  · intro hfound
    cases hkept : mid.state.isCancelled with
    | true =>
        rw [hkept] at hfound
        cases hfound
    | false =>
        rw [hkept] at hfound
        cases result with
        | error fault => cases hfound
        | ok found =>
            obtain rfl : found = value := Option.some.inj hfound
            exact ⟨hgoing, mid, h, hkept⟩

/-- **A request that looks something up** and shows it, unless it is cancelled or the lookup fails. -/
theorem exists_ends_shown {lookup : FallibleWork α} {f : Option α → FallibleWork β} {nothing : β} {fits : α → Prop}
    (name : String)
    (hlookup : ∃ (mid : ServiceRun) (result : Except Fault α),
      s.Ends program lookup.run mid result ∧ result ≠ .error .cancelled)
    (hnothing : f none = pure nothing)
    (hshown : ∀ (mid : ServiceRun) value, ∃ after outcome,
      mid.Ends program (f (some value)).run after outcome ∧ Requires outcome (fits value)) :
    ∃ after outcome, s.Ends program (ExceptT.lift isCancelled >>= fun cancelled =>
        if cancelled then pure nothing else guarded name lookup >>= f).run after outcome ∧
      Requires outcome (∀ value, s.Finds lookup value → fits value) := by
  cases hcancelled : s.state.isCancelled with
  | true =>
      refine ⟨s, .ok nothing, ends_bind (ends_lift (ends_isCancelled s)) ?_,
        .inl ⟨fun value hfinds => ?_, nothing, rfl⟩⟩
      · rw [hcancelled]
        exact ends_pure s nothing
      · rw [hfinds.1] at hcancelled
        cases hcancelled
  | false =>
      obtain ⟨mid, result, hends, hne⟩ := hlookup
      obtain ⟨records, hguarded⟩ := exists_ends_guarded name hends hne
      have hrequest {after : ServiceRun} {outcome : Except Fault β}
          (hrest : (mid.logging records).Ends program
            (f (if mid.state.isCancelled then none else result.toOption)).run after outcome) :
          s.Ends program (ExceptT.lift isCancelled >>= fun cancelled =>
            if cancelled then pure nothing else guarded name lookup >>= f).run after outcome := by
        refine ends_bind (ends_lift (ends_isCancelled s)) ?_
        rw [hcancelled]
        exact ends_bind hguarded hrest
      cases hfound : (if mid.state.isCancelled then none else result.toOption) with
      | none =>
          rw [hfound, hnothing] at hrequest
          refine ⟨mid.logging records, .ok nothing, hrequest (ends_pure _ nothing), .inl ⟨fun value hfinds => ?_,
            nothing, rfl⟩⟩
          rw [finds_iff_of_ends hends hcancelled, hfound] at hfinds
          cases hfinds
      | some value =>
          rw [hfound] at hrequest
          obtain ⟨after, outcome, hrest, hrequires⟩ := hshown (mid.logging records) value
          refine ⟨after, outcome, hrequest hrest, hrequires.congr ⟨fun hfits other hfinds => ?_, fun hall => ?_⟩⟩
          · rw [finds_iff_of_ends hends hcancelled, hfound] at hfinds
            exact Option.some.inj hfinds ▸ hfits
          · exact hall value ((finds_iff_of_ends hends hcancelled).mpr hfound)

/-- A request that writes to the log first. -/
theorem exists_ends_request {records : List LogRecord} {lookup : FallibleWork α} {f : Option α → FallibleWork β}
    {nothing : β} {fit : Prop} {fits : α → Prop} (name : String)
    (hlookup : ∃ (mid : ServiceRun) (result : Except Fault α),
      (s.logging records).Ends program lookup.run mid result ∧ result ≠ .error .cancelled)
    (hfit : (∀ value, (s.logging records).Finds lookup value → fits value) ↔ fit)
    (hnothing : f none = pure nothing)
    (hshown : ∀ (mid : ServiceRun) value, ∃ after outcome,
      mid.Ends program (f (some value)).run after outcome ∧ Requires outcome (fits value)) :
    ∃ after outcome, s.Ends program (ExceptT.lift (logAll records) >>= fun _ =>
        ExceptT.lift isCancelled >>= fun cancelled =>
          if cancelled then pure nothing else guarded name lookup >>= f).run after outcome ∧
      Requires outcome fit := by
  obtain ⟨after, outcome, hends, hrequires⟩ := exists_ends_shown name hlookup hnothing hshown
  exact ⟨after, outcome, ends_bind (ends_lift (ends_logAll s records)) hends, hrequires.congr hfit⟩

section Requests

variable (buffer : Buffer) (position : Position) (line : Int) (includePre : Option Bool) (python : String)

theorem exists_ends_complete (h : s.IsResting) :
    ∃ after outcome, s.Ends program (complete buffer position includePre).run after outcome ∧
      Requires outcome (∀ site found, buffer.completionSite? position = some site →
        (s.logging (buffer.searchRecords position.line)).Finds
          (metadata (String.ofList site.dependency.name) includePre) found → found.latest.IsTextOrNothing) := by
  unfold complete
  cases hsite : buffer.completionSite? position with
  | none => exact ⟨_, _, ends_bind (ends_lift (ends_logAll s _)) (ends_pure _ _), .inl ⟨nofun, [], rfl⟩⟩
  | some site =>
      obtain ⟨mid, result, hends, -, hne⟩ := (h.logging (buffer.searchRecords position.line)).exists_ends_metadata
        (String.ofList site.dependency.name) includePre
      refine exists_ends_request _ ⟨mid, result, hends, hne⟩ ?_ rfl fun mid found =>
        exists_ends_mk_bind (Suggestion.requires_ofMetadata found site position.line) mid fun items =>
          ⟨_, items, ends_bind (ends_lift (ends_logAll mid [_])) (ends_pure _ _)⟩
      exact ⟨fun hall other found hother => Option.some.inj hother ▸ hall found, fun hall found => hall site found rfl⟩

theorem exists_ends_hover (h : s.IsResting) :
    ∃ after outcome, s.Ends program (hover buffer position python).run after outcome ∧
      Requires outcome (∀ dependency overview history profile,
        buffer.dependencyNamedAt? position = some dependency →
        (s.logging (buffer.searchRecords position.line)).Finds (views (String.ofList dependency.name))
          (overview, history, profile) → Card.IsShowable overview profile) := by
  unfold hover
  cases hdependency : buffer.dependencyNamedAt? position with
  | none => exact ⟨_, _, ends_bind (ends_lift (ends_logAll s _)) (ends_pure _ _), .inl ⟨nofun, none, rfl⟩⟩
  | some dependency =>
      have hviews := (h.logging (buffer.searchRecords position.line)).exists_ends_views
        (String.ofList dependency.name)
      refine exists_ends_request _ hviews ?_ rfl fun mid found =>
        exists_ends_mk_bind (Card.requires_render found.1 found.2.1 found.2.2 python) mid fun contents =>
          ⟨_, _, ends_pure _ _⟩
      exact ⟨fun hall other overview history profile hother => Option.some.inj hother ▸ hall _,
        fun hall found => hall dependency _ _ _ rfl⟩

end Requests

/-! ### Requests for quick actions -/

/-- **The search for quick actions** ends, with what has been found or because the request has been cancelled. -/
theorem exists_ends_actionsFor (h : s.IsResting) (found : List QuickAction) (dependencies : List Dependency) :
    ∃ after actions?, s.Ends program (actionsFor found dependencies).run after (.ok actions?) := by
  induction dependencies generalizing s found with
  | nil => exact ⟨s, some found, ends_pure s _⟩
  | cons dependency rest ih =>
      rw [actionsFor]
      refine exists_ends_bind (ends_lift (ends_isCancelled s)) ?_
      cases s.state.isCancelled with
      | true => exact ⟨s, none, ends_pure s none⟩
      | false =>
          obtain ⟨mid, result, hends, hmid, hne⟩ :=
            h.exists_ends_metadata (String.ofList dependency.name) (some false)
          obtain ⟨records, hguarded⟩ := exists_ends_guarded (String.ofList dependency.name) hends hne
          refine exists_ends_bind hguarded ?_
          cases (if mid.state.isCancelled then none else result.toOption) with
          | some metadata => exact ih (hmid.logging records) _
          | none =>
              refine exists_ends_bind (ends_lift (ends_isCancelled _)) ?_
              cases (mid.logging records).state.isCancelled with
              | true => exact ⟨_, none, ends_pure _ none⟩
              | false => exact ih (hmid.logging records) found

theorem exists_ends_actions (h : s.IsResting) (buffer : Buffer) (line : Int) :
    ∃ after found, s.Ends program (actions buffer line).run after (.ok found) := by
  refine exists_ends_bind (ends_lift (ends_logAll s (buffer.searchRecords line))) ?_
  obtain ⟨mid, actions?, hends⟩ :=
    exists_ends_actionsFor (h.logging (buffer.searchRecords line)) [] (buffer.dependenciesOn line)
  refine exists_ends_bind hends ?_
  cases actions? with
  | none => exact ⟨mid, [], ends_pure mid _⟩
  | some found => exact exists_ends_bind (ends_lift (ends_logAll mid [_])) ⟨_, found, ends_pure _ _⟩

/-! ### Requests in company -/

section Company

variable {world last : World} {fault : Fault}

theorem isMisfit_of_comesTo_mk_bind {result : Except Fault α} {fit : Prop} {f : α → FallibleWork β}
    (hrequires : Requires result fit)
    (hf : ∀ value mid outcome, (f value).run.ComesTo World.company world mid outcome → outcome ≠ .error fault)
    (h : (ExceptT.mk (pure result) >>= f).run.ComesTo World.company world last (.error fault)) :
    fault.IsMisfit := by
  rcases Process.comesTo_bind_iff.mp h with ⟨_, value, ⟨rfl, rfl⟩, hrest⟩ | ⟨other, ⟨rfl, rfl⟩, ⟨⟩⟩
  · exact absurd rfl (hf value last _ hrest)
  · exact hrequires.isMisfit rfl

variable {buffer : Buffer} {position : Position} {includePre : Option Bool} {python : String}

theorem isMisfit_of_comesTo_complete (hkinded : world.IsKinded)
    (h : (complete buffer position includePre).run.ComesTo World.company world last (.error fault)) :
    fault.IsMisfit := by
  unfold complete at h
  cases hsite : buffer.completionSite? position with
  | none =>
      rw [hsite] at h
      obtain ⟨begun, -, h⟩ := exists_of_comesTo_logAll h
      exact absurd h.2 nofun
  | some site =>
      rw [hsite] at h
      rcases exists_of_comesTo_request h
        (fun begun mid found hlogs hfound => (comesTo_metadata (hlogs.isKinded hkinded) hfound).2) rfl with
        ⟨⟨⟩⟩ | ⟨mid, found, -, hshown⟩
      refine isMisfit_of_comesTo_mk_bind (Suggestion.requires_ofMetadata found site position.line)
        (fun items mid outcome hitems => ?_) hshown
      obtain ⟨_, -, -, -, rfl⟩ := Process.comesTo_bind_lift_iff.mp hitems
      exact nofun

theorem isMisfit_of_comesTo_hover
    (h : (hover buffer position python).run.ComesTo World.company world last (.error fault)) :
    fault.IsMisfit := by
  unfold hover at h
  cases hdependency : buffer.dependencyNamedAt? position with
  | none =>
      rw [hdependency] at h
      obtain ⟨begun, -, h⟩ := exists_of_comesTo_logAll h
      exact absurd h.2 nofun
  | some dependency =>
      rw [hdependency] at h
      rcases exists_of_comesTo_request h (fun begun mid found _ => comesTo_views) rfl with
        ⟨⟨⟩⟩ | ⟨mid, found, -, hshown⟩
      refine isMisfit_of_comesTo_mk_bind (Card.requires_render found.1 found.2.1 found.2.2 python)
        (fun contents mid outcome hcontents => ?_) hshown
      obtain ⟨-, rfl⟩ := hcontents
      exact nofun

end Company

/-! ### All requests -/

/-- What the requests for a position or a line of a document end with. -/
structure RequestEnds (s : ServiceRun) (buffer : Buffer) (position : Position) (line : Int)
    (includePre : Option Bool) (python : String) : Prop where
  /-- With nobody else at work, completions come about just if the latest version that the lookup has found is a text
  or missing. -/
  completions : ∃ after outcome, s.Ends program (complete buffer position includePre).run after outcome ∧
    Requires outcome (∀ site found, buffer.completionSite? position = some site →
      (s.logging (buffer.searchRecords position.line)).Finds
        (metadata (String.ofList site.dependency.name) includePre) found → found.latest.IsTextOrNothing)
  /-- A hover comes about just if the views that the lookups have found can be put on a card. -/
  hover : ∃ after outcome, s.Ends program (hover buffer position python).run after outcome ∧
    Requires outcome (∀ dependency overview history profile,
      buffer.dependencyNamedAt? position = some dependency →
      (s.logging (buffer.searchRecords position.line)).Finds (views (String.ofList dependency.name))
        (overview, history, profile) → Card.IsShowable overview profile)
  /-- Quick actions come about. -/
  actions : ∃ after found, s.Ends program (actions buffer line).run after (.ok found)
  /-- Whatever others do meanwhile, and whenever the user cancels, completions and hovers fail only because of a value
  of a wrong kind, and quick actions do not fail. -/
  inCompany : ((complete buffer position includePre).run.Gives World.company
      (fun _ outcome => ∀ fault, outcome = .error fault → fault.IsMisfit) s.state) ∧
    ((Work.hover buffer position python).run.Gives World.company
      (fun _ outcome => ∀ fault, outcome = .error fault → fault.IsMisfit) s.state) ∧
    (Work.actions buffer line).run.Gives World.company (fun _ outcome => ∃ found, outcome = .ok found) s.state

/-- A request that has been seen to fail does so because of a value of a wrong kind. -/
theorem exists_ends_error {p : Work (Except Fault α)} {fit : Prop}
    (h : ∃ after outcome, s.Ends program p after outcome ∧ Requires outcome fit) (fuel : Nat)
    (hrun : ((s.run program fuel p).2.any fun outcome => !outcome.isOk) = true) :
    ∃ after fault, s.Ends program p after (.error fault) ∧ fault.IsMisfit := by
  obtain ⟨after, outcome, hends, hrequires⟩ := h
  obtain ⟨found, hfound, hfails⟩ := (Option.any_eq_true _ _).mp hrun
  obtain ⟨rfl, rfl⟩ := hends.unique (Scheduler.ends_of_run fuel (Prod.ext rfl hfound))
  cases outcome with
  | ok value => cases hfails
  | error fault => exact ⟨_, fault, hends, hrequires.isMisfit rfl⟩

end Work

end ManifestLens
