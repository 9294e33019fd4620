import ManifestLens.Editor.Request
import ManifestLens.Proofs.Schedule.Process
import ManifestLens.Proofs.Service.Company

/-!
# The parts of a request

A request writes to the log, looks packages up and makes something of what it has found. The three views that a
hover needs are looked up at once.
-/

namespace ManifestLens

/-- The worlds differ in nothing but what the log says since then. -/
def World.Logs (before after : World) : Prop :=
  ∃ records, after = { before with log := before.log ++ records }

namespace World.Logs

variable {a b c : World}

theorem refl (world : World) : world.Logs world := ⟨[], by simp⟩

theorem trans (hab : a.Logs b) (hbc : b.Logs c) : a.Logs c := by
  obtain ⟨records, rfl⟩ := hab
  obtain ⟨more, rfl⟩ := hbc
  exact ⟨records ++ more, by simp⟩

theorem logged (world : World) (record : LogRecord) : world.Logs (world.logged record) := ⟨[record], rfl⟩

theorem isCancelled (h : a.Logs b) : b.isCancelled = a.isCancelled := by
  obtain ⟨records, rfl⟩ := h
  rfl

end World.Logs

namespace Work

/-- What three lookups that have been waited for tell. -/
def viewsOf : GroupResult Outcome → Except Fault (PackageOverview × List Release × PackageProfile)
  | .all [.finished (.ok (.metadata metadata)), .finished (.ok (.releases releases)),
      .finished (.ok (.info info))] => .ok (metadata, releases, info)
  | .failed (.finished (.error fault)) => .error fault
  | _ => .error .cancelled

theorem viewsOf_eq_cancelled {results : GroupResult Outcome}
    (hall : ∀ metadata releases info, results ≠ .all [.finished (.ok (.metadata metadata)),
      .finished (.ok (.releases releases)), .finished (.ok (.info info))])
    (hfailed : ∀ fault, results ≠ .failed (.finished (.error fault))) : viewsOf results = .error .cancelled := by
  unfold viewsOf
  split
  · exact absurd rfl (hall _ _ _)
  · exact absurd rfl (hfailed _)
  · rfl

theorem views_run (name : String) : (views name).run =
    .spawn (.lookup (.metadata true) name) fun first => .spawn (.lookup (.releases true) name) fun second =>
      .spawn (.lookup .info name) fun third => .joinAll [first, second, third] true fun results =>
        .done (viewsOf results) := by
  unfold views
  rw [Process.run_bind]
  change (.spawn _ _ : Work _) = _
  congr 1
  funext first
  change (.spawn _ _ : Work _) = _
  congr 1
  funext second
  change (.spawn _ _ : Work _) = _
  congr 1
  funext third
  change (.joinAll _ _ _ : Work _) = _
  congr 1
  funext results
  simp only [Process.done_andThen, Function.comp_apply, ExceptT.bindCont]
  split
  · rfl
  · rfl
  · next hall hfailed =>
    rw [viewsOf_eq_cancelled hall hfailed]
    rfl

end Work

end ManifestLens

/-!
## Cancelled requests

A user may cancel a request at any time: before it begins, while it waits for a lookup, or so late that the lookup
ends at the same moment. Whenever it happens, and whatever the lookups end with, a request that is cancelled when
its last wait is over delivers nothing, although quick actions collect what they offer over many waits. No
dependency is looked up after the cancellation.
-/

namespace ManifestLens

theorem World.Logs.isKinded {before after : World} (h : before.Logs after) (hkinded : before.IsKinded) :
    after.IsKinded := by
  obtain ⟨records, rfl⟩ := h
  exact hkinded

namespace Work

variable {world after : World} {name : String}

theorem comesTo_views {result : Except Fault (PackageOverview × List Release × PackageProfile)}
    (h : (views name).run.ComesTo World.company world after result) : result ≠ .error .cancelled := by
  rw [views_run] at h
  obtain ⟨-, -, -, results, later, hresults, -, -, rfl⟩ := h
  unfold viewsOf
  change World.AreLookedUp results at hresults
  unfold World.AreLookedUp at hresults
  split at hresults
  · rintro ⟨⟩
  · exact fun h => hresults (Except.error.inj h)
  · exact hresults.elim

/-! ### One lookup of a request -/

theorem comesTo_isCancelled_bind_iff {α : Type} {f : Bool → Work α} {found : α} :
    (isCancelled >>= f).ComesTo World.company world after found ↔
      (f world.isCancelled).ComesTo World.company world after found :=
  ⟨fun ⟨_, h⟩ => h, fun h => ⟨⟨.finite 0, 0⟩, h⟩⟩

theorem comesTo_lift_isCancelled_bind_iff {α : Type} {f : Bool → FallibleWork α} {result : Except Fault α} :
    (ExceptT.lift isCancelled >>= f).run.ComesTo World.company world after result ↔
      (f world.isCancelled).run.ComesTo World.company world after result := by
  rw [Process.run_bind, Process.run_lift, Process.andThen_assoc]
  exact comesTo_isCancelled_bind_iff

section Guarded

variable {α : Type} {lookup : FallibleWork α} {result : Except Fault (Option α)}

/-- **A guarded lookup** that is not given up itself ends with a value only if the request has not been cancelled
by then. -/
theorem comesTo_guarded (h : (guarded name lookup).run.ComesTo World.company world after result) :
    ∃ mid found, lookup.run.ComesTo World.company world mid found ∧ mid.Logs after ∧
      (found ≠ .error .cancelled →
        result = .ok (if mid.isCancelled then none else found.toOption)) := by
  unfold guarded at h
  obtain ⟨mid, found, hlookup, h⟩ := Process.comesTo_andThen_iff.mp h
  refine ⟨mid, found, hlookup, ?_⟩
  split at h
  · obtain ⟨rfl, rfl⟩ := h
    exact ⟨.refl _, fun hcancelled => absurd rfl hcancelled⟩
  · next fault _ =>
    obtain ⟨rfl, rfl⟩ := h
    refine ⟨.logged mid _, fun _ => ?_⟩
    cases mid.isCancelled <;> rfl
  · next value =>
    rw [comesTo_isCancelled_bind_iff] at h
    cases hcancelled : mid.isCancelled with
    | true =>
        rw [hcancelled] at h
        obtain ⟨rfl, rfl⟩ := h
        exact ⟨.logged mid _, fun _ => rfl⟩
    | false =>
        rw [hcancelled] at h
        obtain ⟨rfl, rfl⟩ := h
        exact ⟨.refl _, fun _ => rfl⟩

/-- What a guarded lookup that is not given up yields is nothing once the request has been cancelled. -/
theorem exists_of_comesTo_guarded (hlookup : ∀ mid found,
      lookup.run.ComesTo World.company world mid found → found ≠ .error .cancelled)
    (h : (guarded name lookup).run.ComesTo World.company world after result) :
    result = .ok none ∨ ∃ value, result = .ok (some value) ∧ after.isCancelled = false := by
  obtain ⟨mid, found, hfound, hlogs, hresult⟩ := comesTo_guarded h
  rw [hresult (hlookup mid found hfound), hlogs.isCancelled]
  cases hcancelled : mid.isCancelled with
  | true => exact .inl rfl
  | false =>
      cases found with
      | error fault => exact .inl rfl
      | ok value => exact .inr ⟨value, rfl, rfl⟩

end Guarded

/-- What follows some records in the log. -/
theorem exists_of_comesTo_logAll {α : Type} {records : List LogRecord} {f : Unit → FallibleWork α}
    {result : Except Fault α}
    (h : (ExceptT.lift (logAll records) >>= f).run.ComesTo World.company world after result) :
    ∃ begun, world.Logs begun ∧ (f ()).run.ComesTo World.company begun after result := by
  obtain ⟨begun, ⟨⟩, hlog, h⟩ := Process.comesTo_bind_lift_iff.mp h
  exact ⟨begun, ⟨records, Process.comesTo_modify_iff.mp hlog⟩, h⟩

/-! ### Requests for what is shown -/

/-- **A request that looks something up and shows it** ends with nothing, or it shows a value that was there while it
had not been cancelled. -/
theorem exists_of_comesTo_request {α β : Type} {records : List LogRecord} {lookup : FallibleWork α}
    {f : Option α → FallibleWork β} {nothing : β} {outcome : Except Fault β}
    (h : (ExceptT.lift (logAll records) >>= fun _ => ExceptT.lift isCancelled >>= fun cancelled =>
      if cancelled then pure nothing else guarded name lookup >>= f).run.ComesTo World.company world after outcome)
    (hlookup : ∀ begun mid found, world.Logs begun → lookup.run.ComesTo World.company begun mid found →
      found ≠ .error .cancelled)
    (hnothing : f none = pure nothing) :
    outcome = .ok nothing ∨ ∃ (mid : World) (value : α), mid.isCancelled = false ∧
      (f (some value)).run.ComesTo World.company mid after outcome := by
  obtain ⟨begun, hlogs, h⟩ := exists_of_comesTo_logAll h
  have hfound {mid : World} {found? : Except Fault (Option α)}
      (hguarded : (guarded name lookup).run.ComesTo World.company begun mid found?) :
      found? = .ok none ∨ ∃ value, found? = .ok (some value) ∧ mid.isCancelled = false :=
    exists_of_comesTo_guarded (fun mid found => hlookup begun mid found hlogs) hguarded
  rw [comesTo_lift_isCancelled_bind_iff] at h
  split at h
  · exact .inl h.2
  · rcases Process.comesTo_bind_iff.mp h with ⟨mid, found?, hguarded, hrest⟩ | ⟨fault, hguarded, -⟩
    · rcases hfound hguarded with ⟨⟨⟩⟩ | ⟨value, ⟨⟨⟩⟩, hgoing⟩
      · rw [hnothing] at hrest
        exact .inl hrest.2
      · exact .inr ⟨mid, value, hgoing, hrest⟩
    · rcases hfound hguarded with ⟨⟨⟩⟩ | ⟨value, ⟨⟨⟩⟩, -⟩

variable {buffer : Buffer} {position : Position} {line : Int} {includePre : Option Bool} {python : String}

theorem complete_of_isCancelled (hkinded : world.IsKinded) {outcome : Except Fault (List Suggestion)}
    (h : (complete buffer position includePre).run.ComesTo World.company world after outcome)
    (hcancelled : after.isCancelled = true) : outcome = .ok [] := by
  unfold complete at h
  cases hsite : buffer.completionSite? position with
  | none =>
      rw [hsite] at h
      obtain ⟨begun, -, h⟩ := exists_of_comesTo_logAll h
      exact h.2
  | some site =>
      rw [hsite] at h
      rcases exists_of_comesTo_request h
        (fun begun mid found hlogs hfound => (comesTo_metadata (hlogs.isKinded hkinded) hfound).2) rfl with
        hnothing | ⟨mid, metadata, hgoing, hshown⟩
      · exact hnothing
      · -- What is made of the metadata is made at once, so nobody has cancelled since.
        have hlogs : mid.Logs after := by
          rcases Process.comesTo_bind_iff.mp hshown with ⟨_, items, ⟨rfl, -⟩, hrest⟩ | ⟨fault, ⟨rfl, -⟩, -⟩
          · obtain ⟨_, -, ⟨rfl, -⟩, rfl, -⟩ := Process.comesTo_bind_lift_iff.mp hrest
            exact .logged _ _
          · exact .refl _
        rw [hlogs.isCancelled, hgoing] at hcancelled
        cases hcancelled

theorem hover_of_isCancelled {outcome : Except Fault (Option Hover)}
    (h : (hover buffer position python).run.ComesTo World.company world after outcome)
    (hcancelled : after.isCancelled = true) : outcome = .ok none := by
  unfold hover at h
  cases hdependency : buffer.dependencyNamedAt? position with
  | none =>
      rw [hdependency] at h
      obtain ⟨begun, -, h⟩ := exists_of_comesTo_logAll h
      exact h.2
  | some dependency =>
      rw [hdependency] at h
      rcases exists_of_comesTo_request h (fun begun mid found _ => comesTo_views) rfl with
        hnothing | ⟨mid, found, hgoing, hshown⟩
      · exact hnothing
      · have hlast : after = mid := by
          rcases Process.comesTo_bind_iff.mp hshown with ⟨_, contents, ⟨rfl, -⟩, hrest⟩ | ⟨fault, ⟨rfl, -⟩, -⟩
          · exact hrest.1
          · rfl
        rw [hlast, hgoing] at hcancelled
        cases hcancelled

/-! ### The visits of a search for quick actions -/

/-- A dependency is looked up: the world in which the lookup begins, the one in which its result is there, and
the result. -/
structure Visit where
  dependency : Dependency
  before : World
  after : World
  result : Except Fault PackageOverview

namespace Visit

/-- The visit is a lookup of its dependency that begins while the request is not cancelled. -/
structure IsMade (visit : Visit) : Prop where
  going : visit.before.isCancelled = false
  lookup : (metadata (String.ofList visit.dependency.name) (some false)).run.ComesTo World.company visit.before
    visit.after visit.result

def actions (visit : Visit) : List QuickAction :=
  match visit.result with
  | .ok metadata => QuickAction.ofMetadata visit.dependency metadata
  | .error _ => []

end Visit

/-- From one world to another there is nothing but visits one after another, and records in the log. -/
def Visits (world : World) : List Visit → World → Prop
  | [], after => world.Logs after
  | visit :: rest, after => world.Logs visit.before ∧ visit.IsMade ∧ Visits visit.after rest after

theorem Visits.of_logs {begun : World} {visits : List Visit} (hlogs : world.Logs begun)
    (h : Visits begun visits after) : Visits world visits after := by
  cases visits with
  | nil => exact hlogs.trans h
  | cons visit rest => exact ⟨hlogs.trans h.1, h.2⟩

theorem Visits.logs {last : World} {visits : List Visit} (h : Visits world visits after) (hlogs : after.Logs last) :
    Visits world visits last := by
  induction visits generalizing world with
  | nil => exact h.trans hlogs
  | cons visit rest ih => exact ⟨h.1, h.2.1, ih h.2.2⟩

/-- **One visit.** The search for quick actions goes on from the first dependency to the rest, unless the request has
been cancelled by then, in which case it ends at once. -/
theorem exists_visit {found : List QuickAction} {dependency : Dependency} {rest : List Dependency}
    {outcome : Except Fault (Option (List QuickAction))} (hkinded : world.IsKinded)
    (hgoing : world.isCancelled = false)
    (h : (actionsFor found (dependency :: rest)).run.ComesTo World.company world after outcome) :
    ∃ (visit : Visit) (mid : World), visit.dependency = dependency ∧ visit.before = world ∧ visit.IsMade ∧
      visit.after.Logs mid ∧ mid.IsKinded ∧ ((mid.isCancelled = true ∧ after = mid ∧ outcome = .ok none) ∨
        mid.isCancelled = false ∧
          (actionsFor (found ++ visit.actions) rest).run.ComesTo World.company mid after outcome) := by
  rw [actionsFor, comesTo_lift_isCancelled_bind_iff, hgoing, if_neg Bool.false_ne_true] at h
  rcases Process.comesTo_bind_iff.mp h with ⟨mid, got, hguarded, hrest⟩ | ⟨fault, hguarded, -⟩
  · obtain ⟨done, result, hlookup, hlogs, hresult⟩ := comesTo_guarded hguarded
    obtain ⟨hlasts, hended⟩ := comesTo_metadata hkinded hlookup
    refine ⟨⟨dependency, world, done, result⟩, mid, rfl, rfl, ⟨hgoing, hlookup⟩, hlogs,
      hlogs.isKinded (hlasts.isKinded hkinded), ?_⟩
    obtain rfl := Except.ok.inj (hresult hended)
    rw [← hlogs.isCancelled] at hrest
    cases hmid : mid.isCancelled with
    | true =>
        rw [hmid, if_pos rfl, comesTo_lift_isCancelled_bind_iff, hmid] at hrest
        exact .inl ⟨rfl, hrest⟩
    | false =>
        rw [hmid, if_neg Bool.false_ne_true] at hrest
        refine .inr ⟨rfl, ?_⟩
        cases result with
        | error fault =>
            rw [Except.toOption, comesTo_lift_isCancelled_bind_iff, hmid] at hrest
            rw [Visit.actions, List.append_nil]
            exact hrest
        | ok metadata => exact hrest
  · obtain ⟨done, result, hlookup, -, hresult⟩ := comesTo_guarded hguarded
    cases hresult (comesTo_metadata hkinded hlookup).2

/-- **The visits of a search.** Dependencies are visited from the first one on, until the request is cancelled; what
the visits offer is collected, and dropped if it is. -/
theorem exists_visits {found : List QuickAction} {dependencies : List Dependency}
    {outcome : Except Fault (Option (List QuickAction))} (hkinded : world.IsKinded)
    (hfound : world.isCancelled = true → found = [])
    (h : (actionsFor found dependencies).run.ComesTo World.company world after outcome) :
    ∃ visits, Visits world visits after ∧ visits.map Visit.dependency <+: dependencies ∧
      (after.isCancelled = true → outcome = .ok none ∨ outcome = .ok (some [])) ∧
      (after.isCancelled = false → visits.map Visit.dependency = dependencies ∧
        outcome = .ok (some (found ++ visits.flatMap Visit.actions))) := by
  induction dependencies generalizing world found with
  | nil =>
      obtain ⟨rfl, rfl⟩ := h
      refine ⟨[], .refl _, List.nil_prefix, fun hcancelled => .inr ?_, fun _ => ⟨rfl, by simp⟩⟩
      rw [hfound hcancelled]
  | cons dependency rest ih =>
      cases hgoing : world.isCancelled with
      | true =>
          rw [actionsFor, comesTo_lift_isCancelled_bind_iff, hgoing] at h
          obtain ⟨rfl, rfl⟩ := h
          exact ⟨[], .refl _, List.nil_prefix, fun _ => .inl rfl, fun hnot => by simp [hgoing] at hnot⟩
      | false =>
          obtain ⟨visit, mid, rfl, rfl, hmade, hlogs, hmid, ⟨hcancelled, rfl, rfl⟩ | ⟨hmidGoing, hrest⟩⟩ :=
            exists_visit hkinded hgoing h
          · exact ⟨[visit], ⟨.refl _, hmade, hlogs⟩, by simp, fun _ => .inl rfl,
              fun hnot => by simp [hcancelled] at hnot⟩
          · obtain ⟨visits, hvisits, hprefix, hnothing, hall⟩ := ih hmid (by simp [hmidGoing]) hrest
            refine ⟨visit :: visits, ⟨.refl _, hmade, hvisits.of_logs hlogs⟩, by simpa using hprefix, hnothing,
              fun hnot => ?_⟩
            obtain ⟨hvisited, houtcome⟩ := hall hnot
            exact ⟨by simpa using hvisited, by simpa using houtcome⟩

theorem exists_visits_of_actions (hkinded : world.IsKinded) {outcome : Except Fault (List QuickAction)}
    (h : (actions buffer line).run.ComesTo World.company world after outcome) :
    ∃ visits, Visits world visits after ∧ visits.map Visit.dependency <+: buffer.dependenciesOn line ∧
      (after.isCancelled = true → outcome = .ok []) ∧
      (after.isCancelled = false → visits.map Visit.dependency = buffer.dependenciesOn line ∧
        outcome = .ok (visits.flatMap Visit.actions)) := by
  unfold actions at h
  obtain ⟨begun, hbegun, h⟩ := exists_of_comesTo_logAll h
  rcases Process.comesTo_bind_iff.mp h with ⟨mid, found, hfor, hrest⟩ | ⟨fault, hfor, -⟩
  · obtain ⟨visits, hvisits, hprefix, hcancelled, hall⟩ :=
      exists_visits (hbegun.isKinded hkinded) (fun _ => rfl) hfor
    -- What follows the search adds to the log at most.
    have hlast : mid.Logs after ∧ outcome = .ok (found.getD []) := by
      cases found with
      | none =>
          obtain ⟨rfl, rfl⟩ := hrest
          exact ⟨.refl _, rfl⟩
      | some offered =>
          obtain ⟨_, -, ⟨rfl, -⟩, rfl, rfl⟩ := Process.comesTo_bind_lift_iff.mp hrest
          exact ⟨.logged _ _, rfl⟩
    obtain ⟨hlogs, rfl⟩ := hlast
    refine ⟨visits, (hvisits.of_logs hbegun).logs hlogs, hprefix, fun hafter => ?_, fun hafter => ?_⟩
    · rcases hcancelled (hlogs.isCancelled ▸ hafter) with ⟨⟨⟩⟩ | ⟨⟨⟩⟩ <;> rfl
    · obtain ⟨hvisited, ⟨⟨⟩⟩⟩ := hall (hlogs.isCancelled ▸ hafter)
      exact ⟨hvisited, rfl⟩
  · obtain ⟨visits, -, -, hcancelled, hall⟩ := exists_visits (hbegun.isKinded hkinded) (fun _ => rfl) hfor
    cases hafter : after.isCancelled with
    | false => cases (hall hafter).2
    | true => exact (hcancelled hafter).elim nofun nofun

/-- **Cancelled requests.** Whenever the user cancels, before the request or during any of its waits, and whatever its
lookups end with: a request that is cancelled when its last wait is over ends with no completions, no hover and no
quick actions. The search for quick actions visits the dependencies of the line one after another, in their order,
and begins no visit once the request is cancelled; one that is not cancelled visits all of them and offers what
they have. -/
theorem nothing_of_isCancelled {world : World} (hkinded : world.IsKinded) (buffer : Buffer) (position : Position)
    (line : Int) (includePre : Option Bool) (python : String) :
    (complete buffer position includePre).run.Gives World.company
      (fun after outcome => after.isCancelled = true → outcome = .ok []) world ∧
    (hover buffer position python).run.Gives World.company
      (fun after outcome => after.isCancelled = true → outcome = .ok none) world ∧
    (actions buffer line).run.Gives World.company
      (fun after outcome => ∃ visits, Visits world visits after ∧
        visits.map Visit.dependency <+: buffer.dependenciesOn line ∧
        (after.isCancelled = true → outcome = .ok []) ∧
        (after.isCancelled = false → visits.map Visit.dependency = buffer.dependenciesOn line ∧
          outcome = .ok (visits.flatMap Visit.actions))) world := by
  refine ⟨Process.gives_iff.mpr fun after outcome => complete_of_isCancelled hkinded,
    Process.gives_iff.mpr fun after outcome => hover_of_isCancelled,
    Process.gives_iff.mpr fun after outcome h => ?_⟩
  exact exists_visits_of_actions hkinded h

/-- A service that has just been opened has nothing under a wrong key. -/
theorem nothing_of_isCancelled_opening :
    let world := (ServiceRun.opening (.sequence [])).state
    let buffer := Buffer.mk "dependencies = [\"aa>=1\", \"bb>=2\"]".toList none (some .pyproject)
    world.IsKinded ∧ (actions buffer 0).run.Gives World.company
      (fun after outcome => ∃ visits, Visits world visits after ∧
        visits.map Visit.dependency <+: buffer.dependenciesOn 0 ∧
        (after.isCancelled = true → outcome = .ok []) ∧
        (after.isCancelled = false → visits.map Visit.dependency = buffer.dependenciesOn 0 ∧
          outcome = .ok (visits.flatMap Visit.actions))) world := by
  intro world buffer
  have hkinded : world.IsKinded := fun _ _ hmem => absurd hmem List.not_mem_nil
  exact ⟨hkinded, (nothing_of_isCancelled hkinded buffer ⟨0, 0⟩ 0 none "3.12.0").2.2⟩

end Work

end ManifestLens
