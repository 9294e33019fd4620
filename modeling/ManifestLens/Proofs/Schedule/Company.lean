import ManifestLens.Proofs.Schedule.Abides

/-!
# Processes in company

While a process waits, others may change the state, and the task that it waits for may end in more than one
way. What a process may come to in such company is said by recursion on the process: it runs alone between two
waits, and at every wait the others may do whatever the company allows. Nothing else is assumed of the others,
so a statement about all that a process may come to holds whenever they do what they do.

A scheduler whose tasks abide by a rule is such company, of those who abide by the rule.
-/

namespace ManifestLens

variable {σ δ ρ α β : Type}

/-- What a process has to reckon with while it waits. -/
structure Company (σ ρ : Type) where
  /-- How the others may change the state during a wait. -/
  moves : σ → σ → Prop
  /-- How a task may end for which a process waits. -/
  ends : TaskResult ρ → Prop
  /-- What a wait for several tasks may end with. -/
  endsAll : GroupResult ρ → Prop

namespace Process

variable {company : Company σ ρ}

/-- In company, a process that begins in a state may be done in another state, with a value. -/
def ComesTo (company : Company σ ρ) : Process σ δ ρ α → σ → σ → α → Prop
  | .done value, state, after, found => after = state ∧ found = value
  | .look next, state, after, found => ∃ moment, (next moment state).ComesTo company state after found
  | .change f next, state, after, found => next.ComesTo company (f state) after found
  | .spawn _ next, state, after, found => ∃ id, (next id).ComesTo company state after found
  | .cancel _ next, state, after, found | .wake _ next, state, after, found =>
      next.ComesTo company state after found
  | .sleep _ next, state, after, found | .park next, state, after, found =>
      ∃ later, company.moves state later ∧ next.ComesTo company later after found
  | .join _ next, state, after, found =>
      ∃ result later, company.ends result ∧ company.moves state later ∧
        (next result).ComesTo company later after found
  | .joinAll _ _ next, state, after, found =>
      ∃ result later, company.endsAll result ∧ company.moves state later ∧
        (next result).ComesTo company later after found

variable {state after : σ} {found : β}

/-- **In sequence** a process comes to what the second part comes to, begun where the first part is done. -/
theorem comesTo_andThen_iff {p : Process σ δ ρ α} {f : α → Process σ δ ρ β} :
    (p.andThen f).ComesTo company state after found ↔
      ∃ mid value, p.ComesTo company state mid value ∧ (f value).ComesTo company mid after found := by
  induction p generalizing state with
  | done value =>
      refine ⟨fun h => ⟨state, value, ⟨rfl, rfl⟩, h⟩, ?_⟩
      rintro ⟨mid, _, ⟨rfl, rfl⟩, h⟩
      exact h
  | look next ih =>
      simp only [andThen, ComesTo, ih]
      constructor
      · rintro ⟨moment, mid, value, hfirst, hlast⟩
        exact ⟨mid, value, ⟨moment, hfirst⟩, hlast⟩
      · rintro ⟨mid, value, ⟨moment, hfirst⟩, hlast⟩
        exact ⟨moment, mid, value, hfirst, hlast⟩
  | change g next ih => exact ih
  | spawn task next ih =>
      simp only [andThen, ComesTo, ih]
      constructor
      · rintro ⟨id, mid, value, hfirst, hlast⟩
        exact ⟨mid, value, ⟨id, hfirst⟩, hlast⟩
      · rintro ⟨mid, value, ⟨id, hfirst⟩, hlast⟩
        exact ⟨id, mid, value, hfirst, hlast⟩
  | cancel task next ih | wake task next ih => exact ih
  | sleep seconds next ih | park next ih =>
      simp only [andThen, ComesTo, ih]
      constructor
      · rintro ⟨later, hmoves, mid, value, hfirst, hlast⟩
        exact ⟨mid, value, ⟨later, hmoves, hfirst⟩, hlast⟩
      · rintro ⟨mid, value, ⟨later, hmoves, hfirst⟩, hlast⟩
        exact ⟨later, hmoves, mid, value, hfirst, hlast⟩
  | join task next ih | joinAll tasks eager next ih =>
      simp only [andThen, ComesTo, ih]
      constructor
      · rintro ⟨result, later, hends, hmoves, mid, value, hfirst, hlast⟩
        exact ⟨mid, value, ⟨result, later, hends, hmoves, hfirst⟩, hlast⟩
      · rintro ⟨mid, value, ⟨result, later, hends, hmoves, hfirst⟩, hlast⟩
        exact ⟨result, later, hends, hmoves, mid, value, hfirst, hlast⟩

theorem comesTo_update_iff {f : Moment → σ → β × σ} :
    (update f : Process σ δ ρ β).ComesTo company state after found ↔
      ∃ moment, after = (f moment state).2 ∧ found = (f moment state).1 := .rfl

theorem comesTo_modify_iff {f : σ → σ} {found : Unit} :
    (modify f : Process σ δ ρ Unit).ComesTo company state after found ↔ after = f state := by
  simp [modify, ComesTo]

/-! ### Work that may fail -/

section Fallible

variable {ε : Type} {result : Except ε β}

theorem comesTo_bind_iff {x : ExceptT ε (Process σ δ ρ) α} {f : α → ExceptT ε (Process σ δ ρ) β} :
    (x >>= f).run.ComesTo company state after result ↔
      (∃ mid value, x.run.ComesTo company state mid (.ok value) ∧
        (f value).run.ComesTo company mid after result) ∨
      ∃ fault, x.run.ComesTo company state after (.error fault) ∧ result = .error fault := by
  rw [run_bind, comesTo_andThen_iff]
  constructor
  · rintro ⟨mid, value | fault, hfirst, hlast⟩
    · obtain ⟨rfl, rfl⟩ := hlast
      exact .inr ⟨_, hfirst, rfl⟩
    · exact .inl ⟨mid, _, hfirst, hlast⟩
  · rintro (⟨mid, value, hfirst, hlast⟩ | ⟨fault, hfirst, rfl⟩)
    · exact ⟨mid, .ok value, hfirst, hlast⟩
    · exact ⟨after, .error fault, hfirst, rfl, rfl⟩

theorem comesTo_bind_lift_iff {p : Process σ δ ρ α} {f : α → ExceptT ε (Process σ δ ρ) β} :
    (ExceptT.lift p >>= f).run.ComesTo company state after result ↔
      ∃ mid value, p.ComesTo company state mid value ∧ (f value).run.ComesTo company mid after result := by
  rw [run_bind, run_lift, andThen_assoc]
  exact comesTo_andThen_iff

end Fallible

/-! ### Whatever the others do -/

/-- In company, a process that begins in a state is done in the end, as the postcondition says, whatever the others
do while it waits. -/
def Gives (company : Company σ ρ) (post : σ → α → Prop) : Process σ δ ρ α → σ → Prop
  | .done value, state => post state value
  | .look next, state => ∀ moment, (next moment state).Gives company post state
  | .change f next, state => next.Gives company post (f state)
  | .spawn _ next, state => ∀ id, (next id).Gives company post state
  | .cancel _ next, state | .wake _ next, state => next.Gives company post state
  | .sleep _ next, state | .park next, state => ∀ later, company.moves state later → next.Gives company post later
  | .join _ next, state =>
      ∀ result later, company.ends result → company.moves state later → (next result).Gives company post later
  | .joinAll _ _ next, state =>
      ∀ result later, company.endsAll result → company.moves state later → (next result).Gives company post later

/-- What a process gives holds of all that it may come to: no process goes on for ever. -/
theorem gives_iff {post : σ → α → Prop} {p : Process σ δ ρ α} :
    p.Gives company post state ↔ ∀ after found, p.ComesTo company state after found → post after found := by
  induction p generalizing state with
  | done value =>
      constructor
      · rintro h after found ⟨rfl, rfl⟩
        exact h
      · exact fun h => h state value ⟨rfl, rfl⟩
  | look next ih =>
      simp only [Gives, ComesTo, ih]
      exact ⟨fun h after found ⟨moment, hcomes⟩ => h moment after found hcomes,
        fun h moment after found hcomes => h after found ⟨moment, hcomes⟩⟩
  | change f next ih => exact ih
  | spawn task next ih =>
      simp only [Gives, ComesTo, ih]
      exact ⟨fun h after found ⟨id, hcomes⟩ => h id after found hcomes,
        fun h id after found hcomes => h after found ⟨id, hcomes⟩⟩
  | cancel task next ih | wake task next ih => exact ih
  | sleep seconds next ih | park next ih =>
      simp only [Gives, ComesTo, ih]
      exact ⟨fun h after found ⟨later, hmoves, hcomes⟩ => h later hmoves after found hcomes,
        fun h later hmoves after found hcomes => h after found ⟨later, hmoves, hcomes⟩⟩
  | join task next ih | joinAll tasks eager next ih =>
      simp only [Gives, ComesTo, ih]
      exact ⟨fun h after found ⟨result, later, hends, hmoves, hcomes⟩ =>
          h result later hends hmoves after found hcomes,
        fun h result later hends hmoves after found hcomes =>
          h after found ⟨result, later, hends, hmoves, hcomes⟩⟩

end Process

/-! ### The tasks of a scheduler -/

/-- Those who abide by a rule, and whose tasks end in any way. -/
def TaskRule.company (rule : TaskRule σ δ) : Company σ ρ := ⟨rule.change, fun _ => True, fun _ => True⟩

/-- What a paused process may come to once its turn has come. -/
def Paused.ComesTo (company : Company σ ρ) : Paused σ δ ρ α → σ → σ → α → Prop
  | .plain next, state, after, found => next.ComesTo company state after found
  | .joining _ next, state, after, found =>
      ∃ result, company.ends result ∧ (next result).ComesTo company state after found
  | .gathering _ next, state, after, found =>
      ∃ result, company.endsAll result ∧ (next result).ComesTo company state after found

namespace Scheduler

variable {rule : TaskRule σ δ} {s s' : Scheduler σ δ ρ} {task : Nat} {p : Process σ δ ρ α}
  {paused : Paused σ δ ρ α} {after : σ} {value : α}

theorem comesTo_of_resume (h : (s.resume task paused).ComesTo rule.company s.state after value) :
    paused.ComesTo rule.company s.state after value := by
  cases paused with
  | plain next => exact h
  | joining other next => exact ⟨_, trivial, h⟩
  | gathering others next =>
      rw [resume] at h
      split at h
      · exact ⟨_, trivial, h⟩
      · exact ⟨_, trivial, h⟩

theorem comesTo_of_advance_done (h : s.advance task p = (s', .inl value)) :
    p.ComesTo rule.company s.state s'.state value := by
  induction p generalizing s with
  | done value =>
      cases h
      exact ⟨rfl, rfl⟩
  | look next ih => exact ⟨_, ih _ _ h⟩
  | change f next ih => exact ih h
  | spawn description next ih =>
      have hrest := ih _ h
      exact ⟨_, hrest⟩
  | cancel other next ih => exact s.state_requestCancel other ▸ ih h
  | sleep seconds next ih =>
      rw [advance] at h
      split at h <;> cases h
  | join other next ih =>
      rw [advance] at h
      split at h
      · exact ⟨_, _, trivial, rule.refl _, ih _ h⟩
      · cases h
  | joinAll others eager next ih =>
      rw [advance] at h
      split at h
      · exact ⟨_, _, trivial, rule.refl _, ih _ h⟩
      · cases h
  | park next => cases h
  | wake other next ih =>
      have hrest := ih h
      exact hrest

theorem state_gather (s : Scheduler σ δ ρ) (task : Nat) (children : List Nat) (eager : Bool) :
    (s.gather task children eager).state = s.state := by
  have htell : ∀ s : Scheduler σ δ ρ, (children.foldl (fun s child =>
      if s.hasEnded child then s.ask (.settle child task) else s.watch child (.gatherer task)) s).state
        = s.state := by
    induction children with
    | nil => exact fun _ => rfl
    | cons child children ih =>
        intro s
        rw [List.foldl_cons, ih]
        split <;> rfl
  exact htell _

theorem comesTo_of_advance_paused {later : σ} (h : s.advance task p = (s', .inr paused))
    (hlater : rule.change s'.state later) (hpaused : paused.ComesTo rule.company later after value) :
    p.ComesTo rule.company s.state after value := by
  induction p generalizing s with
  | done value => cases h
  | look next ih => exact ⟨_, ih _ _ h⟩
  | change f next ih => exact ih h
  | spawn description next ih =>
      have hrest := ih _ h
      exact ⟨_, hrest⟩
  | cancel other next ih => exact s.state_requestCancel other ▸ ih h
  | sleep seconds next =>
      rw [advance] at h
      split at h <;>
      · cases h
        exact ⟨later, hlater, hpaused⟩
  | join other next ih =>
      rw [advance] at h
      split at h
      · exact ⟨_, _, trivial, rule.refl _, ih _ h⟩
      · cases h
        obtain ⟨result, -, hpaused⟩ := hpaused
        exact ⟨result, later, trivial, hlater, hpaused⟩
  | joinAll others eager next ih =>
      rw [advance] at h
      split at h
      · exact ⟨_, _, trivial, rule.refl _, ih _ h⟩
      · cases h
        obtain ⟨result, -, hpaused⟩ := hpaused
        exact ⟨result, later, trivial, s.state_gather task others eager ▸ hlater, hpaused⟩
  | park next =>
      cases h
      exact ⟨later, hlater, hpaused⟩
  | wake other next ih =>
      have hrest := ih h
      exact hrest

variable {program : Program σ δ ρ}

/-- Among tasks that abide by a rule, a paused process from outside comes to what it may come to among others
that abide by it. -/
theorem exists_comesTo_of_complete (hprogram : program.Abides rule) {last : Scheduler σ δ ρ} {fuel : Nat}
    (habides : s.Abides rule) (hpaused : paused.Abides rule)
    (h : complete program fuel s paused = (last, some value)) :
    ∃ later, rule.change s.state later ∧ paused.ComesTo rule.company later last.state value := by
  induction fuel generalizing s paused with
  | zero => cases h
  | succ fuel ih =>
      rw [complete] at h
      cases hready : s.ready with
      | nil =>
          rw [hready] at h
          simp only at h
          split at h
          · next jumped hjump =>
            have hmoves : Moves rule s jumped := moves_jump? hjump
            obtain ⟨later, hlater, hcomes⟩ := ih (hmoves.abides habides) hpaused h
            exact ⟨later, rule.trans hmoves.change hlater, hcomes⟩
          · cases h
      | cons turn ready =>
          rw [hready] at h
          simp only at h
          have habides' : ({ s with ready } : Scheduler σ δ ρ).Abides rule := ⟨habides.holds, habides.tasks⟩
          split at h
          · have hresumed := resume_abides { s with ready } 0 hpaused habides.holds
            refine ⟨s.state, rule.refl _,
              @comesTo_of_resume _ _ _ _ rule { s with ready } 0 paused last.state value ?_⟩
            obtain ⟨hmoves, hend⟩ := advance_abides { s with ready } 0 habides.holds hresumed
            split at h
            · next done found hadvance =>
              cases h
              exact comesTo_of_advance_done hadvance
            · next waiting paused' hadvance =>
              rw [hadvance] at hmoves hend
              obtain ⟨later, hlater, hcomes⟩ := ih (hmoves.abides habides') (hend _ rfl) h
              exact comesTo_of_advance_paused hadvance hlater hcomes
          · have hmoves := moves_take hprogram habides' turn
            obtain ⟨later, hlater, hcomes⟩ := ih (hmoves.abides habides') hpaused h
            exact ⟨later, rule.trans hmoves.change hlater, hcomes⟩

/-- **Company of tasks.** What a scheduler makes of a process from outside, among tasks that abide by a rule, is
something that the process may come to among others that abide by it. -/
theorem comesTo_of_run (hprogram : program.Abides rule) {last : Scheduler σ δ ρ} {fuel : Nat}
    (habides : s.Abides rule) (hp : p.Abides rule s.state) (h : s.run program fuel p = (last, some value)) :
    p.ComesTo rule.company s.state last.state value := by
  obtain ⟨hmoves, hend⟩ := advance_abides s 0 habides.holds hp
  rw [run] at h
  split at h
  · next hadvance =>
    cases h
    exact comesTo_of_advance_done hadvance
  · next hadvance =>
    rw [hadvance] at hmoves hend
    obtain ⟨later, hlater, hcomes⟩ := exists_comesTo_of_complete hprogram (hmoves.abides habides) (hend _ rfl) h
    exact comesTo_of_advance_paused hadvance hlater hcomes

end Scheduler

/-! ### Where everything is allowed -/

/-- The rule that allows everything. -/
def TaskRule.lenient : TaskRule σ δ where
  holds _ := True
  change _ _ := True
  start _ := True
  refl _ := trivial
  trans _ _ := trivial
  keeps _ _ := trivial

theorem Process.abides_lenient (p : Process σ δ ρ α) (state : σ) : p.Abides .lenient state := by
  induction p generalizing state with
  | done value => trivial
  | look next ih => exact fun moment => ih _ _ state
  | change f next ih => exact ⟨trivial, ih _⟩
  | spawn task next ih => exact ⟨trivial, fun id => ih id state⟩
  | cancel task next ih | wake task next ih => exact ih state
  | sleep seconds next ih | park next ih => exact fun later _ => ih later
  | join task next ih | joinAll tasks eager next ih => exact fun result later _ => ih result later

theorem Paused.abides_lenient (paused : Paused σ δ ρ α) : paused.Abides .lenient := by
  cases paused with
  | plain next => exact fun later _ => next.abides_lenient later
  | joining other next | gathering others next => exact fun result later _ => (next result).abides_lenient later

/-- Whatever the tasks of a scheduler do, it makes of a process something that the process may come to. -/
theorem Scheduler.comesTo_of_run_lenient {program : Program σ δ ρ} {s last : Scheduler σ δ ρ}
    {p : Process σ δ ρ α} {value : α} {fuel : Nat} (h : s.run program fuel p = (last, some value)) :
    p.ComesTo (TaskRule.lenient : TaskRule σ δ).company s.state last.state value := by
  have hprogram : program.Abides .lenient :=
    ⟨fun task _ state _ => (program.body task).abides_lenient state, fun _ _ _ => trivial, fun _ _ _ => trivial⟩
  refine comesTo_of_run hprogram ⟨trivial, fun id t ht => .inr ?_⟩ (p.abides_lenient _) h
  cases hstatus : t.status with
  | paused waiting => exact waiting.abides_lenient
  | fresh | outside | ended => trivial

end ManifestLens
