import ManifestLens.Schedule.Scheduler

/-!
# Processes in sequence and on their own

Going on after a process is associative, so work may be read in any grouping. A process that only looks,
changes and sleeps needs nobody else: what comes of it is a function of the moment and the state it begins
with.
-/

namespace ManifestLens

variable {σ δ ρ α β γ : Type}

namespace Process

@[simp]
theorem done_andThen (value : α) (f : α → Process σ δ ρ β) : (done value).andThen f = f value := rfl

@[simp]
theorem look_andThen (next : Moment → σ → Process σ δ ρ α) (f : α → Process σ δ ρ β) :
    (look next).andThen f = look fun moment state => (next moment state).andThen f := rfl

@[simp]
theorem change_andThen (g : σ → σ) (next : Process σ δ ρ α) (f : α → Process σ δ ρ β) :
    (change g next).andThen f = change g (next.andThen f) := rfl

@[simp]
theorem sleep_andThen (seconds : Number) (next : Process σ δ ρ α) (f : α → Process σ δ ρ β) :
    (sleep seconds next).andThen f = sleep seconds (next.andThen f) := rfl

@[simp]
theorem spawn_andThen (task : δ) (next : Nat → Process σ δ ρ α) (f : α → Process σ δ ρ β) :
    (spawn task next).andThen f = spawn task fun id => (next id).andThen f := rfl

@[simp]
theorem join_andThen (task : Nat) (next : TaskResult ρ → Process σ δ ρ α)
    (f : α → Process σ δ ρ β) :
    (join task next).andThen f = join task fun result => (next result).andThen f := rfl

theorem bind_eq_andThen (p : Process σ δ ρ α) (f : α → Process σ δ ρ β) : p >>= f = p.andThen f := rfl

theorem pure_eq_done (value : α) : (pure value : Process σ δ ρ α) = done value := rfl

theorem andThen_assoc (p : Process σ δ ρ α) (f : α → Process σ δ ρ β) (g : β → Process σ δ ρ γ) :
    (p.andThen f).andThen g = p.andThen fun value => (f value).andThen g := by
  induction p with
  | done value => rfl
  | look next ih => simp only [andThen, ih]
  | change g next ih => simp only [andThen, ih]
  | spawn task next ih => simp only [andThen, ih]
  | cancel task next ih => simp only [andThen, ih]
  | sleep seconds next ih => simp only [andThen, ih]
  | join task next ih => simp only [andThen, ih]
  | joinAll tasks eager next ih => simp only [andThen, ih]
  | park next ih => simp only [andThen, ih]
  | wake task next ih => simp only [andThen, ih]

/-! ### Processes that may fail -/

section Fallible

variable {ε : Type}

theorem run_bind (x : ExceptT ε (Process σ δ ρ) α) (f : α → ExceptT ε (Process σ δ ρ) β) :
    (x >>= f).run = x.run.andThen fun
      | .ok value => (f value).run
      | .error fault => .done (.error fault) := by
  change x.run.andThen _ = _
  congr 1
  funext result
  cases result <;> rfl

theorem run_lift (p : Process σ δ ρ α) :
    (ExceptT.lift p : ExceptT ε (Process σ δ ρ) α).run = p.andThen fun value => .done (.ok value) := rfl

theorem run_mk (p : Process σ δ ρ (Except ε α)) : (ExceptT.mk p : ExceptT ε (Process σ δ ρ) α).run = p :=
  rfl

end Fallible

/-! ### On its own -/

/-- The moment at which a sleeper goes on if nothing else happens. -/
def wakeTime (now : Binary64) (seconds : Number) : Binary64 :=
  if seconds ≤ 0 then now
  else
    let due := now.add seconds.toBinary64
    if now.lt due then due else now

/-- What comes of a process on its own: the time when it is done, the state then and its value. Nothing
comes of one that deals with other tasks. -/
def alone (task : Nat) : Process σ δ ρ α → Binary64 → σ → Option (Binary64 × σ × α)
  | .done value, now, state => some (now, state, value)
  | .look next, now, state => (next ⟨now, task⟩ state).alone task now state
  | .change f next, now, state => next.alone task now (f state)
  | .sleep seconds next, now, state => next.alone task (wakeTime now seconds) state
  | _, _, _ => none

variable {task : Nat}

@[simp]
theorem alone_done (value : α) (now : Binary64) (state : σ) :
    (done value : Process σ δ ρ α).alone task now state = some (now, state, value) := rfl

@[simp]
theorem alone_look (next : Moment → σ → Process σ δ ρ α) (now : Binary64) (state : σ) :
    (look next).alone task now state = (next ⟨now, task⟩ state).alone task now state := rfl

@[simp]
theorem alone_change (f : σ → σ) (next : Process σ δ ρ α) (now : Binary64) (state : σ) :
    (change f next).alone task now state = next.alone task now (f state) := rfl

@[simp]
theorem alone_sleep (seconds : Number) (next : Process σ δ ρ α) (now : Binary64) (state : σ) :
    (sleep seconds next).alone task now state = next.alone task (wakeTime now seconds) state := rfl

theorem alone_andThen (p : Process σ δ ρ α) (f : α → Process σ δ ρ β) (now : Binary64) (state : σ) :
    (p.andThen f).alone task now state
      = (p.alone task now state).bind fun (now, state, value) => (f value).alone task now state := by
  induction p generalizing now state with
  | done value => rfl
  | look next ih => exact ih _ _ _ _
  | change g next ih => exact ih _ _
  | sleep seconds next ih => exact ih _ _
  | spawn | cancel | join | joinAll | park | wake => rfl

end Process

end ManifestLens

/-!
## Processes among others

A process that looks, changes and sleeps shares its state with others that change it while it sleeps. What
it guarantees of its own changes, relying on theirs, and what holds when it is done, is said by recursion on
the process; a turn of it then does nothing but what is guaranteed.
-/

namespace ManifestLens

variable {σ δ ρ α β : Type}

namespace Process

variable {guar rely : σ → σ → Prop} {post : σ → α → Prop}

/-- From a state on, the process only makes changes that it guarantees and ends as the postcondition says,
relying on the changes that others make while it sleeps. It deals with no other task. -/
def Keeps (guar rely : σ → σ → Prop) (post : σ → α → Prop) : Process σ δ ρ α → σ → Prop
  | .done value, state => post state value
  | .look next, state => ∀ moment, (next moment state).Keeps guar rely post state
  | .change f next, state => guar state (f state) ∧ next.Keeps guar rely post (f state)
  | .sleep _ next, state => ∀ later, rely state later → next.Keeps guar rely post later
  | _, _ => False

/-- A process in sequence keeps what both keep. -/
theorem Keeps.andThen {p : Process σ δ ρ α} {f : α → Process σ δ ρ β} {last : σ → β → Prop} {state : σ}
    (h : p.Keeps guar rely post state)
    (hnext : ∀ later value, post later value → (f value).Keeps guar rely last later) :
    (p.andThen f).Keeps guar rely last state := by
  induction p generalizing state with
  | done value => exact hnext _ _ h
  | look next ih => exact fun moment => ih _ _ (h moment)
  | change g next ih => exact ⟨h.1, ih h.2⟩
  | sleep seconds next ih => exact fun later hrely => ih (h later hrely)
  | spawn | cancel | join | joinAll | park | wake => exact h.elim

end Process

namespace Scheduler

variable {guar rely : σ → σ → Prop} {post : σ → α → Prop}

/-- **A turn among others.** The process is done, or it sleeps until its next turn; either way nothing has
happened but changes that it guarantees. -/
theorem advance_keeps (hrefl : ∀ state, guar state state)
    (htrans : ∀ {a b c}, guar a b → guar b c → guar a c) (s : Scheduler σ δ ρ) (task : Nat)
    {p : Process σ δ ρ α} (h : p.Keeps guar rely post s.state) :
    ∃ state, guar s.state state ∧
      ((∃ value, s.advance task p = ({ s with state }, .inl value) ∧ post state value) ∨
        ∃ next, (∀ later, rely state later → next.Keeps guar rely post later) ∧
          (s.advance task p = (({ s with state } : Scheduler σ δ ρ).ask (.run task), .inr (.plain next)) ∨
            ∃ seconds, s.advance task p
              = (({ s with state } : Scheduler σ δ ρ).setTimer task seconds, .inr (.plain next)))) := by
  induction p generalizing s with
  | done value => exact ⟨s.state, hrefl _, .inl ⟨value, rfl, h⟩⟩
  | look next ih => exact ih _ _ s (h ⟨s.now, task⟩)
  | change f next ih =>
      obtain ⟨state, hguar, hend⟩ := ih { s with state := f s.state } h.2
      exact ⟨state, htrans h.1 hguar, hend⟩
  | sleep seconds next =>
      refine ⟨s.state, hrefl _, .inr ⟨next, h, ?_⟩⟩
      rw [advance]
      split
      · exact .inl rfl
      · exact .inr ⟨seconds, rfl⟩
  | spawn | cancel | join | joinAll | park | wake => exact h.elim

end Scheduler

end ManifestLens
