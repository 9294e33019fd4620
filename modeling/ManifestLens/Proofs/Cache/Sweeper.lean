import ManifestLens.Proofs.Cache.Run
import Mathlib.Algebra.Order.Group.Basic
import Mathlib.Data.Rat.Floor

/-!
# A cache that is swept in time

A sweeper bounds how long an expired entry stays. The next sweep is never more than a period after the instant from
which an entry is there to be swept: when it expires, or when it was stored or the sweeper started, if that is later.
A sweep keeps this because what it leaves has not expired yet, and every other call because what it stores is not
older than the call. Time is exact here, as that of the real numbers is.
-/

namespace ManifestLens

variable {T V : Type}

/-- What happens to a cache that has a sweeper. -/
inductive SweeperCall (T V : Type) where
  /-- Time passes. -/
  | wait (time : T)
  | start
  | use (call : CacheCall T V)

namespace SweptCache

/-- A cache whose sweeper has not been started yet. -/
def idle (cache : Cache T V) (now period : T) : SweptCache T V := ⟨cache, now, period, none, false⟩

theorem sweeper_eq_none_iff {swept : SweptCache T V} : swept.sweeper = none ↔ ¬swept.isRunning = true := by
  rw [isRunning, Option.not_isSome_iff_eq_none]

variable [AddCommGroup T] [LinearOrder T] {bound : T → T → Nat} {swept : SweptCache T V} {since due finish : T}

/-! ### Steps -/

/-- The cache after something has happened to it. A sweeper that is refused is not started. -/
def step (bound : T → T → Nat) (swept : SweptCache T V) : SweeperCall T V → SweptCache T V
  | .wait time => swept.advanceBy (bound time swept.period) time
  | .start => swept.start?.getD swept
  | .use .dispose => swept.dispose
  | .use call => { swept with cache := swept.cache.step swept.now call }

def after (bound : T → T → Nat) (swept : SweptCache T V) (calls : List (SweeperCall T V)) : SweptCache T V :=
  calls.foldl (step bound) swept

theorem after_append (first second : List (SweeperCall T V)) :
    swept.after bound (first ++ second) = (swept.after bound first).after bound second := List.foldl_append

/-- What stays as it is in a wait: whether there is a sweeper, and how often it sweeps. -/
structure Resembles (early late : SweptCache T V) : Prop where
  isRunning : late.isRunning = early.isRunning
  isDisposed : late.isDisposed = early.isDisposed
  period : late.period = early.period

theorem resembles_yield (swept : SweptCache T V) : swept.Resembles swept.yield := by
  unfold yield
  split
  · next h => exact ⟨by simp [isRunning, h], rfl, rfl⟩
  · next h => exact ⟨by simp [isRunning, sweep, h], rfl, rfl⟩
  · exact ⟨rfl, rfl, rfl⟩

theorem resembles_sweepUntil (fuel : Nat) (finish : T) (first : Bool) (swept : SweptCache T V) :
    swept.Resembles (sweepUntil fuel finish first swept) := by
  fun_induction sweepUntil fuel finish first swept with
  | case1 first swept fuel due hsweeper _ ih =>
      have hsweep : (sweep { swept with now := due }).isRunning = swept.isRunning := by
        simp [isRunning, sweep, hsweeper]
      exact ⟨ih.isRunning.trans hsweep, ih.isDisposed, ih.period⟩
  | case2 first swept fuel due hsweeper _ _ => exact ⟨by simp [isRunning, hsweeper], rfl, rfl⟩
  | case3 | case4 => exact ⟨rfl, rfl, rfl⟩

theorem resembles_advanceBy (fuel : Nat) (wait : T) (swept : SweptCache T V) :
    swept.Resembles (swept.advanceBy fuel wait) := by
  have hyield := resembles_yield swept
  unfold advanceBy
  split
  · exact hyield
  · unfold waitUntil
    have hsweeps (first : Bool) := resembles_sweepUntil fuel (swept.now + wait) first swept.yield
    exact ⟨(hsweeps _).isRunning.trans hyield.isRunning, (hsweeps _).isDisposed.trans hyield.isDisposed,
      (hsweeps _).period.trans hyield.period⟩

/-! ### When there is a sweeper -/

theorem period_step (call : SweeperCall T V) : (swept.step bound call).period = swept.period := by
  cases call with
  | wait time => exact (resembles_advanceBy _ time swept).period
  | start =>
      simp only [step, start?]
      split_ifs <;> rfl
  | use call => cases call <;> rfl

theorem isDisposed_step (call : SweeperCall T V) :
    (swept.step bound call).isDisposed = true ↔ swept.isDisposed = true ∨ call = .use .dispose := by
  cases call with
  | wait time => simp [step, (resembles_advanceBy _ time swept).isDisposed]
  | start =>
      simp only [step, start?]
      split_ifs <;> simp_all
  | use call => cases call <;> simp [step, dispose]

theorem isRunning_step (call : SweeperCall T V) : (swept.step bound call).isRunning = true ↔
    (swept.isRunning = true ∨ call = .start ∧ ¬swept.isDisposed = true) ∧ call ≠ .use .dispose := by
  cases call with
  | wait time => simp [step, (resembles_advanceBy _ time swept).isRunning]
  | start =>
      simp only [step, start?]
      split_ifs <;> simp_all [isRunning]
  | use call => cases call <;> simp [step, dispose, isRunning]

theorem isDisposed_after (bound : T → T → Nat) (swept : SweptCache T V) (calls : List (SweeperCall T V)) :
    (swept.after bound calls).isDisposed = true ↔ swept.isDisposed = true ∨ .use .dispose ∈ calls := by
  induction calls generalizing swept with
  | nil => simp [after]
  | cons call calls ih =>
      rw [after, List.foldl_cons, ← after, ih, isDisposed_step, List.mem_cons, or_assoc,
        @eq_comm _ call]

theorem isRunning_after (h : swept.isDisposed = true → ¬swept.isRunning = true) (calls : List (SweeperCall T V)) :
    (swept.after bound calls).isRunning = true ↔
      (swept.isRunning = true ∨ .start ∈ calls ∧ ¬swept.isDisposed = true) ∧ .use .dispose ∉ calls := by
  induction calls generalizing swept with
  | nil => simp [after]
  | cons call calls ih =>
      have hlater : (swept.step bound call).isDisposed = true → ¬(swept.step bound call).isRunning = true := by
        rw [isDisposed_step, isRunning_step]
        tauto
      rw [after, List.foldl_cons, ← after, ih hlater, isRunning_step, isDisposed_step, List.mem_cons, List.mem_cons,
        @eq_comm _ _ call, @eq_comm _ _ call]
      tauto

/-! ### Waiting -/

/-- What a wait leaves of the entries. -/
structure Spares (early late : SweptCache T V) : Prop where
  now_le : early.now ≤ late.now
  /-- What stays, stays in its order. -/
  order : late.cache.entries.Sublist early.cache.entries
  /-- What goes had expired when the sweeper came. -/
  expired : ∀ e ∈ early.cache.entries, e ∉ late.cache.entries →
    ∃ instant, early.now ≤ instant ∧ instant ≤ late.now ∧ e.2.isValid instant = false

theorem spares_of_cache_eq {early late : SweptCache T V} (hnow : early.now ≤ late.now)
    (h : late.cache = early.cache) : early.Spares late :=
  ⟨hnow, by rw [h], fun e he hgone => absurd (h ▸ he) hgone⟩

theorem Spares.trans {early middle late : SweptCache T V} (h : early.Spares middle) (hlate : middle.Spares late) :
    early.Spares late := by
  refine ⟨h.now_le.trans hlate.now_le, hlate.order.trans h.order, fun e he hgone => ?_⟩
  by_cases hmiddle : e ∈ middle.cache.entries
  · obtain ⟨instant, hfrom, hupto, hexpired⟩ := hlate.expired e hmiddle hgone
    exact ⟨instant, h.now_le.trans hfrom, hupto, hexpired⟩
  · obtain ⟨instant, hfrom, hupto, hexpired⟩ := h.expired e he hmiddle
    exact ⟨instant, hfrom, hupto.trans hlate.now_le, hexpired⟩

theorem spares_sweep (swept : SweptCache T V) : swept.Spares swept.sweep := by
  refine ⟨le_rfl, List.filter_sublist, fun e he hgone => ⟨swept.now, le_rfl, le_rfl, ?_⟩⟩
  simpa [sweep, Cache.purge, he] using hgone

theorem spares_yield (swept : SweptCache T V) : swept.Spares swept.yield := by
  unfold yield
  split
  · exact spares_of_cache_eq le_rfl rfl
  · exact spares_sweep swept
  · exact spares_of_cache_eq le_rfl rfl

theorem now_yield (swept : SweptCache T V) : swept.yield.now = swept.now := by
  unfold yield
  split <;> rfl

/-- The timer of the sweeper is not overdue. -/
def IsAhead (swept : SweptCache T V) : Prop := ∀ due, swept.sweeper = some (.sleeping due) → swept.now ≤ due

variable [IsOrderedAddMonoid T]

theorem isAhead_sweep (hperiod : 0 ≤ swept.period) : swept.sweep.IsAhead := by
  rintro due ⟨⟩
  exact le_add_of_nonneg_right hperiod

theorem spares_sweepUntil {fuel : Nat} {first : Bool} (hperiod : 0 ≤ swept.period) (h : swept.IsAhead)
    (hfinish : swept.now ≤ finish) : swept.Spares (sweepUntil fuel finish first swept) := by
  fun_induction sweepUntil fuel finish first swept with
  | case1 first swept fuel due hsweeper hdue ih =>
      have hpass : swept.Spares { swept with now := due } := spares_of_cache_eq (h due hsweeper) rfl
      have hlate : due ≤ finish := hdue.elim le_of_lt And.left
      exact (hpass.trans (spares_sweep _)).trans (ih hperiod (isAhead_sweep hperiod) hlate)
  | case2 | case3 | case4 => exact spares_of_cache_eq hfinish rfl

theorem isAhead_yield (hperiod : 0 ≤ swept.period) (h : swept.IsAhead) : swept.yield.IsAhead := by
  unfold yield
  split
  · rintro due ⟨⟩
    exact le_add_of_nonneg_right hperiod
  · exact isAhead_sweep hperiod
  · exact h

theorem spares_advanceBy {fuel : Nat} {wait : T} (hperiod : 0 ≤ swept.period)
    (h : swept.IsAhead) : swept.Spares (swept.advanceBy fuel wait) := by
  have hyield := spares_yield swept
  unfold advanceBy
  split
  · exact hyield
  · next hwait =>
    have hfinish : swept.yield.now ≤ swept.now + wait := by
      rw [now_yield]
      exact le_add_of_nonneg_right (not_le.mp hwait).le
    refine hyield.trans (spares_sweepUntil ?_ (isAhead_yield hperiod h) hfinish)
    rw [(resembles_yield swept).period]
    exact hperiod

/-! ### The next sweep -/

/-- From when on an entry is there to be swept by a sweeper that was started at `since`: as soon as it has expired,
but not before it is stored. -/
def deadline (since birth ttl : T) : T := max since (max birth (birth + ttl))

/-- No entry has been there to be swept for longer than a period at an instant. -/
def IsClean (swept : SweptCache T V) (since instant : T) : Prop :=
  swept.cache.Every fun _ _ birth ttl => instant ≤ deadline since birth ttl + swept.period

/-- The sweeper waits for an instant. -/
structure Sleeps (swept : SweptCache T V) (since due : T) : Prop where
  sweeper : swept.sweeper = some (.sleeping due)
  now_le : swept.now ≤ due
  due_le : due ≤ swept.now + swept.period
  clean : swept.IsClean since due

/-- The sweeper was started at `since` and works as it should, or has been stopped for good. -/
inductive IsPunctual (swept : SweptCache T V) (since : T) : Prop where
  | starting (hsweeper : swept.sweeper = some .starting) (hnow : swept.now = since)
  | sleeping (due : T) (h : swept.Sleeps since due)
  | waking (hsweeper : swept.sweeper = some .waking) (hclean : swept.IsClean since swept.now)
  | stopped (hsweeper : swept.sweeper = none) (hdisposed : swept.isDisposed = true)

omit [IsOrderedAddMonoid T] in
theorem IsPunctual.isAhead (h : swept.IsPunctual since) : swept.IsAhead := by
  intro due hsweeper
  cases h with
  | sleeping due h =>
      cases h.sweeper.symm.trans hsweeper
      exact h.now_le
  | starting hstate | waking hstate | stopped hstate => cases hstate.symm.trans hsweeper

theorem sleeps_sweep (swept : SweptCache T V) (hperiod : 0 ≤ swept.period) (since : T) :
    swept.sweep.Sleeps since (swept.now + swept.period) where
  sweeper := rfl
  now_le := le_add_of_nonneg_right hperiod
  due_le := le_rfl
  clean := by
    intro key entry hmem
    have hvalid : swept.now - entry.createdAt ≤ entry.ttl := of_decide_eq_true (List.mem_filter.mp hmem).2
    have hexpiry : swept.now ≤ deadline since entry.createdAt entry.ttl := by
      calc swept.now ≤ entry.createdAt + entry.ttl := sub_le_iff_le_add'.mp hvalid
        _ ≤ max entry.createdAt (entry.createdAt + entry.ttl) := le_max_right ..
        _ ≤ deadline since entry.createdAt entry.ttl := le_max_right ..
    exact add_le_add_left hexpiry swept.period

/-- Once it had the chance to, a sweeper waits for the next sweep. -/
theorem IsPunctual.yield (h : swept.IsPunctual since) (hperiod : 0 ≤ swept.period) :
    (∃ due, swept.yield.Sleeps since due) ∨ swept.yield.sweeper = none ∧ swept.yield.isDisposed = true := by
  unfold SweptCache.yield
  cases h with
  | starting hsweeper hnow =>
      rw [hsweeper]
      refine .inl ⟨swept.now + swept.period, rfl, le_add_of_nonneg_right hperiod, le_rfl, ?_⟩
      intro key entry hmem
      rw [hnow]
      exact add_le_add_left (le_max_left ..) swept.period
  | sleeping due h =>
      rw [h.sweeper]
      exact .inl ⟨due, h⟩
  | waking hsweeper hclean =>
      rw [hsweeper]
      exact .inl ⟨_, sleeps_sweep swept hperiod since⟩
  | stopped hsweeper hdisposed =>
      rw [hsweeper]
      exact .inr ⟨hsweeper, hdisposed⟩

/-- Time may pass up to the next sweep. -/
theorem Sleeps.pass (h : swept.Sleeps since due) (hnow : swept.now ≤ finish) (hdue : finish ≤ due) :
    Sleeps { swept with now := finish } since due :=
  ⟨h.sweeper, hdue, h.due_le.trans (add_le_add_left hnow swept.period), h.clean⟩

/-- Each sweep that the fuel pays for puts the next one off by a period. -/
theorem Sleeps.sweepUntil {fuel : Nat} {first : Bool} (h : swept.Sleeps since due) (hperiod : 0 ≤ swept.period)
    (hfinish : swept.now ≤ finish) (hfuel : finish < due + fuel • swept.period) :
    (sweepUntil fuel finish first swept).IsPunctual since := by
  fun_induction SweptCache.sweepUntil fuel finish first swept generalizing due with
  | case1 first swept fuel timer hsweeper hsweep ih =>
      cases h.sweeper.symm.trans hsweeper
      refine ih (sleeps_sweep { swept with now := timer } hperiod since) hperiod (hsweep.elim le_of_lt And.left) ?_
      rwa [succ_nsmul', ← add_assoc] at hfuel
  | case2 first swept fuel timer hsweeper hsweep hwake =>
      cases h.sweeper.symm.trans hsweeper
      obtain rfl : timer = finish := le_antisymm hwake (not_lt.mp fun hlt => hsweep (.inl hlt))
      exact .waking rfl h.clean
  | case3 first swept fuel timer hsweeper hsweep hwake =>
      cases h.sweeper.symm.trans hsweeper
      exact .sleeping timer (h.pass hfinish (not_le.mp hwake).le)
  | case4 fuel first swept hnone =>
      cases fuel with
      | zero =>
          rw [zero_nsmul, add_zero] at hfuel
          exact .sleeping due (h.pass hfinish hfuel.le)
      | succ fuel => exact absurd h.sweeper (hnone fuel due rfl)

omit [IsOrderedAddMonoid T] in
theorem sweepUntil_of_none {fuel : Nat} {first : Bool} (h : swept.sweeper = none) :
    sweepUntil fuel finish first swept = { swept with now := finish } := by
  fun_cases sweepUntil fuel finish first swept with
  | case4 => rfl
  | case1 fuel due hsweeper | case2 fuel due hsweeper | case3 fuel due hsweeper => cases h.symm.trans hsweeper

theorem IsPunctual.advanceBy {fuel : Nat} {wait : T} (h : swept.IsPunctual since) (hperiod : 0 ≤ swept.period)
    (hfuel : wait < fuel • swept.period) : (swept.advanceBy fuel wait).IsPunctual since := by
  have hyield := h.yield hperiod
  unfold SweptCache.advanceBy
  split
  · rcases hyield with ⟨due, hsleeps⟩ | ⟨hsweeper, hdisposed⟩
    · exact .sleeping due hsleeps
    · exact .stopped hsweeper hdisposed
  · next hwait =>
    unfold waitUntil
    rcases hyield with ⟨due, hsleeps⟩ | ⟨hsweeper, hdisposed⟩
    · have hnow := hsleeps.now_le
      rw [now_yield] at hnow
      rw [← (resembles_yield swept).period] at hperiod hfuel
      refine hsleeps.sweepUntil hperiod ?_ (add_lt_add_of_le_of_lt hnow hfuel)
      rw [now_yield]
      exact le_add_of_nonneg_right (not_le.mp hwait).le
    · rw [sweepUntil_of_none hsweeper]
      exact .stopped hsweeper hdisposed

/-! ### A step and a run -/

/-- A bound on the number of sweeps in a wait is enough. -/
def IsSweepBound (bound : T → T → Nat) : Prop := ∀ wait period, 0 < period → wait < bound wait period • period

/-- A call of the cache only adds what the next sweep is soon enough for. -/
theorem IsPunctual.use (h : swept.IsPunctual since) (hperiod : 0 ≤ swept.period) (call : CacheCall T V) :
    IsPunctual { swept with cache := swept.cache.step swept.now call } since := by
  have hnew (ttl : T) : swept.now ≤ deadline since swept.now ttl := (le_max_left ..).trans (le_max_right ..)
  cases h with
  | starting hsweeper hnow => exact .starting hsweeper hnow
  | sleeping due h =>
      refine .sleeping due ⟨h.sweeper, h.now_le, h.due_le, h.clean.step (fun _ _ ttl => ?_) call⟩
      exact h.due_le.trans (add_le_add_left (hnew ttl) swept.period)
  | waking hsweeper hclean =>
      refine .waking hsweeper (hclean.step (fun _ _ ttl => ?_) call)
      exact (hnew ttl).trans (le_add_of_nonneg_right hperiod)
  | stopped hsweeper hdisposed => exact .stopped hsweeper hdisposed

omit [IsOrderedAddMonoid T] in
theorem IsPunctual.start?_getD (h : swept.IsPunctual since) : swept.start?.getD swept = swept := by
  unfold start?
  split_ifs with hdisposed hrunning
  · rfl
  · rfl
  · cases h with
    | sleeping due h => simp [isRunning, h.sweeper] at hrunning
    | starting hsweeper | waking hsweeper => simp [isRunning, hsweeper] at hrunning
    | stopped hsweeper hstopped => exact absurd hstopped hdisposed

theorem IsPunctual.step (h : swept.IsPunctual since) (hperiod : 0 < swept.period) (hbound : IsSweepBound bound)
    (call : SweeperCall T V) : (swept.step bound call).IsPunctual since := by
  cases call with
  | wait time => exact h.advanceBy hperiod.le (hbound time swept.period hperiod)
  | start => rwa [SweptCache.step, h.start?_getD]
  | use call =>
      cases call with
      | dispose => exact .stopped rfl rfl
      | _ => exact h.use hperiod.le _

theorem IsPunctual.after (h : swept.IsPunctual since) (hperiod : 0 < swept.period) (hbound : IsSweepBound bound)
    (calls : List (SweeperCall T V)) : (swept.after bound calls).IsPunctual since := by
  induction calls generalizing swept with
  | nil => exact h
  | cons call calls ih => exact ih (h.step hperiod hbound call) (by rwa [period_step])

/-- As long as there is a sweeper, no entry has been there to be swept for longer than a period. -/
theorem IsPunctual.isClean (h : swept.IsPunctual since) (hperiod : 0 ≤ swept.period)
    (hrunning : swept.isRunning = true) : swept.IsClean since swept.now := by
  intro key entry hmem
  cases h with
  | starting hsweeper hnow =>
      rw [hnow]
      exact (le_max_left ..).trans (le_add_of_nonneg_right hperiod)
  | sleeping due h => exact h.now_le.trans (h.clean key entry hmem)
  | waking hsweeper hclean => exact hclean key entry hmem
  | stopped hsweeper => simp [isRunning, hsweeper] at hrunning

/-! ### A run from the beginning -/

omit [IsOrderedAddMonoid T] in
theorem isPunctual_start (hidle : swept.sweeper = none) : (swept.step bound .start).IsPunctual swept.now := by
  rw [step, start?]
  split_ifs with hdisposed hrunning
  · exact .stopped hidle hdisposed
  · exact absurd hrunning (sweeper_eq_none_iff.mp hidle)
  · exact .starting rfl rfl

/-- What a run of a cache with a sweeper comes to, told by what was called. -/
structure SweepsInTime (bound : T → T → Nat) (swept : SweptCache T V) (calls : List (SweeperCall T V)) : Prop where
  /-- There is a sweeper from the first start until the cache is disposed of. -/
  isRunning : (swept.after bound calls).isRunning = true ↔ .start ∈ calls ∧ .use .dispose ∉ calls
  /-- One that is started again goes on as it is. -/
  restart : (swept.after bound calls).isRunning = true →
    (swept.after bound calls).start? = some (swept.after bound calls)
  /-- It cannot be started once the cache has been disposed of. -/
  refused : (swept.after bound calls).start? = none ↔ .use .dispose ∈ calls
  /-- No entry has been there to be swept for longer than a period. -/
  overdue : ∀ before later, calls = before ++ .start :: later → .start ∉ before →
    (swept.after bound calls).isRunning = true → ∀ e ∈ (swept.after bound calls).cache.entries,
    (swept.after bound calls).now - deadline (swept.after bound before).now e.2.createdAt e.2.ttl ≤ swept.period
  /-- Sweeping only removes what has expired. -/
  spares : ∀ before time later, calls = before ++ .wait time :: later →
    (swept.after bound before).Spares (swept.after bound (before ++ [.wait time]))

variable {cache : Cache T V} {now period : T} {calls : List (SweeperCall T V)}

omit [IsOrderedAddMonoid T] in
theorem isRunning_after_idle : ((idle cache now period).after bound calls).isRunning = true ↔
    .start ∈ calls ∧ .use .dispose ∉ calls := by
  rw [isRunning_after (by simp [idle])]
  simp [idle, isRunning]

omit [IsOrderedAddMonoid T] in
theorem period_after (calls : List (SweeperCall T V)) : (swept.after bound calls).period = swept.period := by
  induction calls generalizing swept with
  | nil => rfl
  | cons call calls ih => exact ih.trans (period_step call)

theorem isPunctual_after (cache : Cache T V) (now : T) (hperiod : 0 < period) (hbound : IsSweepBound bound)
    {before : List (SweeperCall T V)} (hfirst : .start ∉ before) (later : List (SweeperCall T V)) :
    ((idle cache now period).after bound (before ++ .start :: later)).IsPunctual
      ((idle cache now period).after bound before).now := by
  have hidle : ((idle cache now period).after bound before).sweeper = none := by
    rw [sweeper_eq_none_iff, isRunning_after_idle]
    exact fun h => hfirst h.1
  rw [after_append]
  apply (isPunctual_start hidle).after _ hbound
  rw [period_step, period_after]
  exact hperiod

theorem isAhead_after (hperiod : 0 < period) (hbound : IsSweepBound bound) (calls : List (SweeperCall T V)) :
    ((idle cache now period).after bound calls).IsAhead := by
  by_cases hstart : .start ∈ calls
  · obtain ⟨before, later, rfl, hfirst⟩ := List.eq_append_cons_of_mem hstart
    exact (isPunctual_after cache now hperiod hbound hfirst later).isAhead
  · intro due hsweeper
    have hrunning : ((idle cache now period).after bound calls).isRunning = true := by
      rw [isRunning, hsweeper]
      rfl
    exact absurd (isRunning_after_idle.mp hrunning).1 hstart

theorem isSweepBound_sweepCount : IsSweepBound sweepCount := by
  intro wait period hperiod
  have hfloor : (wait / period).floor + 1 ≤ (sweepCount wait period : ℤ) := by
    unfold sweepCount
    omega
  have hcount : wait / period < sweepCount wait period := by
    calc wait / period < (wait / period).floor + 1 := sub_lt_iff_lt_add.mp Rat.lt_floor
      _ ≤ sweepCount wait period := by exact_mod_cast hfloor
  rw [nsmul_eq_mul]
  exact (div_lt_iff₀ hperiod).mp hcount

end SweptCache

end ManifestLens
