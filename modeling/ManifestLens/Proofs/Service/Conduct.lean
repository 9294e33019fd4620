import ManifestLens.Proofs.Cache.Inclusion
import ManifestLens.Proofs.Schedule.Abides
import ManifestLens.Proofs.Service.Coherence

/-!
# The conduct of the service

What the work of the service does to the world comes to a few kinds of changes: requests are sent, what does not
concern the service is noted, the cache is used, fetches are listed, settings are changed, and the service is
closed. Whichever rule admits these, all that the tasks of the service do abides by it.
-/

namespace ManifestLens

/-! ### Beginning to sweep, and closing -/

namespace Process

variable {σ δ ρ α ε : Type}

/-- Asks tasks to end, one after another. -/
def stopAll (tasks : List Nat) (next : Process σ δ ρ α) : Process σ δ ρ α := tasks.foldr .cancel next

theorem forIn_stop_andThen (others : List (ε × Nat)) (next : Unit → Process σ δ ρ α) :
    (forIn others () fun (other : ε × Nat) _ => do
      (stop other.2 : Process σ δ ρ Unit); pure (ForInStep.yield ())).andThen next
      = stopAll (others.map Prod.snd) (next ()) := by
  induction others with
  | nil => rfl
  | cons other others ih =>
      rw [List.forIn_cons, List.map_cons, stopAll, List.foldr_cons]
      exact congrArg (Process.cancel other.2) ih

theorem abides_stopAll {rule : TaskRule σ δ} {tasks : List Nat} {next : Process σ δ ρ α} {state : σ} :
    (stopAll tasks next).Abides rule state ↔ next.Abides rule state := by
  induction tasks with
  | nil => rfl
  | cons task tasks ih => exact ih

end Process

namespace Work

theorem beginSweeping_run : beginSweeping.run = .look fun _ world =>
    if world.service.isDisposed then .done (.error .disposed)
    else if world.service.sweeper.isSome then .done (.ok ())
    else .spawn .sweep fun task =>
      .change (·.withService fun service => { service with sweeper := some task }) (.done (.ok ())) := by
  unfold beginSweeping
  simp only [Process.run_bind, Process.run_lift, ofService, Process.read, Process.look_andThen,
    Process.done_andThen]
  congr 1
  funext moment world
  cases hdisposed : world.service.isDisposed with
  | true => rfl
  | false => cases hsweeper : world.service.sweeper <;> rfl

/-- Closing marks the service, stops the fetches and the sweeper, and then disposes of the rest. -/
theorem close_eq : close = .look fun _ world =>
    if world.service.isClosed then .done ()
    else .change (·.withService fun service => { service with isClosed := true, inFlight := [] }) <|
      Process.stopAll (world.service.inFlight.map Prod.snd ++ world.service.sweeper.toList) <|
        .change (·.withService fun service =>
          { service with
            sweeper := none
            isDisposed := true
            cache := service.cache.clear
            client := { service.client with isOpen := false } }) (.done ()) := by
  unfold close
  change Process.look _ = _
  congr 1
  funext moment world
  cases hclosed : world.service.isClosed with
  | true =>
      simp only [Process.done_andThen, id, hclosed, if_true]
      rfl
  | false =>
      simp only [Process.done_andThen, id, hclosed, Bool.false_eq_true, if_false]
      change Process.change _ (Process.andThen (forIn _ _ _) _) = _
      rw [Process.forIn_stop_andThen, Process.stopAll, Process.stopAll, List.foldr_append]
      congr 2
      cases world.service.sweeper <;> rfl

end Work

/-! ### Rules for the work of the service -/

variable {rule : TaskRule World Errand}

/-- The work abides by the rule, whatever others do while it waits. -/
def Work.Obeys {α : Type} (rule : TaskRule World Errand) (work : Work α) : Prop :=
  ∀ world, rule.holds world → Process.Abides rule work world

/-- The rule admits what the work of the service does. -/
structure TaskRule.AdmitsWork (rule : TaskRule World Errand) : Prop where
  /-- A request is sent. -/
  send : ∀ (world : World) (task : Nat) (request : SentRequest), rule.change world (world.send task request).2
  /-- Something is noted that does not concern the service. -/
  note : ∀ {before after : World}, after.service = before.service → after.sent = before.sent →
    rule.change before after
  /-- The cache is used, without a change of its settings. -/
  use : ∀ {before after : World} (now : Number) (call : CacheCall Number CachedView), ¬ call.Adjusts →
    after.service = { before.service with cache := before.service.cache.step now call } →
    after.sent = before.sent → rule.change before after
  /-- A fetch is listed, or listed no longer. -/
  list : ∀ {before after : World} (inFlight : List (String × Nat)),
    after.service = { before.service with inFlight } → after.sent = before.sent → rule.change before after
  fetch : ∀ name, rule.start (.fetch name)
  prefetchOne : ∀ name includePre slots, rule.start (.prefetchOne name includePre slots)
  together : ∀ {calls : List ServiceCall}, rule.start (.call (.together calls)) →
    ∀ call ∈ calls, rule.start (.call call)
  setBaseUrl : ∀ {url : List Char} {world moved : World}, rule.start (.call (.setBaseUrl url)) →
    world.setBaseUrl url = .ok moved → rule.change world moved
  adopt : ∀ {config : Config} (world : World), rule.start (.call (.adopt config)) →
    rule.change world (world.adopt config).2
  beginSweeping : Work.Obeys rule Work.beginSweeping.run
  close : Work.Obeys rule Work.close

/-- What the tasks of the service do abides by the rule, and so do changes of the surroundings. -/
structure TaskRule.AdmitsSurroundings (rule : TaskRule World Errand) : Prop where
  program : Work.program.Abides rule
  surroundings : ∀ (world : World) (script : AnswerScript) (today : DateTime),
    rule.change world { world with script, today }

namespace Work

/-! ### Sequences -/

section Sequence

variable {α β : Type}

theorem Obeys.bind {work : Work α} {f : α → Work β} (h : Obeys rule work) (hnext : ∀ value, Obeys rule (f value)) :
    Obeys rule (work >>= f) :=
  fun world hworld => (h world hworld).andThen hworld fun value later hlater => hnext value later hlater

theorem obeys_bind {work : FallibleWork α} {f : α → FallibleWork β} (h : Obeys rule work.run)
    (hnext : ∀ value, Obeys rule (f value).run) : Obeys rule (work >>= f).run := by
  intro world hworld
  rw [Process.run_bind]
  refine (h world hworld).andThen hworld fun result later hlater => ?_
  cases result with
  | ok value => exact hnext value later hlater
  | error fault => trivial

theorem Obeys.lift {work : Work α} (h : Obeys rule work) : Obeys rule (ExceptT.lift work : FallibleWork α).run :=
  h.bind fun _ _ _ => trivial

theorem obeys_done (value : α) : Obeys rule (.done value) := fun _ _ => trivial

theorem obeys_read (f : Moment → World → α) : Obeys rule (Process.read f) := fun _ _ _ => trivial

theorem obeys_modify {f : World → World} (h : ∀ world, rule.change world (f world)) :
    Obeys rule (Process.modify f) := fun world _ => ⟨h world, trivial⟩

theorem obeys_update {f : Moment → World → α × World}
    (h : ∀ (moment : Moment) (world : World), rule.change world (f moment world).2) :
    Obeys rule (Process.update f) := fun world _ moment => ⟨h moment world, trivial⟩

theorem obeys_wait (seconds : Number) : Obeys rule (Process.wait seconds) := fun _ _ _ _ => trivial

theorem obeys_start (errand : Errand) (h : rule.start errand) : Obeys rule (Process.start errand) :=
  fun _ _ => ⟨h, fun _ => trivial⟩

theorem obeys_awaitAll (tasks : List Nat) (eager : Bool) : Obeys rule (Process.awaitAll tasks eager) :=
  fun _ _ _ _ _ => trivial

theorem obeys_mapM {f : α → FallibleWork β} {as : List α} (h : ∀ a ∈ as, Obeys rule (f a).run) :
    Obeys rule (as.mapM f).run := by
  suffices hloop : ∀ bs : List β, Obeys rule (List.mapM.loop f as bs).run from hloop []
  induction as with
  | nil => exact fun bs => obeys_done _
  | cons a as ih =>
      obtain ⟨hfirst, hrest⟩ := List.forall_mem_cons.mp h
      exact fun bs => obeys_bind hfirst fun b => ih hrest (b :: bs)

theorem obeys_attempt {f : World → Except Fault World}
    (h : ∀ {world after}, f world = .ok after → rule.change world after) : Obeys rule (attempt f).run := by
  refine obeys_update fun _ world => ?_
  split
  · next hafter => exact h hafter
  · exact rule.refl world

theorem obeys_together {calls : List ServiceCall} (h : ∀ call ∈ calls, rule.start (.call call)) :
    Obeys rule (perform (.together calls)).run := by
  refine obeys_bind (obeys_mapM fun call hmem => (obeys_start (.call call) (h call hmem)).lift) fun tasks =>
    obeys_bind (obeys_awaitAll tasks false).lift fun results => ?_
  cases results <;> exact obeys_done _

end Sequence

variable (hrule : rule.AdmitsWork)

include hrule

/-! ### Requests -/

theorem obeys_log (record : LogRecord) : Obeys rule (log record) := obeys_modify fun _ => hrule.note rfl rfl

theorem obeys_send (request : SentRequest) : Obeys rule (send request) := by
  unfold send
  refine (obeys_update fun moment world => hrule.send world moment.task request).bind fun exchange => ?_
  have hreceive : ∀ answer, Obeys rule (Process.update fun moment world =>
      ((), world.receive moment request answer)) := fun answer => obeys_update fun _ _ => hrule.note rfl rfl
  dsimp only
  split
  · exact (obeys_wait _).bind fun _ => (hreceive _).bind fun _ => obeys_done _
  · exact (hreceive _).bind fun _ => obeys_done _

theorem obeys_request (plan : RequestPlan) (attempt left : Nat) : Obeys rule (request plan attempt left) := by
  induction left generalizing attempt with
  | zero => exact obeys_done _
  | succ left ih =>
      unfold request
      refine (obeys_send hrule _).bind fun answer => (obeys_read _).bind fun today => ?_
      split
      · exact obeys_done _
      · refine (obeys_log hrule _).bind fun _ => (obeys_modify ?_).bind fun _ => (obeys_wait _).bind fun _ => ih _
        exact fun world => hrule.note rfl rfl

theorem obeys_getDocument (path : List Char) (options : RequestOptions) :
    Obeys rule (getDocument path options).run := by
  unfold getDocument
  refine obeys_bind (obeys_read _).lift fun plan => obeys_bind (obeys_request hrule plan 1 _).lift fun result => ?_
  cases result <;> exact obeys_done _

theorem obeys_ping (timeout : Option Number) : Obeys rule (ping timeout).run := by
  unfold ping
  refine obeys_bind (obeys_read _).lift fun client => obeys_bind (obeys_send hrule _).lift fun answer => ?_
  cases answer <;> first
    | exact obeys_bind (obeys_log hrule _).lift fun _ => obeys_done _
    | exact obeys_done _

/-! ### Lookups -/

theorem obeys_cached (key : String) : Obeys rule (Process.update fun moment world => world.cached moment.now key) :=
  obeys_update fun moment world =>
    hrule.use (.float moment.now) (.get key) id (world.cached_service ..) (world.cached_sent ..)

theorem obeys_store (key : String) (view : CachedView) (ttl : Option Number) :
    Obeys rule (Process.update fun moment world => ((), world.store moment.now key view ttl)) :=
  obeys_update fun moment _ => hrule.use (.float moment.now) (.set key view ttl) id rfl rfl

theorem obeys_sharedFetch (name : String) : Obeys rule (sharedFetch name) := by
  unfold sharedFetch
  refine (obeys_read _).bind fun listed => ?_
  split
  · exact obeys_done _
  · refine (obeys_start (.fetch name) (hrule.fetch name)).bind fun task =>
      (obeys_modify ?_).bind fun _ => obeys_done _
    exact fun world => hrule.list _ rfl rfl

theorem obeys_fetchDocument (name : String) : Obeys rule (fetchDocument name).run := by
  rw [fetchDocument_run]
  exact (obeys_sharedFetch hrule name).bind fun task world _ result later _ => trivial

theorem obeys_lookup (view : Lookup) (name : String) : Obeys rule (lookup view name).run := by
  unfold lookup
  refine obeys_bind (obeys_cached hrule _).lift fun found => ?_
  cases found with
  | some view => exact obeys_done _
  | none =>
      exact obeys_bind (obeys_fetchDocument hrule name) fun document => obeys_bind (obeys_done _) fun view =>
        obeys_bind (obeys_store hrule _ _ _).lift fun _ => obeys_done _

theorem obeys_metadata (name : String) (includePre : Option Bool) : Obeys rule (metadata name includePre).run := by
  unfold metadata
  refine obeys_bind (obeys_read _).lift fun _ => obeys_bind (obeys_lookup hrule _ name) fun found => ?_
  cases found <;> exact obeys_done _

theorem obeys_releases (name : String) (includePre : Option Bool) : Obeys rule (releases name includePre).run := by
  unfold releases
  refine obeys_bind (obeys_read _).lift fun _ => obeys_bind (obeys_lookup hrule _ name) fun found => ?_
  cases found <;> exact obeys_done _

theorem obeys_info (name : String) : Obeys rule (info name).run := by
  unfold info
  refine obeys_bind (obeys_lookup hrule _ name) fun found => ?_
  cases found <;> exact obeys_done _

/-! ### Prefetching -/

theorem obeys_updateSlots {α : Type} (index : Nat) (f : Moment → Slots → α × Slots) (default : α) :
    Obeys rule (updateSlots index f default) := by
  unfold updateSlots
  refine obeys_update fun moment world => ?_
  split <;> exact hrule.note rfl rfl

omit hrule in
theorem obeys_rouse (task : Option Nat) : Obeys rule (rouse task) := by
  cases task <;> exact fun _ _ => trivial

theorem obeys_takeSlot (index : Nat) : Obeys rule (takeSlot index) := by
  unfold takeSlot
  refine (obeys_updateSlots hrule _ _ _).bind fun taken => ?_
  cases taken with
  | true => exact obeys_done _
  | false =>
      have hpause : Obeys rule Process.pause := fun _ _ _ _ => trivial
      exact hpause.bind fun _ => (obeys_updateSlots hrule _ _ _).bind fun task => obeys_rouse task

theorem obeys_prefetchOne (name : String) (includePre : Option Bool) (slots : Nat) :
    Obeys rule (prefetchOne name includePre slots) := by
  unfold prefetchOne
  have hgive : ∀ outcome : Outcome, Obeys rule (do giveSlot slots; return outcome) := fun outcome =>
    Obeys.bind ((obeys_updateSlots hrule _ _ _).bind fun task => obeys_rouse task) fun _ => obeys_done _
  refine (obeys_takeSlot hrule slots).bind fun _ => (obeys_metadata hrule name includePre).bind fun result => ?_
  cases result with
  | ok metadata => exact hgive _
  | error fault =>
      cases fault with
      | index error => exact (obeys_log hrule _).bind fun _ => hgive _
      | _ => exact hgive _

theorem obeys_prefetch (names : List String) (includePre : Option Bool) (concurrency : Int) :
    Obeys rule (prefetch names includePre concurrency).run := by
  unfold prefetch
  refine obeys_bind (obeys_update fun _ _ => hrule.note rfl rfl).lift fun slots =>
    obeys_bind (obeys_mapM fun name _ =>
      (obeys_start (.prefetchOne name includePre slots) (hrule.prefetchOne ..)).lift) fun tasks =>
    obeys_bind (obeys_awaitAll tasks true).lift fun results => ?_
  cases results with
  | failed result => exact obeys_bind (obeys_done _) fun _ => obeys_done _
  | all results => exact obeys_bind (obeys_done _) fun _ => obeys_done _

/-! ### Other calls and tasks -/

theorem obeys_noteReachable (key : String) (answer : Bool) : Obeys rule (noteReachable key answer) := by
  have hstore := obeys_store hrule key (.reachable answer) (some connectivityLifetime)
  unfold noteReachable
  cases answer with
  | true => exact hstore
  | false => exact (obeys_read _).bind fun _ => (obeys_log hrule _).bind fun _ => hstore

theorem obeys_connectivity : Obeys rule connectivity.run := by
  unfold connectivity
  refine obeys_bind (obeys_read _).lift fun key => obeys_bind (obeys_cached hrule key).lift fun found => ?_
  split
  · exact obeys_done _
  · exact obeys_bind (obeys_ping hrule none) fun answer =>
      obeys_bind (obeys_noteReachable hrule key answer).lift fun _ => obeys_done _

theorem obeys_sweep (sweeps : Nat) : Obeys rule (sweep sweeps) := by
  induction sweeps with
  | zero => exact obeys_done _
  | succ sweeps ih =>
      unfold sweep
      refine (obeys_read _).bind fun period => (obeys_wait period).bind fun _ =>
        Obeys.bind (obeys_update fun moment world => ?_) fun _ => ih
      dsimp only
      split <;> exact hrule.use (.float moment.now) .purge id rfl rfl

theorem obeys_emptyCache : Obeys rule (Process.modify World.emptyCache) :=
  obeys_modify fun world => hrule.use (.int 0) .clear id world.emptyCache_service world.emptyCache_sent

/-- **A call** that may be made obeys the rule. -/
theorem obeys_perform {call : ServiceCall} (hstart : rule.start (.call call)) : Obeys rule (perform call).run := by
  cases call with
  | metadata name includePre => exact obeys_bind (obeys_metadata hrule name includePre) fun _ => obeys_done _
  | releases name includePre => exact obeys_bind (obeys_releases hrule name includePre) fun _ => obeys_done _
  | info name => exact obeys_bind (obeys_info hrule name) fun _ => obeys_done _
  | latest name => exact obeys_bind (obeys_metadata hrule name (some false)) fun _ => obeys_done _
  | compatible name includePre python =>
      exact obeys_bind (obeys_metadata hrule name includePre) fun _ =>
        obeys_bind (obeys_done _) fun _ => obeys_done _
  | card name includePre python =>
      exact obeys_bind (obeys_metadata hrule name includePre) fun _ =>
        obeys_bind (obeys_releases hrule name includePre) fun _ => obeys_bind (obeys_info hrule name) fun _ =>
          obeys_bind (obeys_done _) fun _ => obeys_done _
  | prefetch names includePre concurrency =>
      exact obeys_bind (obeys_prefetch hrule names includePre concurrency) fun _ => obeys_done _
  | connectivity => exact obeys_bind (obeys_connectivity hrule) fun _ => obeys_done _
  | wait seconds => exact obeys_bind (obeys_wait seconds).lift fun _ => obeys_done _
  | emptyCache => exact obeys_bind (obeys_emptyCache hrule).lift fun _ => obeys_done _
  | setBaseUrl url => exact obeys_bind (obeys_attempt (hrule.setBaseUrl hstart)) fun _ => obeys_done _
  | adopt config =>
      exact obeys_bind (obeys_update fun _ world => hrule.adopt world hstart) fun _ => obeys_done _
  | statistics => exact obeys_bind (obeys_read _).lift fun _ => obeys_done _
  | keys => exact obeys_bind (obeys_read _).lift fun _ => obeys_done _
  | beginSweeping => exact obeys_bind hrule.beginSweeping fun _ => obeys_done _
  | close => exact obeys_bind hrule.close.lift fun _ => obeys_done _
  | settings => exact obeys_bind (obeys_read _).lift fun _ => obeys_done _
  | together calls => exact obeys_together (hrule.together hstart)

/-- **A task** that may be started obeys the rule. -/
theorem obeys_run {errand : Errand} (hstart : rule.start errand) : Obeys rule (run errand) := by
  cases errand with
  | fetch name => exact (obeys_getDocument hrule _ _).bind fun _ => obeys_done _
  | call asked => exact obeys_perform hrule hstart
  | prefetchOne name includePre slots => exact obeys_prefetchOne hrule name includePre slots
  | lookup view name => exact (obeys_lookup hrule view name).bind fun _ => obeys_done _
  | sweep => exact obeys_sweep hrule _

/-- Whatever the tasks of the service do abides by a rule that admits the work of the service. -/
theorem admitsSurroundings : rule.AdmitsSurroundings where
  program := {
    body := fun _ hstart world hworld => obeys_run hrule hstart world hworld
    onCancel := fun _ _ _ => hrule.note rfl rfl
    onEnd := fun _ _ _ => hrule.list _ rfl rfl }
  surroundings _ _ _ := hrule.note rfl rfl

end Work

end ManifestLens
