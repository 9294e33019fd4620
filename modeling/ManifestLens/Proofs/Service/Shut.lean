import ManifestLens.Proofs.Error.Result
import ManifestLens.Proofs.Service.Reconfiguration

/-!
# A service that is shut

A service that was closed refuses to be swept again, and closing it once more does nothing. Nothing else depends
on whether it was closed: who asks for a package or checks the index sends a request, which opens the connection.
So two rules hold among the tasks of a service. Once it is shut it stays so, and the connection is open just if it
was open before or something was sent; and when it is shut, tasks that ask the index for nothing leave the
connection as it is.
-/

namespace ManifestLens

namespace Service

/-- The service was closed, and no sweeper is on its way. -/
structure IsShut (service : Service) : Prop where
  isClosed : service.isClosed = true
  isDisposed : service.isDisposed = true
  sweeper : service.sweeper = none

/-- Only a service that was closed refuses to be swept. -/
def IsOrderly (service : Service) : Prop := service.isDisposed = true → service.isClosed = true

theorem isOrderly_of_ofConfig {config : Config} {service : Service} (h : ofConfig config = .ok service) :
    service.IsOrderly := by
  obtain ⟨client, -, h⟩ := bind_eq_ok_iff.mp h
  simp only at h
  split at h
  · cases h
  · cases h
    exact nofun

end Service

namespace World

/-! ### What the tasks do to a service that is shut -/

/-- Nothing is sent, and neither the connection nor the service is opened or closed. -/
structure Silent (before after : World) : Prop where
  sent : after.sent = before.sent
  isOpen : after.service.client.isOpen = before.service.client.isOpen
  isClosed : after.service.isClosed = before.service.isClosed
  isDisposed : after.service.isDisposed = before.service.isDisposed
  sweeper : after.service.sweeper = before.service.sweeper

/-- The service is neither opened nor closed, and the connection is open just if it was open or something was
sent. -/
structure Lingers (before after : World) : Prop where
  sent : before.sent <+: after.sent
  isOpen_iff : after.service.client.isOpen = true ↔
    before.service.client.isOpen = true ∨ before.sent.length < after.sent.length
  isClosed : after.service.isClosed = before.service.isClosed
  isDisposed : after.service.isDisposed = before.service.isDisposed
  sweeper : after.service.sweeper = before.service.sweeper

variable {before after : World}

namespace Silent

theorem refl (world : World) : world.Silent world := ⟨rfl, rfl, rfl, rfl, rfl⟩

theorem trans {a b c : World} (hab : a.Silent b) (hbc : b.Silent c) : a.Silent c :=
  ⟨hbc.sent.trans hab.sent, hbc.isOpen.trans hab.isOpen, hbc.isClosed.trans hab.isClosed,
    hbc.isDisposed.trans hab.isDisposed, hbc.sweeper.trans hab.sweeper⟩

theorem isShut (h : before.Silent after) (hshut : before.service.IsShut) : after.service.IsShut :=
  ⟨h.isClosed.trans hshut.isClosed, h.isDisposed.trans hshut.isDisposed, h.sweeper.trans hshut.sweeper⟩

/-- The cache and the list of the fetches may change. -/
theorem of_service {cache : Cache Number CachedView} {inFlight : List (String × Nat)}
    (hservice : after.service = { before.service with cache, inFlight }) (hsent : after.sent = before.sent) :
    before.Silent after := by
  refine ⟨hsent, ?_, ?_, ?_, ?_⟩ <;> rw [hservice]

theorem lingers (h : before.Silent after) : before.Lingers after := by
  refine ⟨h.sent ▸ List.prefix_refl _, ?_, h.isClosed, h.isDisposed, h.sweeper⟩
  rw [h.isOpen, h.sent]
  simp

end Silent

namespace Lingers

theorem trans {a b c : World} (hab : a.Lingers b) (hbc : b.Lingers c) : a.Lingers c := by
  refine ⟨hab.sent.trans hbc.sent, ?_, hbc.isClosed.trans hab.isClosed, hbc.isDisposed.trans hab.isDisposed,
    hbc.sweeper.trans hab.sweeper⟩
  have hfirst := hab.sent.length_le
  have hsecond := hbc.sent.length_le
  rw [hbc.isOpen_iff, hab.isOpen_iff, or_assoc]
  refine or_congr_right ⟨fun h => ?_, fun h => ?_⟩ <;> omega

theorem isShut (h : before.Lingers after) (hshut : before.service.IsShut) : after.service.IsShut :=
  ⟨h.isClosed.trans hshut.isClosed, h.isDisposed.trans hshut.isDisposed, h.sweeper.trans hshut.sweeper⟩

end Lingers

/-- The service stays in order, and from when it is shut it lingers; what was sent stays noted. -/
structure LivesOn (before after : World) : Prop where
  orderly : before.service.IsOrderly → after.service.IsOrderly
  sent : before.sent <+: after.sent
  lingers : before.service.IsShut → before.Lingers after

theorem LivesOn.trans {a b c : World} (hab : a.LivesOn b) (hbc : b.LivesOn c) : a.LivesOn c :=
  ⟨hbc.orderly ∘ hab.orderly, hab.sent.trans hbc.sent,
    fun hshut => (hab.lingers hshut).trans (hbc.lingers ((hab.lingers hshut).isShut hshut))⟩

theorem Lingers.livesOn (h : before.Lingers after) : before.LivesOn after := by
  refine ⟨fun horderly => ?_, h.sent, fun _ => h⟩
  rw [Service.IsOrderly, h.isDisposed, h.isClosed]
  exact horderly

theorem Silent.livesOn (h : before.Silent after) : before.LivesOn after := h.lingers.livesOn

theorem lingers_send (world : World) (task : Nat) (request : SentRequest) :
    world.Lingers (world.send task request).2 := by
  refine ⟨List.prefix_append _ _, ?_, rfl, rfl, rfl⟩
  have hmore : world.sent.length < (world.send task request).2.sent.length := by
    change _ < (world.sent ++ [request]).length
    simp
  exact iff_of_true rfl (.inr hmore)

theorem silent_emptyCache (world : World) : world.Silent world.emptyCache :=
  .of_service world.emptyCache_service world.emptyCache_sent

theorem silent_setBaseUrl {world moved : World} {url : List Char} (h : world.setBaseUrl url = .ok moved) :
    world.Silent moved := by
  obtain ⟨client, hclient, hservice, -, hsent⟩ := service_of_setBaseUrl h
  have hopen : client.isOpen = world.service.client.isOpen := by
    rw [IndexClient.withBaseUrl] at hclient
    cases hurl : IndexUrl.normalize url with
    | error fault =>
        rw [hurl] at hclient
        cases hclient
    | ok normalized =>
        rw [hurl] at hclient
        cases hclient
        rfl
  exact ⟨hsent, by rw [hservice, hopen], by rw [hservice], by rw [hservice], by rw [hservice]⟩

theorem silent_adopt (world : World) (config : Config) : world.Silent (world.adopt config).2 :=
  adopt_steps Silent .trans config (fun _ => ⟨rfl, rfl, rfl, rfl, rfl⟩) (fun _ => ⟨rfl, rfl, rfl, rfl, rfl⟩)
    (fun _ => .of_service rfl rfl) silent_setBaseUrl (fun _ _ => ⟨rfl, rfl, rfl, rfl, rfl⟩) world

end World

/-! ### The rules -/

/-- The call may send a request, or one of the calls does that it makes at once. -/
inductive ServiceCall.Asks : ServiceCall → Prop
  | lookup {call : ServiceCall} (h : call.isLookup = true) : call.Asks
  | compatible (name : String) (includePre : Option Bool) (python : String) : Asks (.compatible name includePre python)
  | card (name : String) (includePre : Option Bool) (python : String) : Asks (.card name includePre python)
  | prefetch (names : List String) (includePre : Option Bool) (concurrency : Int) :
      Asks (.prefetch names includePre concurrency)
  | connectivity : Asks .connectivity
  | together {calls : List ServiceCall} {call : ServiceCall} (hmem : call ∈ calls) (h : call.Asks) :
      Asks (.together calls)

/-- The task is a call that sends no request. -/
def Errand.IsQuiet : Errand → Prop
  | .call asked => ¬ asked.Asks
  | _ => False

namespace World

/-- Whatever is started, a service in order lives on. -/
def lifeRule : TaskRule World Errand where
  holds world := world.service.IsOrderly
  change := LivesOn
  start _ := True
  refl world := (Silent.refl world).livesOn
  trans := .trans
  keeps horderly hlives := hlives.orderly horderly

/-- While the service is shut, nothing is started that sends requests, and none is sent. -/
def silentRule : TaskRule World Errand where
  holds world := world.service.IsShut
  change := Silent
  start := Errand.IsQuiet
  refl := .refl
  trans := .trans
  keeps hshut hsilent := hsilent.isShut hshut

end World

/-! ### The life of a service -/

namespace Work

theorem obeys_beginSweeping_lifeRule : Obeys World.lifeRule beginSweeping.run := by
  intro world _
  rw [beginSweeping_run]
  intro moment
  dsimp only
  split
  · trivial
  · next hopen =>
    split
    · trivial
    · exact ⟨trivial, fun task =>
        ⟨⟨id, List.prefix_refl _, fun hshut => absurd hshut.isDisposed hopen⟩, trivial⟩⟩

theorem obeys_close_lifeRule : Obeys World.lifeRule close := by
  intro world horderly
  rw [close_eq]
  intro moment
  dsimp only
  split
  · trivial
  · next hopen =>
    have hmarked : ¬ world.service.IsShut := fun hshut => hopen hshut.isClosed
    have hdisposed : ¬ world.service.isDisposed = true := fun hdisposed => hopen (horderly hdisposed)
    exact ⟨⟨fun _ _ => rfl, List.prefix_refl _, fun hshut => absurd hshut hmarked⟩, Process.abides_stopAll.mpr
      ⟨⟨fun _ _ => rfl, List.prefix_refl _, fun hshut => absurd hshut.isDisposed hdisposed⟩, trivial⟩⟩

end Work

theorem World.admitsWork_lifeRule : lifeRule.AdmitsWork where
  send world task request := (world.lingers_send task request).livesOn
  note hservice hsent := (Silent.of_service hservice hsent).livesOn
  use _ _ _ hservice hsent := (Silent.of_service hservice hsent).livesOn
  list _ hservice hsent := (Silent.of_service hservice hsent).livesOn
  fetch _ := trivial
  prefetchOne _ _ _ := trivial
  together _ _ _ := trivial
  setBaseUrl _ h := (silent_setBaseUrl h).livesOn
  adopt world _ := (world.silent_adopt _).livesOn
  beginSweeping := Work.obeys_beginSweeping_lifeRule
  close := Work.obeys_close_lifeRule

theorem World.admitsSurroundings_lifeRule : lifeRule.AdmitsSurroundings :=
  Work.admitsSurroundings admitsWork_lifeRule

/-! ### Silence of a service that is shut -/

namespace Work

theorem obeys_beginSweeping_silentRule : Obeys World.silentRule beginSweeping.run := by
  intro world hshut
  rw [beginSweeping_run]
  intro moment
  dsimp only
  rw [if_pos hshut.isDisposed]
  trivial

theorem obeys_close_silentRule : Obeys World.silentRule close := by
  intro world hshut
  rw [close_eq]
  intro moment
  dsimp only
  rw [if_pos hshut.isClosed]
  trivial

theorem obeys_perform_silentRule {call : ServiceCall} (h : ¬ call.Asks) :
    Obeys World.silentRule (perform call).run := by
  cases call with
  | metadata | releases | info | latest => exact absurd (.lookup rfl) h
  | compatible name includePre python => exact absurd (.compatible ..) h
  | card name includePre python => exact absurd (.card ..) h
  | prefetch names includePre concurrency => exact absurd (.prefetch ..) h
  | connectivity => exact absurd .connectivity h
  | wait seconds => exact obeys_bind (obeys_wait seconds).lift fun _ => obeys_done _
  | emptyCache => exact obeys_bind (obeys_modify World.silent_emptyCache).lift fun _ => obeys_done _
  | setBaseUrl url => exact obeys_bind (obeys_attempt World.silent_setBaseUrl) fun _ => obeys_done _
  | adopt config => exact obeys_bind (obeys_update fun _ world => world.silent_adopt config) fun _ => obeys_done _
  | statistics | keys | settings => exact obeys_bind (obeys_read _).lift fun _ => obeys_done _
  | beginSweeping => exact obeys_bind obeys_beginSweeping_silentRule fun _ => obeys_done _
  | close => exact obeys_bind obeys_close_silentRule.lift fun _ => obeys_done _
  | together calls => exact obeys_together fun call hmem hasks => h (.together hmem hasks)

end Work

theorem World.admitsSurroundings_silentRule : silentRule.AdmitsSurroundings where
  program := {
    body := fun errand hquiet world hworld => by
      cases errand with
      | call asked => exact Work.obeys_perform_silentRule hquiet world hworld
      | _ => exact hquiet.elim
    onCancel := fun _ _ _ => .of_service rfl rfl
    onEnd := fun _ _ _ => .of_service rfl rfl }
  surroundings _ _ _ := .of_service rfl rfl

end ManifestLens
