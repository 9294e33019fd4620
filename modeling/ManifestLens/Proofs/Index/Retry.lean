import ManifestLens.Proofs.Schedule.Solo
import ManifestLens.Service.Call

/-!
# Requests and their retries

A request is sent until an answer settles it or the attempts are used up, and between two attempts there is
one wait. Which answers settle a request, and how long each wait is, is said here without the loop: by the
status of the answer, by the wait that it states, and by its number.
-/

namespace ManifestLens

/-! ### What is to come -/

namespace AnswerScript

/-- The answers that are still to come after some requests of a URL. -/
def after (script : AnswerScript) (url : List Char) : Nat → AnswerScript
  | 0 => script
  | count + 1 => (script.next url).2.after url count

/-- What comes back from the request of a URL before which there were `index` requests of it. -/
def exchange (script : AnswerScript) (url : List Char) (index : Nat) : Exchange :=
  ((script.after url index).next url).1

theorem exchange_succ (script : AnswerScript) (url : List Char) (index : Nat) :
    script.exchange url (index + 1) = (script.next url).2.exchange url index := rfl

theorem exchange_sequence (exchanges : Nat → Exchange) (url : List Char) {count index : Nat}
    (h : index < count) :
    (sequence ((List.range count).map exchanges)).exchange url index = exchanges index := by
  induction count generalizing exchanges index with
  | zero => omega
  | succ count ih =>
      rw [List.range_succ_eq_map, List.map_cons, List.map_map]
      cases index with
      | zero => rfl
      | succ index =>
          rw [exchange_succ]
          exact ih (exchanges ∘ Nat.succ) (by omega)

end AnswerScript

namespace IndexAnswer

/-- The answer is a response with a good status. -/
def IsGood : IndexAnswer → Prop
  | .response reply => 200 ≤ reply.status ∧ reply.status < 300
  | _ => False

/-- The answer is a good response that holds an object. -/
def Carries (answer : IndexAnswer) (members : List (String × Json)) : Prop :=
  ∃ response, answer = .response response ∧ IsGood (.response response) ∧
    response.json? = some (.object members)

/-- The wait that a rate-limited answer states. -/
def statedWait? (today : DateTime) : IndexAnswer → Option Number
  | .response reply =>
      if reply.status = 429 then
        match RetryAfter.seconds? today ((reply.header? "Retry-After").getD "").toList with
        | .ok wait => wait.map .float
        | .error _ => none
      else none
  | _ => none

/-- The answer settles a request however many attempts are left: it is good, nothing is there, it limits the
rate without stating a wait, or the transport failed in a way that the client does not know. -/
def Settles (today : DateTime) : IndexAnswer → Prop
  | .response reply =>
      (200 ≤ reply.status ∧ reply.status < 300) ∨ reply.status = 404 ∨
        (reply.status = 429 ∧ statedWait? today (.response reply) = none)
  | .crashed _ => True
  | _ => False

end IndexAnswer

namespace RequestPlan

variable {plan : RequestPlan} {today : DateTime} {answer : IndexAnswer}

/-- The wait between the attempt with a number and the next one: the wait that the answer states, up to the
limit, or else the delay doubled at every attempt. -/
def pauseAfter (plan : RequestPlan) (today : DateTime) (attempt : Nat) (answer : IndexAnswer) : Number :=
  match answer.statedWait? today with
  | some wait => Number.minOf wait plan.maxRetryAfter
  | none => plan.baseDelay * .int (Nat.pow 2 (attempt - 1))

/-- What a request comes to by its last answer alone. -/
def outcome (plan : RequestPlan) (today : DateTime) (answer : IndexAnswer) :
    Except Fault (List (String × Json)) := (plan.classify today answer).bind plan.document

/-- An outcome in words: the object in a good answer, the complaint about a good answer without one, or the
failure that any other answer stands for. -/
inductive Tells (plan : RequestPlan) (today : DateTime) :
    IndexAnswer → Except Fault (List (String × Json)) → Prop where
  | object {response : HttpResponse} {members : List (String × Json)}
      (hgood : IndexAnswer.IsGood (.response response))
      (hjson : response.json? = some (.object members)) : Tells plan today (.response response) (.ok members)
  | malformed {response : HttpResponse} {error : IndexError}
      (hgood : IndexAnswer.IsGood (.response response))
      (hjson : ∀ members, response.json? ≠ some (.object members))
      (hfault : error.fault = .invalidResponse) (hurl : error.url = some (String.ofList plan.url)) :
      Tells plan today (.response response) (.error (.index error))
  | failed {answer : IndexAnswer} {fault : Fault} (hgood : ¬ answer.IsGood)
      (hfault : plan.classify today answer = .error fault) : Tells plan today answer (.error fault)

/-! ### One answer -/

theorem classify_of_isGood {response : HttpResponse} (h : IndexAnswer.IsGood (.response response)) :
    plan.classify today (.response response) = .ok response := by
  have hstatus : statusFault? (String.ofList plan.url) today response = none := if_pos h
  simp only [classify, hstatus]

theorem exists_classify_of_not_isGood (plan : RequestPlan) (today : DateTime) (h : ¬ answer.IsGood) :
    ∃ fault, plan.classify today answer = .error fault := by
  cases answer with
  | response response =>
      have hgood : ¬ (200 ≤ response.status ∧ response.status < 300) := h
      have hstatus : (statusFault? (String.ofList plan.url) today response).isSome := by
        simp only [statusFault?, if_neg hgood]
        by_cases hmissing : response.status = 404
        · rw [if_pos hmissing]
          rfl
        · rw [if_neg hmissing]
          by_cases hlimited : response.status = 429
          · rw [if_pos hlimited]
            split <;> rfl
          · rw [if_neg hlimited]
            rfl
      obtain ⟨fault, hfault⟩ := Option.isSome_iff_exists.mp hstatus
      exact ⟨fault, by simp only [classify, hfault]⟩
  | timedOut => exact ⟨_, rfl⟩
  | transportFailed reason => exact ⟨_, rfl⟩
  | requestFailed reason => exact ⟨_, rfl⟩
  | crashed reason => exact ⟨_, rfl⟩

theorem tells_outcome (plan : RequestPlan) (today : DateTime) (answer : IndexAnswer) :
    plan.Tells today answer (plan.outcome today answer) := by
  by_cases hgood : answer.IsGood
  · cases answer with
    | response response =>
        have houtcome : plan.outcome today (.response response) = plan.document response := by
          rw [outcome, classify_of_isGood hgood]
          rfl
        rw [houtcome]
        cases hjson : response.json? with
        | none =>
            simp only [document, hjson]
            exact .malformed hgood (by simp [hjson]) rfl rfl
        | some value =>
            cases value with
            | object members =>
                simp only [document, hjson]
                exact .object hgood hjson
            | null | bool | number | string | array =>
                simp only [document, hjson]
                exact .malformed hgood (by simp [hjson]) rfl rfl
    | timedOut | transportFailed | requestFailed | crashed => exact hgood.elim
  · obtain ⟨fault, hfault⟩ := exists_classify_of_not_isGood plan today hgood
    rw [outcome, hfault]
    exact .failed hgood hfault

theorem outcome_eq_ok_iff {members : List (String × Json)} :
    plan.outcome today answer = .ok members ↔ answer.Carries members := by
  constructor
  · intro h
    have htells := tells_outcome plan today answer
    rw [h] at htells
    cases htells with
    | object hgood hjson => exact ⟨_, rfl, hgood, hjson⟩
  · rintro ⟨response, rfl, hgood, hjson⟩
    rw [outcome, classify_of_isGood hgood]
    simp only [Except.bind, document, hjson]

theorem verdict_of_settles (h : answer.Settles today) (attempt : Nat) :
    plan.verdict today attempt answer = .finished (plan.classify today answer) := by
  cases answer with
  | response response =>
      by_cases hgood : 200 ≤ response.status ∧ response.status < 300
      · rw [verdict, classify_of_isGood hgood]
      · rcases h with h | h | ⟨hlimited, hstated⟩
        · exact absurd h hgood
        · simp [verdict, classify, statusFault?, h, IndexError.isRetryable]
        · rw [IndexAnswer.statedWait?, if_pos hlimited] at hstated
          simp only [verdict, classify, statusFault?, hlimited]
          cases hseconds : RetryAfter.seconds? today
              ((response.header? "Retry-After").getD "").toList with
          | error overflow => simp
          | ok wait =>
              rw [hseconds] at hstated
              simp [hstated, IndexError.isRetryable]
  | crashed reason => rfl
  | timedOut => exact h.elim
  | transportFailed reason => exact h.elim
  | requestFailed reason => exact h.elim

/-- Any other answer stands for a failure that may pass, with the wait of its number. -/
theorem exists_error_of_not_settles (plan : RequestPlan) (h : ¬ answer.Settles today) (attempt : Nat) :
    ∃ error, plan.classify today answer = .error (.index error) ∧ error.isRetryable = true ∧
      plan.waitAfter attempt error = plan.pauseAfter today attempt answer := by
  cases answer with
  | response response =>
      simp only [IndexAnswer.Settles, not_or] at h
      obtain ⟨hgood, hmissing, hlimit⟩ := h
      by_cases hlimited : response.status = 429
      · simp only [IndexAnswer.statedWait?, hlimited, if_true, true_and] at hlimit
        cases hseconds : RetryAfter.seconds? today
            ((response.header? "Retry-After").getD "").toList with
        | error overflow => simp [hseconds] at hlimit
        | ok wait =>
            cases wait with
            | none => simp [hseconds] at hlimit
            | some wait =>
                refine ⟨_, by simp only [classify, statusFault?, hlimited, hseconds]; rfl, rfl, ?_⟩
                simp [waitAfter, pauseAfter, IndexAnswer.statedWait?, hlimited, hseconds]
      · refine ⟨_, by
          simp only [classify, statusFault?, if_neg hgood, if_neg hmissing, if_neg hlimited]; rfl,
          rfl, ?_⟩
        simp [waitAfter, pauseAfter, IndexAnswer.statedWait?, hlimited]
  | timedOut => exact ⟨_, rfl, rfl, rfl⟩
  | transportFailed reason => exact ⟨_, rfl, rfl, rfl⟩
  | requestFailed reason => exact ⟨_, rfl, rfl, rfl⟩
  | crashed reason => exact absurd trivial h

end RequestPlan

/-! ### The loop -/

/-- The answer to a request of a URL before which there will be `index` requests of it. -/
def World.answerTo (world : World) (url : List Char) (index : Nat) : IndexAnswer :=
  (world.script.exchange url index).answer

/-- The world in which the answer to a request is there, at a moment of the task that sent it. -/
def World.exchanged (world : World) (moment : Moment) (request : SentRequest) : World :=
  (world.send moment.task request).2.receive moment request (world.answerTo request.url 0)

/-- What a request leaves behind that was made again a number of times, from the attempt with a number on. -/
structure RequestCourse (plan : RequestPlan) (world : World) (attempt again : Nat) (now : Binary64)
    (after : World) : Prop where
  sent : after.sent = world.sent ++ List.replicate (again + 1) plan.request
  waits : after.waits = world.waits ++ (List.range again).map fun i =>
    plan.pauseAfter world.today (attempt + i) (world.answerTo plan.url i)
  received : ∃ earlier, after.received
    = world.received ++ earlier ++ [⟨now, plan.request, world.answerTo plan.url again⟩]
  service : after.service = { world.service with client := { world.service.client with isOpen := true } }

theorem RequestCourse.single (plan : RequestPlan) (world : World) (attempt : Nat) (moment : Moment) :
    RequestCourse plan world attempt 0 moment.now (world.exchanged moment plan.request) :=
  ⟨rfl, (List.append_nil _).symm, ⟨[], by rw [List.append_nil]; rfl⟩, rfl⟩

/-- A request that is made once and then made again. -/
theorem RequestCourse.again {plan : RequestPlan} {world after : World} {attempt again : Nat}
    {now : Binary64} (moment : Moment) (record : LogRecord)
    (h : RequestCourse plan
      { (world.exchanged moment plan.request).logged record with
        waits := world.waits ++ [plan.pauseAfter world.today attempt (world.answerTo plan.url 0)] }
      (attempt + 1) again now after) :
    RequestCourse plan world attempt (again + 1) now after := by
  obtain ⟨hsent, hwaits, ⟨earlier, hreceived⟩, hservice⟩ := h
  refine ⟨?_, ?_, ⟨⟨moment.now, plan.request, world.answerTo plan.url 0⟩ :: earlier, ?_⟩, hservice⟩
  · rw [hsent, List.replicate_succ (n := again + 1), List.append_cons world.sent]
    rfl
  · rw [hwaits, List.range_succ_eq_map, List.map_cons, List.map_map, List.append_assoc]
    simp only [List.singleton_append, Nat.add_zero, Function.comp_def, Nat.succ_eq_add_one,
      Nat.add_right_comm attempt 1, Nat.add_assoc]
    rfl
  · rw [hreceived, List.append_cons world.received]
    rfl

/-- A service of the public index before anything has happened. -/
def ServiceRun.opening (script : AnswerScript) : ServiceRun :=
  { state := {
      service := {
        client := {
          baseUrl := IndexUrl.publicIndex, timeout := 10, attempts := 3, retryDelay := 1
          userAgent := IndexClient.defaultUserAgent, maxRetryAfter := 60 }
        cache := .empty 600 1000
        sweepPeriod := 300
        includePre := false }
      script
      today := ⟨2025, 1, 1, 0, 0, 0, 0, 0⟩ } }

namespace Work

variable {plan : RequestPlan}

theorem send_eq (request : SentRequest) : send request =
    .look fun moment world =>
      .change (fun _ => (world.send moment.task request).2) <|
        let exchange := (world.send moment.task request).1
        let rest : Work IndexAnswer := .look fun moment world =>
          .change (fun _ => world.receive moment request exchange.answer) (.done exchange.answer)
        if 0 < exchange.delay then .sleep exchange.delay rest else rest := by
  unfold send
  simp only [Process.bind_eq_andThen, Process.update, Process.look_andThen, Process.change_andThen,
    Process.done_andThen]
  congr 1

theorem alone_send (task : Nat) (request : SentRequest) (now : Binary64) (world : World) :
    ∃ now', (send request).alone task now world
      = some (now', world.exchanged ⟨now', task⟩ request, world.answerTo request.url 0) := by
  rw [send_eq, Process.alone_look, Process.alone_change]
  by_cases hdelay : 0 < (world.send task request).1.delay
  · simp only [if_pos hdelay]
    exact ⟨_, rfl⟩
  · simp only [if_neg hdelay]
    exact ⟨_, rfl⟩

theorem request_succ (plan : RequestPlan) (attempt left : Nat) :
    request plan attempt (left + 1) = (send plan.request).andThen fun answer =>
      .look fun _ world =>
        match plan.verdict world.today attempt answer with
        | .finished result => .done (some result)
        | .retry wait error =>
            .change (·.logged (plan.retryRecord attempt wait error)) <|
              .change (fun world => { world with waits := world.waits ++ [wait] }) <|
                .sleep wait (request plan (attempt + 1) left) := rfl

/-- An attempt on its own: what comes back decides whether there is another one, after a wait. -/
theorem exists_alone_request (plan : RequestPlan) (task : Nat) (now : Binary64) (world : World)
    (attempt left : Nat) :
    ∃ now', (request plan attempt (left + 1)).alone task now world
      = match plan.verdict world.today attempt (world.answerTo plan.url 0) with
        | .finished result => some (now', world.exchanged ⟨now', task⟩ plan.request, some result)
        | .retry wait error =>
            (request plan (attempt + 1) left).alone task (Process.wakeTime now' wait)
              { (world.exchanged ⟨now', task⟩ plan.request).logged
                  (plan.retryRecord attempt wait error) with
                waits := world.waits ++ [wait] } := by
  obtain ⟨now', hsend⟩ := alone_send task plan.request now world
  refine ⟨now', ?_⟩
  rw [request_succ, Process.alone_andThen, hsend, Option.bind_some]
  have htoday : (world.exchanged ⟨now', task⟩ plan.request).today = world.today := rfl
  have hurl : plan.request.url = plan.url := rfl
  simp only [Process.alone_look, htoday, hurl]
  cases plan.verdict world.today attempt (world.answerTo plan.url 0) <;> rfl

/-- **The loop.** A request is made until an answer settles it or the attempts are used up; it comes to what
the last answer stands for, and between two attempts it waits once. -/
theorem exists_course (plan : RequestPlan) (task : Nat) (now : Binary64) (world : World) {attempt left : Nat}
    (hattempts : attempt + left = plan.attempts) :
    ∃ again ≤ left, (∀ i < again, ¬ (world.answerTo plan.url i).Settles world.today) ∧
      (again = left ∨ (world.answerTo plan.url again).Settles world.today) ∧
      ∃ now' after, (request plan attempt (left + 1)).alone task now world
          = some (now', after, some (plan.classify world.today (world.answerTo plan.url again))) ∧
        RequestCourse plan world attempt again now' after := by
  induction left generalizing attempt now world with
  | zero =>
      have hverdict : plan.verdict world.today attempt (world.answerTo plan.url 0)
          = .finished (plan.classify world.today (world.answerTo plan.url 0)) := by
        by_cases hsettles : (world.answerTo plan.url 0).Settles world.today
        · exact RequestPlan.verdict_of_settles hsettles attempt
        · obtain ⟨error, hclassify, -, -⟩ :=
            RequestPlan.exists_error_of_not_settles plan hsettles attempt
          have hlast : ¬ attempt < plan.attempts := by omega
          simp [RequestPlan.verdict, hclassify, hlast]
      obtain ⟨now', halone⟩ := exists_alone_request plan task now world attempt 0
      rw [hverdict] at halone
      exact ⟨0, Nat.le_refl _, by simp, .inl rfl, now', _, halone,
        .single plan world attempt ⟨now', task⟩⟩
  | succ left ih =>
      obtain ⟨now', halone⟩ := exists_alone_request plan task now world attempt (left + 1)
      by_cases hsettles : (world.answerTo plan.url 0).Settles world.today
      · rw [RequestPlan.verdict_of_settles hsettles attempt] at halone
        exact ⟨0, Nat.zero_le _, by simp, .inr hsettles, now', _, halone,
          .single plan world attempt ⟨now', task⟩⟩
      · obtain ⟨error, hclassify, hretryable, hwait⟩ :=
          RequestPlan.exists_error_of_not_settles plan hsettles attempt
        have hverdict : plan.verdict world.today attempt (world.answerTo plan.url 0)
            = .retry (plan.pauseAfter world.today attempt (world.answerTo plan.url 0)) error := by
          have hmore : attempt < plan.attempts := by omega
          simp [RequestPlan.verdict, hclassify, hretryable, hmore, hwait]
        rw [hverdict] at halone
        have hnext : attempt + 1 + left = plan.attempts := by omega
        -- What is to come after the first answer is what the rest of the script holds.
        obtain ⟨again, hle, hearlier, hlast, later, after, hrest, hcourse⟩ :=
          ih (Process.wakeTime now' (plan.pauseAfter world.today attempt (world.answerTo plan.url 0)))
            { (world.exchanged ⟨now', task⟩ plan.request).logged
                (plan.retryRecord attempt
                  (plan.pauseAfter world.today attempt (world.answerTo plan.url 0)) error) with
              waits := world.waits ++
                [plan.pauseAfter world.today attempt (world.answerTo plan.url 0)] } hnext
        refine ⟨again + 1, by omega, ?_, hlast.imp (congrArg Nat.succ) id, later, after,
          halone.trans hrest, hcourse.again _ _⟩
        intro i hi
        cases i with
        | zero => exact hsettles
        | succ i => exact hearlier i (by omega)

/-! ### Documents -/

theorem getDocument_run (path : List Char) (options : RequestOptions) : (getDocument path options).run =
    .look fun _ world =>
      let plan := world.service.client.plan path options
      (request plan 1 plan.attempts).andThen fun result =>
        .done (match result with
          | some result => result.bind plan.document
          | none => .error unfinished) := by
  unfold getDocument
  simp only [ExceptT.run, ExceptT.lift, ofService, Process.read, bind, ExceptT.bind, ExceptT.mk,
    Functor.map, Process.look_andThen, Process.done_andThen, Function.comp, pure]
  congr 1
  funext moment world
  simp only [ExceptT.bindCont, Process.andThen_assoc]
  congr 1
  funext result
  cases result <;> rfl

/-- What comes of a document on its own is what its last answer comes to, the first one that settles the request
unless there is none, and what it leaves behind is the course of its request. -/
theorem exists_alone_getDocument (path : List Char) (options : RequestOptions) (task : Nat)
    (now : Binary64) (world : World) :
    ∃ again now' after, (getDocument path options).run.alone task now world
        = some (now', after, (world.service.client.plan path options).outcome world.today
          (world.answerTo (world.service.client.plan path options).url again)) ∧
      (∀ i < again, ¬ (world.answerTo (world.service.client.plan path options).url i).Settles world.today) ∧
      RequestCourse (world.service.client.plan path options) world 1 again now' after := by
  obtain ⟨left, hleft⟩ : ∃ left, (world.service.client.plan path options).attempts = left + 1 :=
    ⟨(world.service.client.plan path options).attempts - 1, by
      have hpos : 1 ≤ (world.service.client.plan path options).attempts := by
        simp only [IndexClient.plan]
        omega
      omega⟩
  obtain ⟨again, -, hearlier, -, now', after, halone, hcourse⟩ :=
    exists_course (world.service.client.plan path options) task now world
      ((Nat.add_comm 1 left).trans hleft.symm)
  rw [← hleft] at halone
  refine ⟨again, now', after, ?_, hearlier, hcourse⟩
  simp only [getDocument_run, Process.alone_look, Process.alone_andThen, halone, Option.bind_some,
    Process.alone_done]
  rfl

end Work

end ManifestLens
