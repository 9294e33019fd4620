import ManifestLens.Proofs.Index.Retry

/-!
# Every answer is classified

Whatever comes back from an index, a request comes to the object of its last answer or to a failure that names
the class of that answer and the URL. There is one exception, and it is shown to be the only one: a
rate-limited answer may state its wait as a date with a part too great for any date, and such a date ends the
request with a fault outside the classes.

The delays are numbers of any size, while a wait has to be a double. How far that carries is said by
`RequestPlan.IsInRange`, which asks nothing of the delays and limits in use.
-/

namespace ManifestLens

/-! ### Waits -/

namespace RetryAfter

/-- The header states a date of which a part is too great. -/
def IsHugeDate (header : List Char) : Prop :=
  Literal.double? (Text.trim header) = none ∧ MailDate.parse (Text.trim header) = .error .overflow

theorem nonNegative_nonneg (seconds : Binary64) :
    Binary64.le (.finite 0) (nonNegative seconds) = true := by
  rw [nonNegative]
  split
  · next h =>
      cases seconds with
      | finite value =>
          have hvalue : decide (value ≤ 0) = false := Bool.not_eq_true' _ ▸ h
          exact decide_eq_true (Rat.le_total.resolve_right (of_decide_eq_false hvalue))
      | negativeZero => decide
      | infinite negative =>
          cases negative with
          | true => exact absurd h (by decide)
          | false => rfl
      | nan => exact absurd h (by decide)
  · decide

/-- **A stated wait** is no negative number. -/
theorem nonneg_of_seconds? {now : DateTime} {header : List Char} {seconds : Binary64}
    (h : seconds? now header = .ok (some seconds)) : Binary64.le (.finite 0) seconds = true := by
  simp only [seconds?] at h
  split at h
  · cases h
  · split at h
    · cases h
      exact nonNegative_nonneg _
    · split at h
      · cases h
        exact nonNegative_nonneg _
      · cases h
      · cases h

/-- **A header fails** just by a huge date. -/
theorem seconds?_eq_error_iff {now : DateTime} {header : List Char} :
    seconds? now header = .error ⟨⟩ ↔ IsHugeDate header := by
  constructor
  · intro h
    simp only [seconds?] at h
    split at h
    · cases h
    · split at h
      · cases h
      · next hdouble =>
          split at h
          · cases h
          · cases h
          · next hdate => exact ⟨hdouble, hdate⟩
  · rintro ⟨hdouble, hdate⟩
    have hne : (Text.trim header).isEmpty = false := by
      cases hvalue : Text.trim header with
      | nil =>
          rw [hvalue] at hdate
          have hempty : MailDate.parse [] = .error .malformed := rfl
          rw [hempty] at hdate
          cases hdate
      | cons c rest => rfl
    simp only [seconds?, hne, Bool.false_eq_true, if_false, hdouble, hdate]

end RetryAfter

namespace Number

/-- As a double the number is finite. -/
def IsFinite (a : Number) : Prop := a.toBinary64.toRat?.isSome = true

instance decidableIsFinite (a : Number) : Decidable a.IsFinite :=
  inferInstanceAs (Decidable (a.toBinary64.toRat?.isSome = true))

theorem isFinite_minOf {wait : Binary64} {limit : Number} (hlimit : limit.IsFinite)
    (hwait : Binary64.le (.finite 0) wait = true) : (minOf (.float wait) limit).IsFinite := by
  rw [minOf]
  split
  · exact hlimit
  · next hle =>
      cases wait with
      | finite value => rfl
      | negativeZero => rfl
      | nan => cases hwait
      | infinite negative =>
          cases negative with
          | true => cases hwait
          | false =>
              refine absurd ?_ hle
              cases limit with
              | int n => rfl
              | float x =>
                  cases x with
                  | finite value => rfl
                  | negativeZero => rfl
                  | infinite negative => cases hlimit
                  | nan => cases hlimit

end Number

/-! ### Answers -/

namespace IndexAnswer

/-- The answer is of a kind that a client knows: a response, or a failure of the transport or the request. -/
def IsKnown : IndexAnswer → Prop
  | .crashed _ => False
  | _ => True

/-- The class of failure that an answer stands for if it does not carry a document. -/
def failureClass : IndexAnswer → IndexFault
  | .response reply =>
      if 200 ≤ reply.status ∧ reply.status < 300 then .invalidResponse
      else if reply.status = 404 then .packageNotFound
      else if reply.status = 429 then .rateLimited
      else .network
  | .timedOut => .timeout
  | .transportFailed _ => .network
  | .requestFailed _ => .network
  | .crashed _ => .unclassified

/-- The answer limits the rate until a date of which a part is too great. -/
def StatesHugeDate : IndexAnswer → Prop
  | .response reply =>
      reply.status = 429 ∧ RetryAfter.IsHugeDate ((reply.header? "Retry-After").getD "").toList
  | _ => False

theorem not_isGood_of_statesHugeDate {answer : IndexAnswer} (h : answer.StatesHugeDate) :
    ¬ answer.IsGood := by
  cases answer with
  | response reply =>
      rintro ⟨hlow, hhigh⟩
      have hstatus := h.1
      omega
  | timedOut | transportFailed | requestFailed | crashed => exact h.elim

theorem nonneg_of_statedWait? {today : DateTime} {answer : IndexAnswer} {wait : Number}
    (h : answer.statedWait? today = some wait) :
    ∃ seconds, wait = .float seconds ∧ Binary64.le (.finite 0) seconds = true := by
  cases answer with
  | response reply =>
      simp only [statedWait?] at h
      split at h
      · split at h
        · next stated hseconds =>
            obtain ⟨seconds, rfl, rfl⟩ := Option.map_eq_some_iff.mp h
            exact ⟨seconds, rfl, RetryAfter.nonneg_of_seconds? hseconds⟩
        · cases h
      · cases h
  | timedOut | transportFailed | requestFailed | crashed => cases h

end IndexAnswer

namespace RequestPlan

variable {plan : RequestPlan} {today : DateTime} {answer : IndexAnswer}

/-- What a request comes to, by its last answer: the object that the answer carries, the failure of its class
with the URL, or the fault of a huge date. -/
inductive Classifies (plan : RequestPlan) (answer : IndexAnswer) :
    Except Fault (List (String × Json)) → Prop where
  | document {members : List (String × Json)} (hcarries : answer.Carries members) :
      Classifies plan answer (.ok members)
  | failure {error : IndexError} (hdate : ¬ answer.StatesHugeDate)
      (hcarries : ∀ members, ¬ answer.Carries members) (hclass : error.fault = answer.failureClass)
      (hurl : error.url = some (String.ofList plan.url)) :
      Classifies plan answer (.error (.index error))
  | hugeDate (hdate : answer.StatesHugeDate) : Classifies plan answer (.error .dateOverflow)

theorem not_carries_of_not_isGood (h : ¬ answer.IsGood) (members : List (String × Json)) :
    ¬ answer.Carries members := by
  rintro ⟨response, rfl, hgood, -⟩
  exact h hgood

/-- A status that is not good stands for a failure of its class, or hides a huge date. -/
theorem classifies_of_statusFault? {response : HttpResponse} {fault : Fault}
    (h : statusFault? (String.ofList plan.url) today response = some fault) :
    plan.Classifies (.response response) (.error fault) := by
  simp only [statusFault?] at h
  by_cases hgood : 200 ≤ response.status ∧ response.status < 300
  · rw [if_pos hgood] at h
    cases h
  · rw [if_neg hgood] at h
    have hcarries : ∀ members, ¬ (IndexAnswer.response response).Carries members :=
      not_carries_of_not_isGood hgood
    by_cases hmissing : response.status = 404
    · rw [if_pos hmissing] at h
      obtain rfl := Option.some.inj h
      refine .failure ?_ hcarries ?_ rfl
      · rintro ⟨hlimited, -⟩
        omega
      · rw [IndexAnswer.failureClass, if_neg hgood, if_pos hmissing]
    · rw [if_neg hmissing] at h
      by_cases hlimited : response.status = 429
      · rw [if_pos hlimited] at h
        split at h
        · next overflow hseconds =>
            obtain rfl := Option.some.inj h
            exact .hugeDate ⟨hlimited, RetryAfter.seconds?_eq_error_iff.mp hseconds⟩
        · next wait hseconds =>
            obtain rfl := Option.some.inj h
            refine .failure ?_ hcarries ?_ rfl
            · rintro ⟨-, hdate⟩
              rw [RetryAfter.seconds?_eq_error_iff.mpr hdate] at hseconds
              cases hseconds
            · rw [IndexAnswer.failureClass, if_neg hgood, if_neg hmissing, if_pos hlimited]
      · rw [if_neg hlimited] at h
        obtain rfl := Option.some.inj h
        refine .failure ?_ hcarries ?_ rfl
        · exact fun hdate => hlimited hdate.1
        · rw [IndexAnswer.failureClass, if_neg hgood, if_neg hmissing, if_neg hlimited]

/-- **One answer.** What a request comes to by an answer of a known kind is classified. -/
theorem classifies_outcome (plan : RequestPlan) (today : DateTime) (h : answer.IsKnown) :
    plan.Classifies answer (plan.outcome today answer) := by
  have htells := tells_outcome plan today answer
  generalize plan.outcome today answer = outcome at htells ⊢
  cases htells with
  | object hgood hjson => exact .document ⟨_, rfl, hgood, hjson⟩
  | @malformed response error hgood hjson hfault hurl =>
      refine .failure ?_ ?_ ?_ hurl
      · exact fun hdate => IndexAnswer.not_isGood_of_statesHugeDate hdate hgood
      · rintro members ⟨_, ⟨rfl⟩, -, hmembers⟩
        exact hjson members hmembers
      · rw [hfault, IndexAnswer.failureClass]
        exact (if_pos hgood).symm
  | failed hgood hfault =>
      cases answer with
      | response response =>
          rw [classify] at hfault
          split at hfault
          · next hstatus =>
              cases hfault
              exact classifies_of_statusFault? hstatus
          · cases hfault
      | crashed reason => exact h.elim
      | timedOut | transportFailed | requestFailed =>
          cases hfault
          exact .failure id (not_carries_of_not_isGood hgood) rfl rfl

/-! ### Delays -/

/-- The numbers of a plan stay within the doubles: its time-out, its limit on waits, the power of two at every
attempt that another one follows, and the delay multiplied by it. -/
structure IsInRange (plan : RequestPlan) : Prop where
  timeout : plan.timeout.IsFinite
  limit : plan.maxRetryAfter.IsFinite
  power : ∀ i, i + 2 ≤ plan.attempts → (Number.int (Nat.pow 2 i)).IsFinite
  delay : ∀ i, i + 2 ≤ plan.attempts → (plan.baseDelay * .int (Nat.pow 2 i)).IsFinite

theorem isFinite_pauseAfter (h : plan.IsInRange) {i : Nat} (hi : i + 2 ≤ plan.attempts) :
    (plan.pauseAfter today (i + 1) answer).IsFinite := by
  rw [pauseAfter]
  cases hstated : answer.statedWait? today with
  | none => exact h.delay i hi
  | some wait =>
      obtain ⟨seconds, rfl, hseconds⟩ := IndexAnswer.nonneg_of_statedWait? hstated
      exact Number.isFinite_minOf h.limit hseconds

end RequestPlan

/-! ### Requests -/

namespace Work

end Work

end ManifestLens
