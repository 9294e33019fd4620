import ManifestLens.Cancellation

/-!
# Every callback runs once

While callbacks run they register others, and these may register more. What keeps the account simple is that the
token is cancelled before the first callback is called: on a cancelled token nothing is ever put on the list of those
that wait, and a call does no more than append names to the log. So by the time a callback returns it has left its own
name and the names of all that it registered, directly or through others. The list of those that wait is only filled
before the cancellation, and it is emptied when that happens.
-/

namespace ManifestLens

namespace Callback

def name : Callback → String
  | .mk name _ => name

mutual

/-- The callback, and behind it the families of those that it registers. -/
def family : Callback → List Callback
  | .mk name registers => .mk name registers :: families registers

def families : List Callback → List Callback
  | [] => []
  | callback :: rest => callback.family ++ families rest

end

def names (callbacks : List Callback) : List String := (families callbacks).map name

@[simp] theorem names_nil : names [] = [] := rfl

theorem names_cons (label : String) (registers rest : List Callback) :
    names (.mk label registers :: rest) = label :: names registers ++ names rest := by
  simp [names, families, family, name]

theorem names_append (first second : List Callback) : names (first ++ second) = names first ++ names second := by
  induction first with
  | nil => rfl
  | cons callback rest ih =>
      obtain ⟨label, registers⟩ := callback
      simp only [List.cons_append, names_cons, ih, List.append_assoc]

end Callback

/-- A call on a token. -/
inductive TokenCall where
  | cancel
  | register (callback : Callback)

namespace TokenCall

def callbacks (calls : List TokenCall) : List Callback :=
  calls.filterMap fun
    | .cancel => none
    | .register callback => some callback

/-- The names that a call leaves on a token that is cancelled already. -/
def names (call : TokenCall) : List String := Callback.names (callbacks [call])

theorem callbacks_append (first second : List TokenCall) :
    callbacks (first ++ second) = callbacks first ++ callbacks second :=
  List.filterMap_append

theorem callbacks_cons (call : TokenCall) (rest : List TokenCall) :
    callbacks (call :: rest) = callbacks [call] ++ callbacks rest :=
  callbacks_append [call] rest

theorem callbacks_map_register (waiting : List Callback) : callbacks (waiting.map .register) = waiting := by
  induction waiting with
  | nil => rfl
  | cons callback rest ih =>
      rw [List.map_cons, callbacks_cons, ih]
      rfl

end TokenCall

namespace Cancellation

def perform (token : Cancellation) : TokenCall → Cancellation
  | .cancel => token.cancel
  | .register callback => token.register callback

def after (token : Cancellation) (calls : List TokenCall) : Cancellation := calls.foldl perform token

/-- What each of several calls adds to the log. -/
def additions (token : Cancellation) : List TokenCall → List (List String)
  | [] => []
  | call :: rest => (token.perform call).log.drop token.log.length :: (token.perform call).additions rest

def noting (token : Cancellation) (names : List String) : Cancellation := { token with log := token.log ++ names }

@[simp] theorem noting_nil (token : Cancellation) : token.noting [] = token := by
  simp [noting]

@[simp] theorem noting_noting (token : Cancellation) (first second : List String) :
    (token.noting first).noting second = token.noting (first ++ second) := by
  simp [noting]

@[simp] theorem isCancelled_noting (token : Cancellation) (names : List String) :
    (token.noting names).isCancelled = token.isCancelled := rfl

/-! ### One call -/

mutual

/-- On a cancelled token a callback leaves the names of its family, and nothing else changes. -/
theorem call_of_isCancelled {token : Cancellation} (h : token.isCancelled = true) :
    (callback : Callback) → token.call callback = token.noting (Callback.names [callback])
  | .mk name registers => by
      have hrest := @registerAll_of_isCancelled (token.noting [name]) h registers
      rw [call, Callback.names_cons, Callback.names_nil, List.append_nil]
      exact hrest.trans (noting_noting ..)

theorem registerAll_of_isCancelled {token : Cancellation} (h : token.isCancelled = true) :
    (callbacks : List Callback) → token.registerAll callbacks = token.noting (Callback.names callbacks)
  | [] => by rw [registerAll, Callback.names_nil, noting_nil]
  | callback :: rest => by
      have hrest := @registerAll_of_isCancelled (token.noting (Callback.names [callback])) h rest
      rw [registerAll, if_pos h, call_of_isCancelled h callback, hrest, noting_noting, ← Callback.names_append,
        List.singleton_append]

end

/-- Calling one callback after another is registering them: neither gives the others a chance. -/
theorem foldl_call_of_isCancelled {token : Cancellation} (h : token.isCancelled = true) (callbacks : List Callback) :
    callbacks.foldl call token = token.noting (Callback.names callbacks) := by
  induction callbacks generalizing token with
  | nil => exact (noting_nil token).symm
  | cons callback rest ih =>
      have hrest := @ih (token.noting (Callback.names [callback])) h
      rw [List.foldl_cons, call_of_isCancelled h, hrest, noting_noting, ← Callback.names_append, List.singleton_append]

section Perform

variable {token : Cancellation}

theorem perform_of_isCancelled (h : token.isCancelled = true) (call : TokenCall) :
    token.perform call = token.noting call.names := by
  cases call with
  | cancel => rw [perform, cancel, if_pos h]; exact (noting_nil token).symm
  | register callback => exact registerAll_of_isCancelled h [callback]

theorem register_of_not_isCancelled (h : token.isCancelled = false) (callback : Callback) :
    token.register callback = { token with waiting := token.waiting ++ [callback] } := by
  simp [register, registerAll, h]

theorem cancel_of_not_isCancelled (h : token.isCancelled = false) :
    token.cancel = ⟨true, [], token.log ++ Callback.names token.waiting⟩ := by
  rw [cancel, if_neg (by simp [h]), foldl_call_of_isCancelled rfl]
  rfl

end Perform

/-! ### Several calls -/

section Run

variable {token : Cancellation}

theorem additions_append (token : Cancellation) (first second : List TokenCall) :
    token.additions (first ++ second) = token.additions first ++ (token.after first).additions second := by
  induction first generalizing token with
  | nil => rfl
  | cons call rest ih =>
      rw [List.cons_append, additions, additions, ih, List.cons_append]
      rfl

theorem calls_of_isCancelled (h : token.isCancelled = true) (calls : List TokenCall) :
    token.additions calls = calls.map TokenCall.names ∧
      token.after calls = token.noting (Callback.names (TokenCall.callbacks calls)) := by
  induction calls generalizing token with
  | nil => exact ⟨rfl, (noting_nil token).symm⟩
  | cons call rest ih =>
      have hcall := perform_of_isCancelled h call
      obtain ⟨hadditions, hafter⟩ := @ih (token.noting call.names) h
      constructor
      · rw [additions, hcall, hadditions, List.map_cons]
        simp [noting]
      · rw [after, List.foldl_cons, hcall]
        rw [after] at hafter
        rw [hafter, noting_noting, TokenCall.callbacks_cons, Callback.names_append]
        rfl

theorem calls_of_not_isCancelled (h : token.isCancelled = false) (callbacks : List Callback) :
    token.additions (callbacks.map .register) = callbacks.map (fun _ => []) ∧
      token.after (callbacks.map .register) = { token with waiting := token.waiting ++ callbacks } := by
  induction callbacks generalizing token with
  | nil => exact ⟨rfl, by simp [after]⟩
  | cons callback rest ih =>
      have hcall : token.perform (.register callback) = { token with waiting := token.waiting ++ [callback] } :=
        register_of_not_isCancelled h callback
      obtain ⟨hadditions, hafter⟩ := @ih { token with waiting := token.waiting ++ [callback] } h
      constructor
      · rw [List.map_cons, additions, hcall, hadditions, List.map_cons]
        simp
      · rw [after, List.map_cons, List.foldl_cons, hcall]
        rw [after] at hafter
        rw [hafter]
        simp

end Run

end Cancellation

/-- Calls either never cancel, or there is a first cancellation among them. -/
theorem TokenCall.exists_first_cancel (calls : List TokenCall) :
    (∃ callbacks : List Callback, calls = callbacks.map .register) ∨
      ∃ (callbacks : List Callback) (later : List TokenCall), calls = callbacks.map .register ++ .cancel :: later := by
  induction calls with
  | nil => exact .inl ⟨[], rfl⟩
  | cons call rest ih =>
      cases call with
      | cancel => exact .inr ⟨[], rest, rfl⟩
      | register callback =>
          rcases ih with ⟨callbacks, rfl⟩ | ⟨callbacks, later, rfl⟩
          · exact .inl ⟨callback :: callbacks, rfl⟩
          · exact .inr ⟨callback :: callbacks, later, rfl⟩

/-- **Every callback runs exactly once.** If no call cancels the token, no callback runs, and all wait. Otherwise no
callback runs before the first call that does. That call runs the callbacks that wait, in the order in which they were
registered, and each runs those that it registers before the next one. After it a callback runs when it is registered,
and another cancellation runs nothing. In the end nothing waits, and the log has the name of every callback that was
registered, by a call or by another callback, just once. -/
theorem Cancellation.runs_each_once (calls : List TokenCall) :
    (∃ callbacks, calls = callbacks.map .register ∧
      ({} : Cancellation).additions calls = callbacks.map (fun _ => []) ∧
      ({} : Cancellation).after calls = ⟨false, callbacks, []⟩) ∨
    ∃ callbacks later, calls = callbacks.map .register ++ .cancel :: later ∧
      ({} : Cancellation).additions calls
        = callbacks.map (fun _ => []) ++ Callback.names callbacks :: later.map TokenCall.names ∧
      ({} : Cancellation).after calls
        = ⟨true, [], Callback.names (TokenCall.callbacks calls)⟩ := by
  rcases TokenCall.exists_first_cancel calls with ⟨callbacks, rfl⟩ | ⟨callbacks, later, rfl⟩
  · obtain ⟨hadditions, hafter⟩ := @calls_of_not_isCancelled {} rfl callbacks
    exact .inl ⟨callbacks, rfl, hadditions, hafter⟩
  · obtain ⟨hbefore, hwaiting⟩ := @calls_of_not_isCancelled {} rfl callbacks
    rw [List.nil_append] at hwaiting
    have hcancel : perform ⟨false, callbacks, []⟩ .cancel = ⟨true, [], Callback.names callbacks⟩ :=
      cancel_of_not_isCancelled rfl
    obtain ⟨hlater, hafter⟩ := @calls_of_isCancelled ⟨true, [], Callback.names callbacks⟩ rfl later
    refine .inr ⟨callbacks, later, rfl, ?_, ?_⟩
    · rw [additions_append, hbefore, hwaiting, additions, hcancel, hlater]
      rfl
    · rw [after] at hwaiting hafter ⊢
      have hcallbacks : TokenCall.callbacks (callbacks.map .register ++ .cancel :: later)
          = callbacks ++ TokenCall.callbacks later := by
        rw [TokenCall.callbacks_append, TokenCall.callbacks_map_register]
        rfl
      rw [List.foldl_append, hwaiting, List.foldl_cons, hcancel, hafter, hcallbacks, Callback.names_append]
      rfl

/-- A callback that is registered by another one runs before those that waited behind it. -/
example : ({} : Cancellation).additions
    [.register (.mk "a" [.mk "a+" []]), .register (.mk "b" []), .cancel, .register (.mk "c" []), .cancel]
      = [[], [], ["a", "a+", "b"], ["c"], []] := by decide

end ManifestLens
