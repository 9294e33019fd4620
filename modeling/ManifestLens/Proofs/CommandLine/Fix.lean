import ManifestLens.CommandLine.Edit
import ManifestLens.CommandLine.Session
import ManifestLens.Proofs.Editor.Line
import ManifestLens.Proofs.Error.Result
import ManifestLens.Proofs.Files.Operation
import ManifestLens.Proofs.Schedule.Company

/-!
# Steps that leave the files alone

Whatever a run says, asks, looks up or reads, it leaves the files as they are. In a sequence of steps the later
ones go on from where the earlier ones have got to, so what is said of them may be said of the session in which
they begin.
-/

namespace ManifestLens

namespace Step

variable {α β : Type} {session after : Session} {value : α}

/-- The value of a step or why it stops, and the session after it. -/
def outcome (step : Step α) (session : Session) : Except Stop α × Session := step.run session

/-- A step from a session on leaves the files as they are. -/
def KeepsFiles (session : Session) (step : Step α) : Prop := (step.outcome session).2.files = session.files

/-! ### Sequences -/

@[simp] theorem outcome_pure (value : α) (session : Session) :
    (pure value : Step α).outcome session = (.ok value, session) := rfl

@[simp] theorem outcome_get (session : Session) : (get : Step Session).outcome session = (.ok session, session) := rfl

theorem outcome_bind (x : Step α) (f : α → Step β) (session : Session) :
    (x >>= f).outcome session = match x.outcome session with
      | (.ok value, after) => (f value).outcome after
      | (.error stop, after) => (.error stop, after) := by
  change (ExceptT.bindCont f (x.outcome session).1 (x.outcome session).2 : Except Stop β × Session) = _
  obtain ⟨value | stop, after⟩ := x.outcome session <;> rfl

theorem outcome_bind_of_ok {x : Step α} {f : α → Step β} (h : x.outcome session = (.ok value, after)) :
    (x >>= f).outcome session = (f value).outcome after := by
  rw [outcome_bind, h]

theorem KeepsFiles.bind {x : Step α} {f : α → Step β} (hx : KeepsFiles session x)
    (hf : ∀ value after, x.outcome session = (.ok value, after) → KeepsFiles after (f value)) :
    KeepsFiles session (x >>= f) := by
  unfold KeepsFiles at *
  rw [outcome_bind]
  cases houtcome : x.outcome session with
  | mk result after =>
      rw [houtcome] at hx
      cases result with
      | error stop => exact hx
      | ok value => exact (hf value after houtcome).trans hx

/-! ### Single steps -/

theorem keepsFiles_pure (session : Session) (value : α) : KeepsFiles session (pure value) := rfl

theorem keepsFiles_exit (session : Session) (code : Nat) : KeepsFiles session (exit code : Step α) := rfl

theorem keepsFiles_logAll (session : Session) (records : List LogRecord) : KeepsFiles session (logAll records) := rfl

theorem keepsFiles_onScreen (session : Session) (f : Screen → Except MarkupFault Screen) :
    KeepsFiles session (onScreen f) := by
  refine KeepsFiles.bind rfl fun value after h => ?_
  cases h
  cases f session.screen <;> rfl

theorem keepsFiles_say (session : Session) (kind : MessageKind) (message : String) :
    KeepsFiles session (say kind message) := keepsFiles_onScreen ..

theorem keepsFiles_confirm (session : Session) (question : String) (default : Bool) :
    KeepsFiles session (confirm question default) := by
  refine KeepsFiles.bind rfl fun value after h => ?_
  cases h
  cases session.screen.confirm question default <;> rfl

theorem keepsFiles_fail (session : Session) (message : String) : KeepsFiles session (fail message : Step α) :=
  (keepsFiles_say ..).bind fun _ after _ => keepsFiles_exit after 1

theorem keepsFiles_ofExcept (session : Session) (result : Except Fault α) :
    KeepsFiles session (ofExcept result) := by
  cases result <;> rfl

theorem keepsFiles_ofUsage (session : Session) (result : Except UsageError α) :
    KeepsFiles session (ofUsage result) := by
  cases result <;> rfl

theorem keepsFiles_orFail (session : Session) (result : Except Fault α) : KeepsFiles session (orFail result) := by
  cases result with
  | ok value => rfl
  | error fault =>
      cases fault with
      | index | reported => exact keepsFiles_fail ..
      | _ => rfl

/-! ### What a step has come to -/

theorem fail_ne_ok {message : String} : (fail message : Step α).outcome session ≠ (.ok value, after) := by
  intro h
  rw [fail, outcome_bind] at h
  split at h <;> cases h

theorem orFail_eq_ok {result : Except Fault α} (h : (orFail result).outcome session = (.ok value, after)) :
    after = session ∧ result = .ok value := by
  cases result with
  | ok found =>
      cases h
      exact ⟨rfl, rfl⟩
  | error fault =>
      cases fault with
      | index | reported => exact absurd h fail_ne_ok
      | _ => cases h

theorem confirm_eq_ok {question : String} {default answer : Bool}
    (h : (confirm question default).outcome session = (.ok answer, after)) :
    ∃ screen, session.screen.confirm question default = .ok (answer, screen) ∧ after = { session with screen } := by
  rw [confirm, outcome_bind_of_ok (outcome_get session)] at h
  cases hconfirm : session.screen.confirm question default with
  | error fault =>
      rw [hconfirm] at h
      cases h
  | ok answered =>
      rw [hconfirm] at h
      cases h
      exact ⟨_, rfl, rfl⟩

/-- Work of a service changes neither the files nor the screen, nor how copies are named. -/
theorem work_frame {config : Config} {work : FallibleWork α} {result : Except Fault α}
    (h : (Step.work config work).outcome session = (.ok result, after)) :
    after.files = session.files ∧ after.screen = session.screen ∧ after.naming = session.naming := by
  rw [Step.work, outcome_bind_of_ok (outcome_get session)] at h
  cases hservice : Service.ofConfig config with
  | error fault =>
      rw [hservice] at h
      cases h
      exact ⟨rfl, rfl, rfl⟩
  | ok service =>
      rw [hservice] at h
      rw [← (Prod.mk.inj h).2]
      exact ⟨rfl, rfl, rfl⟩

/-- A value that work of a service has led to is one that the work may come to. -/
theorem exists_comesTo_of_work {config : Config} {work : FallibleWork α}
    (h : (Step.work config work).outcome session = (.ok (.ok value), after)) : ∃ world last,
      work.run.ComesTo (TaskRule.lenient : TaskRule World Errand).company world last (.ok value) := by
  rw [Step.work, outcome_bind_of_ok (outcome_get session)] at h
  cases hservice : Service.ofConfig config with
  | error fault =>
      rw [hservice] at h
      cases h
  | ok service =>
      rw [hservice] at h
      have hresult := Except.ok.inj (Prod.mk.inj h).1
      change (ServiceRun.execute _ _).2 = .ok value at hresult
      unfold ServiceRun.execute at hresult
      split at hresult
      · next run result hrun =>
          have hcomes := Scheduler.comesTo_of_run_lenient hrun
          obtain ⟨last, found, hwork, hclosed⟩ := Process.comesTo_andThen_iff.mp hcomes
          obtain ⟨closed, _, -, -, heq⟩ := Process.comesTo_andThen_iff.mp hclosed
          exact ⟨_, last, heq.symm.trans hresult ▸ hwork⟩
      · cases hresult

theorem keepsFiles_work (session : Session) (config : Config) (work : FallibleWork α) :
    KeepsFiles session (Step.work config work) := by
  rw [Step.work]
  refine KeepsFiles.bind rfl fun found after h => ?_
  cases h
  cases Service.ofConfig config <;> rfl

end Step

end ManifestLens

/-!
## What applying a quick action does to the files

The command that offers quick actions reads the manifest, asks the index, and asks the user. It writes only
after all of these have led to an action that is to be applied, and then it always writes: the columns of the
one edit of the action are exchanged in the manifest, byte for byte, and if a copy is wanted it is the only file
that is new. Whatever happens otherwise, and whatever the index and the user answer, no file is touched.
-/

namespace ManifestLens

/-- The bytes of the text of a buffer, before and after an edit. The columns of the edit, as far as its line has
them, are exchanged, and all other bytes stay. -/
def Buffer.Exchanges (buffer : Buffer) (edit : Edit) (before after : List UInt8) : Prop :=
  ∃ (number : Nat) (front line rest : List Char), edit.line = number ∧ buffer.lineAt? number = some line ∧
    buffer.text = front ++ line ++ rest ∧ front.length = lineStart buffer.rawLines number ∧
    before = Text.Utf8.encode (front ++ line.take edit.span.start) ++
      Text.Utf8.encode (edit.span.slice line) ++ Text.Utf8.encode (line.drop edit.span.stop ++ rest) ∧
    after = Text.Utf8.encode (front ++ line.take edit.span.start) ++
      Text.Utf8.encode edit.text ++ Text.Utf8.encode (line.drop edit.span.stop ++ rest)

theorem Buffer.exchanges_of_withEdits {buffer : Buffer} {number : Nat} {line : List Char}
    (hline : buffer.lineAt? number = some line) (span : Span) (new : List Char) :
    ∃ text, buffer.withEdits [⟨number, span, new⟩] = .ok text ∧
      buffer.Exchanges ⟨number, span, new⟩ (Text.Utf8.encode buffer.text) (Text.Utf8.encode text) := by
  obtain ⟨front, rest, htext, -, -, hstart, hedited⟩ := exists_place_of_withEdits hline span new
  have hwhole : line = line.take span.start ++ (span.slice line ++ line.drop span.stop) := by
    rw [Span.slice, Span.stop, ← List.drop_drop, List.take_append_drop, List.take_append_drop]
  refine ⟨_, hedited, number, front, line, rest, rfl, hline, htext, hstart, ?_, ?_⟩
  · rw [← Text.Utf8.encode_append, ← Text.Utf8.encode_append, htext]
    conv_lhs => rw [hwhole]
    simp only [List.append_assoc]
  · rw [← Text.Utf8.encode_append, ← Text.Utf8.encode_append]

namespace EditorCommand

variable {config : Config} {session after : Session} {file : Route} {line : Nat} {choice : Option Nat}
  {keepsCopy isConfirmed : Bool} {text : List Char} {action : QuickAction}

def bufferFor (file : Route) (text : List Char) : Buffer := { text, path := some file.text.toList }

/-- A run of the command comes to an action to be applied: the manifest can be read and has the line, the index has
answered, the number that the user has given is that of the action, and the user has not declined. -/
structure Chooses (config : Config) (session : Session) (file : Route) (line : Nat) (choice : Option Nat)
    (isConfirmed : Bool) (text : List Char) (action : QuickAction) : Prop where
  readable : session.files.read file = .ok text
  hasLine : line ≤ (bufferFor file text).lineCount
  offered : ∃ actions number, choice = some number ∧ actions[number - 1]? = some action ∧
    ∃ after, (Step.work config (Work.actions (bufferFor file text) ((line : Int) - 1))).outcome session
      = (.ok (.ok actions), after)
  goesAhead : isConfirmed = true ∨ ∃ screen, session.screen.confirm (action.title ++ "?") true = .ok (true, screen)

/-! ### The steps before the choice -/

theorem outcome_bufferOf (h : session.files.read file = .ok text) :
    (bufferOf file).outcome session = (.ok (bufferFor file text), session) := by
  have hread : (Step.readFile file).outcome session = (.ok (.ok text), session) := by
    rw [Step.readFile, Step.outcome_bind_of_ok (Step.outcome_get session), h]
    rfl
  rw [bufferOf, Step.outcome_bind_of_ok hread]
  rfl

theorem bufferOf_eq_ok {buffer : Buffer} (h : (bufferOf file).outcome session = (.ok buffer, after)) :
    after = session ∧ ∃ text, session.files.read file = .ok text ∧ buffer = bufferFor file text := by
  have hread : (Step.readFile file).outcome session
      = (.ok ((session.files.read file).mapError .reported), session) := rfl
  rw [bufferOf, Step.outcome_bind_of_ok hread] at h
  cases hfile : session.files.read file with
  | error failure =>
      rw [hfile] at h
      cases h
  | ok text =>
      rw [hfile] at h
      cases h
      exact ⟨rfl, text, rfl, rfl⟩

theorem position_eq_ok {buffer : Buffer} {position : Position}
    (h : (EditorCommand.position buffer file line 1).outcome session = (.ok position, after)) :
    after = session ∧ line ≤ buffer.lineCount ∧ position.line = (line : Int) - 1 := by
  unfold EditorCommand.position at h
  split at h
  · cases h
  · next hcount =>
      cases h
      exact ⟨rfl, Nat.le_of_not_lt hcount, rfl⟩

theorem keepsFiles_bufferOf (session : Session) (file : Route) : Step.KeepsFiles session (bufferOf file) :=
  Step.KeepsFiles.bind rfl fun _ _ _ =>
    (Step.keepsFiles_ofExcept ..).bind fun _ after _ => Step.keepsFiles_pure after _

theorem keepsFiles_position (session : Session) (buffer : Buffer) :
    Step.KeepsFiles session (EditorCommand.position buffer file line 1) := by
  unfold EditorCommand.position
  split
  · exact Step.keepsFiles_ofUsage ..
  · rfl

/-! ### The choice -/

/-- The user has been asked, or has said beforehand that there is nothing to ask. -/
def goesAhead (isConfirmed : Bool) (action : QuickAction) : Step Bool :=
  if isConfirmed then pure true else Step.confirm (action.title ++ "?") true

/-- What is done with the answer. -/
def settle (file : Route) (buffer : Buffer) (action : QuickAction) (keepsCopy answer : Bool) : Step Unit :=
  if answer then apply file buffer action keepsCopy else Step.say .warning "No changes made"

theorem fix_eq (config : Config) (file : Route) (line : Nat) (choice : Option Nat) (keepsCopy isConfirmed : Bool) :
    fix config file line choice keepsCopy isConfirmed = (do
      let buffer ← bufferOf file
      let position ← EditorCommand.position buffer file line 1
      let actions ← Step.orFail (← Step.work config (Work.actions buffer position.line))
      if actions.isEmpty then Step.say .warning ("No actions available on line " ++ toString line)
      else
        match choice with
        | none => Step.showTable (actionTable actions)
        | some number =>
            match actions[number - 1]? with
            | none =>
                Step.ofUsage (.error (.invalidValue "--apply"
                  ("there are only " ++ toString actions.length ++ " action(s) on line " ++
                    toString line)))
            | some action => goesAhead isConfirmed action >>= settle file buffer action keepsCopy) := by
  cases isConfirmed <;> rfl

theorem keepsFiles_goesAhead (session : Session) (isConfirmed : Bool) (action : QuickAction) :
    Step.KeepsFiles session (goesAhead isConfirmed action) := by
  cases isConfirmed with
  | true => rfl
  | false => exact Step.keepsFiles_confirm ..

theorem goesAhead_eq_ok {answer : Bool}
    (h : (goesAhead isConfirmed action).outcome session = (.ok answer, after)) :
    (isConfirmed = true ∧ answer = true ∧ after = session) ∨ ∃ screen,
      session.screen.confirm (action.title ++ "?") true = .ok (answer, screen) ∧ after = { session with screen } := by
  cases isConfirmed with
  | true =>
      cases h
      exact .inl ⟨rfl, rfl, rfl⟩
  | false => exact .inr (Step.confirm_eq_ok h)

/-- **Nothing is touched** unless the run comes to an action to be applied. -/
theorem keepsFiles_fix (h : ∀ text action, ¬ Chooses config session file line choice isConfirmed text action) :
    Step.KeepsFiles session (fix config file line choice keepsCopy isConfirmed) := by
  rw [fix_eq]
  refine (keepsFiles_bufferOf session file).bind fun buffer read hread => ?_
  obtain ⟨rfl, text, htext, rfl⟩ := bufferOf_eq_ok hread
  refine (keepsFiles_position read _).bind fun position placed hplaced => ?_
  obtain ⟨rfl, hcount, hline⟩ := position_eq_ok hplaced
  refine (Step.keepsFiles_work placed _ _).bind fun result asked hasked => ?_
  refine (Step.keepsFiles_orFail asked result).bind fun actions told htold => ?_
  obtain ⟨rfl, rfl⟩ := Step.orFail_eq_ok htold
  split
  · exact Step.keepsFiles_say ..
  · cases choice with
    | none => exact Step.keepsFiles_onScreen ..
    | some number =>
        dsimp only
        cases hget : actions[number - 1]? with
        | none => exact Step.keepsFiles_ofUsage ..
        | some action =>
            refine (keepsFiles_goesAhead told isConfirmed action).bind fun answer answered hanswer => ?_
            cases answer with
            | false =>
                rw [settle, if_neg Bool.false_ne_true]
                exact Step.keepsFiles_say ..
            | true =>
                have hscreen : told.screen = placed.screen := by
                  obtain ⟨-, hscreen, -⟩ := Step.work_frame hasked
                  exact hscreen
                refine absurd ⟨htext, hcount, ⟨actions, number, rfl, hget, told, hline ▸ hasked⟩, ?_⟩ (h text action)
                rw [← hscreen]
                rcases goesAhead_eq_ok hanswer with ⟨hconfirmed, -⟩ | ⟨screen, hconfirm, -⟩
                · exact .inl hconfirmed
                · exact .inr ⟨screen, hconfirm⟩

/-! ### Writing -/

/-- The files before and after an action has been applied to the manifest at a path: its one edit, which is one of
the asked line, has been made there, and a copy of the manifest stands beside it if that was wanted. -/
def Applies (before after : FileTree) (naming : FileNaming) (file : Route) (line : Nat) (keepsCopy : Bool)
    (text : List Char) (action : QuickAction) : Prop :=
  ∃ place edit written, before.existingFile file = .ok place ∧ action.edits = [edit] ∧
    edit.line = (line : Int) - 1 ∧ (bufferFor file text).Exchanges edit (before.contentAt place) written ∧
    before.Replaces after place (if keepsCopy then some (FileTree.copyLocation naming place) else none) written

/-- Applying an action to a manifest that has been read always succeeds. -/
theorem exists_applied {tree : FileTree} {naming : FileNaming} {number : Nat} {content new : List Char} {span : Span}
    (htree : tree.IsProper) (hcopies : tree.LacksCopies naming) (hread : tree.read file = .ok text)
    (hedits : action.edits = [⟨number, span, new⟩]) (hline : (line : Int) - 1 = number)
    (hcontent : (bufferFor file text).lineAt? number = some content) (keepsCopy : Bool) :
    ∃ copy after, applied tree naming file (bufferFor file text) action keepsCopy = .ok (copy, after) ∧
      Applies tree after naming file line keepsCopy text action := by
  obtain ⟨place, hexisting, hbytes⟩ := FileTree.exists_of_read hread
  obtain ⟨edited, hedited, hexchanges⟩ := Buffer.exchanges_of_withEdits hcontent span new
  have hfile := (FileTree.existingFile_eq_ok hexisting).2
  obtain ⟨after, hwrite, hreplaces⟩ := htree.exists_write hexisting (hcopies place hfile) edited keepsCopy
  have happlied : applied tree naming file (bufferFor file text) action keepsCopy = .ok (_, after) :=
    bind_eq_ok_iff.mpr ⟨edited, mapError_eq_ok_iff.mpr (hedits ▸ hedited), mapError_eq_ok_iff.mpr hwrite⟩
  refine ⟨_, after, happlied, place, _, _, hexisting, hedits, hline.symm, ?_, hreplaces⟩
  rw [hbytes]
  exact hexchanges

theorem files_apply (session : Session) {buffer : Buffer} {copy : Option Location} {files : FileTree}
    (h : applied session.files session.naming file buffer action keepsCopy = .ok (copy, files)) :
    ((apply file buffer action keepsCopy).outcome session).2.files = files := by
  have htold : (Step.orFail (applied session.files session.naming file buffer action keepsCopy)).outcome session
      = (.ok (copy, files), session) := by
    rw [h]
    rfl
  unfold apply
  rw [Step.outcome_bind_of_ok (Step.outcome_get session), Step.outcome_bind_of_ok htold]
  have hset : (set { session with files } : Step PUnit).outcome session = (.ok (), { session with files }) := rfl
  rw [Step.outcome_bind_of_ok hset]
  change Step.KeepsFiles { session with files } _
  refine (Step.keepsFiles_logAll ..).bind fun _ logged _ => (Step.keepsFiles_say ..).bind fun _ said _ => ?_
  cases copy with
  | none => rfl
  | some copy => exact (Step.keepsFiles_logAll ..).bind fun _ _ _ => Step.keepsFiles_onScreen ..

theorem outcome_goesAhead (session : Session) (h : isConfirmed = true ∨
    ∃ screen, session.screen.confirm (action.title ++ "?") true = .ok (true, screen)) :
    ∃ screen, (goesAhead isConfirmed action).outcome session = (.ok true, { session with screen }) := by
  cases isConfirmed with
  | true => exact ⟨session.screen, rfl⟩
  | false =>
      obtain ⟨screen, hconfirm⟩ := h.resolve_left Bool.false_ne_true
      refine ⟨screen, ?_⟩
      rw [goesAhead, if_neg Bool.false_ne_true, Step.confirm,
        Step.outcome_bind_of_ok (Step.outcome_get session), hconfirm]
      rfl

/-- **An action that is to be applied** is applied. -/
theorem applies_of_chooses (htree : session.files.IsProper) (hcopies : session.files.LacksCopies session.naming)
    (h : Chooses config session file line choice isConfirmed text action) (keepsCopy : Bool) :
    Applies session.files ((fix config file line choice keepsCopy isConfirmed).outcome session).2.files
      session.naming file line keepsCopy text action := by
  obtain ⟨hread, hcount, ⟨actions, number, rfl, hget, asked, hasked⟩, hgoes⟩ := h
  obtain ⟨hfiles, hscreen, hnaming⟩ := Step.work_frame hasked
  obtain ⟨world, last, hcomes⟩ := Step.exists_comesTo_of_work hasked
  obtain ⟨row, span, new, content, hedits, hline, hcontent⟩ :=
    Work.exists_edit_of_comesTo_actions hcomes (List.mem_of_getElem? hget)
  have hplaced : (EditorCommand.position (bufferFor file text) file line 1).outcome session
      = (.ok ⟨(line : Int) - 1, (1 : Nat) - 1⟩, session) := by
    rw [EditorCommand.position, if_neg (Nat.not_lt.mpr hcount)]
    rfl
  have htold : (Step.orFail (.ok actions) : Step (List QuickAction)).outcome asked = (.ok actions, asked) := rfl
  have hsome : ¬ actions.isEmpty = true := by
    rw [List.isEmpty_iff]
    rintro rfl
    cases hget
  obtain ⟨screen, hanswered⟩ := outcome_goesAhead asked (hscreen ▸ hgoes)
  obtain ⟨copy, after, happlied, happlies⟩ := exists_applied htree hcopies hread hedits hline hcontent keepsCopy
  have hwritten := files_apply { asked with screen } (hfiles ▸ hnaming ▸ happlied)
  rw [fix_eq, Step.outcome_bind_of_ok (outcome_bufferOf hread), Step.outcome_bind_of_ok hplaced,
    Step.outcome_bind_of_ok hasked, Step.outcome_bind_of_ok htold, if_neg hsome]
  simp only [hget]
  rw [Step.outcome_bind_of_ok hanswered, settle, if_pos rfl, hwritten]
  exact happlies

def sampleTree : FileTree :=
  { entries := [(["requirements.txt"], .file (Text.Utf8.encode "flask==1.0\r\n".toList))] }

theorem eq_of_isSome_sampleTree {location : Location} (h : (sampleTree.entry? location).isSome = true) :
    location = [] ∨ location = ["requirements.txt"] := by
  by_cases hne : location = []
  · exact .inl hne
  · exact .inr (by simpa [sampleTree] using FileTree.mem_of_isSome h hne)

theorem isProper_sampleTree : sampleTree.IsProper := by
  refine ⟨fun location name hsome => ?_, fun location hsome => ?_, FileTree.isFolder_nil _⟩
  · have hplace : location = [] ∧ name = "requirements.txt" := by
      simpa [List.append_eq_singleton_iff] using eq_of_isSome_sampleTree hsome
    rw [hplace.1]
    exact FileTree.isFolder_nil _
  · rcases eq_of_isSome_sampleTree hsome with rfl | rfl <;> decide

theorem lacksCopies_sampleTree (naming : FileNaming) : sampleTree.LacksCopies naming := by
  intro location hfile
  by_contra hsome
  have hcopy := eq_of_isSome_sampleTree (Option.isSome_iff_ne_none.mpr hsome)
  obtain rfl := (eq_of_isSome_sampleTree (FileTree.isSome_of_isFile hfile)).resolve_left
    (FileTree.ne_nil_of_isFile hfile)
  have hname : "requirements.txt" ++ "." ++ naming.stamp ++ ".backup" = "requirements.txt" := by
    simpa [FileTree.copyLocation, Location.name] using hcopy
  have hlength := FileTree.length_copyName "requirements.txt" naming.stamp
  rw [hname] at hlength
  omega

/-- A run with an index that knows one release. -/
def sampleSession : Session :=
  let body := "\x7b\"info\": \x7b\"version\": \"2.0\"\x7d, \"releases\": \x7b\"2.0\": []\x7d\x7d".toList.map
    fun c => UInt8.ofNat c.toNat
  { files := sampleTree, naming := ⟨"20240101_000000_000000", "abcdefgh"⟩, python := "3.12.0"
    script := .constant ⟨.response { status := 200, body }, 0⟩, today := ⟨2024, 1, 1, 0, 0, 0, 0, 0⟩ }

end EditorCommand

end ManifestLens
