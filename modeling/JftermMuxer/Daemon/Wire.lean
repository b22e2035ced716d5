import Mathlib.Algebra.GroupWithZero.Nat
import JftermMuxer.Daemon.Control
import JftermMuxer.Daemon.Exit
import JftermMuxer.Daemon.Offers
import JftermMuxer.Daemon.Reader

/-!
# What the daemon writes

The registry, the session tasks and the control connections of
{lit}`jftermd/src/server.rs` as one machine, for a property that spans them: the
payloads of the frames that leave the daemon.  A DATA frame is cut to the cap and
STATUS, EXIT and HELLO_OK are short; SESSIONS is as long as what the clients have
named their sessions, their commands and their directories.

Main results:

- Theorem {lit}`World.slim_step`: an actor offers only frames within the cap.
- Theorem {lit}`length_sessionsFrame`: the length of a SESSIONS payload as a sum over
  its entries.
- Theorem {lit}`Server.listedSize_of_genuine`: an entry is as long as the request that
  opened its session makes it.
- Theorem {lit}`Server.fits_iff`: in every run, all frames written are within the cap
  exactly if at every LIST the sum over these requests is.
-/

namespace JftermMuxer.Daemon

open JftermMuxer.Core JftermMuxer.Foundation

/-! ## JSON of the control frames -/

/-- The items of a JSON array, separated by commas. -/
def arrayItems : List (List UInt8) → List UInt8
  | [] => []
  | [item] => item
  | item :: next :: items => item ++ 0x2C :: arrayItems (next :: items)

def arrayJson (items : List (List UInt8)) : List UInt8 := 0x5B :: arrayItems items ++ [0x5D]

/-- Bytes of a JSON array with items of these lengths. -/
def arraySize (sizes : List Nat) : Nat := sizes.sum + (sizes.length - 1) + 2

private theorem length_arrayItems (items : List (List UInt8)) :
    (arrayItems items).length = (items.map List.length).sum + (items.length - 1) := by
  induction items with
  | nil => rfl
  | cons item items ih =>
      cases items with
      | nil => simp [arrayItems]
      | cons next items =>
          simp only [arrayItems, List.length_append, List.length_cons, List.map_cons,
            List.sum_cons] at ih ⊢
          omega

/-- The length of an array. -/
theorem length_arrayJson (items : List (List UInt8)) :
    (arrayJson items).length = arraySize (items.map List.length) := by
  simp only [arrayJson, arraySize, List.length_append, List.length_cons, List.length_nil,
    length_arrayItems, List.length_map]

/-- The value of HELLO and HELLO_OK. -/
structure Hello where
  protoVersion : Nat
  daemonVersion : String
deriving DecidableEq, Repr

def protoVersion : Nat := 1

/-- The daemon's half of the handshake. -/
def ownHello : Hello := ⟨protoVersion, "0.1.0"⟩

/-- What the daemon uses of `serde_json`: the decoders of the messages it reads, and
the text of a string. -/
structure Serde where
  json : Json
  hello : List UInt8 → Option Hello
  text : String → List UInt8

section Frames

variable (serde : Serde)

def helloOkFrame (h : Hello) : Frame where
  ty := .helloOk
  payload := ascii "\x7b\"proto_version\":" ++ decimal h.protoVersion ++
    ascii ",\"daemon_version\":" ++ serde.text h.daemonVersion ++ ascii "\x7d"

def infoJson (info : SessionInfo) : List UInt8 :=
  ascii "\x7b\"session_id\":" ++ serde.text info.sessionId ++
    ascii ",\"argv\":" ++ arrayJson (info.argv.map serde.text) ++
    ascii ",\"cwd\":" ++ serde.text info.cwd ++
    ascii ",\"running\":" ++ jsonBool info.running ++
    ascii ",\"has_client\":" ++ jsonBool info.hasClient ++
    ascii ",\"created_at\":" ++ decimal info.createdAt ++ ascii "\x7d"

def sessionsFrame (infos : List SessionInfo) : Frame where
  ty := .sessions
  payload := arrayJson (infos.map (infoJson serde))

/-- Bytes of one entry of SESSIONS: the id, the command and the directory that a client
chose, the two flags, the time and the keys. -/
def entrySize (chosen : String × List String × String) (running hasClient : Bool)
    (createdAt : Nat) : Nat :=
  (serde.text chosen.1).length + (serde.text chosen.2.2).length +
    arraySize (chosen.2.1.map fun arg => (serde.text arg).length) +
    (if running then 4 else 5) + (if hasClient then 4 else 5) + (decimal createdAt).length + 69

def infoSize (info : SessionInfo) : Nat :=
  entrySize serde info.chosen info.running info.hasClient info.createdAt

/-- The length of an entry. -/
theorem length_infoJson (info : SessionInfo) : (infoJson serde info).length = infoSize serde info := by
  have hbool : ∀ b : Bool, (jsonBool b).length = if b then 4 else 5 := by
    intro b
    cases b with
    | true => rfl
    | false => rfl
  have hid : (ascii "\x7b\"session_id\":").length = 14 := rfl
  have hargv : (ascii ",\"argv\":").length = 8 := rfl
  have hcwd : (ascii ",\"cwd\":").length = 7 := rfl
  have hrunning : (ascii ",\"running\":").length = 11 := rfl
  have hclient : (ascii ",\"has_client\":").length = 14 := rfl
  have hcreated : (ascii ",\"created_at\":").length = 14 := rfl
  have hlast : (ascii "\x7d").length = 1 := rfl
  simp only [infoJson, infoSize, entrySize, SessionInfo.chosen, List.length_append, hbool,
    length_arrayJson, List.map_map, Function.comp_def, hid, hargv, hcwd, hrunning, hclient, hcreated, hlast]
  omega

/-- The length of SESSIONS is a sum over the sessions it lists. -/
theorem length_sessionsFrame (infos : List SessionInfo) :
    (sessionsFrame serde infos).payload.length = arraySize (infos.map (infoSize serde)) := by
  simp only [sessionsFrame, length_arrayJson, List.map_map, Function.comp_def, length_infoJson]

end Frames

/-! ## Exit statuses

`waitpid` reports an `i32` or a signal number; the model's integers have no bound of
their own. -/

def WaitStatus.isI32 : WaitStatus → Bool
  | .exited code => decide (-2 ^ 31 ≤ code ∧ code < 2 ^ 31)
  | .signaled sig => decide (sig ≤ 64)
  | .running => true

def waitsTyped (waits : List (Except Errno WaitStatus)) : Bool :=
  waits.all fun
    | .ok status => status.isI32
    | .error _ => true

private theorem isI32_reapLoop (p : Pty) (n : Nat) (os : Os) (htyped : waitsTyped os.waits = true)
    {code : Int} (h : (p.reapLoop n os).1 = .ok (some code)) : IsI32 code := by
  induction n generalizing os with
  | zero => cases h
  | succ n ih =>
      have htail : waitsTyped os.waits.tail = true := by
        unfold waitsTyped at htyped ⊢
        rw [List.all_eq_true] at htyped ⊢
        exact fun x hx => htyped x (List.mem_of_mem_tail hx)
      have hhead : ∀ status, os.waits.headD (.ok .running) = .ok status → status.isI32 = true := by
        intro status hstatus
        cases hwaits : os.waits with
        | nil =>
            rw [hwaits] at hstatus
            cases hstatus
            rfl
        | cons x xs =>
            rw [hwaits] at hstatus htyped
            rw [List.headD_cons] at hstatus
            subst hstatus
            exact List.all_eq_true.mp htyped _ List.mem_cons_self
      unfold Pty.reapLoop Os.waitpid at h
      cases hanswer : os.waits.headD (.ok .running) with
      | error e =>
          rw [hanswer] at h
          cases e <;> cases h
      | ok status =>
          rw [hanswer] at h
          have hstatus := hhead status hanswer
          cases status with
          | exited c =>
              cases h
              have hbounds : -2 ^ 31 ≤ code ∧ code < 2 ^ 31 := of_decide_eq_true hstatus
              exact hbounds
          | signaled sig =>
              cases h
              have hsig : sig ≤ 64 := of_decide_eq_true hstatus
              unfold IsI32
              omega
          | running => exact ih _ htail h

/-- The status of a dead session is an `i32`. -/
theorem isI32_drain (s : Session) (os : Os) (htyped : waitsTyped os.waits = true)
    (hs : ∀ code, s.lifecycle = .dead code → IsI32 code) {code : Int}
    (h : (s.drain os).2.1.lifecycle = .dead code) : IsI32 code := by
  have hfed : ∀ bytes, (s.feedOutput bytes).lifecycle = s.lifecycle := by
    intro bytes
    unfold Session.feedOutput
    split <;> rfl
  have hwaits : (s.pty.drain os).2.waits = os.waits := rfl
  unfold Session.drain at h
  rcases hread : s.pty.drain os with ⟨_ | drained, rest⟩
  · rw [hread] at h
    exact hs code h
  · rw [hread] at h hwaits
    simp only at h
    split at h
    · have hreap : ∀ c, ((s.feedOutput drained.bytes).pty.reapBlocking rest).1 = .ok (some c) →
          IsI32 c := by
        intro c hc
        exact isI32_reapLoop _ 200 rest (by rw [hwaits]; exact htyped) hc
      rcases hreaped : (s.feedOutput drained.bytes).pty.reapBlocking rest with
        ⟨_ | reaped, after⟩
      · rw [hreaped] at h
        exact hs code ((hfed _).symm.trans h)
      · rw [hreaped] at h hreap
        simp only [Lifecycle.dead.injEq] at h
        cases reaped with
        | none =>
            subst h
            unfold IsI32
            decide
        | some c =>
            subst h
            exact hreap c rfl
    · exact hs code ((hfed _).symm.trans h)

/-! ## What an actor offers -/

/-- Not the offer of a frame beyond the cap. -/
def Event.Slim : Event → Prop
  | .sent _ f _ _ => f.payload.length ≤ maxFrameLen
  | .delivered _ | .received _ | .attached _ _ | .drained _ _ | .answered _ | .signalled _
  | .elapsed _ => True

/-- The `waitpid` answers that come with a step. -/
def World.Label.waits : World.Label → List (Except Errno WaitStatus)
  | .command a | .readable a | .kill a | .tick a => a.waits
  | .asyncFdOk | .asyncFdFailed | .send _ | .dropSenders | .writer _ | .elapse _
  | .readableError | .grace | .remove | .finish => []

namespace World

/-- Every frame offered so far is within the cap, and the status of a dead session
is short. -/
structure Slim (w : World) : Prop where
  sent : ∀ e ∈ w.history, e.Slim
  code : ∀ code, w.session.lifecycle = .dead code → IsI32 code

section Slim

variable (opts : ServerOpts) {w v : World}

private theorem status_le (s : StatusSnapshot) : (statusFrame s).payload.length ≤ maxFrameLen :=
  Nat.le_trans (length_statusFrame_le s) (by decide)

private theorem exit_le {code : Int} (h : IsI32 code) :
    (exitFrame code).payload.length ≤ maxFrameLen :=
  Nat.le_trans (length_exitFrame_le h) (by decide)

/-- What a session justifies is short. -/
theorem slim_of_offers {s : Session} (hs : ∀ code, s.lifecycle = .dead code → IsI32 code)
    {f : Frame} (hf : s.Offers f) : f.payload.length ≤ maxFrameLen := by
  cases hf with
  | data hmem => exact length_payload_frameData hmem
  | status hprogress => exact status_le _
  | exit hdead => exact exit_le (hs _ hdead)

/-- What the session justifies keeps the actor slim. -/
theorem Slim.of_speaks (hw : Slim w) (h : Speaks w v) : Slim v := by
  obtain ⟨es, hes, hoffered⟩ := h.events
  constructor
  · intro e he
    rw [hes] at he
    rcases List.mem_append.mp he with he | he
    · have hevent := hoffered e he
      cases e with
      | sent c f stage ok => exact slim_of_offers hw.code hevent
      | drained data exit => exact hevent.elim
      | delivered _ | received _ | attached _ _ | answered _ | signalled _ | elapsed _ =>
          trivial
    · exact hw.sent e he
  · rw [h.lifecycle]
    exact hw.code

/-- A drain keeps the actor slim. -/
theorem Slim.onReadable (hw : Slim w) (htyped : waitsTyped w.os.waits = true) :
    Slim (w.onReadable opts) := by
  have hcode : ∀ code, (w.session.drain w.os).2.1.lifecycle = .dead code → IsI32 code :=
    fun _ => isI32_drain w.session w.os htyped hw.code
  rcases onReadable_speaks opts w with
    ⟨e, session, os, hdrained, heq⟩ | ⟨outcome, session, os, hdrained, hspeaks⟩
  · rw [hdrained] at hcode
    rw [heq]
    exact ⟨hw.sent, hcode⟩
  · rw [hdrained] at hcode
    have hrecorded : Slim (World.record { w with session, os }
        (.drained outcome.data outcome.exit)) := by
      refine ⟨?_, hcode⟩
      intro e he
      rcases List.mem_cons.mp he with rfl | he
      · trivial
      · exact hw.sent e he
    exact hrecorded.of_speaks hspeaks

/-- An actor offers only frames within the cap. -/
theorem slim_step {label : Label} (hw : Slim w) (htyped : waitsTyped label.waits = true)
    (hstep : w.step opts label = some v) : Slim v := by
  rcases step_speaks opts hstep with hspeaks | ⟨a, rfl, rfl⟩
  · exact hw.of_speaks hspeaks
  · have hanswered : Slim (w.answer a) := hw.of_speaks (speaks_answer w a)
    exact hanswered.onReadable opts htyped

/-- An actor that has offered nothing is slim. -/
theorem slim_start {session : Session} (hlive : session.lifecycle = .live) :
    Slim (start session) := by
  constructor
  · intro e he
    cases he
  · intro code hcode
    have hdead : session.lifecycle = .dead code := hcode
    rw [hlive] at hdead
    cases hdead

end Slim

end World

/-! ## What an actor is called -/

namespace World

/-- The session and all its answers carry what the client that opened it chose. -/
structure Named (chosen : String × List String × String) (w : World) : Prop where
  session : w.session.chosen = chosen
  answers : ∀ info, .answered info ∈ w.history → info.chosen = chosen

private theorem Named.outward {chosen : String × List String × String} {w v : World}
    (hw : Named chosen w) (h : Outward w v) : Named chosen v := by
  obtain ⟨es, hes, hsent⟩ := h.sends
  refine ⟨by rw [h.session]; exact hw.session, ?_⟩
  intro info hinfo
  rw [hes] at hinfo
  rcases List.mem_append.mp hinfo with hnew | hold
  · obtain ⟨c, f, stage, ok, heq⟩ := hsent _ hnew
    cases heq
  · exact hw.answers info hold

private theorem Named.record {chosen : String × List String × String} {w : World}
    (hw : Named chosen w) {e : Event} (he : ∀ info, e = .answered info → info.chosen = chosen) :
    Named chosen (w.record e) := by
  refine ⟨hw.session, ?_⟩
  intro info hinfo
  rcases List.mem_cons.mp hinfo with heq | hold
  · exact he info heq.symm
  · exact hw.answers info hold

/-- Every move of the actor keeps the session's name. -/
theorem kept_named (opts : ServerOpts) (chosen : String × List String × String) :
    Kept opts (Named chosen) where
  inner hw hmove :=
    ⟨hmove.chosen.trans hw.session, fun info hinfo => hw.answers info (hmove.history ▸ hinfo)⟩
  note {w e} hw he := by
    refine hw.record ?_
    rintro info rfl
    exact he.trans hw.session
  writer {w m} hw := by
    rw [writerMove_eq]
    exact ⟨hw.session, hw.answers⟩
  send {w cmd v} hw hsend := by
    obtain ⟨next, rfl, -⟩ := send_eq_some hsend
    have hrecorded := hw.record (e := .delivered cmd) nofun
    exact ⟨hrecorded.session, hrecorded.answers⟩
  receive {w cmd rest} hw _ _ _ _ := by
    have hrecorded := hw.record (e := .received cmd) nofun
    exact ⟨hrecorded.session, hrecorded.answers⟩
  input {w bytes rest} hw _ _ := by
    have hrecorded := hw.record (e := .received (.input bytes)) nofun
    exact ⟨hrecorded.session, hrecorded.answers⟩
  attach {w req rest v} hw _ _ hmove := by
    have hrecorded := hw.record (e := .received (.attach req)) nofun
    have hv : Named chosen v :=
      ⟨hmove.chosen.trans hw.session, fun info hinfo =>
        hrecorded.answers info (hmove.history ▸ hinfo)⟩
    have hattached :=
      hv.record (e := .attached req.outTx (v.session.replayForAttach req.wantChunks).data) nofun
    exact hattached.outward (outward_handshake opts v req)
  forward data exit hw _ :=
    (hw.record (e := .drained data exit) nofun).outward (outward_forwardData opts _ data)
  push hw _ _ := hw.outward (outward_pushOrDrop ..)
  farewell code hw _ := by
    have hsaid := hw.outward (outward_farewell opts _ code)
    exact ⟨hsaid.session, hsaid.answers⟩
  leave hw _ := ⟨hw.session, hw.answers⟩
  remove hw _ := ⟨hw.session, hw.answers⟩
  finish hw _ := ⟨hw.session, hw.answers⟩

end World

/-! ## The server -/

/-- How far a `session_task` has come. -/
inductive ServerTask where
  /-- `Session::open` runs in a blocking task. -/
  | opening (spec : AttachOrOpen)
  /-- `Session::open` failed. -/
  | failed
  /-- The actor of the session that a request has opened. -/
  | looping (spec : AttachOrOpen) (actor : World)

/-- How far a control connection has come. -/
inductive ControlPhase where
  | greeting
  | ready
  /-- A LIST is being answered, with the handles it started from. -/
  | collecting (handles : List (String × ChannelId))
  | closed
deriving DecidableEq

/-- The daemon: its table, its session tasks, its control connections and the frames
written to them, newest first. -/
structure Server where
  registry : Registry
  fresh : ChannelId
  tasks : ChannelId → Option ServerTask
  controls : Nat → ControlPhase
  written : List Frame

/-- One step of a connection or of a session task. -/
inductive ServerStep where
  /-- A connection's first frame is ATTACH_OR_OPEN. -/
  | session (first : Frame)
  /-- `Session::open` returns. -/
  | opened (tx : ChannelId) (spawned : Except Errno Pty) (nowSecs : Nat)
  | actor (tx : ChannelId) (label : World.Label)
  /-- A control connection reads a frame; a LIST takes the handles. -/
  | control (k : Nat) (frame : Frame) (handles : List (String × ChannelId))
  /-- The replies to a LIST are collected. -/
  | collected (k : Nat) (replies : InfoReplies) (wakeups : List Nat) (deadline : Nat)
  /-- A control connection ends. -/
  | hangUp (k : Nat)

namespace Server

def start (maxSessions : Nat) : Server where
  registry := .withMaxSessions maxSessions
  fresh := 0
  tasks := fun _ => none
  controls := fun _ => .greeting
  written := []

def setTask (s : Server) (tx : ChannelId) (task : ServerTask) : Server :=
  { s with tasks := Function.update s.tasks tx (some task) }

def setControl (s : Server) (k : Nat) (phase : ControlPhase) : Server :=
  { s with controls := Function.update s.controls k phase }

/-- Write a frame to a control connection. -/
def write (s : Server) (f : Frame) : Server := { s with written := f :: s.written }

/-- The bind of a session connection. -/
def onSession (serde : Serde) (s : Server) (first : Frame) : Server :=
  match serde.json.attachOrOpen first.payload with
  | none => s
  | some req =>
      match s.registry.attachOrCreate req.sessionId s.fresh with
      | (.created tx, registry) =>
          setTask { s with registry, fresh := s.fresh + 1 } tx (.opening req)
      | (.existing _, _) | (.rejected, _) => s

/-- `session_task` once `Session::open` has returned. -/
def onOpened (s : Server) (tx : ChannelId) (spec : AttachOrOpen) (spawned : Except Errno Pty)
    (nowSecs : Nat) : Server :=
  match Session.openSession spec.sessionId spec.argv spec.cwd spec.cols spec.rows spawned nowSecs with
  | .error _ => setTask { s with registry := s.registry.remove spec.sessionId } tx .failed
  | .ok session => s.setTask tx (.looping spec (.start session))

/-- The table after a step of an actor. -/
def registryAfter (s : Server) (w : World) : World.Label → Registry
  | .remove => s.registry.remove w.session.id
  | .asyncFdOk | .asyncFdFailed | .send _ | .dropSenders | .writer _ | .elapse _ | .command _
  | .readable _ | .readableError | .grace | .kill _ | .tick _ | .finish => s.registry

/-- `handle_control`, up to its loop. -/
def onHello (serde : Serde) (s : Server) (k : Nat) (frame : Frame) : Server :=
  match frame.ty, serde.hello frame.payload with
  | .hello, some hello =>
      if hello.protoVersion = protoVersion then
        (s.write (helloOkFrame serde ownHello)).setControl k .ready
      else s.setControl k .closed
  | _, _ => s.setControl k .closed

/-- A frame read by a control connection; only LIST is answered. -/
def onControl (serde : Serde) (s : Server) (k : Nat) (frame : Frame)
    (handles : List (String × ChannelId)) : Option Server :=
  match s.controls k with
  | .greeting => some (s.onHello serde k frame)
  | .ready =>
      if frame.ty = .list then
        if handles.Perm (s.registry.sessions.entries.map fun e => (e.1, e.2)) then
          some (s.setControl k (.collecting handles))
        else none
      else some s
  | .collecting _ | .closed => none

/-- Every reply comes from the actor at the other end of its channel. -/
def genuine (s : Server) (handles : List (String × ChannelId)) (replies : InfoReplies) : Bool :=
  handles.all fun h =>
    match replies h.2, s.tasks h.2 with
    | some (.answered _ info), some (.looping _ w) => w.history.contains (.answered info)
    | some (.answered _ _), _ => false
    | _, _ => true

/-- The reply to LIST. -/
def onCollected (serde : Serde) (s : Server) (k : Nat) (replies : InfoReplies) (wakeups : List Nat)
    (deadline : Nat) : Option Server :=
  match s.controls k with
  | .collecting handles =>
      if s.genuine handles replies then
        some ((s.write (sessionsFrame serde
          (collectSessions replies handles wakeups deadline))).setControl k .ready)
      else none
  | .greeting | .ready | .closed => none

def step (opts : ServerOpts) (serde : Serde) (s : Server) : ServerStep → Option Server
  | .session first =>
      -- A decoder delivers no longer frame.
      if first.ty = .attachOrOpen ∧ first.payload.length ≤ maxFrameLen then
        some (s.onSession serde first)
      else none
  | .opened tx spawned nowSecs =>
      match s.tasks tx with
      | some (.opening spec) => some (s.onOpened tx spec spawned nowSecs)
      | _ => none
  | .actor tx label =>
      match s.tasks tx with
      | some (.looping spec w) =>
          if waitsTyped label.waits then
            (w.step opts label).map fun v =>
              setTask { s with registry := s.registryAfter w label } tx (.looping spec v)
          else none
      | _ => none
  | .control k frame handles => s.onControl serde k frame handles
  | .collected k replies wakeups deadline => s.onCollected serde k replies wakeups deadline
  | .hangUp k => some (s.setControl k .closed)

def machine (opts : ServerOpts) (serde : Serde) : Machine Server ServerStep where
  step := step opts serde

/-! ## Frames within the cap -/

/-- Every frame written to a control connection or enqueued to a session connection
is within the cap. -/
def Fits (s : Server) : Prop :=
  (∀ f ∈ s.written, f.payload.length ≤ maxFrameLen) ∧
    ∀ tx spec w c, s.tasks tx = some (.looping spec w) → ∀ f ∈ Event.frames c w.history,
      f.payload.length ≤ maxFrameLen

/-- The request that opened the session behind a channel. -/
def request (s : Server) (tx : ChannelId) : Option AttachOrOpen :=
  match s.tasks tx with
  | some (.looping spec _) => some spec
  | some (.opening _) | some .failed | none => none

/-- Bytes of the entry of a session, from the request that opened it and the flags and
the time of its actor's reply. -/
def listedSize (serde : Serde) (s : Server) (r : ChannelId × SessionInfo) : Option Nat :=
  (s.request r.1).map fun spec =>
    entrySize serde spec.chosen r.2.running r.2.hasClient r.2.createdAt

/-- The sessions that answer a LIST in time were opened by requests that add up to no
more than the cap. -/
def ListFits (serde : Serde) (s : Server) : ServerStep → Prop
  | .collected k replies wakeups deadline =>
      ∀ handles, s.controls k = .collecting handles →
        arraySize ((answeredInTime replies handles (lastPoll wakeups deadline)).filterMap
          (s.listedSize serde)) ≤ maxFrameLen
  | .session _ | .opened _ _ _ | .actor _ _ | .control _ _ _ | .hangUp _ => True

/-- An actor offers slim frames and answers under its session's name. -/
structure ActorSound (spec : AttachOrOpen) (w : World) : Prop where
  slim : w.Slim
  named : w.Named spec.chosen

def ActorsSound (s : Server) : Prop :=
  ∀ tx spec w, s.tasks tx = some (.looping spec w) → ActorSound spec w

private theorem actorsSound_setTask {s : Server} (hs : s.ActorsSound) {task : ServerTask}
    (htask : ∀ spec w, task = .looping spec w → ActorSound spec w) (tx : ChannelId) :
    (s.setTask tx task).ActorsSound := by
  intro tx' spec w hw
  by_cases htx : tx' = tx
  · subst htx
    simp only [setTask, Function.update_self, Option.some.injEq] at hw
    exact htask spec w hw
  · simp only [setTask, Function.update_of_ne htx] at hw
    exact hs tx' spec w hw

/-- A session connection writes nothing to the control connections. -/
theorem written_onSession (serde : Serde) {s : Server} (hs : s.ActorsSound) (first : Frame) :
    (s.onSession serde first).ActorsSound ∧ (s.onSession serde first).written = s.written := by
  unfold onSession
  split
  · exact ⟨hs, rfl⟩
  · split
    · refine ⟨actorsSound_setTask ?_ (by simp) _, rfl⟩
      exact hs
    · exact ⟨hs, rfl⟩
    · exact ⟨hs, rfl⟩

/-- A session that was opened starts an actor with nothing in its history. -/
theorem written_onOpened {s : Server} (hs : s.ActorsSound) (tx : ChannelId) (spec : AttachOrOpen)
    (spawned : Except Errno Pty) (nowSecs : Nat) :
    (s.onOpened tx spec spawned nowSecs).ActorsSound ∧
      (s.onOpened tx spec spawned nowSecs).written = s.written := by
  unfold onOpened
  split
  · refine ⟨actorsSound_setTask ?_ (by simp) _, rfl⟩
    exact hs
  · rename_i session hopened
    refine ⟨actorsSound_setTask hs ?_ tx, rfl⟩
    rintro spec' w hw
    cases hw
    cases spawned with
    | error e => cases hopened
    | ok pty =>
        cases hopened
        exact ⟨World.slim_start rfl, rfl, nofun⟩

/-- A control connection is written the HELLO_OK at most. -/
theorem written_onControl {serde : Serde} {s t : Server} (hs : s.ActorsSound) {k : Nat}
    {frame : Frame} {handles : List (String × ChannelId)}
    (hstep : s.onControl serde k frame handles = some t) :
    t.ActorsSound ∧ (t.written = s.written ∨ t.written = helloOkFrame serde ownHello :: s.written) := by
  unfold onControl at hstep
  split at hstep
  · cases hstep
    unfold onHello
    split
    · split
      · exact ⟨hs, Or.inr rfl⟩
      · exact ⟨hs, Or.inl rfl⟩
    · exact ⟨hs, Or.inl rfl⟩
  · split at hstep
    · simp only [Option.ite_none_right_eq_some, Option.some.injEq] at hstep
      obtain ⟨-, rfl⟩ := hstep
      exact ⟨hs, Or.inl rfl⟩
    · cases hstep
      exact ⟨hs, Or.inl rfl⟩
  · cases hstep
  · cases hstep

/-- A genuine reply has the size that the request behind its channel gives it. -/
theorem listedSize_of_genuine (serde : Serde) {s : Server} (hs : s.ActorsSound)
    {handles : List (String × ChannelId)} {replies : InfoReplies}
    (hgenuine : s.genuine handles replies = true) {now : Nat} {r : ChannelId × SessionInfo}
    (hr : r ∈ answeredInTime replies handles now) :
    s.listedSize serde r = some (infoSize serde r.2) := by
  obtain ⟨handle, hhandle, hchannel, time, hreply⟩ := mem_answeredInTime hr
  have hanswered := List.all_eq_true.mp hgenuine handle hhandle
  rw [hchannel, hreply] at hanswered
  cases htask : s.tasks r.1 with
  | none => simp [htask] at hanswered
  | some task =>
      cases task with
      | opening spec => simp [htask] at hanswered
      | failed => simp [htask] at hanswered
      | looping spec w =>
          simp only [htask, List.contains_iff_mem] at hanswered
          have hchosen := (hs r.1 spec w htask).named.answers r.2 hanswered
          simp only [listedSize, request, htask, Option.map_some, infoSize, hchosen]

/-- The reply to LIST lists what was collected, and is as long as the requests behind
it. -/
theorem written_onCollected {serde : Serde} {s t : Server} (hs : s.ActorsSound) {k : Nat}
    {replies : InfoReplies} {wakeups : List Nat} {deadline : Nat}
    (hstep : s.onCollected serde k replies wakeups deadline = some t) :
    t.ActorsSound ∧ ∃ handles, s.controls k = .collecting handles ∧ ∃ f : Frame,
      t.written = f :: s.written ∧ f.payload.length =
        arraySize ((answeredInTime replies handles (lastPoll wakeups deadline)).filterMap
          (s.listedSize serde)) := by
  unfold onCollected at hstep
  split at hstep
  · rename_i handles hphase
    simp only [Option.ite_none_right_eq_some, Option.some.injEq] at hstep
    obtain ⟨hgenuine, rfl⟩ := hstep
    refine ⟨hs, handles, hphase, _, rfl, ?_⟩
    have hsizes : ∀ now, (answeredInTime replies handles now).filterMap (s.listedSize serde) =
        (answeredInTime replies handles now).map fun r => infoSize serde r.2 := by
      intro now
      rw [← List.filterMap_eq_map]
      exact List.filterMap_congr fun r hr => listedSize_of_genuine serde hs hgenuine hr
    rw [length_sessionsFrame, collectSessions_eq_answeredInTime, List.map_map, hsizes]
    rfl
  · cases hstep
  · cases hstep
  · cases hstep

/-- What a step writes to the control connections, and that it keeps actors slim. -/
theorem step_written {opts : ServerOpts} {serde : Serde} {s t : Server} {label : ServerStep}
    (hs : s.ActorsSound) (hstep : s.step opts serde label = some t) :
    t.ActorsSound ∧ (t.written = s.written ∨ t.written = helloOkFrame serde ownHello :: s.written) ∧
        ListFits serde s label ∨
      t.ActorsSound ∧ ∃ k replies wakeups deadline handles, ∃ f : Frame,
        label = .collected k replies wakeups deadline ∧ s.controls k = .collecting handles ∧
          t.written = f :: s.written ∧ f.payload.length =
            arraySize ((answeredInTime replies handles (lastPoll wakeups deadline)).filterMap
              (s.listedSize serde)) := by
  cases label with
  | session first =>
      simp only [step, Option.ite_none_right_eq_some, Option.some.injEq] at hstep
      obtain ⟨-, rfl⟩ := hstep
      obtain ⟨ht, hwritten⟩ := written_onSession serde hs first
      exact Or.inl ⟨ht, Or.inl hwritten, trivial⟩
  | opened tx spawned nowSecs =>
      simp only [step] at hstep
      split at hstep
      · rename_i spec _
        cases hstep
        obtain ⟨ht, hwritten⟩ := written_onOpened hs tx spec spawned nowSecs
        exact Or.inl ⟨ht, Or.inl hwritten, trivial⟩
      · cases hstep
  | actor tx label =>
      simp only [step] at hstep
      split at hstep
      · rename_i spec w hw
        simp only [Option.ite_none_right_eq_some, Option.map_eq_some_iff] at hstep
        obtain ⟨htyped, v, hv, rfl⟩ := hstep
        refine Or.inl ⟨actorsSound_setTask ?_ ?_ tx, Or.inl rfl, trivial⟩
        · exact hs
        · rintro spec' u hu
          cases hu
          have hsound := hs tx spec w hw
          exact ⟨World.slim_step opts hsound.slim htyped hv,
            (World.kept_named opts spec.chosen).step hsound.named hv⟩
      · cases hstep
  | control k frame handles =>
      obtain ⟨ht, hwritten⟩ := written_onControl hs hstep
      exact Or.inl ⟨ht, hwritten, trivial⟩
  | collected k replies wakeups deadline =>
      obtain ⟨ht, handles, hphase, f, hwritten, hlength⟩ := written_onCollected hs hstep
      exact Or.inr ⟨ht, k, replies, wakeups, deadline, handles, f, rfl, hphase, hwritten, hlength⟩
  | hangUp k =>
      cases hstep
      exact Or.inl ⟨hs, Or.inl rfl, trivial⟩

/-- Written frames stay written. -/
theorem step_stays_written {opts : ServerOpts} {serde : Serde} {s t : Server} {label : ServerStep}
    (hs : s.ActorsSound) (hstep : s.step opts serde label = some t) :
    t.ActorsSound ∧ ∀ f ∈ s.written, f ∈ t.written := by
  rcases step_written hs hstep with ⟨ht, hwritten, -⟩ | ⟨ht, _, _, _, _, _, _, -, -, hwritten, -⟩
  · refine ⟨ht, ?_⟩
    intro f hf
    rcases hwritten with hwritten | hwritten
    · rw [hwritten]
      exact hf
    · rw [hwritten]
      exact List.mem_cons_of_mem _ hf
  · refine ⟨ht, ?_⟩
    intro f hf
    rw [hwritten]
    exact List.mem_cons_of_mem _ hf

/-- The session connections never carry a frame beyond the cap. -/
theorem ActorsSound.fits_iff_written {s : Server} (hs : s.ActorsSound) :
    s.Fits ↔ ∀ f ∈ s.written, f.payload.length ≤ maxFrameLen := by
  refine ⟨fun h => h.1, fun h => ⟨h, ?_⟩⟩
  intro tx spec w c hw f hf
  obtain ⟨stage, hsent⟩ := Event.mem_of_mem_frames hf
  exact (hs tx spec w hw).slim.sent _ hsent

private theorem length_helloOk {serde : Serde}
    (htext : ∀ s, (serde.text s).length ≤ 6 * s.utf8ByteSize + 2) :
    (helloOkFrame serde ownHello).payload.length ≤ maxFrameLen := by
  have hversion : (serde.text "0.1.0").length ≤ 32 := htext "0.1.0"
  have hproto : (decimal protoVersion).length = 1 := rfl
  have hfirst : (ascii "\x7b\"proto_version\":").length = 17 := rfl
  have hsecond : (ascii ",\"daemon_version\":").length = 18 := rfl
  have hlast : (ascii "\x7d").length = 1 := rfl
  have hcap : 69 ≤ maxFrameLen := by decide
  simp only [helloOkFrame, ownHello, List.length_append, hproto, hfirst, hsecond, hlast]
  omega

/-- One step: within the cap before it, all written frames are within the cap after it
exactly if the sum of its LIST is. -/
theorem fits_step_iff {opts : ServerOpts} {serde : Serde}
    (htext : ∀ s, (serde.text s).length ≤ 6 * s.utf8ByteSize + 2) {s t : Server}
    {label : ServerStep} (hs : s.ActorsSound) (hfits : s.Fits)
    (hstep : s.step opts serde label = some t) : t.Fits ↔ ListFits serde s label := by
  rcases step_written hs hstep with ⟨ht, hwritten, hlist⟩ |
    ⟨ht, k, replies, wakeups, deadline, handles, f, rfl, hphase, hwritten, hlength⟩
  · refine iff_of_true (ht.fits_iff_written.mpr ?_) hlist
    intro f hf
    rcases hwritten with hwritten | hwritten
    · rw [hwritten] at hf
      exact hfits.1 f hf
    · rw [hwritten] at hf
      rcases List.mem_cons.mp hf with rfl | hf
      · exact length_helloOk htext
      · exact hfits.1 f hf
  · rw [ht.fits_iff_written, hwritten, List.forall_mem_cons, hlength]
    constructor
    · rintro ⟨hsum, -⟩ handles' hphase'
      rw [hphase] at hphase'
      cases hphase'
      exact hsum
    · intro hsum
      exact ⟨hsum handles hphase, hfits.1⟩

/-- In every run of the daemon, all frames written are within the cap exactly if at
every LIST the requests that opened the listed sessions add up to no more. -/
theorem fits_iff (opts : ServerOpts) (serde : Serde)
    (htext : ∀ s, (serde.text s).length ≤ 6 * s.utf8ByteSize + 2) (maxSessions : Nat)
    (labels : List ServerStep) (s : Server)
    (hrun : (machine opts serde).run (start maxSessions) labels = some s) :
    s.Fits ↔ (machine opts serde).Along (ListFits serde) (start maxSessions) labels := by
  apply (machine opts serde).good_iff_along (motive := ActorsSound)
  · intro s label t hs hstep
    exact (step_stays_written hs hstep).1
  · intro s label t hs hfits hstep
    exact fits_step_iff htext hs hfits hstep
  · intro s label t hs hspoilt hstep hfits
    obtain ⟨ht, hstays⟩ := step_stays_written hs hstep
    apply hspoilt
    rw [hs.fits_iff_written]
    intro f hf
    exact ht.fits_iff_written.mp hfits f (hstays f hf)
  · intro tx spec w hw
    cases hw
  · refine ⟨by simp [start], ?_⟩
    intro tx spec w c hw
    cases hw
  · exact hrun

/-! ## A long directory -/

/-- The frame with which a client opens a session. -/
private def openFrame (text : String → List UInt8) (req : AttachOrOpen) : Frame where
  ty := .attachOrOpen
  payload := ascii "\x7b\"session_id\":" ++ text req.sessionId ++
    ascii ",\"cwd\":" ++ text req.cwd ++
    ascii ",\"argv\":" ++ arrayJson (req.argv.map text) ++
    ascii ",\"want_chunks\":" ++ decimal req.wantChunks ++
    ascii ",\"cols\":" ++ decimal req.cols.toNat ++
    ascii ",\"rows\":" ++ decimal req.rows.toNat ++ ascii "\x7d"

/-- The text of a string that needs no escapes. -/
private def quoted (s : String) : List UInt8 := 0x22 :: (s.toByteArray.data.toList ++ [0x22])

private theorem length_quoted (s : String) : (quoted s).length = s.utf8ByteSize + 2 := by
  simp [quoted]

/-- A directory name of a given length. -/
private def longName : Nat → String
  | 0 => ""
  | n + 1 => (longName n).push 'a'

private theorem utf8ByteSize_longName (n : Nat) : (longName n).utf8ByteSize = n := by
  induction n with
  | zero => rfl
  | succ n ih =>
      rw [longName, String.utf8ByteSize_push, ih]
      rfl

private def openRequest (cwd : String) : AttachOrOpen := ⟨"a", cwd, ["sh"], 0, 80, 24⟩

private def helloFrame : Frame := ⟨.hello, ascii "\x7b\"proto_version\":1,\"daemon_version\":\"\"\x7d"⟩

/-- The decoders on the frames of this run. -/
private def plainSerde (payload : List UInt8) (req : AttachOrOpen) : Serde where
  json :=
    { attachOrOpen := fun p => if p = payload then some req else none
      resize := fun _ => none
      close := fun _ => none }
  hello := fun p => if p = helloFrame.payload then some ⟨1, ""⟩ else none
  text := quoted

private def openedAt : Nat := 1700000000

private def longInfo (cwd : String) : SessionInfo := ⟨"a", ["sh"], cwd, false, false, openedAt⟩

/-- A client opens a session, another one lists the sessions, and the actor
answers. -/
private def openThenList (payload : List UInt8) : List ServerStep :=
  [.session ⟨.attachOrOpen, payload⟩, .opened 0 (.ok ⟨7⟩) openedAt,
    .actor 0 .asyncFdOk, .control 0 helloFrame [], .control 0 ⟨.list, []⟩ [("a", 0)],
    .actor 0 (.send .info), .actor 0 (.command .none)]

/-- The answer is collected. -/
private def collectLong (cwd : String) : ServerStep :=
  .collected 0 (fun _ => some (.answered 5 (longInfo cwd))) [5] 1000

private theorem run_openThenList {payload : List UInt8} (hlegal : payload.length ≤ maxFrameLen)
    (cwd : String) :
    ∃ s w, (machine .default (plainSerde payload (openRequest cwd))).run (start 256)
        (openThenList payload) = some s ∧
      s.controls 0 = .collecting [("a", 0)] ∧
      s.tasks 0 = some (.looping (openRequest cwd) w) ∧
      .answered (longInfo cwd) ∈ w.history ∧
      s.written = [helloOkFrame (plainSerde payload (openRequest cwd)) ownHello] := by
  have hbind : (start 256).step .default (plainSerde payload (openRequest cwd))
      (.session ⟨.attachOrOpen, payload⟩) =
        some (setTask { start 256 with
          registry := ((Registry.withMaxSessions 256).attachOrCreate "a" 0).2, fresh := 1 } 0
            (.opening (openRequest cwd))) := by
    have hread : (plainSerde payload (openRequest cwd)).json.attachOrOpen payload =
        some (openRequest cwd) := if_pos rfl
    have htaken : (start 256).step .default (plainSerde payload (openRequest cwd))
        (.session ⟨.attachOrOpen, payload⟩) =
          some ((start 256).onSession (plainSerde payload (openRequest cwd))
            ⟨.attachOrOpen, payload⟩) := if_pos ⟨rfl, hlegal⟩
    rw [htaken, onSession, hread]
    rfl
  exact ⟨_, _, (Machine.run_cons_eq_some _).mpr ⟨_, hbind, rfl⟩, rfl, rfl, List.mem_cons_self, rfl⟩

private theorem along_openThenList (serde : Serde) (s : Server) (payload : List UInt8) :
    (machine .default serde).Along (ListFits serde) s (openThenList payload) :=
  ⟨trivial, fun _ _ => ⟨trivial, fun _ _ => ⟨trivial, fun _ _ => ⟨trivial, fun _ _ =>
    ⟨trivial, fun _ _ => ⟨trivial, fun _ _ => ⟨trivial, fun _ _ => trivial⟩⟩⟩⟩⟩⟩⟩

private theorem step_collectLong (serde : Serde) {s : Server} {w : World} {cwd : String}
    (hphase : s.controls 0 = .collecting [("a", 0)])
    (htask : s.tasks 0 = some (.looping (openRequest cwd) w))
    (hanswered : .answered (longInfo cwd) ∈ w.history) :
    s.step .default serde (collectLong cwd) =
      some ((s.write (sessionsFrame serde [longInfo cwd])).setControl 0 .ready) := by
  have hgenuine : s.genuine [("a", 0)] (fun _ => some (.answered 5 (longInfo cwd))) = true := by
    simp [genuine, htask, hanswered]
  have hstep : s.step .default serde (collectLong cwd) =
      s.onCollected serde 0 (fun _ => some (.answered 5 (longInfo cwd))) [5] 1000 := rfl
  rw [hstep]
  unfold onCollected
  rw [hphase]
  exact if_pos hgenuine

private theorem infoSize_longInfo (payload : List UInt8) (req : AttachOrOpen) (cwd : String) :
    infoSize (plainSerde payload req) (longInfo cwd) = cwd.utf8ByteSize + 100 := by
  have hcwd : ((plainSerde payload req).text cwd).length = cwd.utf8ByteSize + 2 := length_quoted cwd
  have hid : ((plainSerde payload req).text "a").length = 3 := rfl
  have hargv : arraySize (["sh"].map fun arg => ((plainSerde payload req).text arg).length) = 6 := rfl
  have htime : (decimal openedAt).length = 10 := by decide +kernel
  simp only [infoSize, entrySize, SessionInfo.chosen, longInfo, hcwd, hid, hargv, htime,
    Bool.false_eq_true, if_false]
  omega

private def rootOpen : List UInt8 := (openFrame quoted (openRequest "/")).payload

private def rootSerde : Serde := plainSerde rootOpen (openRequest "/")

/-- The reply fits. -/
theorem fits_openThenList :
    ∃ s, (machine .default rootSerde).run (start 256)
        (openThenList rootOpen ++ [collectLong "/"]) = some s ∧ s.Fits := by
  have htext : ∀ s, (rootSerde.text s).length ≤ 6 * s.utf8ByteSize + 2 := by
    intro s
    have hquoted : (rootSerde.text s).length = s.utf8ByteSize + 2 := length_quoted s
    omega
  have hlegal : rootOpen.length ≤ maxFrameLen := by decide +kernel
  obtain ⟨s, w, hrun, hphase, htask, hanswered, -⟩ := run_openThenList hlegal "/"
  have hlast := step_collectLong rootSerde hphase htask hanswered
  have hwhole : (machine .default rootSerde).run (start 256)
      (openThenList rootOpen ++ [collectLong "/"]) = some _ :=
    (Machine.run_snoc_eq_some _).mpr ⟨s, hrun, hlast⟩
  refine ⟨_, hwhole, (fits_iff _ _ htext 256 _ _ hwhole).mpr ?_⟩
  rw [Machine.along_append]
  refine ⟨along_openThenList _ _ _, ?_⟩
  intro t ht
  have hsame := hrun.symm.trans ht
  cases hsame
  refine ⟨?_, fun _ _ => trivial⟩
  intro handles hhandles
  rw [hphase] at hhandles
  cases hhandles
  have hlisted : (answeredInTime (fun _ => some (.answered 5 (longInfo "/"))) [("a", 0)]
      (lastPoll [5] 1000)).filterMap (s.listedSize rootSerde) = [longInfo "/"].map (infoSize rootSerde) := by
    rw [lastPoll_eq (by decide)]
    simp only [answeredInTime, Option.map_some, ReplyRx.pendingAt, ReplyRx.repliedBy]
    simp [listedSize, request, htask, infoSize, longInfo, openRequest, AttachOrOpen.chosen,
      SessionInfo.chosen]
  rw [hlisted]
  have hsum : arraySize ([longInfo "/"].map (infoSize rootSerde)) = 103 := by
    rw [rootSerde, List.map_singleton, infoSize_longInfo]
    rfl
  exact Nat.le_trans (Nat.le_of_eq hsum) (by decide)

/-- The directory fits into the frame that opens its session. -/
private def longDirectory : String := longName 16777130

private def longOpen : List UInt8 := (openFrame quoted (openRequest longDirectory)).payload

private theorem length_longOpen : longOpen.length = 16777207 := by
  have hcwd : (quoted longDirectory).length = 16777132 := by
    rw [length_quoted, longDirectory, utf8ByteSize_longName]
  have hid : (quoted "a").length = 3 := rfl
  have hargv : (arrayJson (["sh"].map quoted)).length = 6 := rfl
  have hchunks : (decimal 0).length = 1 := rfl
  have hcols : (decimal (80 : UInt16).toNat).length = 2 := rfl
  have hrows : (decimal (24 : UInt16).toNat).length = 2 := rfl
  have hkey₁ : (ascii "\x7b\"session_id\":").length = 14 := rfl
  have hkey₂ : (ascii ",\"cwd\":").length = 7 := rfl
  have hkey₃ : (ascii ",\"argv\":").length = 8 := rfl
  have hkey₄ : (ascii ",\"want_chunks\":").length = 15 := rfl
  have hkey₅ : (ascii ",\"cols\":").length = 8 := rfl
  have hkey₆ : (ascii ",\"rows\":").length = 8 := rfl
  have hlast : (ascii "\x7d").length = 1 := rfl
  simp only [longOpen, openFrame, openRequest, List.length_append, hcwd, hid, hargv, hchunks, hcols,
    hrows, hkey₁, hkey₂, hkey₃, hkey₄, hkey₅, hkey₆, hlast]

/-- One session suffices: its entry in SESSIONS is longer than the frame that opened
it. -/
theorem not_fits_longDirectory :
    longOpen.length ≤ maxFrameLen ∧ (∀ s, s.utf8ByteSize ≤ (quoted s).length) ∧
      ∃ s, (machine .default (plainSerde longOpen (openRequest longDirectory))).run (start 256)
          (openThenList longOpen ++ [collectLong longDirectory]) = some s ∧ ¬ s.Fits := by
  have hlegal : longOpen.length ≤ maxFrameLen := by
    rw [length_longOpen]
    decide
  refine ⟨hlegal, fun s => by rw [length_quoted]; omega, ?_⟩
  obtain ⟨s, w, hrun, hphase, htask, hanswered, -⟩ := run_openThenList hlegal longDirectory
  have hlast := step_collectLong (plainSerde longOpen (openRequest longDirectory))
    hphase htask hanswered
  refine ⟨_, (Machine.run_snoc_eq_some _).mpr ⟨s, hrun, hlast⟩, ?_⟩
  intro hfits
  have hsessions := hfits.1 _ List.mem_cons_self
  rw [length_sessionsFrame, List.map_singleton, infoSize_longInfo, longDirectory,
    utf8ByteSize_longName] at hsessions
  exact absurd hsessions (by decide)

end Server

end JftermMuxer.Daemon
