import JftermMuxer.Daemon.Protocol
import JftermMuxer.Daemon.Session
import JftermMuxer.Foundation.Decimal
import JftermMuxer.Foundation.Machine

/-!
# The session actor

{lit}`actor_loop` of {lit}`jftermd/src/server.rs` and what it calls, with the
channels around it: the command queue that connections send into, and one
bounded out-queue for each client, popped and closed by that client's writer.

The actor registers the master with the reactor, and returns when that fails;
then it loops.  Its arms run to their end without an await, so an arm is one step.  What
can move between two `try_send` calls of one arm are the writers; a label that
takes an arm therefore carries the writers' moves before each `try_send`,
together with the kernel's answers.  Every other move (a connection's send, a
writer, the clock) is a step of its own.  `select!` is biased: an arm is taken
only when no arm before it is ready.

Main results:

- Theorem {lit}`World.trySend_cases`: what an offered frame does to its queue.
- Theorems {lit}`World.Kept.step` and {lit}`World.Kept.run`: what every kind of
  move keeps, every step and every run keeps.
- Theorem {lit}`World.history_step`: a step only adds events.
-/

namespace JftermMuxer.Daemon

open JftermMuxer.Core JftermMuxer.Foundation

/-! ## Frames of the actor -/

/-- The bytes of a text without characters beyond ASCII. -/
def ascii (text : String) : List UInt8 := text.toList.map fun c => UInt8.ofNat c.toNat

def jsonBool (b : Bool) : List UInt8 := if b then ascii "true" else ascii "false"

private def jsonProgress : Option UInt8 → List UInt8
  | none => ascii "null"
  | some v => decimal v.toNat

private def jsonInt : Int → List UInt8
  | .ofNat n => decimal n
  | .negSucc n => ascii "-" ++ decimal (n + 1)

def statusFrame (s : StatusSnapshot) : Frame where
  ty := .status
  payload := ascii "\x7b\"running\":" ++ jsonBool s.running ++ ascii ",\"progress\":" ++
    jsonProgress s.progress ++ ascii "\x7d"

def exitFrame (code : Int) : Frame where
  ty := .exit
  payload := ascii "\x7b\"status\":" ++ jsonInt code ++ ascii "\x7d"

private theorem jsonProgress_injective {p q : Option UInt8} (h : jsonProgress p = jsonProgress q) :
    p = q := by
  have hnull : ∀ v : UInt8, decimal v.toNat ≠ ascii "null" := by
    intro v heq
    have hmem : (0x6E : UInt8) ∈ decimal v.toNat := by
      rw [heq]
      decide
    have hdigit := (isDigit_of_mem_decimal hmem).2
    contradiction
  cases p with
  | none =>
      cases q with
      | none => rfl
      | some v => exact absurd h.symm (hnull v)
  | some u =>
      cases q with
      | none => exact absurd h (hnull u)
      | some v =>
          have hread := congrArg (List.foldl readDigit 0) h
          have hu := u.toNat_lt
          have hv := v.toNat_lt
          simp only [jsonProgress, foldl_readDigit_decimal] at hread
          have hnat : u.toNat = v.toNat := by omega
          rw [UInt8.toNat_inj.mp hnat]

/-- Different snapshots are told apart on the wire. -/
theorem statusFrame_injective {s t : StatusSnapshot} (h : statusFrame s = statusFrame t) : s = t := by
  obtain ⟨running, progress⟩ := s
  obtain ⟨running', progress'⟩ := t
  have hpayload := congrArg Frame.payload h
  simp only [statusFrame, List.append_assoc] at hpayload
  have hvalues := List.append_cancel_left hpayload
  cases running with
  | true =>
      cases running' with
      | true =>
          have hrest := List.append_cancel_left (List.append_cancel_left hvalues)
          rw [jsonProgress_injective (List.append_cancel_right hrest)]
      | false => cases hvalues
  | false =>
      cases running' with
      | true => cases hvalues
      | false =>
          have hrest := List.append_cancel_left (List.append_cancel_left hvalues)
          rw [jsonProgress_injective (List.append_cancel_right hrest)]

/-- A STATUS is short. -/
theorem length_statusFrame_le (s : StatusSnapshot) : (statusFrame s).payload.length ≤ 64 := by
  have hrunning : (jsonBool s.running).length ≤ 5 := by
    cases s.running with
    | true => decide
    | false => decide
  have hprogress : (jsonProgress s.progress).length ≤ 4 := by
    cases hcase : s.progress with
    | none => decide
    | some v =>
        have hlt := v.toNat_lt
        exact length_decimal_le (by omega) (by omega)
  have hhead : (ascii "\x7b\"running\":").length = 11 := rfl
  have hmiddle : (ascii ",\"progress\":").length = 12 := rfl
  have hlast : (ascii "\x7d").length = 1 := rfl
  simp only [statusFrame, List.length_append, hhead, hmiddle, hlast]
  omega

/-- The values of an {lit}`i32`. -/
def IsI32 (n : Int) : Prop := -2 ^ 31 ≤ n ∧ n < 2 ^ 31

/-- An EXIT is short. -/
theorem length_exitFrame_le {code : Int} (h : IsI32 code) :
    (exitFrame code).payload.length ≤ 64 := by
  unfold IsI32 at h
  have hcode : (jsonInt code).length ≤ 12 := by
    cases code with
    | ofNat n =>
        rw [Int.ofNat_eq_natCast] at h
        have hn : n < 10 ^ 11 := by omega
        have hlength := length_decimal_le (by omega) hn
        simp only [jsonInt]
        omega
    | negSucc n =>
        have hn : n + 1 < 10 ^ 11 := by omega
        have hlength := length_decimal_le (by omega) hn
        have hsign : (ascii "-").length = 1 := rfl
        simp only [jsonInt, List.length_append, hsign]
        omega
  have hhead : (ascii "\x7b\"status\":").length = 10 := rfl
  have hlast : (ascii "\x7d").length = 1 := rfl
  simp only [exitFrame, List.length_append, hhead, hlast]
  omega

/-! ## Commands, queues and events -/

/-- A client's out-queue, created for one connection. -/
abbrev ClientId := Nat

structure AttachRequest where
  wantChunks : Nat
  cols : UInt16
  rows : UInt16
  outTx : ClientId
deriving DecidableEq, Repr

/-- A command delivered to a session's actor. -/
inductive SessionCommand where
  | input (bytes : List UInt8)
  | resize (cols rows : UInt16)
  | close (graceMs : UInt32)
  | attach (req : AttachRequest)
  | info
deriving DecidableEq, Repr

def SessionCommand.isClose : SessionCommand → Bool
  | .close _ => true
  | .input _ | .resize _ _ | .attach _ | .info => false

def SessionCommand.isAttach : SessionCommand → Bool
  | .attach _ => true
  | .input _ | .resize _ _ | .close _ | .info => false

/-- The knobs that the actor reads; times are in milliseconds. -/
structure ServerOpts where
  deadGrace : Nat
  outQueue : Nat
deriving DecidableEq, Repr

def ServerOpts.default : ServerOpts := ⟨30000, 1024⟩

/-- Depth of a session's command channel. -/
def cmdQueueDepth : Nat := 256

/-- Frames waiting for a client's writer; closed once the writer is gone. -/
structure OutQueue where
  queued : List Frame
  closed : Bool
deriving DecidableEq, Repr

/-- What a client's writer does to its queue. -/
inductive WriterMove where
  | pop (c : ClientId)
  | close (c : ClientId)
deriving DecidableEq, Repr

/-- Whether a frame is offered by the attach handshake or by a live push. -/
inductive Stage where
  | handshake
  | live
deriving DecidableEq, Repr

/-- What happened, as far as clients, connections and the shell can tell. -/
inductive Event where
  /-- A connection's send into the command channel returned `Ok`. -/
  | delivered (cmd : SessionCommand)
  /-- The actor received a command. -/
  | received (cmd : SessionCommand)
  /-- `attach_client` took the replay for a client. -/
  | attached (c : ClientId) (replay : List UInt8)
  /-- A drain outcome was processed. -/
  | drained (data : List UInt8) (exit : Option Int)
  /-- A `try_send`, with its success. -/
  | sent (c : ClientId) (frame : Frame) (stage : Stage) (ok : Bool)
  | answered (info : SessionInfo)
  | signalled (sig : Signal)
  | elapsed (ms : Nat)
deriving DecidableEq, Repr

/-- How far the actor's task has come. -/
inductive TaskPhase where
  /-- In the loop, or still before it. -/
  | running
  /-- The loop is left, the registry entry is still there. -/
  | left
  /-- The registry entry is removed, the receiver is still there. -/
  | removed
  | finished
deriving DecidableEq, Repr

/-- The actor's variables, its channels, the clock and the history, newest event
first. -/
structure World where
  session : Session
  /-- `AsyncFd::with_interest` has registered the master. -/
  registered : Bool
  client : Option ClientId
  lastStatus : Option StatusSnapshot
  pollRunning : Bool
  graceDeadline : Option Nat
  closing : Bool
  killDeadline : Option Nat
  phase : TaskPhase
  queue : List SessionCommand
  sendersAlive : Bool
  nextClient : ClientId
  outQueues : ClientId → OutQueue
  now : Nat
  os : Os
  moves : List (List WriterMove)
  history : List Event

namespace World

/-- The actor around a session that has just opened, with its master still to be
registered. -/
def start (session : Session) : World where
  session := session
  registered := false
  client := none
  lastStatus := none
  pollRunning := false
  graceDeadline := none
  closing := false
  killDeadline := none
  phase := .running
  queue := []
  sendersAlive := true
  nextClient := 0
  outQueues := fun _ => ⟨[], false⟩
  now := 0
  os := ⟨[], [], [], [], [], []⟩
  moves := []
  history := []

def record (w : World) (e : Event) : World := { w with history := e :: w.history }

/-- Leave the loop. -/
def leave (w : World) : World := { w with phase := .left }

/-! ## Out-queues -/

def setQueue (w : World) (c : ClientId) (q : OutQueue) : World :=
  { w with outQueues := Function.update w.outQueues c q }

/-- One move of one writer. -/
def writerMove (w : World) : WriterMove → World
  | .pop c => w.setQueue c { w.outQueues c with queued := (w.outQueues c).queued.tail }
  | .close c => w.setQueue c { w.outQueues c with closed := true }

/-- The writers' moves before the next `try_send`. -/
def interleave (w : World) : World :=
  (w.moves.headD []).foldl writerMove { w with moves := w.moves.tail }

/-- `Sender::try_send`: it fails on a full or closed queue. -/
def trySend (opts : ServerOpts) (w : World) (c : ClientId) (frame : Frame) (stage : Stage) :
    Bool × World :=
  let w := w.interleave
  let q := w.outQueues c
  if q.closed || decide (opts.outQueue ≤ q.queued.length) then
    (false, w.record (.sent c frame stage false))
  else
    (true, (w.setQueue c { q with queued := q.queued ++ [frame] }).record
      (.sent c frame stage true))

/-- Push one frame to the attached client; drop the client when that fails. -/
def pushOrDrop (opts : ServerOpts) (w : World) (frame : Frame) : World :=
  match w.client with
  | none => w
  | some tx =>
      match w.trySend opts tx frame .live with
      | (true, w) => w
      | (false, w) => { w with client := none }

def forwardData (opts : ServerOpts) (w : World) (data : List UInt8) : World :=
  (frameData data).foldl (pushOrDrop opts) w

/-- Offer a frame of the attach handshake; the result is ignored. -/
def offer (opts : ServerOpts) (tx : ClientId) (w : World) (frame : Frame) : World :=
  (w.trySend opts tx frame .handshake).2

/-! ## Session calls of the actor -/

def writeInput (w : World) (bytes : List UInt8) : World :=
  { w with os := (w.session.writeInput w.os bytes).2 }

def resize (w : World) (cols rows : UInt16) : World :=
  let (_, session, os) := w.session.resize w.os cols rows
  { w with session, os }

/-- Refresh the fallback value of `running`. -/
def poll (w : World) : World :=
  let (pollRunning, os) := w.session.pollRunning w.os
  { w with pollRunning, os }

def info (w : World) : World :=
  let (info, os) := w.session.info w.os w.client.isSome
  { w with os, history := .answered info :: w.history }

/-- `Session::hangup`; the signal is an event when it is sent. -/
def hangup (w : World) : World :=
  { w with
    os := (w.session.hangup w.os).2
    history := if w.session.isDead then w.history else .signalled .sighup :: w.history }

/-- `Session::kill`; the signal is an event when it is sent. -/
def kill (w : World) : World :=
  { w with
    os := (w.session.kill w.os).2
    history := if w.session.isDead then w.history else .signalled .sigkill :: w.history }

/-- `running` as a client sees it. -/
def mergeRunning (hasMarking engineRunning pollRunning : Bool) : Bool :=
  if hasMarking then engineRunning else pollRunning

def effectiveStatus (w : World) : StatusSnapshot where
  running := mergeRunning w.session.hasPromptMarking w.session.status.running w.pollRunning
  progress := w.session.status.progress

/-! ## The arms of the loop -/

/-- Offer EXIT if the session is dead. -/
def offerExit (opts : ServerOpts) (tx : ClientId) (w : World) : World :=
  match w.session.lifecycle with
  | .live => w
  | .dead status => w.offer opts tx (exitFrame status)

/-- The replay handshake: replay, status, exit if dead, and the takeover at the
end. -/
def handshake (opts : ServerOpts) (w : World) (req : AttachRequest) : World :=
  let replay := w.session.replayForAttach req.wantChunks
  let w := w.record (.attached req.outTx replay.data)
  let w := (frameData replay.data).foldl (offer opts req.outTx) w
  let w := w.offer opts req.outTx (statusFrame w.effectiveStatus)
  let w := w.offerExit opts req.outTx
  { w with client := some req.outTx }

/-- Bind a (re)attaching client. -/
def attachClient (opts : ServerOpts) (w : World) (req : AttachRequest) : World :=
  (w.resize req.cols req.rows).handshake opts req

/-- The Attach command, up to the check whether the session is dead. -/
def bindClient (opts : ServerOpts) (w : World) (req : AttachRequest) : World :=
  let w := if w.session.hasPromptMarking then w else w.poll
  let w := w.attachClient opts req
  { w with lastStatus := some w.effectiveStatus }

/-- The Attach command. -/
def onAttach (opts : ServerOpts) (w : World) (req : AttachRequest) : World :=
  let w := w.bindClient opts req
  if w.session.isDead then w.leave else w

/-- The client taken for the last EXIT of a session that CLOSE found dead. -/
def farewell (opts : ServerOpts) (w : World) (code : Int) : World :=
  match w.client with
  | none => w
  | some tx => (World.trySend opts { w with client := none } tx (exitFrame code) .live).2

/-- The Close command. -/
def onClose (opts : ServerOpts) (w : World) (graceMs : UInt32) : World :=
  let w := w.hangup
  let w := { w with
    closing := true
    killDeadline := if 0 < graceMs then some (w.now + graceMs.toNat) else w.killDeadline }
  match w.session.lifecycle with
  | .live => w
  | .dead code => (w.farewell opts code).leave

/-- The command arm, on a received command. -/
def onCommand (opts : ServerOpts) (w : World) : SessionCommand → World
  | .input bytes => w.writeInput bytes
  | .resize cols rows => w.resize cols rows
  | .info => w.info
  | .close graceMs => w.onClose opts graceMs
  | .attach req => w.onAttach opts req

/-- Push a STATUS frame if the merged status has changed. -/
def pushStatus (opts : ServerOpts) (w : World) : World :=
  if w.lastStatus = some w.effectiveStatus then w
  else { w.pushOrDrop opts (statusFrame w.effectiveStatus) with
    lastStatus := some w.effectiveStatus }

/-- The status refresh of a drain, skipped while detached. -/
def refreshStatus (opts : ServerOpts) (w : World) : World :=
  if w.client.isSome then
    let w := if !w.session.hasPromptMarking && !w.session.isDead then w.poll else w
    w.pushStatus opts
  else w

/-- A drain that reported an exit: EXIT, then the end after a CLOSE, or the
retention of the dead session. -/
def onExit (opts : ServerOpts) (w : World) (code : Int) : World :=
  let w := w.pushOrDrop opts (exitFrame code)
  if w.closing then w.leave else { w with graceDeadline := some (w.now + opts.deadGrace) }

/-- The readable arm. -/
def onReadable (opts : ServerOpts) (w : World) : World :=
  match w.session.drain w.os with
  | (.error _, session, os) => World.leave { w with session, os }
  | (.ok outcome, session, os) =>
      let w := World.record { w with session, os } (.drained outcome.data outcome.exit)
      let w := if outcome.data.isEmpty then w else w.forwardData opts outcome.data
      let w := w.refreshStatus opts
      match outcome.exit with
      | none => w
      | some code => w.onExit opts code

/-- The kill arm. -/
def onKill (w : World) : World :=
  let w := if w.session.isDead then w else w.kill
  { w with killDeadline := none }

/-- The tick arm. -/
def onTick (opts : ServerOpts) (w : World) : World := w.poll.pushStatus opts

/-! ## Steps -/

/-- The kernel's answers and the writers' moves during one arm. -/
structure Answers where
  reads : List (Except Errno (List UInt8))
  waits : List (Except Errno WaitStatus)
  writes : List (Except Errno Nat)
  groups : List (Except Errno Pid)
  controls : List (Except Errno Unit)
  moves : List (List WriterMove)

def Answers.none : Answers := ⟨[], [], [], [], [], []⟩

/-- One step of the actor or of what surrounds it. -/
inductive Label where
  /-- `AsyncFd::with_interest` succeeds, and the loop begins. -/
  | asyncFdOk
  /-- `AsyncFd::with_interest` fails, and there is no loop. -/
  | asyncFdFailed
  /-- A connection's send into the command channel completes. -/
  | send (cmd : SessionCommand)
  /-- The last sender of the command channel is dropped. -/
  | dropSenders
  | writer (move : WriterMove)
  | elapse (ms : Nat)
  | command (answers : Answers)
  | readable (answers : Answers)
  /-- Waiting for readability failed. -/
  | readableError
  | grace
  | kill (answers : Answers)
  | tick (answers : Answers)
  | remove
  | finish

/-- A condition on labels is decided label by label. -/
@[reducible] def Label.decidable (P : Label → Prop) [Decidable (P .asyncFdOk)]
    [Decidable (P .asyncFdFailed)] [∀ cmd, Decidable (P (.send cmd))] [Decidable (P .dropSenders)]
    [∀ move, Decidable (P (.writer move))] [∀ ms, Decidable (P (.elapse ms))]
    [∀ a, Decidable (P (.command a))] [∀ a, Decidable (P (.readable a))]
    [Decidable (P .readableError)] [Decidable (P .grace)] [∀ a, Decidable (P (.kill a))]
    [∀ a, Decidable (P (.tick a))] [Decidable (P .remove)] [Decidable (P .finish)] :
    DecidablePred P
  | .asyncFdOk | .asyncFdFailed | .send _ | .dropSenders | .writer _ | .elapse _ | .command _
  | .readable _ | .readableError | .grace | .kill _ | .tick _ | .remove | .finish => inferInstance

/-- The answers stand for one arm. -/
def answer (w : World) (a : Answers) : World :=
  { w with
    os := ⟨a.reads, a.waits, a.writes, a.groups, a.controls, w.os.calls⟩
    moves := a.moves }

/-- A deadline that has passed. -/
def due (w : World) (deadline : Option Nat) : Bool :=
  match deadline with
  | none => false
  | some d => decide (d ≤ w.now)

/-- The loop is at its `select!` and the command arm is not ready. -/
def idle (w : World) : Bool :=
  w.phase == .running && w.queue.isEmpty && w.sendersAlive && w.registered

/-- The actor is before its loop: the master is not registered. -/
def entering (w : World) : Bool := w.phase == .running && !w.registered

/-- The channel of an attach is new, and counted. -/
def allot (w : World) : SessionCommand → Option World
  | .attach req =>
      if req.outTx = w.nextClient then some { w with nextClient := w.nextClient + 1 } else none
  | .input _ | .resize _ _ | .close _ | .info => some w

/-- A connection sends a command: it waits while the channel is full, and the
receiver lives until the task has finished. -/
def send (w : World) (cmd : SessionCommand) : Option World :=
  if w.phase ≠ .finished ∧ w.sendersAlive ∧ w.queue.length < cmdQueueDepth then
    (w.allot cmd).map fun w =>
      { w with queue := w.queue ++ [cmd], history := .delivered cmd :: w.history }
  else none

/-- The actor takes the first command of its queue. -/
def receive (w : World) (cmd : SessionCommand) (rest : List SessionCommand) : World :=
  World.record { w with queue := rest } (.received cmd)

/-- The command arm. -/
def command (opts : ServerOpts) (w : World) (a : Answers) : Option World :=
  if w.phase = .running ∧ w.registered = true then
    match w.queue with
    | [] => if w.sendersAlive then none else some w.leave
    | cmd :: rest => some (onCommand opts ((w.answer a).receive cmd rest) cmd)
  else none

def step (opts : ServerOpts) (w : World) : Label → Option World
  | .asyncFdOk => if w.entering then some { w with registered := true } else none
  | .asyncFdFailed => if w.entering then some w.leave else none
  | .send cmd => w.send cmd
  | .dropSenders => some { w with sendersAlive := false }
  | .writer move => some (w.writerMove move)
  | .elapse ms => some (World.record { w with now := w.now + ms } (.elapsed ms))
  | .command a => w.command opts a
  | .readable a =>
      if w.idle && !w.session.isDead then some (onReadable opts (w.answer a)) else none
  | .readableError => if w.idle && !w.session.isDead then some w.leave else none
  | .grace => if w.idle && w.due w.graceDeadline then some w.leave else none
  | .kill a =>
      if w.idle && !w.due w.graceDeadline && w.due w.killDeadline then
        some (onKill (w.answer a))
      else none
  | .tick a =>
      if w.idle && !w.due w.graceDeadline && !w.due w.killDeadline && w.client.isSome &&
          !w.session.isDead && !w.session.hasPromptMarking then
        some (onTick opts (w.answer a))
      else none
  | .remove => if w.phase = .left then some { w with phase := .removed } else none
  | .finish =>
      if w.phase = .removed then some { w with phase := .finished, client := none } else none

/-- The actor and its surroundings as one machine. -/
def machine (opts : ServerOpts) : Machine World Label where
  step := step opts

/-! ## What an offered frame does -/

/-- A queue that only its writer has touched. -/
def Served (q r : OutQueue) : Prop :=
  (q.closed = true → r.closed = true) ∧ r.queued.length ≤ q.queued.length

/-- A queue that nobody touches. -/
theorem Served.refl (q : OutQueue) : Served q q := ⟨id, Nat.le_refl _⟩

/-- Pops and closings add up. -/
theorem Served.trans {q r s : OutQueue} (hqr : Served q r) (hrs : Served r s) : Served q s :=
  ⟨fun h => hrs.1 (hqr.1 h), Nat.le_trans hrs.2 hqr.2⟩

/-- Writers change queues only. -/
theorem writerMove_eq (w : World) (m : WriterMove) :
    w.writerMove m = { w with outQueues := (w.writerMove m).outQueues } := by
  cases m with
  | pop c => rfl
  | close c => rfl

/-- A writer's move pops or closes one queue. -/
theorem served_writerMove (w : World) (m : WriterMove) (c : ClientId) :
    Served (w.outQueues c) ((w.writerMove m).outQueues c) := by
  cases m with
  | pop d =>
      by_cases hc : c = d
      · subst hc
        simp only [writerMove, setQueue, Function.update_self]
        refine ⟨id, ?_⟩
        simp only [List.length_tail]
        omega
      · simp only [writerMove, setQueue, Function.update_of_ne hc]
        exact Served.refl _
  | close d =>
      by_cases hc : c = d
      · subst hc
        simp only [writerMove, setQueue, Function.update_self]
        exact ⟨fun _ => rfl, Nat.le_refl _⟩
      · simp only [writerMove, setQueue, Function.update_of_ne hc]
        exact Served.refl _

private theorem foldl_writerMove (ms : List WriterMove) (w : World) :
    ∃ queues, ms.foldl writerMove w = { w with outQueues := queues } ∧
      ∀ c, Served (w.outQueues c) (queues c) := by
  induction ms generalizing w with
  | nil => exact ⟨w.outQueues, rfl, fun c => Served.refl _⟩
  | cons m ms ih =>
      obtain ⟨queues, heq, hserved⟩ := ih (w.writerMove m)
      refine ⟨queues, ?_, fun c => (served_writerMove w m c).trans (hserved c)⟩
      rw [List.foldl_cons, heq, writerMove_eq]

/-- What an offered frame does: the writers move, and then the frame is queued, or
the queue was found closed or full. -/
theorem trySend_cases (opts : ServerOpts) (w : World) (c : ClientId) (frame : Frame)
    (stage : Stage) :
    ∃ ok queues moves,
      w.trySend opts c frame stage =
        (ok, { w with
          outQueues := queues, moves := moves, history := .sent c frame stage ok :: w.history }) ∧
      (∀ d, d ≠ c ∨ ok = false → Served (w.outQueues d) (queues d)) ∧
      (ok = true → (w.outQueues c).closed = false ∧
        (queues c).queued.length ≤ (w.outQueues c).queued.length + 1) ∧
      (ok = false → (queues c).closed = true ∨ opts.outQueue ≤ (w.outQueues c).queued.length) := by
  obtain ⟨queues, heq, hserved⟩ := foldl_writerMove (w.moves.headD []) { w with moves := w.moves.tail }
  have hinter : w.interleave = { w with moves := w.moves.tail, outQueues := queues } := heq
  have hc : Served (w.outQueues c) (queues c) := hserved c
  unfold trySend
  rw [hinter]
  by_cases hfull : ((queues c).closed || decide (opts.outQueue ≤ (queues c).queued.length)) = true
  · refine ⟨false, queues, w.moves.tail, ?_, fun d _ => hserved d, by simp, fun _ => ?_⟩
    · simp only [hfull, if_true, record]
    · rw [Bool.or_eq_true, decide_eq_true_eq] at hfull
      rcases hfull with hclosed | hlong
      · exact Or.inl hclosed
      · exact Or.inr (Nat.le_trans hlong hc.2)
  · refine ⟨true, Function.update queues c
      { queues c with queued := (queues c).queued ++ [frame] }, w.moves.tail, ?_, ?_, fun _ => ?_,
      by simp⟩
    · simp only [if_neg hfull, record, setQueue]
    · intro d hd
      rcases hd with hd | hd
      · rw [Function.update_of_ne hd]
        exact hserved d
      · cases hd
    · rw [Bool.or_eq_true, not_or] at hfull
      constructor
      · cases hclosed : (w.outQueues c).closed with
        | false => rfl
        | true => exact absurd (hc.1 hclosed) hfull.1
      · rw [Function.update_self, List.length_append]
        have := hc.2
        simp only [List.length_singleton]
        omega

/-- What a send does: the command is queued, and an attach comes with a new client. -/
theorem send_eq_some {w v : World} {cmd : SessionCommand} (h : w.send cmd = some v) :
    ∃ next, v = { w with
        queue := w.queue ++ [cmd], nextClient := next, history := .delivered cmd :: w.history } ∧
      w.phase ≠ .finished ∧ w.nextClient ≤ next ∧
      ∀ req, cmd = .attach req → req.outTx = w.nextClient ∧ next = w.nextClient + 1 := by
  unfold send at h
  by_cases hopen : w.phase ≠ .finished ∧ w.sendersAlive ∧ w.queue.length < cmdQueueDepth
  · rw [if_pos hopen] at h
    cases cmd with
    | attach req =>
        by_cases hfresh : req.outTx = w.nextClient
        · simp only [allot, if_pos hfresh, Option.map_some, Option.some.injEq] at h
          subst h
          refine ⟨w.nextClient + 1, rfl, hopen.1, Nat.le_succ _, ?_⟩
          intro r hr
          cases hr
          exact ⟨hfresh, rfl⟩
        · simp only [allot, if_neg hfresh, Option.map_none] at h
          cases h
    | input _ | resize _ _ | close _ | info =>
        simp only [allot, Option.map_some, Option.some.injEq] at h
        subst h
        exact ⟨w.nextClient, rfl, hopen.1, Nat.le_refl _, by simp⟩
  · rw [if_neg hopen] at h
    cases h

/-! ## What each step does -/

section Inversion

variable {opts : ServerOpts} {w v : World} {a : Answers}

/-- When the loop waits with nothing queued. -/
theorem idle_iff : w.idle = true ↔
    w.phase = .running ∧ w.queue = [] ∧ w.sendersAlive = true ∧ w.registered = true := by
  unfold idle
  simp only [Bool.and_eq_true, beq_iff_eq, List.isEmpty_iff]
  tauto

/-- When the loop has not been entered. -/
theorem entering_iff : w.entering = true ↔ w.phase = .running ∧ w.registered = false := by
  unfold entering
  simp only [Bool.and_eq_true, beq_iff_eq, Bool.not_eq_true']

/-- The registration succeeds once, before the loop. -/
theorem asyncFdOk_eq_some (h : w.step opts .asyncFdOk = some v) :
    w.phase = .running ∧ w.registered = false ∧ v = { w with registered := true } := by
  simp only [step, Option.ite_none_right_eq_some, Option.some.injEq, entering_iff] at h
  exact ⟨h.1.1, h.1.2, h.2.symm⟩

/-- The registration fails before the loop, and the actor goes. -/
theorem asyncFdFailed_eq_some (h : w.step opts .asyncFdFailed = some v) :
    w.phase = .running ∧ w.registered = false ∧ v = w.leave := by
  simp only [step, Option.ite_none_right_eq_some, Option.some.injEq, entering_iff] at h
  exact ⟨h.1.1, h.1.2, h.2.symm⟩

/-- The command arm takes the first command, or leaves the loop once all senders
are gone. -/
theorem command_eq_some (h : w.command opts a = some v) :
    w.phase = .running ∧
      ((w.queue = [] ∧ w.sendersAlive = false ∧ v = w.leave) ∨
        ∃ cmd rest, w.queue = cmd :: rest ∧
          v = onCommand opts ((w.answer a).receive cmd rest) cmd) := by
  unfold command at h
  by_cases hrun : w.phase = .running ∧ w.registered = true
  · rw [if_pos hrun] at h
    refine ⟨hrun.1, ?_⟩
    cases hqueue : w.queue with
    | nil =>
        rw [hqueue] at h
        simp only [Option.ite_none_left_eq_some, Option.some.injEq, Bool.not_eq_true] at h
        exact Or.inl ⟨rfl, h.1, h.2.symm⟩
    | cons cmd rest =>
        rw [hqueue] at h
        simp only [Option.some.injEq] at h
        exact Or.inr ⟨cmd, rest, rfl, h.symm⟩
  · rw [if_neg hrun] at h
    cases h

/-- A drain happens in an idle loop around a live session. -/
theorem readable_eq_some (h : w.step opts (.readable a) = some v) :
    w.idle = true ∧ w.session.isDead = false ∧ v = onReadable opts (w.answer a) := by
  simp only [step, Option.ite_none_right_eq_some, Option.some.injEq, Bool.and_eq_true,
    Bool.not_eq_true'] at h
  exact ⟨h.1.1, h.1.2, h.2.symm⟩

/-- A wait that fails ends an idle loop around a live session. -/
theorem readableError_eq_some (h : w.step opts .readableError = some v) :
    w.idle = true ∧ w.session.isDead = false ∧ v = w.leave := by
  simp only [step, Option.ite_none_right_eq_some, Option.some.injEq, Bool.and_eq_true,
    Bool.not_eq_true'] at h
  exact ⟨h.1.1, h.1.2, h.2.symm⟩

/-- The retention ends in an idle loop once its deadline is due. -/
theorem grace_eq_some (h : w.step opts .grace = some v) :
    w.idle = true ∧ w.due w.graceDeadline = true ∧ v = w.leave := by
  simp only [step, Option.ite_none_right_eq_some, Option.some.injEq, Bool.and_eq_true] at h
  exact ⟨h.1.1, h.1.2, h.2.symm⟩

/-- The kill happens in an idle loop once its deadline is due. -/
theorem kill_eq_some (h : w.step opts (.kill a) = some v) :
    w.idle = true ∧ w.due w.killDeadline = true ∧ v = onKill (w.answer a) := by
  simp only [step, Option.ite_none_right_eq_some, Option.some.injEq, Bool.and_eq_true] at h
  exact ⟨h.1.1.1, h.1.2, h.2.symm⟩

/-- A poll tick happens in an idle loop around a live session. -/
theorem tick_eq_some (h : w.step opts (.tick a) = some v) :
    w.idle = true ∧ w.session.isDead = false ∧ v = onTick opts (w.answer a) := by
  simp only [step, Option.ite_none_right_eq_some, Option.some.injEq, Bool.and_eq_true,
    Bool.not_eq_true'] at h
  exact ⟨h.1.1.1.1.1.1, h.1.1.2, h.2.symm⟩

/-- The entry is removed once the loop is left. -/
theorem remove_eq_some (h : w.step opts .remove = some v) :
    w.phase = .left ∧ v = { w with phase := .removed } := by
  simp only [step, Option.ite_none_right_eq_some, Option.some.injEq] at h
  exact ⟨h.1, h.2.symm⟩

/-- The actor ends once its entry is removed. -/
theorem finish_eq_some (h : w.step opts .finish = some v) :
    w.phase = .removed ∧ v = { w with phase := .finished, client := none } := by
  simp only [step, Option.ite_none_right_eq_some, Option.some.injEq] at h
  exact ⟨h.1, h.2.symm⟩

end Inversion

/-! ## The invariant rule

An arm is a chain of a few kinds of moves.  An invariant that every kind keeps is
kept by every step, and so by every run. -/

/-- Events that concern neither a client's stream nor the command queue; an answer
names the session as the client that opened it did. -/
def Inner (w : World) (e : Event) : Prop :=
  match e with
  | .answered info => info.chosen = w.session.chosen
  | .signalled _ | .elapsed _ => True
  | .delivered _ | .received _ | .attached _ _ | .drained _ _ | .sent _ _ _ _ => False

/-- A move inside the actor: clients, queues, the task's phase and the history stay
as they are, nothing is written to the shell, the session keeps its name, a dead one
stays dead, and a registered master registered. -/
structure InnerMove (w v : World) : Prop where
  client : v.client = w.client
  phase : v.phase = w.phase
  queue : v.queue = w.queue
  nextClient : v.nextClient = w.nextClient
  outQueues : v.outQueues = w.outQueues
  history : v.history = w.history
  writes : v.os.writeCalls = w.os.writeCalls
  dead : w.session.isDead = true → v.session.isDead = true
  registered : w.registered = true → v.registered = true
  chosen : v.session.chosen = w.session.chosen

/-- Inner moves add up. -/
theorem InnerMove.trans {u v w : World} (huv : InnerMove u v) (hvw : InnerMove v w) :
    InnerMove u w :=
  ⟨hvw.client.trans huv.client, hvw.phase.trans huv.phase, hvw.queue.trans huv.queue,
    hvw.nextClient.trans huv.nextClient, hvw.outQueues.trans huv.outQueues,
    hvw.history.trans huv.history, hvw.writes.trans huv.writes, fun h => hvw.dead (huv.dead h),
    fun h => hvw.registered (huv.registered h), hvw.chosen.trans huv.chosen⟩

/-- A move that touches only the status, the deadlines, the flags, the clock and the
kernel, and writes nothing to the shell; the registration may be made. -/
theorem innerMove_of_eq {w v : World}
    (h : v = { w with
      registered := v.registered, lastStatus := v.lastStatus, pollRunning := v.pollRunning,
      graceDeadline := v.graceDeadline, closing := v.closing, killDeadline := v.killDeadline,
      sendersAlive := v.sendersAlive, now := v.now, os := v.os, moves := v.moves })
    (hwrites : v.os.writeCalls = w.os.writeCalls)
    (hregistered : w.registered = true → v.registered = true) : InnerMove w v := by
  refine ⟨?_, ?_, ?_, ?_, ?_, ?_, hwrites, ?_, hregistered, ?_⟩
  all_goals rw [h]
  exact id

/-- The kernel's answers are an inner move. -/
theorem innerMove_answer (w : World) (a : Answers) : InnerMove w (w.answer a) :=
  innerMove_of_eq rfl rfl id

/-- A resize is an inner move. -/
theorem innerMove_resize (w : World) (cols rows : UInt16) : InnerMove w (w.resize cols rows) :=
  ⟨rfl, rfl, rfl, rfl, rfl, rfl, w.session.writeCalls_resize w.os cols rows,
    fun h => (w.session.isDead_resize w.os cols rows).trans h, id,
    w.session.chosen_resize w.os cols rows⟩

/-- A poll of the foreground group is an inner move. -/
theorem innerMove_poll (w : World) : InnerMove w w.poll :=
  innerMove_of_eq rfl (w.session.writeCalls_pollRunning w.os) id

/-- The session side of a drain. -/
theorem innerMove_drain (w : World) :
    InnerMove w { w with
      session := (w.session.drain w.os).2.1, os := (w.session.drain w.os).2.2 } :=
  ⟨rfl, rfl, rfl, rfl, rfl, rfl, w.session.writeCalls_drain w.os, w.session.isDead_drain w.os, id,
    w.session.chosen_drain w.os⟩

/-- The kinds of moves that steps are made of all keep a property. -/
structure Kept (opts : ServerOpts) (I : World → Prop) : Prop where
  inner : ∀ {w v}, I w → InnerMove w v → I v
  note : ∀ {w e}, I w → Inner w e → I (w.record e)
  writer : ∀ {w m}, I w → I (w.writerMove m)
  send : ∀ {w cmd v}, I w → w.send cmd = some v → I v
  receive : ∀ {w cmd rest}, I w → w.phase = .running → w.queue = cmd :: rest →
    (∀ req, cmd ≠ .attach req) → (∀ bytes, cmd ≠ .input bytes) → I (w.receive cmd rest)
  input : ∀ {w bytes rest}, I w → w.phase = .running → w.queue = .input bytes :: rest →
    I ((w.receive (.input bytes) rest).writeInput bytes)
  attach : ∀ {w req rest v}, I w → w.phase = .running → w.queue = .attach req :: rest →
    InnerMove (w.receive (.attach req) rest) v → I (v.handshake opts req)
  forward : ∀ {w} data exit, I w → w.phase = .running →
    I ((w.record (.drained data exit)).forwardData opts data)
  push : ∀ {w frame}, I w → w.phase = .running → frame.ty ≠ .data → I (w.pushOrDrop opts frame)
  farewell : ∀ {w} code, I w → w.phase = .running → I (w.farewell opts code).leave
  leave : ∀ {w}, I w → w.phase = .running → I w.leave
  remove : ∀ {w}, I w → w.phase = .left → I { w with phase := .removed }
  finish : ∀ {w}, I w → w.phase = .removed → I { w with phase := .finished, client := none }

/-! ## Moves towards the clients -/

/-- A frame was offered. -/
def IsSent (e : Event) : Prop := ∃ c f stage ok, e = .sent c f stage ok

/-- A move towards the clients: it offers frames and changes their queues and the
binding, and nothing else. -/
structure Outward (w v : World) : Prop where
  same : v = { w with
    client := v.client, outQueues := v.outQueues, moves := v.moves, history := v.history }
  sends : ∃ es, v.history = es ++ w.history ∧ ∀ e ∈ es, IsSent e

namespace Outward

/-- Offering nothing. -/
theorem refl (w : World) : Outward w w := ⟨rfl, [], rfl, by simp⟩

/-- Offers add up. -/
theorem trans {u v w : World} (huv : Outward u v) (hvw : Outward v w) : Outward u w := by
  constructor
  · rw [hvw.same, huv.same]
  · exact Machine.grows_trans huv.sends hvw.sends

/-- Offers made one after the other. -/
theorem foldl {α : Type} {f : World → α → World} (hf : ∀ w x, Outward w (f w x)) (xs : List α)
    (w : World) : Outward w (xs.foldl f w) := by
  induction xs generalizing w with
  | nil => exact refl w
  | cons x xs ih => exact (hf w x).trans (ih (f w x))

variable {w v : World}

/-- Offers leave the session. -/
theorem session (h : Outward w v) : v.session = w.session := by rw [h.same]

/-- Offers leave the phase. -/
theorem phase (h : Outward w v) : v.phase = w.phase := by rw [h.same]

/-- Offers leave the command queue. -/
theorem queue (h : Outward w v) : v.queue = w.queue := by rw [h.same]

/-- Offers leave the kernel. -/
theorem os (h : Outward w v) : v.os = w.os := by rw [h.same]

/-- Offers leave the effective status. -/
theorem effectiveStatus (h : Outward w v) : v.effectiveStatus = w.effectiveStatus := by
  rw [h.same]
  rfl

/-- Offers leave the record of the last STATUS. -/
theorem lastStatus (h : Outward w v) : v.lastStatus = w.lastStatus := by rw [h.same]

/-- Offers leave the registration. -/
theorem registered (h : Outward w v) : v.registered = w.registered := by rw [h.same]

/-- Offers keep the events before them. -/
theorem mem (h : Outward w v) {e : Event} (he : e ∈ w.history) : e ∈ v.history := by
  obtain ⟨es, hes, -⟩ := h.sends
  rw [hes]
  exact List.mem_append_right es he

end Outward

/-- One {lit}`try_send` is an offer. -/
theorem outward_trySend (opts : ServerOpts) (w : World) (c : ClientId) (frame : Frame)
    (stage : Stage) : Outward w (w.trySend opts c frame stage).2 := by
  obtain ⟨ok, queues, moves, heq, -⟩ := trySend_cases opts w c frame stage
  rw [heq]
  refine ⟨rfl, [.sent c frame stage ok], rfl, ?_⟩
  intro e he
  rw [List.mem_singleton] at he
  exact ⟨c, frame, stage, ok, he⟩

/-- A {lit}`try_send` whose result is ignored is an offer. -/
theorem outward_offer (opts : ServerOpts) (tx : ClientId) (w : World) (frame : Frame) :
    Outward w (w.offer opts tx frame) :=
  outward_trySend opts w tx frame .handshake

/-- The EXIT of a handshake is offered only to a dead session's client. -/
theorem outward_offerExit (opts : ServerOpts) (tx : ClientId) (w : World) :
    Outward w (w.offerExit opts tx) := by
  unfold offerExit
  cases w.session.lifecycle with
  | live => exact Outward.refl w
  | dead status => exact outward_offer opts tx w _

/-- A live push is an offer that may unbind. -/
theorem outward_pushOrDrop (opts : ServerOpts) (w : World) (frame : Frame) :
    Outward w (w.pushOrDrop opts frame) := by
  unfold pushOrDrop
  cases w.client with
  | none => exact Outward.refl w
  | some tx =>
      have hsend := outward_trySend opts w tx frame .live
      simp only
      rcases hresult : w.trySend opts tx frame .live with ⟨_ | _, u⟩
      · rw [hresult] at hsend
        exact hsend.trans ⟨rfl, [], rfl, by simp⟩
      · rw [hresult] at hsend
        exact hsend

/-- Drained output is offered frame by frame. -/
theorem outward_forwardData (opts : ServerOpts) (w : World) (data : List UInt8) :
    Outward w (w.forwardData opts data) :=
  Outward.foldl (outward_pushOrDrop opts) (frameData data) w

/-- No output, no offer. -/
theorem forwardData_nil (opts : ServerOpts) (w : World) : w.forwardData opts [] = w := by
  rw [forwardData, frameData, chunks, dif_pos (Or.inl rfl)]
  rfl

/-- The readable arm once its drain has succeeded; an empty read forwards nothing. -/
theorem onReadable_ok {opts : ServerOpts} {w : World} {outcome : DrainOutcome} {session : Session}
    {os : Os} (hdrained : w.session.drain w.os = (.ok outcome, session, os)) :
    w.onReadable opts =
      let v := ((World.record { w with session, os } (.drained outcome.data outcome.exit)).forwardData
        opts outcome.data).refreshStatus opts
      match outcome.exit with
      | none => v
      | some code => v.onExit opts code := by
  have hempty : ∀ v : World, (if outcome.data.isEmpty then v else v.forwardData opts outcome.data) =
      v.forwardData opts outcome.data := by
    intro v
    cases outcome.data with
    | nil => exact (forwardData_nil opts v).symm
    | cons b bs => rfl
  unfold onReadable
  rw [hdrained]
  simp only [hempty]

/-- A drain that fails ends the loop. -/
theorem onReadable_error {opts : ServerOpts} {w : World} {e : Errno} {session : Session} {os : Os}
    (hdrained : w.session.drain w.os = (.error e, session, os)) :
    w.onReadable opts = World.leave { w with session, os } := by
  unfold onReadable
  rw [hdrained]

/-- The farewell of a CLOSE is an offer. -/
theorem outward_farewell (opts : ServerOpts) (w : World) (code : Int) :
    Outward w (w.farewell opts code) := by
  unfold farewell
  cases w.client with
  | none => exact Outward.refl w
  | some tx =>
      have htaken : Outward w { w with client := none } := ⟨rfl, [], rfl, by simp⟩
      exact htaken.trans (outward_trySend opts _ tx _ .live)

/-- After the attach is recorded, the handshake is a move towards the client. -/
theorem outward_handshake (opts : ServerOpts) (w : World) (req : AttachRequest) :
    Outward (w.record (.attached req.outTx (w.session.replayForAttach req.wantChunks).data))
      (w.handshake opts req) := by
  unfold handshake
  have hframes := Outward.foldl (outward_offer opts req.outTx)
    (frameData (w.session.replayForAttach req.wantChunks).data)
    (w.record (.attached req.outTx (w.session.replayForAttach req.wantChunks).data))
  have hstatus := fun status : Frame => hframes.trans (outward_offer opts req.outTx _ status)
  exact ((hstatus _).trans (outward_offerExit opts req.outTx _)).trans ⟨rfl, [], rfl, by simp⟩

/-- A pushed STATUS leaves the phase. -/
theorem phase_pushStatus (opts : ServerOpts) (w : World) :
    (w.pushStatus opts).phase = w.phase := by
  unfold pushStatus
  split
  · rfl
  · exact (outward_pushOrDrop opts w _).phase

/-- A refresh does nothing without a client, and otherwise pushes the status, after
a poll or at once. -/
theorem refreshStatus_cases (opts : ServerOpts) (w : World) :
    (w.client.isSome = false ∧ w.refreshStatus opts = w) ∨
      (w.client.isSome = true ∧
        (w.refreshStatus opts = w.poll.pushStatus opts ∨
          w.refreshStatus opts = w.pushStatus opts)) := by
  unfold refreshStatus
  by_cases hclient : w.client.isSome = true
  · rw [if_pos hclient]
    refine Or.inr ⟨hclient, ?_⟩
    by_cases hpoll : (!w.session.hasPromptMarking && !w.session.isDead) = true
    · rw [if_pos hpoll]
      exact Or.inl rfl
    · rw [if_neg hpoll]
      exact Or.inr rfl
  · rw [if_neg hclient]
    exact Or.inl ⟨Bool.eq_false_iff.mpr hclient, rfl⟩

/-- A refreshed STATUS leaves the phase. -/
theorem phase_refreshStatus (opts : ServerOpts) (w : World) :
    (w.refreshStatus opts).phase = w.phase := by
  rcases refreshStatus_cases opts w with ⟨-, heq⟩ | ⟨-, heq | heq⟩
  · rw [heq]
  · rw [heq, phase_pushStatus]
    exact (innerMove_poll w).phase
  · rw [heq, phase_pushStatus]

/-- Binding a client leaves the phase. -/
theorem phase_bindClient (opts : ServerOpts) (w : World) (req : AttachRequest) :
    (w.bindClient opts req).phase = w.phase := by
  unfold bindClient
  simp only
  split
  · exact (outward_handshake ..).phase
  · exact (outward_handshake ..).phase

namespace Kept

variable {opts : ServerOpts} {I : World → Prop} (hI : Kept opts I)

include hI

/-- Answering an Info keeps what the moves keep. -/
theorem info {w : World} (hw : I w) : I w.info :=
  hI.inner (hI.note (e := .answered (w.session.info w.os w.client.isSome).1) hw rfl)
    (innerMove_of_eq rfl (w.session.writeCalls_info w.os w.client.isSome) id)

/-- A hangup keeps it. -/
theorem hangup {w : World} (hw : I w) : I w.hangup := by
  have hwrites := w.session.writeCalls_hangup w.os
  unfold World.hangup
  split
  · exact hI.inner hw (innerMove_of_eq rfl hwrites id)
  · exact hI.inner (hI.note (e := .signalled .sighup) hw trivial)
      (innerMove_of_eq rfl hwrites id)

/-- A kill keeps it. -/
theorem kill {w : World} (hw : I w) : I w.kill := by
  have hwrites := w.session.writeCalls_kill w.os
  unfold World.kill
  split
  · exact hI.inner hw (innerMove_of_eq rfl hwrites id)
  · exact hI.inner (hI.note (e := .signalled .sigkill) hw trivial)
      (innerMove_of_eq rfl hwrites id)

/-- A pushed STATUS keeps it. -/
theorem pushStatus {w : World} (hw : I w) (hrun : w.phase = .running) : I (w.pushStatus opts) := by
  unfold World.pushStatus
  split
  · exact hw
  · exact hI.inner (hI.push hw hrun (by simp [statusFrame])) (innerMove_of_eq rfl rfl id)

/-- A refreshed STATUS keeps it. -/
theorem refreshStatus {w : World} (hw : I w) (hrun : w.phase = .running) :
    I (w.refreshStatus opts) := by
  rcases refreshStatus_cases opts w with ⟨-, heq⟩ | ⟨-, heq | heq⟩
  · rw [heq]
    exact hw
  · rw [heq]
    exact hI.pushStatus (hI.inner hw (innerMove_poll w)) hrun
  · rw [heq]
    exact hI.pushStatus hw hrun

/-- The report of an exit keeps it. -/
theorem onExit {w : World} (hw : I w) (hrun : w.phase = .running) (code : Int) :
    I (w.onExit opts code) := by
  have hpushed : I (w.pushOrDrop opts (exitFrame code)) := hI.push hw hrun (by simp [exitFrame])
  unfold World.onExit
  simp only
  split
  · exact hI.leave hpushed ((outward_pushOrDrop ..).phase.trans hrun)
  · exact hI.inner hpushed (innerMove_of_eq rfl rfl id)

/-- The readable arm keeps it. -/
theorem onReadable {w : World} (hw : I w) (hrun : w.phase = .running) : I (w.onReadable opts) := by
  have hfed := hI.inner hw (innerMove_drain w)
  rcases hdrained : w.session.drain w.os with ⟨_ | ⟨data, status, exit⟩, session, os⟩
  · rw [hdrained] at hfed
    rw [onReadable_error hdrained]
    exact hI.leave hfed hrun
  · rw [hdrained] at hfed
    have hforward := hI.forward data exit hfed hrun
    have hphase : ((World.record { w with session, os } (.drained data exit)).forwardData
        opts data).phase = .running := (outward_forwardData ..).phase.trans hrun
    rw [onReadable_ok hdrained]
    cases exit with
    | none => exact hI.refreshStatus hforward hphase
    | some code =>
        exact hI.onExit (hI.refreshStatus hforward hphase) ((phase_refreshStatus ..).trans hphase)
          code

/-- The close arm keeps it. -/
theorem onClose {w : World} (hw : I w) (hrun : w.phase = .running) (graceMs : UInt32) :
    I (w.onClose opts graceMs) := by
  have hclosing : I { w.hangup with
      closing := true
      killDeadline := if 0 < graceMs then some (w.hangup.now + graceMs.toNat)
        else w.hangup.killDeadline } :=
    hI.inner (hI.hangup hw) (innerMove_of_eq rfl rfl id)
  unfold World.onClose
  simp only
  split
  · exact hclosing
  · exact hI.farewell _ hclosing hrun

/-- Binding a client keeps it. -/
theorem bindClient {w : World} {req : AttachRequest} {rest : List SessionCommand} (hw : I w)
    (hrun : w.phase = .running) (hqueue : w.queue = .attach req :: rest) :
    I ((w.receive (.attach req) rest).bindClient opts req) := by
  unfold World.bindClient
  simp only
  split
  · exact hI.inner (hI.attach hw hrun hqueue (innerMove_resize ..)) (innerMove_of_eq rfl rfl id)
  · exact hI.inner (hI.attach hw hrun hqueue ((innerMove_poll _).trans (innerMove_resize ..)))
      (innerMove_of_eq rfl rfl id)

/-- The attach arm keeps it. -/
theorem onAttach {w : World} {req : AttachRequest} {rest : List SessionCommand} (hw : I w)
    (hrun : w.phase = .running) (hqueue : w.queue = .attach req :: rest) :
    I ((w.receive (.attach req) rest).onAttach opts req) := by
  have hbound := hI.bindClient hw hrun hqueue
  unfold World.onAttach
  simp only
  split
  · exact hI.leave hbound ((phase_bindClient ..).trans hrun)
  · exact hbound

/-- The command arm keeps it. -/
theorem command {w v : World} {a : Answers} (hw : I w) (hstep : w.command opts a = some v) :
    I v := by
  obtain ⟨hrun, ⟨-, -, rfl⟩ | ⟨cmd, rest, hqueue, rfl⟩⟩ := command_eq_some hstep
  · exact hI.leave hw hrun
  · have hanswered : I (w.answer a) := hI.inner hw (innerMove_answer w a)
    cases cmd with
    | input bytes => exact hI.input hanswered hrun hqueue
    | resize cols rows =>
        exact hI.inner (hI.receive hanswered hrun hqueue (by simp) (by simp)) (innerMove_resize ..)
    | info => exact hI.info (hI.receive hanswered hrun hqueue (by simp) (by simp))
    | close graceMs =>
        exact hI.onClose (hI.receive hanswered hrun hqueue (by simp) (by simp)) hrun graceMs
    | attach req => exact hI.onAttach hanswered hrun hqueue

/-- What every kind of move keeps, every step keeps. -/
theorem step {w v : World} {label : Label} (hw : I w) (hstep : w.step opts label = some v) :
    I v := by
  cases label with
  | asyncFdOk =>
      obtain ⟨-, -, rfl⟩ := asyncFdOk_eq_some hstep
      exact hI.inner hw (innerMove_of_eq rfl rfl fun _ => rfl)
  | asyncFdFailed =>
      obtain ⟨hrunning, -, rfl⟩ := asyncFdFailed_eq_some hstep
      exact hI.leave hw hrunning
  | send cmd => exact hI.send hw hstep
  | dropSenders =>
      cases hstep
      exact hI.inner hw (innerMove_of_eq rfl rfl id)
  | writer move =>
      cases hstep
      exact hI.writer hw
  | elapse ms =>
      cases hstep
      exact hI.inner (hI.note (e := .elapsed ms) hw trivial) (innerMove_of_eq rfl rfl id)
  | command a => exact hI.command hw hstep
  | readable a =>
      obtain ⟨hidle, -, rfl⟩ := readable_eq_some hstep
      exact hI.onReadable (hI.inner hw (innerMove_answer w a)) (idle_iff.mp hidle).1
  | readableError =>
      obtain ⟨hidle, -, rfl⟩ := readableError_eq_some hstep
      exact hI.leave hw (idle_iff.mp hidle).1
  | grace =>
      obtain ⟨hidle, -, rfl⟩ := grace_eq_some hstep
      exact hI.leave hw (idle_iff.mp hidle).1
  | kill a =>
      obtain ⟨-, -, rfl⟩ := kill_eq_some hstep
      have hanswered : I (w.answer a) := hI.inner hw (innerMove_answer w a)
      unfold onKill
      simp only
      split
      · exact hI.inner hanswered (innerMove_of_eq rfl rfl id)
      · exact hI.inner (hI.kill hanswered) (innerMove_of_eq rfl rfl id)
  | tick a =>
      obtain ⟨hidle, -, rfl⟩ := tick_eq_some hstep
      have hanswered : I (w.answer a) := hI.inner hw (innerMove_answer w a)
      exact hI.pushStatus (hI.inner hanswered (innerMove_poll _)) (idle_iff.mp hidle).1
  | remove =>
      obtain ⟨hleft, rfl⟩ := remove_eq_some hstep
      exact hI.remove hw hleft
  | finish =>
      obtain ⟨hremoved, rfl⟩ := finish_eq_some hstep
      exact hI.finish hw hremoved

/-- The run rule: what every kind of move keeps holds after every run. -/
theorem run {session : Session} {labels : List Label} {w : World} (hstart : I (start session))
    (hrun : (machine opts).run (start session) labels = some w) : I w :=
  (machine opts).run_induct (motive := I) (fun _ _ _ hw hstep => hI.step hw hstep) hstart hrun

end Kept

/-! ## Histories grow -/

private theorem Outward.suffix {h : List Event} {w v : World} (hout : Outward w v)
    (hw : h <:+ w.history) : h <:+ v.history := by
  obtain ⟨es, hes, -⟩ := hout.sends
  rw [hes]
  exact hw.trans (List.suffix_append es w.history)

private theorem suffix_record {h : List Event} {w : World} (hw : h <:+ w.history) (e : Event) :
    h <:+ (w.record e).history :=
  hw.trans (List.suffix_cons e w.history)

/-- The history only grows. -/
theorem kept_suffix (opts : ServerOpts) (h : List Event) :
    Kept opts fun w => h <:+ w.history where
  inner hw hmove := by
    rw [hmove.history]
    exact hw
  note hw _ := suffix_record hw _
  writer {w m} hw := by
    rw [writerMove_eq]
    exact hw
  send {w cmd v} hw hsend := by
    obtain ⟨next, rfl, -⟩ := send_eq_some hsend
    exact suffix_record hw (.delivered cmd)
  receive hw _ _ _ _ := suffix_record hw _
  input hw _ _ := suffix_record hw _
  attach {w req rest v} hw _ _ hmove := by
    apply (outward_handshake opts v req).suffix
    apply suffix_record
    rw [hmove.history]
    exact suffix_record hw (.received (.attach req))
  forward data exit hw _ :=
    (outward_forwardData opts _ data).suffix (suffix_record hw (.drained data exit))
  push hw _ _ := (outward_pushOrDrop ..).suffix hw
  farewell code hw _ := (outward_farewell opts _ code).suffix hw
  leave hw _ := hw
  remove hw _ := hw
  finish hw _ := hw

/-- A step only adds events. -/
theorem history_step {opts : ServerOpts} {w v : World} {label : Label}
    (hstep : w.step opts label = some v) : w.history <:+ v.history :=
  (kept_suffix opts w.history).step (List.suffix_refl _) hstep

/-! ## The registration stays -/

private theorem kept_registered (opts : ServerOpts) : Kept opts fun w => w.registered = true where
  inner hw hmove := hmove.registered hw
  note hw _ := hw
  writer {w m} hw := by
    rw [writerMove_eq]
    exact hw
  send {w cmd v} hw hsend := by
    obtain ⟨next, rfl, -⟩ := send_eq_some hsend
    exact hw
  receive hw _ _ _ _ := hw
  input hw _ _ := hw
  attach {w req rest v} hw _ _ hmove := by
    rw [(outward_handshake opts v req).registered]
    exact hmove.registered hw
  forward data exit hw _ := by
    rw [(outward_forwardData opts _ data).registered]
    exact hw
  push hw _ _ := by
    rw [(outward_pushOrDrop ..).registered]
    exact hw
  farewell code hw _ := by
    change (World.farewell opts _ code).registered = true
    rw [(outward_farewell opts _ code).registered]
    exact hw
  leave hw _ := hw
  remove hw _ := hw
  finish hw _ := hw

/-- A registered master stays registered. -/
theorem registered_step {opts : ServerOpts} {w v : World} {label : Label}
    (hstep : w.step opts label = some v) (h : w.registered = true) : v.registered = true :=
  (kept_registered opts).step h hstep

end World

end JftermMuxer.Daemon
