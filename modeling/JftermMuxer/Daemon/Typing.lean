import JftermMuxer.Daemon.Close
import JftermMuxer.Daemon.Input
import JftermMuxer.Daemon.Reader

/-!
# Connections that type into one shell

Any number of session connections of {lit}`jftermd/src/server.rs` around one actor:
each runs {lit}`read_one_frame`, the attach of {lit}`handle_session` and then
{lit}`reader_task`, and the actor hands what it receives to the shell.  A client that
was taken over goes on sending until its connection ends, so the shell may be given the
input of several clients.  A step is what a task does between two awaits, so a run is
any interleaving of the tasks.

Main results:

- Theorem {lit}`Typing.fair_step`: a step keeps every connection's account: what it has
  sent, what it still owes and what its bytes stand for.
- Theorem {lit}`World.kept_given`: the actor hands over the input it received, each
  payload once, in order.
- Theorem {lit}`Typing.input_in_order`: what the shell is given is a merge of what the
  connections' bytes stand for, in which every connection keeps its order.
-/

namespace JftermMuxer.Daemon

open JftermMuxer.Foundation

/-! ## One connection -/

/-- The command that a frame of an attached connection stands for. -/
def frameCommand (json : Json) (f : Frame) : Option SessionCommand :=
  match f.ty with
  | .input => some (.input f.payload)
  | .resize => (json.resize f.payload).map fun r => .resize r.cols r.rows
  | .close => some (.close (((json.close f.payload).map CloseMsg.graceMs).getD 0))
  | .hello | .helloOk | .list | .sessions | .attachOrOpen | .data | .status | .exit => none

/-- The commands of a list of frames, one frame at a time. -/
theorem images_cons (json : Json) (f : Frame) (fs : List Frame) :
    images json (f :: fs) =
      (frameCommand json f).toList ++ (if f.ty = .close then [] else images json fs) := by
  rw [images, frameCommand]
  cases f.ty with
  | resize => cases json.resize f.payload <;> rfl
  | _ => rfl

/-- The reader sends the command of a frame and goes on unless that fails or the frame
is a CLOSE. -/
theorem onFrame_eq (json : Json) (accepts : Accepts) (done : List SessionCommand) (f : Frame) :
    onFrame json accepts done f =
      match frameCommand json f with
      | none => (done, true)
      | some cmd =>
          ((sendCommand accepts done cmd).1,
            (sendCommand accepts done cmd).2 && decide (f.ty ≠ .close)) := by
  rw [onFrame, frameCommand]
  cases hty : f.ty with
  | resize => cases json.resize f.payload <;> simp
  | _ => simp

/-- How far the tasks of a session connection have come. -/
inductive ConnPhase where
  /-- {lit}`read_one_frame` asks for the first frame. -/
  | first (d : FrameDecoder)
  /-- It waits for the socket. -/
  | firstRead (d : FrameDecoder)
  /-- {lit}`handle_session` waits in the send of its attach. -/
  | attaching (req : AttachOrOpen) (d : FrameDecoder)
  /-- {lit}`reader_task` asks for a frame. -/
  | decoding (d : FrameDecoder)
  /-- It waits for the socket. -/
  | reading (d : FrameDecoder)
  /-- It waits in a send, and goes on with a decoder unless that was a CLOSE. -/
  | sending (cmd : SessionCommand) (next : Option FrameDecoder)
  | ended

namespace ConnPhase

/-- The first frame decides what the connection is; {lit}`bound` says whether the
registry binds it to this session. -/
def onFirst (json : Json) (bound : Bool) (f : Frame) (d : FrameDecoder) : ConnPhase :=
  if f.ty = .attachOrOpen ∧ bound then
    match json.attachOrOpen f.payload with
    | some req => .attaching req d
    | none => .ended
  else .ended

/-- A frame of an attached connection. -/
def onNext (json : Json) (f : Frame) (d : FrameDecoder) : ConnPhase :=
  match frameCommand json f with
  | none => .decoding d
  | some cmd => .sending cmd (if f.ty = .close then none else some d)

/-- One call of {lit}`next_frame`. -/
def call (json : Json) (bound : Bool) : ConnPhase → Option ConnPhase
  | .first d =>
      match d.nextFrame with
      | (.ok (some f), d) => some (onFirst json bound f d)
      | (.ok none, d) => some (.firstRead d)
      | (.error _, _) => some .ended
  | .decoding d =>
      match d.nextFrame with
      | (.ok (some f), d) => some (onNext json f d)
      | (.ok none, d) => some (.reading d)
      | (.error _, _) => some .ended
  | .firstRead _ | .attaching _ _ | .reading _ | .sending _ _ | .ended => none

/-- One read of the socket. -/
def read (answer : ReadAnswer) : ConnPhase → Option ConnPhase
  | .firstRead d =>
      match answer with
      | .ok (b :: bs) => some (.first (d.push (b :: bs)))
      | .ok [] | .error _ => some .ended
  | .reading d =>
      match answer with
      | .ok (b :: bs) => some (.decoding (d.push (b :: bs)))
      | .ok [] | .error _ => some .ended
  | .first _ | .attaching _ _ | .decoding _ | .sending _ _ | .ended => none

/-- The command that a task waits to send, and where it goes on; the channel of an
attach is new. -/
def pending (fresh : ClientId) : ConnPhase → Option (SessionCommand × ConnPhase)
  | .attaching req d => some (.attach ⟨req.wantChunks, req.cols, req.rows, fresh⟩, .decoding d)
  | .sending cmd next => some (cmd, next.elim .ended .decoding)
  | .first _ | .firstRead _ | .decoding _ | .reading _ | .ended => none

/-- The connection has not sent its attach. -/
def unattached : ConnPhase → Bool
  | .first _ | .firstRead _ | .attaching _ _ => true
  | .decoding _ | .reading _ | .sending _ _ | .ended => false

end ConnPhase

/-- A connection: its tasks, the bytes read off its socket, and its out-queue once it
has sent its attach. -/
structure Conn where
  phase : ConnPhase
  bytes : List UInt8
  client : ClientId

/-! ## The machine -/

/-- Who sent a command. -/
inductive Source where
  | conn (k : Nat)
  /-- {lit}`collect_sessions`, for a LIST. -/
  | list
deriving DecidableEq, Repr

/-- The actor, the connections and all sends that succeeded, oldest first. -/
structure Typing where
  world : World
  conns : Nat → Option Conn
  log : List (Source × SessionCommand)

/-- One step. -/
inductive TypingStep where
  | accept (k : Nat)
  | call (k : Nat) (bound : Bool)
  | read (k : Nat) (answer : ReadAnswer)
  /-- A send completes. -/
  | deliver (k : Nat)
  /-- A send fails: the receiver is gone. -/
  | refuse (k : Nat)
  /-- The connection's writer has ended, and its reader is aborted. -/
  | abort (k : Nat)
  | list
  /-- The actor moves, or its surroundings. -/
  | world (label : World.Label)

namespace Typing

def start (session : Session) : Typing := ⟨World.start session, fun _ => none, []⟩

/-- Replace a connection. -/
def setConn (s : Typing) (k : Nat) (conn : Conn) : Typing :=
  { s with conns := Function.update s.conns k (some conn) }

/-- A command is sent into the session's channel. -/
def send (s : Typing) (source : Source) (cmd : SessionCommand) : Option Typing :=
  (s.world.send cmd).map fun w => { s with world := w, log := s.log ++ [(source, cmd)] }

/-- A label that is not a send; sends are made by the connections and by LIST. -/
def isOwnMove : World.Label → Bool
  | .send _ => false
  | .asyncFdOk | .asyncFdFailed | .dropSenders | .writer _ | .elapse _ | .command _ | .readable _
  | .readableError | .grace | .kill _ | .tick _ | .remove | .finish => true

/-- A connection's pending send completes. -/
def deliver (s : Typing) (k : Nat) : Option Typing :=
  (s.conns k).bind fun conn =>
    (conn.phase.pending s.world.nextClient).bind fun next =>
      (s.send (.conn k) next.1).map fun t =>
        t.setConn k ⟨next.2, conn.bytes,
          if conn.phase.unattached then s.world.nextClient else conn.client⟩

def step (opts : ServerOpts) (json : Json) (s : Typing) : TypingStep → Option Typing
  | .accept k =>
      if (s.conns k).isNone then some (s.setConn k ⟨.first FrameDecoder.new, [], 0⟩) else none
  | .call k bound =>
      (s.conns k).bind fun conn =>
        (conn.phase.call json bound).map fun phase => s.setConn k { conn with phase := phase }
  | .read k answer =>
      (s.conns k).bind fun conn =>
        (conn.phase.read answer).map fun phase =>
          s.setConn k { conn with phase := phase, bytes := conn.bytes ++ received [answer] }
  | .deliver k => s.deliver k
  | .refuse k =>
      (s.conns k).bind fun conn =>
        if s.world.phase = .finished ∧ (conn.phase.pending s.world.nextClient).isSome then
          some (s.setConn k { conn with phase := .ended })
        else none
  | .abort k =>
      (s.conns k).bind fun conn =>
        if conn.phase.unattached then none else some (s.setConn k { conn with phase := .ended })
  | .list => s.send .list .info
  | .world label =>
      if isOwnMove label then (s.world.step opts label).map fun w => { s with world := w } else none

/-- The actor and the connections as one machine. -/
def machine (opts : ServerOpts) (json : Json) : Machine Typing TypingStep where
  step := step opts json

end Typing

/-! ## What a connection's bytes stand for -/

/-- The commands that a stream of bytes stands for on a session connection with a given
out-queue: an attach and the images of the frames behind the first one. -/
def commandsOf (json : Json) (client : ClientId) (bytes : List UInt8) : List SessionCommand :=
  match framing.frames bytes with
  | [] => []
  | first :: rest =>
      if first.ty = .attachOrOpen then
        match json.attachOrOpen first.payload with
        | some req =>
            .attach ⟨req.wantChunks, req.cols, req.rows, client⟩ :: images json rest
        | none => []
      else []

/-- The commands behind a decoder, and what is still to be read. -/
def imagesBehind (json : Json) (d : FrameDecoder) (more : List UInt8) : List SessionCommand :=
  images json (framing.frames (d.unread ++ more))

/-- What a connection has still to send if more bytes follow; nothing is known of one
that has ended. -/
def ConnPhase.owed (json : Json) (client : ClientId) (more : List UInt8) :
    ConnPhase → Option (List SessionCommand)
  | .first d | .firstRead d => some (commandsOf json client (d.unread ++ more))
  | .attaching req d =>
      some (.attach ⟨req.wantChunks, req.cols, req.rows, client⟩ :: imagesBehind json d more)
  | .decoding d | .reading d => some (imagesBehind json d more)
  | .sending cmd next => some (cmd :: (next.map fun d => imagesBehind json d more).getD [])
  | .ended => none

section Calls

variable {d d' : FrameDecoder} {f : Frame}

private theorem frames_behind (h : d.nextFrame = (.ok (some f), d')) (more : List UInt8) :
    framing.frames (d.unread ++ more) = f :: framing.frames (d'.unread ++ more) :=
  framing.frames_of_frame encode_ne_nil
    (decodeFrame_append_frame (FrameDecoder.decodeFrame_of_some h) more)

/-- The images behind a decoder begin with that of its next frame. -/
theorem imagesBehind_of_some (json : Json) (h : d.nextFrame = (.ok (some f), d'))
    (more : List UInt8) :
    imagesBehind json d more =
      (frameCommand json f).toList ++ (if f.ty = .close then [] else imagesBehind json d' more) := by
  rw [imagesBehind, frames_behind h, images_cons]
  rfl

private theorem unread_eq_of_none (h : d.nextFrame = (.ok none, d')) : d'.unread = d.unread :=
  (FrameDecoder.decodeFrame_of_none h).2

/-- The first frame of a connection. -/
theorem owed_onFirst {json : Json} (h : d.nextFrame = (.ok (some f), d')) (bound : Bool)
    (client : ClientId) (more : List UInt8) :
    (ConnPhase.onFirst json bound f d').owed json client more = none ∨
      (ConnPhase.onFirst json bound f d').owed json client more =
        some (commandsOf json client (d.unread ++ more)) := by
  unfold ConnPhase.onFirst
  by_cases hty : f.ty = .attachOrOpen ∧ bound
  · rw [if_pos hty]
    cases hreq : json.attachOrOpen f.payload with
    | none => exact Or.inl rfl
    | some req =>
        refine Or.inr ?_
        rw [commandsOf, frames_behind h]
        simp only [if_pos hty.1, hreq]
        rfl
  · rw [if_neg hty]
    exact Or.inl rfl

/-- A later frame. -/
theorem owed_onNext {json : Json} (h : d.nextFrame = (.ok (some f), d')) (client : ClientId)
    (more : List UInt8) :
    (ConnPhase.onNext json f d').owed json client more = some (imagesBehind json d more) := by
  rw [imagesBehind_of_some json h, ConnPhase.onNext]
  cases hcmd : frameCommand json f with
  | none =>
      have hty : f.ty ≠ .close := by
        intro hty
        rw [frameCommand, hty] at hcmd
        cases hcmd
      simp [hty, ConnPhase.owed]
  | some cmd =>
      by_cases hty : f.ty = .close
      · simp [hty, ConnPhase.owed]
      · simp [hty, ConnPhase.owed]

/-- What a call of {lit}`next_frame` comes to. -/
inductive Called (json : Json) (bound : Bool) : ConnPhase → ConnPhase → Prop where
  | malformed (p : ConnPhase) : Called json bound p .ended
  | noFirst {d d' : FrameDecoder} (h : d.nextFrame = (.ok none, d')) :
      Called json bound (.first d) (.firstRead d')
  | first {d d' : FrameDecoder} {f : Frame} (h : d.nextFrame = (.ok (some f), d')) :
      Called json bound (.first d) (.onFirst json bound f d')
  | noNext {d d' : FrameDecoder} (h : d.nextFrame = (.ok none, d')) :
      Called json bound (.decoding d) (.reading d')
  | next {d d' : FrameDecoder} {f : Frame} (h : d.nextFrame = (.ok (some f), d')) :
      Called json bound (.decoding d) (.onNext json f d')

/-- What a call has decoded. -/
theorem called_of_call {json : Json} {bound : Bool} {p q : ConnPhase}
    (h : p.call json bound = some q) : Called json bound p q := by
  cases p with
  | first d =>
      rcases hnext : d.nextFrame with ⟨e | _ | f, d'⟩
      · simp only [ConnPhase.call, hnext, Option.some.injEq] at h
        exact h ▸ .malformed _
      · simp only [ConnPhase.call, hnext, Option.some.injEq] at h
        exact h ▸ .noFirst hnext
      · simp only [ConnPhase.call, hnext, Option.some.injEq] at h
        exact h ▸ .first hnext
  | decoding d =>
      rcases hnext : d.nextFrame with ⟨e | _ | f, d'⟩
      · simp only [ConnPhase.call, hnext, Option.some.injEq] at h
        exact h ▸ .malformed _
      · simp only [ConnPhase.call, hnext, Option.some.injEq] at h
        exact h ▸ .noNext hnext
      · simp only [ConnPhase.call, hnext, Option.some.injEq] at h
        exact h ▸ .next hnext
  | _ => cases h

/-- A call changes nothing about what is owed, unless the connection ends with it. -/
theorem Called.owed {json : Json} {bound : Bool} {p q : ConnPhase} (h : Called json bound p q)
    (client : ClientId) (more : List UInt8) :
    q.owed json client more = none ∨ q.owed json client more = p.owed json client more := by
  cases h with
  | malformed => exact Or.inl rfl
  | noFirst hnext =>
      refine Or.inr ?_
      rw [ConnPhase.owed, ConnPhase.owed, unread_eq_of_none hnext]
  | first hnext => exact owed_onFirst hnext bound client more
  | noNext hnext =>
      refine Or.inr ?_
      rw [ConnPhase.owed, ConnPhase.owed, imagesBehind, imagesBehind, unread_eq_of_none hnext]
  | next hnext => exact Or.inr (owed_onNext hnext client more)

/-- The tasks go on to the socket only when the decoder holds no whole frame. -/
theorem Called.drained {json : Json} {bound : Bool} {p : ConnPhase} {d : FrameDecoder}
    (h : Called json bound p (.reading d)) : decodeFrame d.unread = .more := by
  generalize hq : ConnPhase.reading d = q at h
  cases h with
  | malformed => cases hq
  | noFirst hnext => cases hq
  | first hnext =>
      unfold ConnPhase.onFirst at hq
      split at hq
      · split at hq <;> cases hq
      · cases hq
  | noNext hnext =>
      cases hq
      obtain ⟨hmore, hunread⟩ := FrameDecoder.decodeFrame_of_none hnext
      rw [hunread]
      exact hmore
  | next hnext =>
      unfold ConnPhase.onNext at hq
      split at hq <;> cases hq

/-- A connection stays attached. -/
theorem Called.attached {json : Json} {bound : Bool} {p q : ConnPhase} (h : Called json bound p q)
    (hp : p.unattached = false) : q.unattached = false := by
  cases h with
  | malformed => rfl
  | noFirst hnext => cases hp
  | first hnext => cases hp
  | noNext hnext => rfl
  | next hnext =>
      unfold ConnPhase.onNext
      split <;> rfl

end Calls

/-- What is read was still to come. -/
theorem owed_read {answer : ReadAnswer} {p q : ConnPhase} (h : p.read answer = some q)
    (json : Json) (client : ClientId) (more : List UInt8) :
    q.owed json client more = none ∨
      q.owed json client more = p.owed json client (received [answer] ++ more) := by
  have hpush : ∀ (d : FrameDecoder) (b : UInt8) (bs : List UInt8),
      (d.push (b :: bs)).unread ++ more = d.unread ++ (received [.ok (b :: bs)] ++ more) := by
    intro d b bs
    simp [FrameDecoder.unread_push, received]
  cases p with
  | firstRead d =>
      rcases answer with e | _ | ⟨b, bs⟩
      · cases h
        exact Or.inl rfl
      · cases h
        exact Or.inl rfl
      · cases h
        refine Or.inr ?_
        rw [ConnPhase.owed, ConnPhase.owed, hpush]
  | reading d =>
      rcases answer with e | _ | ⟨b, bs⟩
      · cases h
        exact Or.inl rfl
      · cases h
        exact Or.inl rfl
      · cases h
        refine Or.inr ?_
        rw [ConnPhase.owed, ConnPhase.owed, imagesBehind, imagesBehind, hpush]
  | _ => cases h

/-- A send pays the first of what is owed. -/
theorem owed_pending {p q : ConnPhase} {fresh client : ClientId} {cmd : SessionCommand}
    (h : p.pending fresh = some (cmd, q)) (hclient : p.unattached = true → client = fresh)
    (json : Json) (more : List UInt8) :
    ∃ rest, p.owed json client more = some (cmd :: rest) ∧
      (q.owed json client more = none ∨ q.owed json client more = some rest) := by
  cases p with
  | attaching req d =>
      cases h
      rw [hclient rfl]
      exact ⟨_, rfl, Or.inr rfl⟩
  | sending cmd next =>
      cases h
      cases next with
      | none => exact ⟨[], rfl, Or.inl rfl⟩
      | some d => exact ⟨_, rfl, Or.inr rfl⟩
  | _ => cases h

/-! ## Accounts -/

/-- The commands that a source has sent. -/
def sentBy (source : Source) (log : List (Source × SessionCommand)) : List SessionCommand :=
  (log.filter fun entry => entry.1 = source).map Prod.snd

/-- A send is its source's last one. -/
theorem sentBy_self (source : Source) (cmd : SessionCommand)
    (log : List (Source × SessionCommand)) :
    sentBy source (log ++ [(source, cmd)]) = sentBy source log ++ [cmd] := by
  simp [sentBy]

/-- A send of somebody else changes nothing. -/
theorem sentBy_of_ne {source other : Source} (h : other ≠ source) (cmd : SessionCommand)
    (log : List (Source × SessionCommand)) :
    sentBy source (log ++ [(other, cmd)]) = sentBy source log := by
  simp [sentBy, h]

/-- The account of a connection: what its bytes stand for, whatever follows them, is
what it has sent and what it owes, and it waits for the socket only when its decoder
holds no whole frame. -/
structure Conn.Fair (json : Json) (conn : Conn) (sent : List SessionCommand) : Prop where
  account : ∀ client, (conn.phase.unattached = false → client = conn.client) → ∀ more, ∃ rest,
    (∀ owed ∈ conn.phase.owed json client more, owed = rest) ∧
      commandsOf json client (conn.bytes ++ more) = sent ++ rest
  drained : ∀ d, conn.phase = .reading d → decodeFrame d.unread = .more

namespace Conn

variable {json : Json} {conn : Conn} {sent : List SessionCommand}

/-- A connection that has just been accepted owes nothing. -/
theorem fair_accepted : Fair json ⟨.first FrameDecoder.new, [], 0⟩ [] := by
  constructor
  · intro client _ more
    refine ⟨commandsOf json client more, ?_, rfl⟩
    intro owed howed
    exact (Option.mem_some_iff.mp howed).symm
  · intro d hd
    cases hd

/-- A move that sends nothing: what is owed afterwards is what was owed for the bytes
that it read. -/
theorem Fair.move (h : conn.Fair json sent) (phase : ConnPhase) (bytes : List UInt8)
    (hattached : conn.phase.unattached = false → phase.unattached = false)
    (howed : ∀ client more, phase.owed json client more = none ∨
      phase.owed json client more = conn.phase.owed json client (bytes ++ more))
    (hdrained : ∀ d, phase = .reading d → decodeFrame d.unread = .more) :
    Fair json ⟨phase, conn.bytes ++ bytes, conn.client⟩ sent := by
  refine ⟨?_, hdrained⟩
  intro client hclient more
  obtain ⟨rest, hrest, haccount⟩ :=
    h.account client (fun hphase => hclient (hattached hphase)) (bytes ++ more)
  refine ⟨rest, ?_, ?_⟩
  · intro owed hmem
    rcases howed client more with hnone | hsame
    · rw [hnone] at hmem
      cases hmem
    · rw [hsame] at hmem
      exact hrest owed hmem
  · rw [List.append_assoc]
    exact haccount

/-- A connection that ends owes what nobody will ask for. -/
theorem Fair.ended (h : conn.Fair json sent) : Fair json { conn with phase := .ended } sent := by
  have hmoved := h.move .ended [] (fun _ => rfl) (fun _ _ => Or.inl rfl) (fun _ hd => by cases hd)
  rwa [List.append_nil] at hmoved

/-- A call keeps the account of a connection. -/
theorem Fair.call (h : conn.Fair json sent) {bound : Bool} {phase : ConnPhase}
    (hcall : conn.phase.call json bound = some phase) :
    Fair json { conn with phase := phase } sent := by
  have hcalled := called_of_call hcall
  have hmoved := h.move phase [] hcalled.attached (fun client more => hcalled.owed client more)
    (fun d hd => Called.drained (hd ▸ hcalled))
  rwa [List.append_nil] at hmoved

/-- A read keeps the account of a connection. -/
theorem Fair.read (h : conn.Fair json sent) {answer : ReadAnswer} {phase : ConnPhase}
    (hread : conn.phase.read answer = some phase) :
    Fair json { conn with phase := phase, bytes := conn.bytes ++ received [answer] } sent := by
  refine h.move phase (received [answer]) ?_ (fun client more => owed_read hread json client more) ?_
  · intro hphase
    cases hcase : conn.phase with
    | reading d =>
        rw [hcase] at hread
        rcases answer with e | _ | ⟨b, bs⟩
        · cases hread
          rfl
        · cases hread
          rfl
        · cases hread
          rfl
    | firstRead d =>
        rw [hcase] at hphase
        cases hphase
    | first d | attaching req d | decoding d | sending cmd next | ended =>
        rw [hcase] at hread
        cases hread
  · rintro d rfl
    cases hcase : conn.phase with
    | reading d' | firstRead d' =>
        rw [hcase] at hread
        rcases answer with e | _ | ⟨b, bs⟩
        · cases hread
        · cases hread
        · cases hread
    | first d' | attaching req d' | decoding d' | sending cmd next | ended =>
        rw [hcase] at hread
        cases hread

/-- A send that completes. -/
theorem Fair.deliver (h : conn.Fair json sent) {fresh : ClientId} {cmd : SessionCommand}
    {phase : ConnPhase} (hpending : conn.phase.pending fresh = some (cmd, phase)) :
    Fair json ⟨phase, conn.bytes, if conn.phase.unattached then fresh else conn.client⟩
      (sent ++ [cmd]) := by
  have hattached : phase.unattached = false := by
    cases hcase : conn.phase with
    | attaching req d =>
        rw [hcase] at hpending
        cases hpending
        rfl
    | sending cmd next =>
        rw [hcase] at hpending
        cases hpending
        cases next <;> rfl
    | first d | firstRead d | decoding d | reading d | ended =>
        rw [hcase] at hpending
        cases hpending
  constructor
  · intro client hclient more
    have heq := hclient hattached
    obtain ⟨rest, hrest, haccount⟩ := h.account client (fun hphase => by simpa [hphase] using heq) more
    obtain ⟨left, howed, hleft⟩ := owed_pending hpending (fun hphase => by simpa [hphase] using heq) json more
    have hpaid := hrest _ (Option.mem_def.mpr howed)
    subst hpaid
    refine ⟨left, ?_, ?_⟩
    · intro owed hmem
      rcases hleft with hnone | hsome
      · rw [hnone] at hmem
        cases hmem
      · rw [hsome] at hmem
        exact (Option.mem_some_iff.mp hmem).symm
    · rw [haccount, List.append_assoc]
      rfl
  · rintro d rfl
    cases hcase : conn.phase with
    | attaching req d' =>
        rw [hcase] at hpending
        cases hpending
    | sending cmd next =>
        rw [hcase] at hpending
        cases next with
        | none => cases hpending
        | some d' => cases hpending
    | first d' | firstRead d' | decoding d' | reading d' | ended =>
        rw [hcase] at hpending
        cases hpending

end Conn

/-! ## All connections -/

namespace Typing

open Event

variable {opts : ServerOpts} {json : Json} {s t : Typing}

/-- What a step comes to: one connection moves on without sending, or a command is
sent, or the actor and its surroundings move. -/
inductive Moved (opts : ServerOpts) (json : Json) (s : Typing) : Typing → Prop where
  | accept (k : Nat) (h : s.conns k = none) :
      Moved opts json s (s.setConn k ⟨.first FrameDecoder.new, [], 0⟩)
  | move (k : Nat) (conn next : Conn) (h : s.conns k = some conn)
      (hfair : ∀ sent, conn.Fair json sent → next.Fair json sent) :
      Moved opts json s (s.setConn k next)
  | deliver (k : Nat) (conn : Conn) (cmd : SessionCommand) (phase : ConnPhase) (w : World)
      (h : s.conns k = some conn)
      (hpending : conn.phase.pending s.world.nextClient = some (cmd, phase))
      (hsend : s.world.send cmd = some w) :
      Moved opts json s (setConn { s with world := w, log := s.log ++ [(.conn k, cmd)] } k
        ⟨phase, conn.bytes, if conn.phase.unattached then s.world.nextClient else conn.client⟩)
  | list (w : World) (hsend : s.world.send .info = some w) :
      Moved opts json s { s with world := w, log := s.log ++ [(.list, .info)] }
  | world (label : World.Label) (w : World) (hown : isOwnMove label = true)
      (hstep : s.world.step opts label = some w) : Moved opts json s { s with world := w }

/-- A step is one of the moves above. -/
theorem moved_of_step {label : TypingStep} (h : s.step opts json label = some t) :
    Moved opts json s t := by
  cases label with
  | accept k =>
      simp only [step] at h
      split at h
      · rename_i hnone
        cases h
        exact .accept k (Option.isNone_iff_eq_none.mp hnone)
      · cases h
  | call k bound =>
      simp only [step, Option.bind_eq_some_iff, Option.map_eq_some_iff] at h
      obtain ⟨conn, hconn, phase, hcall, rfl⟩ := h
      exact .move k conn _ hconn fun sent hfair => hfair.call hcall
  | read k answer =>
      simp only [step, Option.bind_eq_some_iff, Option.map_eq_some_iff] at h
      obtain ⟨conn, hconn, phase, hread, rfl⟩ := h
      exact .move k conn _ hconn fun sent hfair => hfair.read hread
  | deliver k =>
      simp only [step, Typing.deliver, send, Option.bind_eq_some_iff, Option.map_eq_some_iff] at h
      obtain ⟨conn, hconn, ⟨cmd, phase⟩, hpending, u, ⟨w, hsend, rfl⟩, rfl⟩ := h
      exact .deliver k conn cmd phase w hconn hpending hsend
  | refuse k =>
      simp only [step, Option.bind_eq_some_iff] at h
      obtain ⟨conn, hconn, h⟩ := h
      split at h
      · cases h
        exact .move k conn _ hconn fun sent hfair => hfair.ended
      · cases h
  | abort k =>
      simp only [step, Option.bind_eq_some_iff] at h
      obtain ⟨conn, hconn, h⟩ := h
      split at h
      · cases h
      · cases h
        exact .move k conn _ hconn fun sent hfair => hfair.ended
  | list =>
      simp only [step, send, Option.map_eq_some_iff] at h
      obtain ⟨w, hsend, rfl⟩ := h
      exact .list w hsend
  | world label =>
      simp only [step] at h
      split at h
      · rename_i hown
        rw [Option.map_eq_some_iff] at h
        obtain ⟨w, hstep, rfl⟩ := h
        exact .world label w hown hstep
      · cases h

/-- The accounts of all connections, and the channel that carries what they send in the
order in which the sends completed. -/
structure Fair (json : Json) (s : Typing) : Prop where
  conns : ∀ k conn, s.conns k = some conn → conn.Fair json (sentBy (.conn k) s.log)
  silent : ∀ k, s.conns k = none → sentBy (.conn k) s.log = []
  order : s.log.map Prod.snd = deliveries s.world.history

/-- At the start there is no connection. -/
theorem fair_start (json : Json) (session : Session) : Fair json (start session) :=
  ⟨fun _ _ h => (by cases h), fun _ _ => rfl, rfl⟩

/-- One connection is replaced by one with a fair account. -/
theorem Fair.setConn (h : Fair json s) {k : Nat} {conn : Conn}
    (hconn : conn.Fair json (sentBy (.conn k) s.log)) : Fair json (s.setConn k conn) := by
  refine ⟨?_, ?_, h.order⟩
  · intro j conn' hj
    by_cases heq : j = k
    · subst heq
      change Function.update s.conns j (some conn) j = some conn' at hj
      rw [Function.update_self] at hj
      cases hj
      exact hconn
    · change Function.update s.conns k (some conn) j = some conn' at hj
      rw [Function.update_of_ne heq] at hj
      exact h.conns j conn' hj
  · intro j hj
    by_cases heq : j = k
    · subst heq
      change Function.update s.conns j (some conn) j = none at hj
      rw [Function.update_self] at hj
      cases hj
    · change Function.update s.conns k (some conn) j = none at hj
      rw [Function.update_of_ne heq] at hj
      exact h.silent j hj

/-- A completed send is delivered. -/
theorem deliveries_send {w v : World} {cmd : SessionCommand} (h : w.send cmd = some v) :
    deliveries v.history = deliveries w.history ++ [cmd] := by
  obtain ⟨next, rfl, -, -, -⟩ := World.send_eq_some h
  rfl

/-- Every step keeps the account of every connection. -/
theorem fair_step {label : TypingStep} (h : Fair json s) (hmove : s.step opts json label = some t) :
    Fair json t := by
  cases moved_of_step hmove with
  | accept k hnone =>
      apply h.setConn
      rw [h.silent k hnone]
      exact Conn.fair_accepted
  | move k conn next hconn hfair => exact h.setConn (hfair _ (h.conns k conn hconn))
  | deliver k conn cmd phase w hconn hpending hsend =>
      have hpaid := (h.conns k conn hconn).deliver hpending
      rw [← sentBy_self] at hpaid
      have hother : ∀ j, j ≠ k →
          sentBy (.conn j) (s.log ++ [(.conn k, cmd)]) = sentBy (.conn j) s.log := by
        intro j hj
        apply sentBy_of_ne
        intro heq
        cases heq
        exact hj rfl
      refine ⟨?_, ?_, ?_⟩
      · intro j next hj
        change Function.update s.conns k _ j = some next at hj
        by_cases heq : j = k
        · subst heq
          rw [Function.update_self] at hj
          cases hj
          exact hpaid
        · rw [Function.update_of_ne heq] at hj
          change next.Fair json (sentBy (.conn j) (s.log ++ [(.conn k, cmd)]))
          rw [hother j heq]
          exact h.conns j next hj
      · intro j hj
        change Function.update s.conns k _ j = none at hj
        by_cases heq : j = k
        · subst heq
          rw [Function.update_self] at hj
          cases hj
        · rw [Function.update_of_ne heq] at hj
          change sentBy (.conn j) (s.log ++ [(.conn k, cmd)]) = []
          rw [hother j heq]
          exact h.silent j hj
      · change (s.log ++ [(Source.conn k, cmd)]).map Prod.snd = deliveries w.history
        rw [deliveries_send hsend, ← h.order]
        simp
  | list w hsend =>
      refine ⟨?_, ?_, ?_⟩
      · intro j conn hj
        rw [sentBy_of_ne (by simp)]
        exact h.conns j conn hj
      · intro j hj
        rw [sentBy_of_ne (by simp)]
        exact h.silent j hj
      · rw [deliveries_send hsend, ← h.order]
        simp
  | world label w hown hstep =>
      refine ⟨h.conns, h.silent, ?_⟩
      rcases World.deliveries_step hstep with ⟨cmd, rfl, -⟩ | ⟨-, hsame⟩
      · cases hown
      · rw [hsame]
        exact h.order

/-- What the actor does beside the connections is a run of the actor. -/
theorem world_run {session : Session} {labels : List TypingStep} {s : Typing}
    (hrun : (machine opts json).run (start session) labels = some s) :
    ∃ moves, (World.machine opts).run (World.start session) moves = some s.world := by
  refine (machine opts json).run_induct
    (motive := fun s => ∃ moves, (World.machine opts).run (World.start session) moves = some s.world)
    ?_ ⟨[], rfl⟩ hrun
  rintro s t label ⟨moves, hmoves⟩ hmove
  have hone : ∀ {w : World} (label : World.Label), s.world.step opts label = some w →
      ∃ moves, (World.machine opts).run (World.start session) moves = some w :=
    fun label hstep => ⟨moves ++ [label],
      (World.machine opts).run_snoc_eq_some.mpr ⟨s.world, hmoves, hstep⟩⟩
  cases moved_of_step hmove with
  | accept k hnone => exact ⟨moves, hmoves⟩
  | move k conn next hconn hfair => exact ⟨moves, hmoves⟩
  | deliver k conn cmd phase w hconn hpending hsend => exact hone (.send cmd) hsend
  | list w hsend => exact hone (.send .info) hsend
  | world label w hown hstep => exact hone label hstep

end Typing

/-! ## What the actor hands to the shell -/

namespace World

open Event

variable {opts : ServerOpts}

/-- The shell was given the input that the actor received, all of it while the session
lives. -/
structure Given (w : World) : Prop where
  part : offeredInput w.os.writeCalls <+: heldInput (receptions w.history)
  whole : w.session.isDead = false →
    offeredInput w.os.writeCalls = heldInput (receptions w.history)

private theorem receptions_sends {es h : List Event} (hes : ∀ e ∈ es, IsSent e) :
    receptions (es ++ h) = receptions h := by
  induction es with
  | nil => rfl
  | cons e es ih =>
      obtain ⟨c, f, stage, ok, rfl⟩ := hes e List.mem_cons_self
      exact ih fun e' he' => hes e' (List.mem_cons_of_mem _ he')

private theorem receptions_inner {w : World} {e : Event} (he : Inner w e) (h : List Event) :
    receptions (e :: h) = receptions h := by
  cases e with
  | answered info | signalled sig | elapsed ms => rfl
  | delivered _ | received _ | attached _ _ | drained _ _ | sent _ _ _ _ => exact absurd he id

/-- Offers to clients hand nothing to the shell. -/
theorem Given.outward {w v : World} (hw : Given w) (hv : Outward w v) : Given v := by
  obtain ⟨es, hes, hsent⟩ := hv.sends
  constructor
  · rw [hv.os, hes, receptions_sends hsent]
    exact hw.part
  · rw [hv.os, hes, receptions_sends hsent, hv.session]
    exact hw.whole

/-- Inner moves hand nothing to the shell. -/
theorem Given.inner {w v : World} (hw : Given w) (hv : InnerMove w v) : Given v := by
  constructor
  · rw [hv.writes, hv.history]
    exact hw.part
  · intro hlive
    rw [hv.writes, hv.history]
    apply hw.whole
    by_contra hdead
    rw [Bool.not_eq_false] at hdead
    rw [hv.dead hdead] at hlive
    cases hlive

/-- Commands without input hand nothing to the shell. -/
theorem Given.receive {w : World} (hw : Given w) {cmd : SessionCommand}
    (rest : List SessionCommand) (hcmd : inputOf cmd = []) : Given (w.receive cmd rest) := by
  have hsame : heldInput (receptions w.history ++ [cmd]) = heldInput (receptions w.history) := by
    simp [heldInput, hcmd]
  constructor
  · change offeredInput w.os.writeCalls <+: heldInput (receptions w.history ++ [cmd])
    rw [hsame]
    exact hw.part
  · intro hlive
    change offeredInput w.os.writeCalls = heldInput (receptions w.history ++ [cmd])
    rw [hsame]
    exact hw.whole hlive

/-- A received payload is handed over, unless the session is dead. -/
theorem Given.input {w : World} (hw : Given w) (bytes : List UInt8) (rest : List SessionCommand) :
    Given ((w.receive (.input bytes) rest).writeInput bytes) := by
  have hcalls := w.session.writeCalls_writeInput w.os bytes
  have hheld : heldInput (receptions w.history ++ [.input bytes]) =
      heldInput (receptions w.history) ++ bytes := by
    simp [heldInput, inputOf]
  have hwhole : w.session.isDead = false →
      offeredInput (w.session.writeInput w.os bytes).2.writeCalls =
        heldInput (receptions w.history ++ [.input bytes]) := by
    intro hlive
    rw [hcalls, hlive, hheld, ← hw.whole hlive]
    rfl
  refine ⟨?_, hwhole⟩
  change offeredInput (w.session.writeInput w.os bytes).2.writeCalls <+:
    heldInput (receptions w.history ++ [.input bytes])
  cases hdead : w.session.isDead with
  | true =>
      rw [hcalls, hdead, hheld]
      exact hw.part.trans (List.prefix_append _ _)
  | false => exact ⟨[], (List.append_nil _).trans (hwhole hdead)⟩

/-- Every move of the actor hands over what it received, in order. -/
theorem kept_given (opts : ServerOpts) : Kept opts Given where
  inner hw hv := hw.inner hv
  note {w e} hw he := by
    constructor
    · change offeredInput w.os.writeCalls <+: heldInput (receptions (e :: w.history))
      rw [receptions_inner he]
      exact hw.part
    · intro hlive
      change offeredInput w.os.writeCalls = heldInput (receptions (e :: w.history))
      rw [receptions_inner he]
      exact hw.whole hlive
  writer {w m} hw := by
    rw [writerMove_eq]
    exact ⟨hw.part, hw.whole⟩
  send {w cmd v} hw hsend := by
    obtain ⟨next, rfl, -, -, -⟩ := send_eq_some hsend
    exact ⟨hw.part, hw.whole⟩
  receive {w cmd rest} hw _ _ _ hinput := by
    apply hw.receive rest
    cases cmd with
    | input bytes => exact absurd rfl (hinput bytes)
    | resize _ _ | close _ | attach _ | info => rfl
  input {w bytes rest} hw _ _ := hw.input bytes rest
  attach {w req rest v} hw _ _ hv := by
    have hreceived : Given v := (hw.receive rest rfl).inner hv
    have hrecorded : Given
        (v.record (.attached req.outTx (v.session.replayForAttach req.wantChunks).data)) :=
      ⟨hreceived.part, hreceived.whole⟩
    exact hrecorded.outward (outward_handshake opts v req)
  forward {w} data exit hw _ := by
    have hrecorded : Given (w.record (.drained data exit)) := ⟨hw.part, hw.whole⟩
    exact hrecorded.outward (outward_forwardData opts _ data)
  push hw _ _ := hw.outward (outward_pushOrDrop opts _ _)
  farewell {w} code hw _ := by
    have hsaid : Given (w.farewell opts code) := hw.outward (outward_farewell opts w code)
    exact ⟨hsaid.part, hsaid.whole⟩
  leave hw _ := ⟨hw.part, hw.whole⟩
  remove hw _ := ⟨hw.part, hw.whole⟩
  finish hw _ := ⟨hw.part, hw.whole⟩

end World

/-! ## Main result -/

namespace Typing

open Event World

/-- In every run of the actor with any number of connections: each connection has sent
the first of the commands that its bytes stand for, all of them whenever it waits for
its socket; the actor receives what they sent in the order in which they sent it; and
the shell is given the input that the actor received, in order and without a gap, all
of it while the session lives. -/
theorem input_in_order (opts : ServerOpts) (json : Json) (session : Session)
    (labels : List TypingStep) (s : Typing)
    (hrun : (machine opts json).run (start session) labels = some s) :
    (∀ k conn, s.conns k = some conn →
        sentBy (.conn k) s.log <+: commandsOf json conn.client conn.bytes ∧
          ∀ d, conn.phase = .reading d →
            sentBy (.conn k) s.log = commandsOf json conn.client conn.bytes) ∧
      s.log.map Prod.snd = receptions s.world.history ++ s.world.queue ∧
      offeredInput s.world.os.writeCalls <+: heldInput (receptions s.world.history) ∧
      (s.world.session.isDead = false →
        offeredInput s.world.os.writeCalls = heldInput (receptions s.world.history)) := by
  have hfair : Fair json s := (machine opts json).run_induct (motive := Fair json)
    (fun _ _ _ hs hstep => fair_step hs hstep) (fair_start json session) hrun
  obtain ⟨moves, hmoves⟩ := world_run hrun
  have hfifo : Fifo s.world := (World.machine opts).run_induct (motive := Fifo)
    (fun _ _ _ hw hstep => fifo_step hw hstep) (fifo_start session) hmoves
  have hstart : Given (World.start session) := ⟨List.prefix_rfl, fun _ => rfl⟩
  have hgiven : Given s.world := (kept_given opts).run hstart hmoves
  refine ⟨?_, hfair.order.trans hfifo.order, hgiven.part, hgiven.whole⟩
  intro k conn hconn
  obtain ⟨rest, howed, haccount⟩ := (hfair.conns k conn hconn).account conn.client (fun _ => rfl) []
  rw [List.append_nil] at haccount
  refine ⟨⟨rest, haccount.symm⟩, ?_⟩
  intro d hd
  have hmore := (hfair.conns k conn hconn).drained d hd
  have hnone : imagesBehind json d [] = [] := by
    rw [imagesBehind, List.append_nil, framing.frames_of_more hmore]
    rfl
  have hrest := howed (imagesBehind json d []) (by rw [hd]; rfl)
  rw [hnone] at hrest
  rw [haccount, ← hrest, List.append_nil]

/-- The frames of a client that attaches and types {lit}`a`. -/
def attachAndType : List UInt8 :=
  Frame.encode ⟨.attachOrOpen, attachText⟩ ++ Frame.encode ⟨.input, [0x61]⟩

/-- A second client takes over between two inputs of the first, and both go on typing. -/
def takenOver : List TypingStep :=
  [.world .asyncFdOk, .accept 0, .call 0 true, .read 0 (.ok attachAndType), .call 0 true,
    .deliver 0, .call 0 true, .deliver 0, .accept 1, .call 1 true, .read 1 (.ok (attachAndType.dropLast)), .call 1 true,
    .deliver 1, .world (.command .none), .call 0 true,
    .read 0 (.ok (Frame.encode ⟨.input, [0x62]⟩)), .call 0 true, .call 1 true,
    .read 1 (.ok [0x63]), .deliver 0, .call 1 true, .deliver 1, .world (.command .none),
    .world (.command .none), .world (.command .none)]

/-- Both connections' input is offered in the order in which it was sent. -/
theorem input_in_order_takenOver :
    ∃ s, (machine .default attachJson).run (start shell) takenOver = some s ∧
      sentBy (.conn 0) s.log <+: commandsOf attachJson 0 attachAndType ++ [.input [0x62]] ∧
      s.log.length = 5 ∧ offeredInput s.world.os.writeCalls = [0x61, 0x62] := by
  have hsome : ((machine .default attachJson).run (start shell) takenOver).isSome = true := by
    decide +kernel
  have hend : ∀ s ∈ (machine .default attachJson).run (start shell) takenOver,
      s.log.length = 5 ∧ s.world.session.isDead = false ∧
        heldInput (receptions s.world.history) = [0x61, 0x62] ∧
        (s.conns 0).map Conn.client = some 0 ∧
        (s.conns 0).map Conn.bytes = some (attachAndType ++ Frame.encode ⟨.input, [0x62]⟩) ∧
        commandsOf attachJson 0 (attachAndType ++ Frame.encode ⟨.input, [0x62]⟩) =
          commandsOf attachJson 0 attachAndType ++ [.input [0x62]] := by
    decide +kernel
  obtain ⟨s, hs⟩ := Option.isSome_iff_exists.mp hsome
  obtain ⟨hlength, hlive, hreceived, hclient, hbytes, hcommands⟩ := hend s hs
  obtain ⟨hconns, -, -, hwhole⟩ := input_in_order .default attachJson shell takenOver s hs
  obtain ⟨conn, hconn, hzero⟩ := Option.map_eq_some_iff.mp hclient
  rw [hconn, Option.map_some, Option.some.injEq] at hbytes
  refine ⟨s, hs, ?_, hlength, (hwhole hlive).trans hreceived⟩
  have hsent := (hconns 0 conn hconn).1
  rwa [hzero, hbytes, hcommands] at hsent

end Typing

end JftermMuxer.Daemon
