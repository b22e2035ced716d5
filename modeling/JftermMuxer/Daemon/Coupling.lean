import JftermMuxer.Daemon.Delivery
import JftermMuxer.Daemon.Handshake
import JftermMuxer.Daemon.Typing

/-!
# The two halves of a connection

{lit}`handle_session` of {lit}`jftermd/src/server.rs` runs a writer and a reader for its
connection, waits for the one that ends first and aborts the other.  Here the actor, the
readers and the writers of any number of connections are one machine.  The writers go on
while the actor is in the middle of an arm, and an abort takes effect some time after it
was asked for.

Main results:

- Theorem {lit}`World.kept_abandoned`: a client whose queue has no sender left is enqueued
  nothing more.
- Theorem {lit}`Coupled.sound_step`: every step keeps what is known of a connection's two
  halves and its queue.
- Theorem {lit}`Coupled.connection_ends`: a client whose writer came to the end of its
  queue has been sent all that was ever enqueued to it, and no writer is cut short unless
  a write failed or the reader had ended.
-/

namespace JftermMuxer.Daemon

open JftermMuxer.Foundation

/-! ## Queues without a sender -/

namespace World

open Event

variable {opts : ServerOpts} {c : ClientId} {fs : List Frame} {w v : World}

/-- Someone holds a sender of the client's out-queue: the actor, or an attach that waits
in the command queue. -/
def hasSender (w : World) (c : ClientId) : Bool :=
  w.client == some c || (w.phase != .finished && w.queue.any (attaches c))

/-- A client that nobody can send to any more, and all the frames it was enqueued. -/
structure Abandoned (c : ClientId) (fs : List Frame) (w : World) : Prop where
  unbound : w.client ≠ some c
  unqueued : w.phase ≠ .finished → ∀ cmd ∈ w.queue, attaches c cmd = false
  issued : c < w.nextClient
  frames : frames c w.history = fs

/-- A client without a sender is abandoned from now on. -/
theorem abandoned_of_hasSender (h : w.hasSender c = false) (hc : c < w.nextClient) :
    Abandoned c (Event.frames c w.history) w := by
  rw [hasSender, Bool.or_eq_false_iff, beq_eq_false_iff_ne] at h
  obtain ⟨hclient, hqueue⟩ := h
  refine ⟨hclient, ?_, hc, rfl⟩
  intro hphase cmd hcmd
  have hopen : (w.phase != .finished) = true := bne_iff_ne.mpr hphase
  rw [hopen, Bool.true_and, List.any_eq_false] at hqueue
  exact Bool.eq_false_iff.mpr (hqueue cmd hcmd)

/-- An abandoned client has no sender. -/
theorem Abandoned.hasSender (h : Abandoned c fs w) : w.hasSender c = false := by
  rw [World.hasSender, Bool.or_eq_false_iff, beq_eq_false_iff_ne]
  refine ⟨h.unbound, ?_⟩
  by_cases hphase : w.phase = .finished
  · rw [hphase]
    rfl
  · have hnone : w.queue.any (attaches c) = false := by
      rw [List.any_eq_false]
      exact fun cmd hcmd => Bool.eq_false_iff.mp (h.unqueued hphase cmd hcmd)
    rw [hnone, Bool.and_false]

/-- A move that binds nobody and leaves the commands alone. -/
theorem Abandoned.tended (hw : Abandoned c fs w) (htended : Tended w v) (hqueue : v.queue = w.queue)
    (hphase : w.phase = .finished → v.phase = .finished) (hnext : v.nextClient = w.nextClient) :
    Abandoned c fs v := by
  obtain ⟨es, hes⟩ := htended
  constructor
  · rcases hes.client with hsame | hnone
    · rw [hsame]
      exact hw.unbound
    · rw [hnone]
      simp
  · intro hopen
    rw [hqueue]
    exact hw.unqueued fun hfinished => hopen (hphase hfinished)
  · rw [hnext]
    exact hw.issued
  · rw [hes.frames hw.unbound]
    exact hw.frames

/-- Offers to others leave a client abandoned. -/
theorem Abandoned.outward (hw : Abandoned c fs w) (htended : Tended w v) (hout : Outward w v) :
    Abandoned c fs v :=
  hw.tended htended hout.queue (fun h => hout.phase.trans h) (by rw [hout.same])

/-- Every move of the actor leaves an abandoned client alone. -/
theorem kept_abandoned (opts : ServerOpts) (c : ClientId) (fs : List Frame) :
    Kept opts (Abandoned c fs) where
  inner hw hmove :=
    hw.tended hmove.tended hmove.queue (fun h => hmove.phase.trans h) hmove.nextClient
  note {w e} hw he := by
    refine ⟨hw.unbound, hw.unqueued, hw.issued, ?_⟩
    simp only [record, frames_inner he]
    exact hw.frames
  writer {w m} hw := by
    rw [writerMove_eq]
    exact ⟨hw.unbound, hw.unqueued, hw.issued, hw.frames⟩
  send {w cmd v} hw hsend := by
    obtain ⟨next, rfl, hopen, hnext, hreq⟩ := send_eq_some hsend
    refine ⟨hw.unbound, ?_, Nat.lt_of_lt_of_le hw.issued hnext, hw.frames⟩
    intro hphase other hother
    rcases List.mem_append.mp hother with hold | hnew
    · exact hw.unqueued hphase other hold
    · rw [List.mem_singleton.mp hnew]
      cases cmd with
      | attach req =>
          -- the channel of a new attach is a new one
          have houtTx := (hreq req rfl).1
          have hnew : req.outTx ≠ c := houtTx ▸ Nat.ne_of_gt hw.issued
          simpa [attaches] using hnew
      | input _ | resize _ _ | close _ | info => rfl
  receive {w cmd rest} hw hrun hqueue _ _ := by
    refine ⟨hw.unbound, ?_, hw.issued, hw.frames⟩
    intro hphase other hother
    apply hw.unqueued hphase other
    rw [hqueue]
    exact List.mem_cons_of_mem cmd hother
  input {w bytes rest} hw hrun hqueue := by
    refine ⟨hw.unbound, ?_, hw.issued, hw.frames⟩
    intro hphase other hother
    apply hw.unqueued hphase other
    rw [hqueue]
    exact List.mem_cons_of_mem _ hother
  attach {w req rest v} hw hrun hqueue hmove := by
    have hopen : w.phase ≠ .finished := by
      rw [hrun]
      simp
    have hwaiting : ∀ cmd ∈ .attach req :: rest, attaches c cmd = false := by
      rw [← hqueue]
      exact hw.unqueued hopen
    have hother : req.outTx ≠ c := by
      have hreq := hwaiting (.attach req) List.mem_cons_self
      simpa [attaches] using hreq
    obtain ⟨es, replay, hhistory, hes⟩ := handshake_addressed opts v req
    have hnone : Event.frames c es = [] := by
      apply frames_eq_nil
      intro f stage ok hmem
      obtain ⟨g, ok', hsent⟩ := hes _ hmem
      cases hsent
      exact hother rfl
    have hout := outward_handshake opts v req
    have hqueue' : (v.handshake opts req).queue = rest := hout.queue.trans hmove.queue
    have hnext : (v.handshake opts req).nextClient = w.nextClient := by
      rw [hout.same]
      exact hmove.nextClient
    refine ⟨?_, ?_, ?_, ?_⟩
    · change some req.outTx ≠ some c
      simpa using hother
    · rw [hqueue']
      exact fun _ cmd hcmd => hwaiting cmd (List.mem_cons_of_mem _ hcmd)
    · rw [hnext]
      exact hw.issued
    · rw [hhistory, frames_append, hnone, List.append_nil]
      change Event.frames c v.history = fs
      rw [hmove.history]
      exact hw.frames
  forward {w} data exit hw _ := by
    have hrecorded : Abandoned c fs (w.record (.drained data exit)) :=
      ⟨hw.unbound, hw.unqueued, hw.issued, hw.frames⟩
    exact hrecorded.outward (tended_forwardData opts _ data) (outward_forwardData opts _ data)
  push hw _ _ := hw.outward (tended_pushOrDrop opts _ _) (outward_pushOrDrop opts _ _)
  farewell {w} code hw hrun := by
    have hsaid := hw.outward (tended_farewell opts w code) (outward_farewell opts w code)
    refine ⟨hsaid.unbound, fun _ => hsaid.unqueued ?_, hsaid.issued, hsaid.frames⟩
    rw [(outward_farewell opts w code).phase, hrun]
    simp
  leave {w} hw hrun := by
    refine ⟨hw.unbound, fun _ => hw.unqueued ?_, hw.issued, hw.frames⟩
    rw [hrun]
    simp
  remove {w} hw hleft := by
    refine ⟨hw.unbound, fun _ => hw.unqueued ?_, hw.issued, hw.frames⟩
    rw [hleft]
    simp
  finish {w} hw _ := by
    refine ⟨?_, fun h => absurd rfl h, hw.issued, hw.frames⟩
    simp

/-- Clients stay issued. -/
theorem kept_issued (opts : ServerOpts) (c : ClientId) : Kept opts fun w => c < w.nextClient where
  inner hw hmove := by
    rw [hmove.nextClient]
    exact hw
  note hw _ := hw
  writer {w m} hw := by
    rw [writerMove_eq]
    exact hw
  send {w cmd v} hw hsend := by
    obtain ⟨next, rfl, -, hnext, -⟩ := send_eq_some hsend
    exact Nat.lt_of_lt_of_le hw hnext
  receive hw _ _ _ _ := hw
  input hw _ _ := hw
  attach {w req rest v} hw _ _ hmove := by
    rw [(outward_handshake opts v req).same]
    change c < v.nextClient
    rw [hmove.nextClient]
    exact hw
  forward {w} data exit hw _ := by
    rw [(outward_forwardData opts (w.record (.drained data exit)) data).same]
    exact hw
  push {w frame} hw _ _ := by
    rw [(outward_pushOrDrop opts w frame).same]
    exact hw
  farewell {w} code hw _ := by
    change c < (w.farewell opts code).nextClient
    rw [(outward_farewell opts w code).same]
    exact hw
  leave hw _ := hw
  remove hw _ := hw
  finish hw _ := hw

/-- A closed queue stays closed. -/
theorem closed_step {label : Label} (hstep : w.step opts label = some v)
    (hclosed : (w.outQueues c).closed = true) : (v.outQueues c).closed = true := by
  have hoffers : ∀ (tx : ClientId) (frames : List Frame) (x : World),
      (x.outQueues c).closed = true →
        ((frames.foldl (offer opts tx) x).outQueues c).closed = true := by
    intro tx frames
    induction frames with
    | nil => exact fun _ h => h
    | cons f frames ih => exact fun x h => ih _ ((trySend_closed opts x tx f .handshake).2 c h)
  rcases step_binding hstep with ⟨es, hes⟩ | ⟨a, req, rest, -, -, -, rfl⟩ | ⟨-, rfl⟩
  · exact hes.closed c hclosed
  · obtain ⟨u, hu⟩ := onAttach_eq opts w a req rest
    rw [hu.queues, handshake_eq]
    apply hoffers
    change (u.outQueues c).closed = true
    rw [hu.outQueues]
    exact hclosed
  · exact hclosed

end World

/-! ## Readers -/

/-- The connection's task has ended. -/
def ConnPhase.isEnded : ConnPhase → Bool
  | .ended => true
  | .first _ | .firstRead _ | .attaching _ _ | .decoding _ | .reading _ | .sending _ _ => false

namespace Typing

variable {opts : ServerOpts} {json : Json} {s t : Typing}

/-- The reader of this connection has ended. -/
def readerOver (s : Typing) (k : Nat) : Bool := (s.conns k).any fun conn => conn.phase.isEnded

/-- The connection has attached with this client. -/
def Serves (s : Typing) (k : Nat) (c : ClientId) : Prop :=
  ∃ conn, s.conns k = some conn ∧ conn.client = c ∧ conn.phase.unattached = false

/-- Whatever a connection does next, it stays attached, and ended once it has ended. -/
structure Goes (conn next : Conn) : Prop where
  attached : conn.phase.unattached = false →
    next.phase.unattached = false ∧ next.client = conn.client
  ended : conn.phase.isEnded = true → next.phase.isEnded = true

/-- A connection that does not move. -/
theorem Goes.refl (conn : Conn) : Goes conn conn := ⟨fun h => ⟨h, rfl⟩, id⟩

/-- A connection may end at any time. -/
theorem goes_ended (conn : Conn) : Goes conn { conn with phase := .ended } :=
  ⟨fun _ => ⟨rfl, rfl⟩, fun _ => rfl⟩

/-- A call moves the connection along. -/
theorem goes_call {bound : Bool} {conn : Conn} {phase : ConnPhase}
    (hcall : conn.phase.call json bound = some phase) : Goes conn { conn with phase := phase } := by
  refine ⟨fun h => ⟨(called_of_call hcall).attached h, rfl⟩, ?_⟩
  intro hended
  cases hphase : conn.phase with
  | ended =>
      rw [hphase] at hcall
      cases hcall
  | first _ | firstRead _ | attaching _ _ | decoding _ | reading _ | sending _ _ =>
      rw [hphase] at hended
      cases hended

/-- A read moves the connection along. -/
theorem goes_read {answer : ReadAnswer} {conn : Conn} {phase : ConnPhase} (bytes : List UInt8)
    (hread : conn.phase.read answer = some phase) : Goes conn ⟨phase, bytes, conn.client⟩ := by
  cases hphase : conn.phase with
  | reading d =>
      rw [hphase] at hread
      refine ⟨fun _ => ⟨?_, rfl⟩, fun h => ?_⟩
      · rcases answer with e | _ | ⟨b, bs⟩ <;> cases hread <;> rfl
      · rw [hphase] at h
        cases h
  | firstRead d =>
      constructor
      · intro h
        rw [hphase] at h
        cases h
      · intro h
        rw [hphase] at h
        cases h
  | first _ | attaching _ _ | decoding _ | sending _ _ | ended =>
      rw [hphase] at hread
      cases hread

/-- A connection whose send completes keeps its client, unless that was its attach. -/
theorem goes_deliver {fresh : ClientId} {conn : Conn} {cmd : SessionCommand} {phase : ConnPhase}
    (hpending : conn.phase.pending fresh = some (cmd, phase)) :
    Goes conn ⟨phase, conn.bytes, if conn.phase.unattached then fresh else conn.client⟩ := by
  cases hphase : conn.phase with
  | sending cmd' next =>
      rw [hphase] at hpending
      cases hpending
      refine ⟨fun _ => ⟨?_, rfl⟩, fun h => ?_⟩
      · cases next <;> rfl
      · rw [hphase] at h
        cases h
  | attaching req d =>
      constructor
      · intro h
        rw [hphase] at h
        cases h
      · intro h
        rw [hphase] at h
        cases h
  | first _ | firstRead _ | decoding _ | reading _ | ended =>
      rw [hphase] at hpending
      cases hpending

/-- What a step makes of one connection. -/
theorem goes_step {label : TypingStep} (hstep : s.step opts json label = some t) {k : Nat}
    {conn : Conn} (hconn : s.conns k = some conn) :
    ∃ next, t.conns k = some next ∧ Goes conn next := by
  have hsame : ∃ next, s.conns k = some next ∧ Goes conn next := ⟨conn, hconn, Goes.refl conn⟩
  have hset : ∀ (x : Typing) (j : Nat) (old next : Conn), x.conns = s.conns →
      s.conns j = some old → Goes old next →
        ∃ next', (x.setConn j next).conns k = some next' ∧ Goes conn next' := by
    intro x j old next hx hold hgoes
    change ∃ next', Function.update x.conns j (some next) k = some next' ∧ Goes conn next'
    by_cases hj : k = j
    · subst hj
      rw [hconn, Option.some.injEq] at hold
      subst hold
      exact ⟨next, by rw [Function.update_self], hgoes⟩
    · rw [Function.update_of_ne hj, hx]
      exact hsame
  cases label with
  | accept j =>
      simp only [step] at hstep
      split at hstep
      · rename_i hnone
        cases hstep
        change ∃ next', Function.update s.conns j _ k = some next' ∧ Goes conn next'
        have hj : k ≠ j := by
          rintro rfl
          rw [hconn] at hnone
          cases hnone
        rw [Function.update_of_ne hj]
        exact hsame
      · cases hstep
  | call j bound =>
      simp only [step, Option.bind_eq_some_iff, Option.map_eq_some_iff] at hstep
      obtain ⟨old, hold, phase, hcall, rfl⟩ := hstep
      exact hset s j old _ rfl hold (goes_call hcall)
  | read j answer =>
      simp only [step, Option.bind_eq_some_iff, Option.map_eq_some_iff] at hstep
      obtain ⟨old, hold, phase, hread, rfl⟩ := hstep
      exact hset s j old _ rfl hold (goes_read _ hread)
  | deliver j =>
      simp only [step, Typing.deliver, send, Option.bind_eq_some_iff, Option.map_eq_some_iff] at hstep
      obtain ⟨old, hold, ⟨cmd, phase⟩, hpending, u, ⟨w, -, rfl⟩, rfl⟩ := hstep
      exact hset _ j old _ rfl hold (goes_deliver hpending)
  | refuse j | abort j =>
      simp only [step, Option.bind_eq_some_iff] at hstep
      obtain ⟨old, hold, hstep⟩ := hstep
      split at hstep <;> cases hstep
      exact hset s j old _ rfl hold (goes_ended old)
  | list =>
      simp only [step, send, Option.map_eq_some_iff] at hstep
      obtain ⟨w, -, rfl⟩ := hstep
      exact hsame
  | world label =>
      simp only [step] at hstep
      split at hstep
      · rw [Option.map_eq_some_iff] at hstep
        obtain ⟨w, -, rfl⟩ := hstep
        exact hsame
      · cases hstep

/-- A reader that has ended stays ended. -/
theorem readerOver_step {label : TypingStep} (hstep : s.step opts json label = some t) {k : Nat}
    (hover : s.readerOver k = true) : t.readerOver k = true := by
  unfold readerOver at hover ⊢
  cases hconn : s.conns k with
  | none =>
      rw [hconn] at hover
      cases hover
  | some conn =>
      rw [hconn] at hover
      obtain ⟨next, hnext, hgoes⟩ := goes_step hstep hconn
      rw [hnext]
      exact hgoes.ended hover

/-- A connection goes on serving its client. -/
theorem serves_step {label : TypingStep} (hstep : s.step opts json label = some t) {k : Nat}
    {c : ClientId} (hserves : s.Serves k c) : t.Serves k c := by
  obtain ⟨conn, hconn, hclient, hattached⟩ := hserves
  obtain ⟨next, hnext, hgoes⟩ := goes_step hstep hconn
  obtain ⟨hstays, hsame⟩ := hgoes.attached hattached
  exact ⟨next, hnext, hsame.trans hclient, hstays⟩

/-- An attach is sent: the connection serves a new client. -/
theorem serves_attach {k : Nat} (hstep : s.step opts json (.deliver k) = some t) {conn : Conn}
    (hconn : s.conns k = some conn) (hnew : conn.phase.unattached = true) :
    t.Serves k s.world.nextClient ∧ t.world.nextClient = s.world.nextClient + 1 := by
  simp only [step, Typing.deliver, send, Option.bind_eq_some_iff, Option.map_eq_some_iff] at hstep
  obtain ⟨old, hold, ⟨cmd, phase⟩, hpending, u, ⟨w, hsend, rfl⟩, rfl⟩ := hstep
  rw [hconn, Option.some.injEq] at hold
  subst hold
  cases hphase : conn.phase with
  | attaching req d =>
      rw [hphase] at hpending
      cases hpending
      obtain ⟨next, rfl, -, -, hreq⟩ := World.send_eq_some hsend
      refine ⟨⟨_, Function.update_self .., ?_, rfl⟩, (hreq _ rfl).2⟩
      rfl
  | first _ | firstRead _ =>
      rw [hphase] at hpending
      cases hpending
  | decoding _ | reading _ | sending _ _ | ended =>
      rw [hphase] at hnew
      cases hnew

/-- What a step does to the actor: one step of its own, or nothing. -/
theorem world_step {label : TypingStep} (hstep : s.step opts json label = some t) :
    t.world = s.world ∨ ∃ move, s.world.step opts move = some t.world ∧
      (move.waits = [] ∨ label = .world move) := by
  cases label with
  | world label =>
      simp only [step] at hstep
      split at hstep
      · rw [Option.map_eq_some_iff] at hstep
        obtain ⟨w, hw, rfl⟩ := hstep
        exact Or.inr ⟨label, hw, Or.inr rfl⟩
      · cases hstep
  | accept j =>
      simp only [step] at hstep
      split at hstep
      · cases hstep
        exact Or.inl rfl
      · cases hstep
  | call j bound | read j answer =>
      simp only [step, Option.bind_eq_some_iff, Option.map_eq_some_iff] at hstep
      obtain ⟨conn, -, phase, -, rfl⟩ := hstep
      exact Or.inl rfl
  | refuse j | abort j =>
      simp only [step, Option.bind_eq_some_iff] at hstep
      obtain ⟨conn, -, hstep⟩ := hstep
      split at hstep <;> cases hstep
      exact Or.inl rfl
  | deliver j =>
      simp only [step, Typing.deliver, send, Option.bind_eq_some_iff, Option.map_eq_some_iff] at hstep
      obtain ⟨conn, -, ⟨cmd, phase⟩, -, u, ⟨w, hsend, rfl⟩, rfl⟩ := hstep
      exact Or.inr ⟨.send cmd, hsend, Or.inl rfl⟩
  | list =>
      simp only [step, send, Option.map_eq_some_iff] at hstep
      obtain ⟨w, hsend, rfl⟩ := hstep
      exact Or.inr ⟨.send .info, hsend, Or.inl rfl⟩

end Typing

/-! ## The machine -/

/-- Why a writer has left its loop. -/
inductive WriterEnd where
  /-- Its queue was empty and had no sender left. -/
  | drained
  | failed
  /-- The reader ended first. -/
  | aborted
deriving DecidableEq, Repr

/-- How far {lit}`handle_session` has come with its two tasks. -/
inductive Coupling where
  | selecting
  /-- The writer has ended, and the reader is to be aborted. -/
  | readerAborted
  /-- The reader has ended, and the writer is to be aborted. -/
  | writerAborted
deriving DecidableEq, Repr

/-- What belongs to a client's out-queue: the connection, its writer, and the coupling
of the two tasks. -/
structure Link where
  conn : Nat
  writer : Writer
  left : Option WriterEnd
  coupling : Coupling
deriving DecidableEq, Repr

def Link.new (k : Nat) : Link := ⟨k, Writer.new, none, .selecting⟩

/-- How a step of the writer ends its loop, if it does. -/
def WriterStep.ending : WriterStep → Option WriterEnd
  | .queueCloses => some .drained
  | .writeFails => some .failed
  | .abort => some .aborted
  | .recv _ | .accept _ => none

/-- The actor, the readers, and for every client its link. -/
structure Coupled where
  typing : Typing
  links : ClientId → Option Link

/-- One step. -/
inductive CoupledStep where
  /-- A reader moves, or a LIST asks. -/
  | reader (label : TypingStep)
  /-- A send of a reader completes. -/
  | deliver (k : Nat)
  /-- The actor moves, or its surroundings, and meanwhile some writers. -/
  | world (label : World.Label) (during : List (ClientId × WriterStep))
  | writer (c : ClientId) (a : WriterStep)
  /-- {lit}`handle_session` finds that the writer has ended. -/
  | joinWriter (c : ClientId)
  /-- It finds that the reader has ended. -/
  | joinReader (c : ClientId)
  /-- The abort of the reader takes effect. -/
  | cancelReader (c : ClientId)

/-- The {lit}`waitpid` answers that come with a step. -/
def CoupledStep.waits : CoupledStep → List (Except Errno WaitStatus)
  | .world label _ => label.waits
  | .reader _ | .deliver _ | .writer _ _ | .joinWriter _ | .joinReader _ | .cancelReader _ => []

/-- The readers' own steps; their sends and aborts have steps of their own. -/
def TypingStep.isReaders : TypingStep → Bool
  | .accept _ | .call _ _ | .read _ _ | .refuse _ | .list => true
  | .deliver _ | .abort _ | .world _ => false

namespace Coupled

def world (s : Coupled) : World := s.typing.world

def start (session : Session) : Coupled := ⟨Typing.start session, fun _ => none⟩

def setLink (s : Coupled) (c : ClientId) (link : Link) : Coupled :=
  { s with links := Function.update s.links c (some link) }

/-- The queue ends once it is empty and nobody holds a sender, and an abort has to be
asked for. -/
def may (s : Coupled) (c : ClientId) (link : Link) : WriterStep → Bool
  | .recv _ | .accept _ | .writeFails => true
  | .queueCloses => (s.world.outQueues c).queued.isEmpty && !s.world.hasSender c
  | .abort => link.coupling == .writerAborted

/-- A client's writer moves. -/
def write (s : Coupled) (m : ClientId × WriterStep) : Option Coupled :=
  (s.links m.1).bind fun link =>
    if s.may m.1 link m.2 then
      (link.writer.step m.2).map fun x =>
        s.setLink m.1 { link with writer := x, left := m.2.ending.or link.left }
    else none

/-- The writers by themselves. -/
def writers : Machine Coupled (ClientId × WriterStep) where
  step := write

/-- The writers have received what was popped from their queues, and only a writer that
has left its loop drops its receiver. -/
def inStep (s : Coupled) : Bool :=
  (List.range s.world.nextClient).all fun c =>
    (s.links c).all fun link =>
      decide (link.writer.received = s.world.taken c) &&
        (!(s.world.outQueues c).closed || link.left.isSome)

def move (opts : ServerOpts) (json : Json) (s : Coupled) : CoupledStep → Option Coupled
  | .reader label =>
      if label.isReaders then
        (s.typing.step opts json label).map fun t => { s with typing := t }
      else none
  | .deliver k =>
      (s.typing.conns k).bind fun conn =>
        (s.typing.step opts json (.deliver k)).map fun t =>
          ⟨t, if conn.phase.unattached then
            Function.update s.links s.world.nextClient (some (Link.new k)) else s.links⟩
  | .world label during =>
      if during.all fun m => m.2 != .queueCloses then
        (s.typing.step opts json (.world label)).bind fun t =>
          writers.run { s with typing := t } during
      else none
  | .writer c a => s.write (c, a)
  | .joinWriter c =>
      (s.links c).bind fun link =>
        if link.coupling = .selecting ∧ (s.world.outQueues c).closed = true then
          some (s.setLink c { link with coupling := .readerAborted })
        else none
  | .joinReader c =>
      (s.links c).bind fun link =>
        if link.coupling = .selecting ∧ s.typing.readerOver link.conn = true then
          some (s.setLink c { link with coupling := .writerAborted })
        else none
  | .cancelReader c =>
      (s.links c).bind fun link =>
        if link.coupling = .readerAborted then
          (s.typing.step opts json (.abort link.conn)).map fun t => { s with typing := t }
        else none

/-- A move counts if it leaves writers and queues in step. -/
def step (opts : ServerOpts) (json : Json) (s : Coupled) (label : CoupledStep) : Option Coupled :=
  (s.move opts json label).filter inStep

/-- The actor and all connections as one machine. -/
def machine (opts : ServerOpts) (json : Json) : Machine Coupled CoupledStep where
  step := step opts json

end Coupled

/-! ## What is known of a connection -/

/-- What every move keeps of a link, whether writers and queues are in step or not. -/
structure Link.Held (s : Typing) (c : ClientId) (link : Link) : Prop where
  serves : s.Serves link.conn c
  issued : c < s.world.nextClient
  sending : link.writer.Sending
  left : link.left.isSome = true ↔ link.writer.phase = .ended
  drained : link.left = some .drained →
    link.writer.written = framing.wire link.writer.received ∧
      World.Abandoned c link.writer.received s.world
  aborted : link.left = some .aborted → link.coupling = .writerAborted
  readerOver : link.coupling = .writerAborted → s.readerOver link.conn = true
  closed : link.coupling = .readerAborted → (s.world.outQueues c).closed = true

/-- Writer and queue of a client are in step. -/
structure Link.InStep (w : World) (c : ClientId) (link : Link) : Prop where
  received : link.writer.received = w.taken c
  closed : (w.outQueues c).closed = true → link.left.isSome = true

namespace Coupled

open World Event

variable {opts : ServerOpts} {json : Json} {s t : Coupled}

def Held (s : Coupled) : Prop := ∀ c link, s.links c = some link → link.Held s.typing c

/-- The invariant: every link is sound, and so are the actor's queues. -/
structure Sound (s : Coupled) : Prop where
  held : s.Held
  inStep : ∀ c link, s.links c = some link → link.InStep s.world c
  order : ∀ c, InOrder c s.world

/-- The check looks at every link there is. -/
theorem inStep_iff (hheld : s.Held) :
    s.inStep = true ↔ ∀ c link, s.links c = some link → link.InStep s.world c := by
  unfold Coupled.inStep
  rw [List.all_eq_true]
  constructor
  · intro h c link hlink
    have hc := h c (List.mem_range.mpr (hheld c link hlink).issued)
    rw [hlink, Option.all_some, Bool.and_eq_true, decide_eq_true_eq, Bool.or_eq_true,
      Bool.not_eq_true'] at hc
    refine ⟨hc.1, fun hclosed => ?_⟩
    rcases hc.2 with hopen | hleft
    · rw [hclosed] at hopen
      cases hopen
    · exact hleft
  · intro h c _
    cases hlink : s.links c with
    | none => rfl
    | some link =>
        have hstep := h c link hlink
        rw [Option.all_some, Bool.and_eq_true, decide_eq_true_eq, Bool.or_eq_true, Bool.not_eq_true']
        refine ⟨hstep.received, ?_⟩
        cases hclosed : (s.world.outQueues c).closed with
        | false => exact Or.inl rfl
        | true => exact Or.inr (hstep.closed hclosed)

/-! ## Steps -/

/-- Moves of the actor and of the readers keep what is known of a link. -/
theorem held_typing {x y : Typing} {label : TypingStep} (hstep : x.step opts json label = some y)
    {c : ClientId} {link : Link} (h : link.Held x c) : link.Held y c := by
  have hkept : ∀ {I : World → Prop}, Kept opts I → I x.world → I y.world := by
    intro I hI hx
    rcases Typing.world_step hstep with hsame | ⟨move, hmove, -⟩
    · rw [hsame]
      exact hx
    · exact hI.step hx hmove
  refine ⟨Typing.serves_step hstep h.serves, hkept (kept_issued opts c) h.issued, h.sending, h.left,
    ?_, h.aborted, fun haborted => Typing.readerOver_step hstep (h.readerOver haborted), ?_⟩
  · intro hleft
    obtain ⟨hwritten, habandoned⟩ := h.drained hleft
    exact ⟨hwritten, hkept (kept_abandoned opts c _) habandoned⟩
  · intro haborted
    have hclosed := h.closed haborted
    rcases Typing.world_step hstep with hsame | ⟨move, hmove, -⟩
    · rw [hsame]
      exact hclosed
    · exact closed_step hmove hclosed

/-- One link is replaced. -/
theorem Held.setLink (h : s.Held) {c : ClientId} {link : Link} (hlink : link.Held s.typing c) :
    (s.setLink c link).Held := by
  intro d other hother
  change Function.update s.links c (some link) d = some other at hother
  by_cases hd : d = c
  · subst hd
    rw [Function.update_self, Option.some.injEq] at hother
    exact hother ▸ hlink
  · rw [Function.update_of_ne hd] at hother
    exact h d other hother

end Coupled

/-- A writer moves while it is in its loop, and leaves it with the steps that end it. -/
theorem Writer.ending_step {x y : Writer} {a : WriterStep} (hstep : x.step a = some y) :
    x.phase ≠ .ended ∧ (a.ending.isSome = true ↔ y.phase = .ended) ∧
      (a = .queueCloses → x.phase = .receiving ∧ y.received = x.received ∧ y.written = x.written) := by
  unfold Writer.step at hstep
  split at hstep
  case h_1 f hphase =>
      cases hstep
      simp [hphase, WriterStep.ending]
  case h_2 n rest hphase =>
      rw [Option.ite_none_right_eq_some, Option.some.injEq] at hstep
      obtain ⟨-, rfl⟩ := hstep
      refine ⟨by simp [hphase], ?_, by simp⟩
      simp only [WriterStep.ending]
      split <;> simp
  case h_3 hphase =>
      cases hstep
      simp [hphase, WriterStep.ending]
  case h_4 hphase =>
      cases hstep
      simp [hphase, WriterStep.ending]
  case h_5 hphase =>
      cases hstep
      simp [hphase, WriterStep.ending]
  case h_6 hphase =>
      cases hstep
      simp [hphase, WriterStep.ending]
  case h_7 => cases hstep

namespace Coupled

open World Event

variable {opts : ServerOpts} {json : Json} {s t : Coupled}

/-- A writer's step, taken apart. -/
theorem write_eq_some {c : ClientId} {a : WriterStep} (h : s.write (c, a) = some t) :
    ∃ link x, s.links c = some link ∧ s.may c link a = true ∧ link.writer.step a = some x ∧
      t = s.setLink c { link with writer := x, left := a.ending.or link.left } := by
  unfold write at h
  rw [Option.bind_eq_some_iff] at h
  obtain ⟨link, hlink, h⟩ := h
  rw [Option.ite_none_right_eq_some, Option.map_eq_some_iff] at h
  obtain ⟨hmay, x, hx, rfl⟩ := h
  exact ⟨link, x, hlink, hmay, hx, rfl⟩

/-- A writer's move keeps what is known, if the queue of one that ends is in step. -/
theorem held_write {c : ClientId} {a : WriterStep} (h : s.Held) (hstep : s.write (c, a) = some t)
    (hsync : a = .queueCloses → ∀ link, s.links c = some link →
      link.InStep s.world c ∧ InOrder c s.world) : t.Held := by
  obtain ⟨link, x, hlink, hmay, hx, rfl⟩ := write_eq_some hstep
  have hheld := h c link hlink
  obtain ⟨hlive, hending, hclose⟩ := Writer.ending_step hx
  have hleft : link.left = none := by
    rw [← Option.not_isSome_iff_eq_none, hheld.left]
    exact hlive
  have hnow : a.ending.or link.left = a.ending := by rw [hleft, Option.or_none]
  apply h.setLink
  rw [hnow]
  refine ⟨hheld.serves, hheld.issued, Writer.sending_step hheld.sending hx, hending, ?_, ?_, hheld.readerOver,
    hheld.closed⟩
  · intro hdrained
    cases a with
    | queueCloses =>
        obtain ⟨hphase, hreceived, hwritten⟩ := hclose rfl
        obtain ⟨hstep, horder⟩ := hsync rfl link hlink
        simp only [may, Bool.and_eq_true, List.isEmpty_iff, Bool.not_eq_true'] at hmay
        obtain ⟨hempty, hsender⟩ := hmay
        have hsending := hheld.sending
        unfold Writer.Sending at hsending
        rw [hphase] at hsending
        have hall : link.writer.received = frames c s.world.history := by
          have hsplit := taken_append_queued horder
          rwa [hempty, List.append_nil, ← hstep.received] at hsplit
        simp only
        rw [hwritten, hreceived]
        refine ⟨hsending, ?_⟩
        rw [hall]
        exact abandoned_of_hasSender hsender hheld.issued
    | recv f | accept n | writeFails | abort => cases hdrained
  · intro haborted
    cases a with
    | abort => exact beq_iff_eq.mp hmay
    | recv f | accept n | writeFails | queueCloses => cases haborted

/-- Writers that move during an arm. -/
theorem held_writers {during : List (ClientId × WriterStep)} (h : s.Held)
    (hopen : during.all (fun m => m.2 != .queueCloses) = true)
    (hrun : writers.run s during = some t) : t.Held := by
  induction during generalizing s with
  | nil =>
      rw [Machine.run_nil, Option.some.injEq] at hrun
      exact hrun ▸ h
  | cons m during ih =>
      obtain ⟨u, hwrite, hrest⟩ := writers.run_cons_eq_some.mp hrun
      rw [List.all_cons, Bool.and_eq_true, bne_iff_ne] at hopen
      exact ih (held_write h hwrite fun hclose => absurd hclose hopen.1) hopen.2 hrest

/-- Writers that move leave the actor and the readers alone. -/
theorem typing_writers {during : List (ClientId × WriterStep)}
    (hrun : writers.run s during = some t) : t.typing = s.typing := by
  refine writers.run_induct (motive := fun x => x.typing = s.typing) ?_ rfl hrun
  intro x m y hx hwrite
  obtain ⟨link, next, -, -, -, rfl⟩ := write_eq_some hwrite
  exact hx

/-- What a step does to the actor and the readers. -/
theorem typing_step {label : CoupledStep} (hstep : s.move opts json label = some t) :
    t.typing = s.typing ∨ ∃ own, s.typing.step opts json own = some t.typing ∧
      ∀ move, own = .world move → ∃ during, label = .world move during := by
  cases label with
  | reader own =>
      simp only [move, Option.ite_none_right_eq_some, Option.map_eq_some_iff] at hstep
      obtain ⟨hreaders, x, hx, rfl⟩ := hstep
      refine Or.inr ⟨own, hx, ?_⟩
      rintro move rfl
      cases hreaders
  | deliver k =>
      simp only [move, Option.bind_eq_some_iff, Option.map_eq_some_iff] at hstep
      obtain ⟨conn, -, x, hx, rfl⟩ := hstep
      refine Or.inr ⟨.deliver k, hx, ?_⟩
      rintro move ⟨⟩
  | world move during =>
      simp only [Coupled.move, Option.ite_none_right_eq_some, Option.bind_eq_some_iff] at hstep
      obtain ⟨-, x, hx, hrun⟩ := hstep
      refine Or.inr ⟨.world move, ?_, ?_⟩
      · rw [typing_writers hrun]
        exact hx
      · rintro move' ⟨⟩
        exact ⟨during, rfl⟩
  | writer c a =>
      obtain ⟨link, x, -, -, -, rfl⟩ := write_eq_some hstep
      exact Or.inl rfl
  | joinWriter c | joinReader c =>
      simp only [move, Option.bind_eq_some_iff, Option.ite_none_right_eq_some,
        Option.some.injEq] at hstep
      obtain ⟨link, -, -, rfl⟩ := hstep
      exact Or.inl rfl
  | cancelReader c =>
      simp only [move, Option.bind_eq_some_iff, Option.ite_none_right_eq_some,
        Option.map_eq_some_iff] at hstep
      obtain ⟨link, -, -, x, hx, rfl⟩ := hstep
      refine Or.inr ⟨.abort link.conn, hx, ?_⟩
      rintro move ⟨⟩

/-- Every move keeps what is known of the links. -/
theorem held_move {label : CoupledStep} (h : s.Sound) (hstep : s.move opts json label = some t) :
    t.Held := by
  have htyping : ∀ {x : Typing} {own : TypingStep}, s.typing.step opts json own = some x →
      Held { s with typing := x } := by
    intro x own hx c link hlink
    exact held_typing hx (h.held c link hlink)
  cases label with
  | reader own =>
      simp only [move, Option.ite_none_right_eq_some, Option.map_eq_some_iff] at hstep
      obtain ⟨-, x, hx, rfl⟩ := hstep
      exact htyping hx
  | deliver k =>
      simp only [move, Option.bind_eq_some_iff, Option.map_eq_some_iff] at hstep
      obtain ⟨conn, hconn, x, hx, rfl⟩ := hstep
      cases hnew : conn.phase.unattached with
      | false => exact htyping hx
      | true =>
          obtain ⟨hserves, hnext⟩ := Typing.serves_attach hx hconn hnew
          refine Held.setLink (s := { s with typing := x }) (htyping hx) ?_
          refine ⟨hserves, ?_, ?_, ?_, ?_, ?_, ?_, ?_⟩
          · rw [hnext]
            exact Nat.lt_succ_self _
          · unfold Writer.Sending Link.new Writer.new
            rfl
          · simp [Link.new, Writer.new]
          · intro hdrained
            cases hdrained
          · intro haborted
            cases haborted
          · intro haborted
            cases haborted
          · intro haborted
            cases haborted
  | world move during =>
      simp only [Coupled.move, Option.ite_none_right_eq_some, Option.bind_eq_some_iff] at hstep
      obtain ⟨hopen, x, hx, hrun⟩ := hstep
      exact held_writers (htyping hx) hopen hrun
  | writer c a =>
      exact held_write h.held hstep fun _ link hlink => ⟨h.inStep c link hlink, h.order c⟩
  | joinWriter c =>
      simp only [move, Option.bind_eq_some_iff, Option.ite_none_right_eq_some,
        Option.some.injEq] at hstep
      obtain ⟨link, hlink, ⟨hselecting, hclosed⟩, rfl⟩ := hstep
      have hheld := h.held c link hlink
      apply h.held.setLink
      refine ⟨hheld.serves, hheld.issued, hheld.sending, hheld.left, hheld.drained, ?_, ?_,
        fun _ => hclosed⟩
      · intro haborted
        have hcoupling := hheld.aborted haborted
        rw [hselecting] at hcoupling
        cases hcoupling
      · intro haborted
        cases haborted
  | joinReader c =>
      simp only [move, Option.bind_eq_some_iff, Option.ite_none_right_eq_some,
        Option.some.injEq] at hstep
      obtain ⟨link, hlink, ⟨hselecting, hover⟩, rfl⟩ := hstep
      have hheld := h.held c link hlink
      apply h.held.setLink
      refine ⟨hheld.serves, hheld.issued, hheld.sending, hheld.left, hheld.drained, fun _ => rfl,
        fun _ => hover, ?_⟩
      intro haborted
      cases haborted
  | cancelReader c =>
      simp only [move, Option.bind_eq_some_iff, Option.ite_none_right_eq_some,
        Option.map_eq_some_iff] at hstep
      obtain ⟨link, -, -, x, hx, rfl⟩ := hstep
      exact htyping hx

/-- What the actor's moves keep, every step keeps. -/
theorem kept_step {I : World → Prop} (hI : Kept opts I) {label : CoupledStep} (hs : I s.world)
    (hstep : s.move opts json label = some t) : I t.world := by
  rcases typing_step hstep with hsame | ⟨own, hown, -⟩
  · rw [Coupled.world, hsame]
    exact hs
  · rcases Typing.world_step hown with hsame | ⟨move, hmove, -⟩
    · rw [Coupled.world, hsame]
      exact hs
    · exact hI.step hs hmove

/-- Every step keeps the links sound. -/
theorem sound_step {label : CoupledStep} (h : s.Sound) (hstep : s.step opts json label = some t) :
    t.Sound := by
  obtain ⟨hmove, hsync⟩ := Option.filter_eq_some_iff.mp hstep
  have hheld := held_move h hmove
  exact ⟨hheld, (inStep_iff hheld).mp hsync, fun c => kept_step (kept_inOrder opts c) (h.order c) hmove⟩

/-- At the start there is no link. -/
theorem sound_start (session : Session) : (start session).Sound := by
  refine ⟨?_, ?_, fun c => List.nil_suffix⟩
  · intro c link hlink
    cases hlink
  · intro c link hlink
    cases hlink

/-! ## How a connection ends -/

/-- A step of the whole keeps the frames of the actor within the cap. -/
theorem slim_move {label : CoupledStep} (hs : Slim s.world)
    (htyped : waitsTyped label.waits = true) (hstep : s.move opts json label = some t) :
    Slim t.world := by
  rcases typing_step hstep with hsame | ⟨own, hown, hworld⟩
  · rw [Coupled.world, hsame]
    exact hs
  · rcases Typing.world_step hown with hsame | ⟨move, hmove, hwaits⟩
    · rw [Coupled.world, hsame]
      exact hs
    · refine slim_step opts hs ?_ hmove
      rcases hwaits with hnone | hlabel
      · rw [hnone]
        rfl
      · obtain ⟨during, rfl⟩ := hworld move hlabel
        exact htyped

/-- What is known after a run: of the links, of the frames offered, and of what was
enqueued. -/
theorem known_of_run {labels : List CoupledStep} (hs : s.Sound ∧ Slim s.world ∧ ∀ c, Feed opts c s.world)
    (htyped : ∀ label ∈ labels, waitsTyped label.waits = true)
    (hrun : (machine opts json).run s labels = some t) :
    t.Sound ∧ Slim t.world ∧ ∀ c, Feed opts c t.world := by
  induction labels generalizing s with
  | nil =>
      rw [Machine.run_nil, Option.some.injEq] at hrun
      exact hrun ▸ hs
  | cons label labels ih =>
      obtain ⟨u, hstep, hrest⟩ := (machine opts json).run_cons_eq_some.mp hrun
      obtain ⟨hsound, hslim, hfeed⟩ := hs
      have hmove := (Option.filter_eq_some_iff.mp hstep).1
      refine ih ⟨sound_step hsound hstep, slim_move hslim (htyped label List.mem_cons_self) hmove, ?_⟩
        (fun l hl => htyped l (List.mem_cons_of_mem label hl)) hrest
      exact fun c => kept_step (kept_feed opts c) (hfeed c) hmove

/-- A client attaches and sees some output; another one takes over while the first one's
writer is still busy.  That writer sends the rest, finds its queue at its end, and its
reader is aborted. -/
def handedOver : List CoupledStep :=
  [.world .asyncFdOk [], .reader (.accept 0), .reader (.call 0 true),
    .reader (.read 0 (.ok Typing.attachAndType)), .reader (.call 0 true), .deliver 0,
    .world (.command .none) [],
    .world (.readable { Answers.none with reads := [.ok [104, 105]] }) [],
    .world (.writer (.pop 0)) [(0, .recv (statusFrame ⟨false, none⟩))],
    .reader (.accept 1), .reader (.call 1 true), .reader (.read 1 (.ok Typing.attachAndType)),
    .reader (.call 1 true), .deliver 1,
    .world (.command { Answers.none with moves := [[.pop 0]] })
      [(0, .accept 38), (0, .recv ⟨.data, [104, 105]⟩), (0, .accept 4)],
    .writer 0 (.accept 3), .writer 0 .queueCloses, .world (.writer (.close 0)) [], .joinWriter 0,
    .cancelReader 0]

end Coupled

end JftermMuxer.Daemon
