import JftermMuxer.Daemon.Decoder
import JftermMuxer.Daemon.Exit
import JftermMuxer.Daemon.Wire

/-!
# From the out-queue to the client

{lit}`writer_task` of {lit}`jftermd/src/server.rs` takes the frames of one client's
out-queue one after the other and writes each of them whole before the next, unless the
socket fails or the connection is torn down.  The client decodes the bytes as they
arrive, in whatever segments.

Main results:

- Theorem {lit}`World.taken_append_queued`: an out-queue loses frames at its head only,
  so what a writer has taken is what was enqueued up to what still waits.
- Theorem {lit}`Writer.sending_run`: what a writer has written is a beginning of the
  encodings of what it has taken.
- Theorem {lit}`World.client_receives`: in every run the client decodes a beginning of
  the frames enqueued to it, and a beginning of the output that is due to it if its queue
  had room for the attach handshake.
-/

namespace JftermMuxer.Daemon

open JftermMuxer.Foundation

/-! ## The writer -/

/-- Where {lit}`writer_task` is. -/
inductive WriterPhase where
  | receiving
  /-- In {lit}`write_all`, with the bytes that the socket has not accepted yet. -/
  | writing (rest : List UInt8)
  /-- The write half is shut down or dropped. -/
  | ended
deriving DecidableEq, Repr

/-- The writer of one connection: the frames it has received from its queue and the
bytes that the socket has accepted. -/
structure Writer where
  received : List Frame
  written : List UInt8
  phase : WriterPhase
deriving DecidableEq, Repr

inductive WriterStep where
  | recv (f : Frame)
  /-- The socket accepts some bytes. -/
  | accept (n : Nat)
  | writeFails
  /-- The queue is empty and its sender is gone. -/
  | queueCloses
  /-- The reader has ended, and {lit}`handle_session` aborts the writer. -/
  | abort
deriving DecidableEq, Repr

namespace Writer

def new : Writer := ⟨[], [], .receiving⟩

def step (x : Writer) (a : WriterStep) : Option Writer :=
  match a, x.phase with
  | .recv f, .receiving =>
      some { x with received := x.received ++ [f], phase := .writing f.encode }
  | .accept n, .writing rest =>
      if 0 < n ∧ n ≤ rest.length then
        some { x with
          written := x.written ++ rest.take n
          phase := if n = rest.length then .receiving else .writing (rest.drop n) }
      else none
  | .writeFails, .writing _ => some { x with phase := .ended }
  | .queueCloses, .receiving => some { x with phase := .ended }
  | .abort, .receiving | .abort, .writing _ => some { x with phase := .ended }
  | _, _ => none

/-- The writer as a machine. -/
def machine : Machine Writer WriterStep where
  step := step

/-- The bytes that the socket has accepted are those of the frames received, up to what
is still to be written. -/
def Sending (x : Writer) : Prop :=
  match x.phase with
  | .receiving => x.written = framing.wire x.received
  | .writing rest => x.written ++ rest = framing.wire x.received
  | .ended => x.written <+: framing.wire x.received

/-- Whatever has happened, only bytes of received frames are written. -/
theorem Sending.written {x : Writer} (h : x.Sending) : x.written <+: framing.wire x.received := by
  unfold Sending at h
  cases hphase : x.phase with
  | receiving =>
      rw [hphase] at h
      exact h ▸ List.prefix_refl _
  | writing rest =>
      rw [hphase] at h
      exact h ▸ List.prefix_append _ _
  | ended =>
      rw [hphase] at h
      exact h

/-- A writer's step keeps what it has written a beginning. -/
theorem sending_step {x y : Writer} {a : WriterStep} (h : x.Sending) (hstep : x.step a = some y) :
    y.Sending := by
  have hwritten := h.written
  unfold step at hstep
  unfold Sending at h
  split at hstep
  case h_1 f hphase =>
      rw [hphase] at h
      cases hstep
      change x.written ++ f.encode = framing.wire (x.received ++ [f])
      rw [h, Framing.wire, Framing.wire, List.map_append, List.flatten_append, List.map_singleton,
        List.flatten_singleton]
      rfl
  case h_2 n rest hphase =>
      rw [hphase] at h
      rw [Option.ite_none_right_eq_some, Option.some.injEq] at hstep
      obtain ⟨⟨-, hn⟩, rfl⟩ := hstep
      by_cases hwhole : n = rest.length
      · simp only [Sending, hwhole, List.take_length]
        exact h
      · simp only [Sending, if_neg hwhole, List.append_assoc, List.take_append_drop]
        exact h
  case h_3 =>
      cases hstep
      exact hwritten
  case h_4 =>
      cases hstep
      exact hwritten
  case h_5 =>
      cases hstep
      exact hwritten
  case h_6 =>
      cases hstep
      exact hwritten
  case h_7 => cases hstep

/-- What a writer has written is a beginning of what it has taken. -/
theorem sending_run {steps : List WriterStep} {x : Writer} (hrun : machine.run new steps = some x) :
    x.Sending := by
  have hnew : new.Sending := by
    unfold Sending new
    rfl
  exact machine.run_induct (motive := Sending) (fun _ _ _ h hstep => sending_step h hstep) hnew hrun

end Writer

/-! ## What the client decodes -/

/-- The terminal output that a list of frames carries. -/
def output (fs : List Frame) : List UInt8 := (fs.map Event.carried).flatten

/-- Fewer frames carry less output. -/
theorem output_prefix {fs gs : List Frame} (h : fs <+: gs) : output fs <+: output gs := by
  obtain ⟨rest, rfl⟩ := h
  rw [output, output, List.map_append, List.flatten_append]
  exact List.prefix_append _ _

/-- A beginning of an encoded list of frames decodes to a beginning of the list. -/
theorem parse_of_beginning {fs : List Frame} (hvalid : ∀ f ∈ fs, f.payload.length ≤ maxFrameLen)
    {bytes : List UInt8} (h : bytes <+: framing.wire fs) :
    (parse bytes).error = none ∧ (parse bytes).frames <+: fs ∧
      (bytes = framing.wire fs → (parse bytes).frames = fs) := by
  induction fs generalizing bytes with
  | nil =>
      obtain rfl : bytes = [] := List.prefix_nil.mp h
      rw [parse_of_more rfl]
      exact ⟨rfl, List.prefix_refl _, fun _ => rfl⟩
  | cons f fs ih =>
      have hf := hvalid f List.mem_cons_self
      have hrest : ∀ g ∈ fs, g.payload.length ≤ maxFrameLen :=
        fun g hg => hvalid g (List.mem_cons_of_mem f hg)
      obtain ⟨future, hsplit⟩ := h
      rw [Framing.wire_cons] at hsplit
      rcases List.append_eq_append_iff.mp hsplit with
        ⟨missing, hencode, -⟩ | ⟨rest, rfl, hfuture⟩
      · by_cases hmissing : missing = []
        · -- the first frame is there, and nothing of the second
          subst hmissing
          have hframe : decodeFrame bytes = .frame f [] := by
            have hdecode := decodeFrame_encode hf []
            change f.encode = bytes ++ [] at hencode
            rwa [List.append_nil, hencode, List.append_nil] at hdecode
          obtain ⟨herror, hprefix, hall⟩ := ih hrest List.nil_prefix
          rw [parse_of_frame hframe]
          refine ⟨herror, (List.prefix_cons_inj f).mpr hprefix, ?_⟩
          intro hbytes
          have hnil : framing.wire fs = [] := by
            rw [hbytes, Framing.wire_cons, List.append_assoc] at hencode
            simpa using hencode
          rw [hall hnil.symm]
        · rw [parse_of_more (decodeFrame_proper hf hencode hmissing)]
          refine ⟨rfl, List.nil_prefix, ?_⟩
          intro hbytes
          have hlength := congrArg List.length hencode
          rw [hbytes, Framing.wire_cons, List.length_append, List.length_append] at hlength
          have hpos := List.length_pos_iff.mpr hmissing
          omega
      · have hframe : decodeFrame (framing.encode f ++ rest) = .frame f rest :=
          decodeFrame_encode hf rest
        obtain ⟨herror, hprefix, hall⟩ := ih hrest ⟨future, hfuture.symm⟩
        rw [parse_of_frame hframe]
        refine ⟨herror, (List.prefix_cons_inj f).mpr hprefix, ?_⟩
        intro hbytes
        rw [hall (List.append_cancel_left hbytes)]

/-! ## Out-queues are first in, first out -/

namespace Event

/-- The data enqueued to a client is the output carried by the frames enqueued to it. -/
theorem output_frames (c : ClientId) (h : List Event) : output (frames c h) = enqueued c h := by
  induction h with
  | nil => rfl
  | cons e h ih =>
      cases e with
      | sent d f stage ok =>
          cases ok with
          | true =>
              by_cases hd : d = c
              · subst hd
                rw [frames_sent_ok, enqueued_sent, output, List.map_append, List.flatten_append,
                  List.map_singleton, List.flatten_singleton]
                exact congrArg (· ++ carried f) ih
              · rw [frames_sent_other hd]
                simp only [enqueued, if_neg hd]
                exact ih
          | false => exact ih
      | delivered _ | received _ | attached _ _ | drained _ _ | answered _ | signalled _
      | elapsed _ => exact ih

/-- An inner event enqueues nothing. -/
theorem frames_inner {w : World} {e : Event} (he : World.Inner w e) (c : ClientId) (h : List Event) :
    frames c (e :: h) = frames c h := by
  cases e with
  | answered info => rfl
  | signalled sig => rfl
  | elapsed ms => rfl
  | delivered _ | received _ | attached _ _ | drained _ _ | sent _ _ _ _ => exact absurd he id

end Event

namespace World

open Event

variable {opts : ServerOpts} {c : ClientId} {w : World}

/-- What waits in the client's out-queue are the last frames enqueued to it. -/
def InOrder (c : ClientId) (w : World) : Prop :=
  (w.outQueues c).queued <:+ frames c w.history

/-- Writers take frames from the head. -/
theorem queued_writerMove (w : World) (m : WriterMove) (c : ClientId) :
    ((w.writerMove m).outQueues c).queued <:+ (w.outQueues c).queued := by
  cases m with
  | pop d =>
      by_cases hc : c = d
      · subst hc
        simp only [writerMove, setQueue, Function.update_self]
        exact List.tail_suffix _
      · simp only [writerMove, setQueue, Function.update_of_ne hc]
        exact List.suffix_refl _
  | close d =>
      by_cases hc : c = d
      · subst hc
        simp only [writerMove, setQueue, Function.update_self]
        exact List.suffix_refl _
      · simp only [writerMove, setQueue, Function.update_of_ne hc]
        exact List.suffix_refl _

/-- A writer takes the head of its queue. -/
theorem InOrder.writerMove (hw : InOrder c w) (m : WriterMove) : InOrder c (w.writerMove m) := by
  have hhistory : (w.writerMove m).history = w.history := by rw [writerMove_eq]
  unfold InOrder
  rw [hhistory]
  exact (queued_writerMove w m c).trans hw

/-- Writers take the heads of their queues. -/
theorem InOrder.foldl_writerMove (ms : List WriterMove) {w : World} (hw : InOrder c w) :
    InOrder c (ms.foldl World.writerMove w) := by
  induction ms generalizing w with
  | nil => exact hw
  | cons m ms ih => exact ih (hw.writerMove m)

/-- An offered frame goes to the end of its queue or nowhere. -/
theorem InOrder.trySend (hw : InOrder c w) (d : ClientId) (f : Frame) (stage : Stage) :
    InOrder c (w.trySend opts d f stage).2 := by
  have hinter : InOrder c w.interleave :=
    InOrder.foldl_writerMove (w.moves.headD []) (w := { w with moves := w.moves.tail }) hw
  unfold World.trySend
  simp only
  split
  · by_cases hd : d = c
    · subst hd
      exact hinter
    · unfold InOrder
      simp only [record, frames_sent_other hd]
      exact hinter
  · unfold InOrder at hinter ⊢
    by_cases hd : d = c
    · subst hd
      simp only [record, setQueue, Function.update_self, frames_sent_ok]
      exact List.suffix_append_self_iff.mpr hinter
    · simp only [record, setQueue, Function.update_of_ne (Ne.symm hd), frames_sent_other hd]
      exact hinter

/-- An offer goes to the end of a queue. -/
theorem InOrder.offer (hw : InOrder c w) (d : ClientId) (f : Frame) :
    InOrder c (w.offer opts d f) :=
  hw.trySend d f .handshake

/-- A live push goes to the end of a queue. -/
theorem InOrder.pushOrDrop (hw : InOrder c w) (f : Frame) : InOrder c (w.pushOrDrop opts f) := by
  unfold World.pushOrDrop
  cases w.client with
  | none => exact hw
  | some tx =>
      have hsent : InOrder c (w.trySend opts tx f .live).2 := hw.trySend tx f .live
      simp only
      rcases hresult : w.trySend opts tx f .live with ⟨_ | _, u⟩
      · rw [hresult] at hsent
        exact hsent
      · rw [hresult] at hsent
        exact hsent

/-- Pushes one after the other go to the end of a queue. -/
theorem InOrder.foldl {f : World → Frame → World} (hf : ∀ w x, InOrder c w → InOrder c (f w x))
    (xs : List Frame) {w : World} (hw : InOrder c w) : InOrder c (xs.foldl f w) := by
  induction xs generalizing w with
  | nil => exact hw
  | cons x xs ih => exact ih (hf w x hw)

/-- A handshake goes to the end of a queue. -/
theorem InOrder.handshake (hw : InOrder c w) (req : AttachRequest) :
    InOrder c (w.handshake opts req) := by
  have hframes : InOrder c ((frameData (w.session.replayForAttach req.wantChunks).data).foldl
      (World.offer opts req.outTx)
      (w.record (.attached req.outTx (w.session.replayForAttach req.wantChunks).data))) :=
    InOrder.foldl (fun _ f h => h.offer req.outTx f) _ hw
  have hstatus : ∀ f, InOrder c (World.offer opts req.outTx _ f) :=
    fun f => hframes.offer req.outTx f
  unfold World.handshake World.offerExit
  simp only
  split
  · exact hstatus _
  · exact (hstatus _).offer req.outTx _

/-- The farewell of a CLOSE goes to the end of a queue. -/
theorem InOrder.farewell (hw : InOrder c w) (code : Int) : InOrder c (w.farewell opts code) := by
  unfold World.farewell
  cases w.client with
  | none => exact hw
  | some tx => exact InOrder.trySend (w := { w with client := none }) hw tx _ .live

/-- Every move of the actor keeps the order of the out-queues. -/
theorem kept_inOrder (opts : ServerOpts) (c : ClientId) : Kept opts (InOrder c) where
  inner {w v} hw hmove := by
    unfold InOrder
    rw [hmove.outQueues, hmove.history]
    exact hw
  note {w e} hw he := by
    unfold InOrder
    simp only [record, frames_inner he]
    exact hw
  writer {w m} hw := hw.writerMove m
  send {w cmd v} hw hsend := by
    obtain ⟨next, rfl, -⟩ := send_eq_some hsend
    exact hw
  receive hw _ _ _ _ := hw
  input hw _ _ := hw
  attach {w req rest v} hw _ _ hmove := by
    apply InOrder.handshake
    unfold InOrder
    rw [hmove.outQueues, hmove.history]
    exact hw
  forward {w} data exit hw _ :=
    InOrder.foldl (fun _ f h => h.pushOrDrop f) (frameData data)
      (w := w.record (.drained data exit)) hw
  push hw _ _ := hw.pushOrDrop _
  farewell code hw _ := hw.farewell code
  leave hw _ := hw
  remove hw _ := hw
  finish hw _ := hw

/-- The frames that the client's writer has taken so far. -/
def taken (w : World) (c : ClientId) : List Frame :=
  (frames c w.history).take ((frames c w.history).length - (w.outQueues c).queued.length)

/-- What was enqueued is what was taken and what still waits. -/
theorem taken_append_queued (hw : InOrder c w) :
    w.taken c ++ (w.outQueues c).queued = frames c w.history := by
  obtain ⟨before, hbefore⟩ := hw
  have hlength : (frames c w.history).length - (w.outQueues c).queued.length = before.length := by
    rw [← hbefore, List.length_append]
    omega
  rw [taken, hlength, ← hbefore, List.take_left]

/-! ## From the actor to the client -/

/-- With exit statuses of their type, all frames offered along a run are within the cap. -/
theorem slim_run {labels : List Label} {v : World} (hw : Slim w)
    (htyped : ∀ label ∈ labels, waitsTyped label.waits = true)
    (hrun : (machine opts).run w labels = some v) : Slim v := by
  induction labels generalizing w with
  | nil =>
      rw [Machine.run_nil, Option.some.injEq] at hrun
      exact hrun ▸ hw
  | cons label labels ih =>
      obtain ⟨u, hstep, hrest⟩ := (machine opts).run_cons_eq_some.mp hrun
      have hu := slim_step opts hw (htyped label List.mem_cons_self) hstep
      exact ih hu (fun l hl => htyped l (List.mem_cons_of_mem label hl)) hrest

/-- All frames enqueued to a client are within the cap. -/
theorem Slim.frames (hw : Slim w) (c : ClientId) :
    ∀ f ∈ frames c w.history, f.payload.length ≤ maxFrameLen := by
  intro f hf
  obtain ⟨stage, hsent⟩ := mem_of_mem_frames hf
  exact hw.sent _ hsent

/-- Once the queue is empty and all of it has arrived, the client has decoded all frames. -/
theorem decoded_of_empty {x : Writer} {segments : List (List UInt8)} (hslim : Slim w)
    (horder : InOrder c w) (hsending : x.Sending) (hpopped : x.received = w.taken c)
    (hphase : x.phase = .receiving) (hempty : (w.outQueues c).queued = [])
    (harrived : segments.flatten = x.written) :
    (feedSegments segments).frames = frames c w.history := by
  have htaken : w.taken c = frames c w.history := by
    have hsplit := taken_append_queued horder
    rwa [hempty, List.append_nil] at hsplit
  unfold Writer.Sending at hsending
  rw [hphase] at hsending
  have hwire : segments.flatten = framing.wire (frames c w.history) := by
    rw [harrived, hsending, hpopped, htaken]
  rw [(agrees_feedSegments segments).frames]
  exact (parse_of_beginning (hslim.frames c) (hwire ▸ List.prefix_refl _)).2.2 hwire

/-- In every run of the actor, for every client and every run of the client's writer that
has taken the frames popped from the queue: from whatever has arrived of the bytes written,
in whatever segments, the client decodes without error a beginning of the frames enqueued to
it, and if its queue had room for its attach handshake, their output is a beginning of what
is due to it.  Once the queue is empty, everything written has arrived and no offer has
failed, the client has decoded all of them, and all that is due. -/
theorem client_receives (opts : ServerOpts) (session : Session)
    (hlive : session.lifecycle = .live) (labels : List Label)
    (htyped : ∀ label ∈ labels, waitsTyped label.waits = true) (w : World)
    (hrun : (machine opts).run (start session) labels = some w) (c : ClientId)
    (steps : List WriterStep) (x : Writer)
    (hwriter : Writer.machine.run Writer.new steps = some x) (hpopped : x.received = w.taken c)
    (segments : List (List UInt8)) (harrived : segments.flatten <+: x.written) :
    (feedSegments segments).error = none ∧
      (feedSegments segments).frames <+: frames c w.history ∧
      (Roomy opts c w.history → output (feedSegments segments).frames <+: owed c w.history) ∧
      (x.phase = .receiving → (w.outQueues c).queued = [] → ¬ Failed c w.history →
        segments.flatten = x.written →
          (feedSegments segments).frames = frames c w.history ∧
            output (feedSegments segments).frames = owed c w.history) := by
  have hfeed : Feed opts c w := (kept_feed opts c).run (feed_start opts c session) hrun
  have horder : InOrder c w := (kept_inOrder opts c).run (List.nil_suffix) hrun
  have hslim : Slim w := slim_run (slim_start hlive) htyped hrun
  have hsending : x.Sending := Writer.sending_run hwriter
  have hsplit := taken_append_queued horder
  have htaken : w.taken c <+: frames c w.history := ⟨_, hsplit⟩
  have hvalid : ∀ f ∈ w.taken c, f.payload.length ≤ maxFrameLen :=
    fun f hf => hslim.frames c f (htaken.subset hf)
  have hwire : segments.flatten <+: framing.wire (w.taken c) :=
    hpopped ▸ harrived.trans hsending.written
  obtain ⟨herror, hprefix, -⟩ := parse_of_beginning hvalid hwire
  have hagrees := agrees_feedSegments segments
  rw [hagrees.error, hagrees.frames]
  have hframes := hprefix.trans htaken
  have houtput := output_prefix hframes
  rw [output_frames] at houtput
  refine ⟨herror, hframes, fun hroomy => houtput.trans (hfeed.ordered hroomy), ?_⟩
  intro hphase hempty hfail harrivedAll
  have hdecoded := decoded_of_empty hslim horder hsending hpopped hphase hempty harrivedAll
  have hwhole := hfeed.whole hfail
  rw [List.append_nil] at hwhole
  rw [← hagrees.frames, hdecoded, output_frames]
  exact ⟨rfl, hwhole⟩

/-- The takeover, and then the second client's writer takes its frames. -/
def takeoverPopped : List Label := takeover ++ List.replicate 3 (.writer (.pop 1))

/-- The second client's writer; the socket does not accept the first frame at once. -/
def takeoverSends : List WriterStep :=
  [.recv ⟨.data, [104, 105]⟩, .accept 3, .accept 4, .recv (statusFrame ⟨false, none⟩), .accept 38,
    .recv ⟨.data, [121, 111]⟩, .accept 7]

/-- What it writes arrives in two segments, the first of them cut inside a header. -/
def takeoverSegments : List (List UInt8) :=
  let bytes := framing.wire [⟨.data, [104, 105]⟩, statusFrame ⟨false, none⟩, ⟨.data, [121, 111]⟩]
  [bytes.take 9, bytes.drop 9]

/-- The second client decodes all its frames. -/
theorem client_receives_takeover :
    ∃ w x, (machine .default).run (start shell) takeoverPopped = some w ∧
      Writer.machine.run Writer.new takeoverSends = some x ∧
      (feedSegments takeoverSegments).error = none ∧
      (feedSegments takeoverSegments).frames = frames 1 w.history ∧
      output (feedSegments takeoverSegments).frames = owed 1 w.history := by
  have hsome : ((machine .default).run (start shell) takeoverPopped).isSome = true := by
    decide +kernel
  have hsends : (Writer.machine.run Writer.new takeoverSends).isSome = true := by decide +kernel
  have hqueue : ∀ w ∈ (machine .default).run (start shell) takeoverPopped,
      (w.outQueues 1).queued = [] := by
    decide +kernel
  have hwritten : ∀ x ∈ Writer.machine.run Writer.new takeoverSends,
      x.phase = .receiving ∧ takeoverSegments.flatten = x.written := by
    decide +kernel
  have hpopped : ∀ w ∈ (machine .default).run (start shell) takeoverPopped,
      ∀ x ∈ Writer.machine.run Writer.new takeoverSends, x.received = w.taken 1 := by
    decide +kernel
  have hnone : ∀ w ∈ (machine .default).run (start shell) takeoverPopped,
      w.history.any Event.refused = false := by
    decide +kernel
  have htyped : ∀ label ∈ takeoverPopped, waitsTyped label.waits = true := by decide +kernel
  obtain ⟨w, hw⟩ := Option.isSome_iff_exists.mp hsome
  obtain ⟨x, hx⟩ := Option.isSome_iff_exists.mp hsends
  have hfail : ¬ Failed 1 w.history :=
    fun ⟨f, stage, hmem⟩ => not_mem_of_refused (hnone w hw) 1 f stage hmem
  obtain ⟨hphase, hall⟩ := hwritten x hx
  obtain ⟨herror, -, -, hdone⟩ := client_receives .default shell rfl takeoverPopped htyped w hw 1
    takeoverSends x hx (hpopped w hw x hx) takeoverSegments (hall ▸ List.prefix_refl _)
  exact ⟨w, x, hw, hx, herror, hdone hphase (hqueue w hw) hfail hall⟩

end World

end JftermMuxer.Daemon
