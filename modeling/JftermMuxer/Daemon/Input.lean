import JftermMuxer.Daemon.Stream

/-!
# What becomes of keystrokes

The input delivered to a session's actor, the part of it that the PTY accepted,
and the part that the daemon still holds.  The actor hands each payload to one
`write` call and forgets it, so the daemon holds nothing but what still waits in
the command queue.

Main results:

- Theorem {lit}`World.kept_inputBooked`: what was delivered is what `write` was
  called with, followed by what waits in the queue.
- Theorem {lit}`World.inputKept_iff`: no byte is discarded exactly when every
  `write` took its whole payload.
-/

namespace JftermMuxer.Daemon

open JftermMuxer.Foundation

/-- The concatenated payloads of the INPUT commands delivered to the actor. -/
def Event.deliveredInput : List Event → List UInt8
  | [] => []
  | .delivered (.input bytes) :: older => deliveredInput older ++ bytes
  | _ :: older => deliveredInput older

namespace Call

/-- The payload of a `write` call. -/
def offered : Call → List UInt8
  | .write data _ => data
  | .killpg _ _ | .waitpid _ _ => []

/-- The bytes that a `write` call took. -/
def taken : Call → List UInt8
  | .write data (.ok n) => data.take n
  | .write _ (.error _) => []
  | .killpg _ _ | .waitpid _ _ => []

/-- The answer to a `write` covers its whole payload. -/
def Whole : Call → Prop
  | .write data (.ok n) => data.length ≤ n
  | .write data (.error _) => data = []
  | .killpg _ _ | .waitpid _ _ => True

/-- A write takes no more than it was offered. -/
theorem length_taken_le (call : Call) : call.taken.length ≤ call.offered.length := by
  cases call with
  | write data answer =>
      cases answer with
      | ok n =>
          change (data.take n).length ≤ data.length
          rw [List.length_take]
          omega
      | error e => exact Nat.zero_le _
  | killpg pid sig => exact Nat.le_refl _
  | waitpid pid answer => exact Nat.le_refl _

/-- A whole write takes all it was offered. -/
theorem whole_iff (call : Call) : call.Whole ↔ call.taken = call.offered := by
  cases call with
  | write data answer =>
      cases answer with
      | ok n =>
          change data.length ≤ n ↔ data.take n = data
          constructor
          · exact List.take_of_length_le
          · intro h
            have hlen := congrArg List.length h
            rw [List.length_take] at hlen
            omega
      | error e => exact eq_comm
  | killpg pid sig => exact iff_of_true trivial rfl
  | waitpid pid answer => exact iff_of_true trivial rfl

end Call

/-- The payloads handed to the PTY, oldest first. -/
def offeredInput : List Call → List UInt8
  | [] => []
  | call :: older => offeredInput older ++ call.offered

/-- The bytes accepted by the PTY, oldest first. -/
def acceptedInput : List Call → List UInt8
  | [] => []
  | call :: older => acceptedInput older ++ call.taken

/-- The shell gets no more than it was offered. -/
theorem length_acceptedInput_le (calls : List Call) :
    (acceptedInput calls).length ≤ (offeredInput calls).length := by
  induction calls with
  | nil => exact Nat.le_refl _
  | cons call older ih =>
      rw [acceptedInput, offeredInput, List.length_append, List.length_append]
      exact Nat.add_le_add ih call.length_taken_le

/-- Everything that was handed over was accepted iff every call took its payload. -/
theorem acceptedInput_eq_iff (calls : List Call) :
    acceptedInput calls = offeredInput calls ↔ ∀ call ∈ calls, call.Whole := by
  induction calls with
  | nil => simp [acceptedInput, offeredInput]
  | cons call older ih =>
      rw [List.forall_mem_cons, ← ih, call.whole_iff, acceptedInput, offeredInput]
      constructor
      · intro h
        -- Neither part can be longer, so equal totals make both parts equal.
        have htotal := congrArg List.length h
        rw [List.length_append, List.length_append] at htotal
        have holder := length_acceptedInput_le older
        have hcall := call.length_taken_le
        obtain ⟨hleft, hright⟩ := List.append_inj h (by omega)
        exact ⟨hright, hleft⟩
      · rintro ⟨hright, hleft⟩
        rw [hleft, hright]

namespace World

open Event

variable {opts : ServerOpts}

/-- The payload of a command that waits in the queue. -/
def inputOf : SessionCommand → List UInt8
  | .input bytes => bytes
  | .resize _ _ | .close _ | .attach _ | .info => []

/-- The input that waits in the command queue. -/
def heldInput (queue : List SessionCommand) : List UInt8 := (queue.map inputOf).flatten

/-- What the daemon holds is gone with the receiver of the queue. -/
def held (w : World) : List UInt8 := if w.phase = .finished then [] else heldInput w.queue

/-- No keystroke is lost: what the PTY accepted, followed by what the daemon holds,
is what was delivered. -/
def InputKept (w : World) : Prop :=
  acceptedInput w.os.writeCalls ++ w.held = deliveredInput w.history

/-- While the session lives, everything delivered was handed to a `write` call or
waits in the queue. -/
def InputBooked (w : World) : Prop :=
  w.session.isDead = false →
    offeredInput w.os.writeCalls ++ heldInput w.queue = deliveredInput w.history

private theorem deliveredInput_sends {es h : List Event} (hes : ∀ e ∈ es, IsSent e) :
    deliveredInput (es ++ h) = deliveredInput h := by
  induction es with
  | nil => rfl
  | cons e es ih =>
      obtain ⟨c, f, stage, ok, rfl⟩ := hes e List.mem_cons_self
      exact ih fun e' he' => hes e' (List.mem_cons_of_mem _ he')

private theorem deliveredInput_inner {w : World} {e : Event} (he : Inner w e) (h : List Event) :
    deliveredInput (e :: h) = deliveredInput h := by
  cases e with
  | answered info => rfl
  | signalled sig => rfl
  | elapsed ms => rfl
  | delivered cmd => exact absurd he id
  | received cmd => exact absurd he id
  | attached c replay => exact absurd he id
  | drained data exit => exact absurd he id
  | sent c f stage ok => exact absurd he id

private theorem isDead_eq_false {w v : World}
    (hdead : w.session.isDead = true → v.session.isDead = true) (hlive : v.session.isDead = false) :
    w.session.isDead = false := by
  cases hw : w.session.isDead with
  | false => rfl
  | true =>
      rw [hdead hw] at hlive
      cases hlive

/-- Offers to clients keep the books. -/
theorem InputBooked.outward {w v : World} (hw : InputBooked w) (hv : Outward w v) :
    InputBooked v := by
  intro hlive
  obtain ⟨es, hes, hsent⟩ := hv.sends
  rw [hv.session] at hlive
  rw [hv.os, hv.queue, hes, deliveredInput_sends hsent]
  exact hw hlive

/-- Inner moves keep them. -/
theorem InputBooked.inner {w v : World} (hw : InputBooked w) (hv : InnerMove w v) :
    InputBooked v := by
  intro hlive
  rw [hv.writes, hv.queue, hv.history]
  exact hw (isDead_eq_false hv.dead hlive)

/-- A send waits to be taken. -/
theorem InputBooked.send {w v : World} {cmd : SessionCommand} (hw : InputBooked w)
    (hstep : w.send cmd = some v) : InputBooked v := by
  obtain ⟨next, rfl, -, -, -⟩ := send_eq_some hstep
  intro hlive
  change _ ++ heldInput (w.queue ++ [cmd]) = _
  have hheld : heldInput (w.queue ++ [cmd]) = heldInput w.queue ++ inputOf cmd := by
    simp [heldInput]
  rw [hheld, ← List.append_assoc]
  cases cmd with
  | input bytes => exact congrArg (· ++ bytes) (hw hlive)
  | resize _ _ | close _ | attach _ | info =>
      change _ ++ [] = _
      rw [List.append_nil]
      exact hw hlive

/-- Taking another command keeps the books. -/
theorem InputBooked.receive {w : World} {cmd : SessionCommand} {rest : List SessionCommand}
    (hw : InputBooked w) (hqueue : w.queue = cmd :: rest) (hcmd : inputOf cmd = []) :
    InputBooked (w.receive cmd rest) := by
  intro hlive
  have hbooked := hw hlive
  rw [hqueue, heldInput, List.map_cons, List.flatten_cons, hcmd] at hbooked
  exact hbooked

/-- A payload leaves the queue for one `write` call. -/
theorem InputBooked.input {w : World} {bytes : List UInt8} {rest : List SessionCommand}
    (hw : InputBooked w) (hqueue : w.queue = .input bytes :: rest) :
    InputBooked ((w.receive (.input bytes) rest).writeInput bytes) := by
  intro hlive
  have hwlive : w.session.isDead = false := hlive
  have hbooked := hw hwlive
  rw [hqueue, heldInput, List.map_cons, List.flatten_cons] at hbooked
  have hcalls := w.session.writeCalls_writeInput w.os bytes
  rw [hwlive] at hcalls
  change offeredInput (w.session.writeInput w.os bytes).2.writeCalls ++ heldInput rest = _
  rw [hcalls]
  change (offeredInput w.os.writeCalls ++ bytes) ++ _ = _
  rw [List.append_assoc]
  exact hbooked

/-- Every move of the actor keeps the books of the input. -/
theorem kept_inputBooked (opts : ServerOpts) : Kept opts InputBooked where
  inner hw hv := hw.inner hv
  note {w e} hw he := by
    intro hlive
    change _ = deliveredInput (e :: w.history)
    rw [deliveredInput_inner he]
    exact hw hlive
  writer {w m} hw := by
    rw [writerMove_eq]
    exact hw
  send hw hstep := hw.send hstep
  receive {w cmd rest} hw _ hqueue _ hinput := by
    refine hw.receive hqueue ?_
    cases cmd with
    | input bytes => exact absurd rfl (hinput bytes)
    | resize _ _ | close _ | attach _ | info => rfl
  input hw _ hqueue := hw.input hqueue
  attach {w req rest v} hw _ hqueue hv := by
    have hreceived : InputBooked v := (hw.receive hqueue rfl).inner hv
    have hrecorded : InputBooked
        (v.record (.attached req.outTx (v.session.replayForAttach req.wantChunks).data)) :=
      hreceived
    exact hrecorded.outward (outward_handshake opts v req)
  forward {w} data exit hw _ := by
    have hrecorded : InputBooked (w.record (.drained data exit)) := hw
    exact hrecorded.outward (outward_forwardData opts _ data)
  push hw _ _ := hw.outward (outward_pushOrDrop opts _ _)
  farewell {w} code hw _ := by
    have hsaid : InputBooked (w.farewell opts code) := hw.outward (outward_farewell opts w code)
    exact hsaid
  leave hw _ := hw
  remove hw _ := hw
  finish hw _ := hw

/-- In every run of the actor, while the session lives and its task has not
finished: what the PTY accepted, followed by what the daemon still holds, is the
input delivered iff every `write` took its whole payload. -/
theorem inputKept_iff (opts : ServerOpts) (session : Session) (labels : List Label) (w : World)
    (hrun : (machine opts).run (start session) labels = some w) (hphase : w.phase ≠ .finished)
    (hlive : w.session.isDead = false) :
    w.InputKept ↔ ∀ call ∈ w.os.writeCalls, call.Whole := by
  have hstart : InputBooked (start session) := fun _ => rfl
  have hbooked := (kept_inputBooked opts).run hstart hrun hlive
  rw [← acceptedInput_eq_iff, InputKept, held, if_neg hphase, ← hbooked]
  exact List.append_left_inj _

/-- Two payloads; the PTY takes them whole. -/
def typed : List Label :=
  [.asyncFdOk, .send (.input [97, 98]), .send (.input [99]), .command .none, .command .none,
    .send (.input [100])]

/-- What was typed is accepted or still waits. -/
theorem inputKept_typed :
    ∃ w, (machine .default).run (start shell) typed = some w ∧ w.held = [100] ∧ w.InputKept := by
  have hsome : ((machine .default).run (start shell) typed).isSome = true := by decide +kernel
  have hend : ∀ w ∈ (machine .default).run (start shell) typed,
      w.phase = .running ∧ w.session.isDead = false ∧ w.held = [100] ∧
        w.os.writeCalls = [.write [99] (.ok 1), .write [97, 98] (.ok 2)] := by
    decide +kernel
  obtain ⟨w, hw⟩ := Option.isSome_iff_exists.mp hsome
  obtain ⟨hphase, hlive, hheld, hcalls⟩ := hend w hw
  refine ⟨w, hw, hheld, (inputKept_iff .default shell typed w hw (by simp [hphase]) hlive).mpr ?_⟩
  rw [hcalls]
  simp [Call.Whole]

/-- The PTY has room for one byte of the first payload. -/
def shortWrite : List Label :=
  [.asyncFdOk, .send (.input [97, 98]), .send (.input [99]),
    .command { Answers.none with writes := [.ok 1] }, .command .none]

/-- A short write loses the rest of its payload: the shell reads `ac` for `abc`, and
the daemon holds nothing. -/
theorem input_lost_after_short_write :
    ∃ w, (machine .default).run (start shell) shortWrite = some w ∧
      w.phase = .running ∧ w.session.isDead = false ∧
      deliveredInput w.history = [97, 98, 99] ∧ acceptedInput w.os.writeCalls = [97, 99] ∧
      w.held = [] ∧ ¬ w.InputKept ∧
      ¬ acceptedInput w.os.writeCalls <+: deliveredInput w.history := by
  have hsome : ((machine .default).run (start shell) shortWrite).isSome = true := by decide +kernel
  have hend : ∀ w ∈ (machine .default).run (start shell) shortWrite,
      w.phase = .running ∧ w.session.isDead = false ∧
        deliveredInput w.history = [97, 98, 99] ∧ acceptedInput w.os.writeCalls = [97, 99] ∧
        w.held = [] := by
    decide +kernel
  obtain ⟨w, hw⟩ := Option.isSome_iff_exists.mp hsome
  obtain ⟨hphase, hlive, hdelivered, haccepted, hheld⟩ := hend w hw
  refine ⟨w, hw, hphase, hlive, hdelivered, haccepted, hheld, ?_, ?_⟩
  · rw [InputKept, hdelivered, haccepted, hheld]
    decide
  · rw [hdelivered, haccepted]
    decide

end World

end JftermMuxer.Daemon
