import JftermMuxer.Daemon.Attach

/-!
# Attaches after a CLOSE

A CLOSE that finds the shell alive sets the actor's `closing` flag and leaves the
session in the registry until the shell is reaped, so that attaches keep arriving
on its channel.  The channel is first in, first out, and the Attach arm does not
read the flag: an attach is executed after a CLOSE exactly when it was sent after
one.

Main results:

- Theorem {lit}`World.fifo_step`: the commands delivered are those received and
  those still queued, and attaches are executed in the order of reception.
- Theorem {lit}`World.attachesStop_of_along`: in a run in which no attach is sent
  after a CLOSE no attach is executed after one, and once the queue is empty these
  are the only such runs.
-/

namespace JftermMuxer.Daemon

open JftermMuxer.Foundation

namespace Event

/-- The commands delivered, oldest first. -/
def deliveries : List Event → List SessionCommand
  | [] => []
  | .delivered cmd :: older => deliveries older ++ [cmd]
  | _ :: older => deliveries older

/-- The commands received by the actor, oldest first. -/
def receptions : List Event → List SessionCommand
  | [] => []
  | .received cmd :: older => receptions older ++ [cmd]
  | _ :: older => receptions older

/-- No attach was executed once a CLOSE had been received. -/
def AttachesStop : List Event → Prop
  | [] => True
  | .attached _ _ :: older =>
      (∀ graceMs, .received (.close graceMs) ∉ older) ∧ AttachesStop older
  | _ :: older => AttachesStop older

/-- The receptions are the commands received. -/
theorem mem_receptions {cmd : SessionCommand} {h : List Event} :
    cmd ∈ receptions h ↔ .received cmd ∈ h := by
  induction h with
  | nil => simp [receptions]
  | cons e h ih =>
      cases e with
      | received cmd' =>
          rw [receptions, List.mem_append, List.mem_singleton, List.mem_cons, ih, or_comm]
          simp
      | delivered _ | attached _ _ | drained _ _ | sent _ _ _ _ | answered _ | signalled _
      | elapsed _ => simpa [receptions] using ih

/-- What no event of a kind changes, many such events do not change. -/
theorem append_unmoved {α : Type} {kind : Event → Bool} {f : List Event → α}
    (hf : ∀ e h, kind e = false → f (e :: h) = f h) {es : List Event}
    (hes : ∀ e ∈ es, kind e = false) (h : List Event) : f (es ++ h) = f h := by
  induction es with
  | nil => rfl
  | cons e es ih =>
      rw [List.cons_append, hf e _ (hes e List.mem_cons_self)]
      exact ih fun e he => hes e (List.mem_cons_of_mem _ he)

end Event

namespace World

open Event

variable {opts : ServerOpts} {w v : World}

/-- No attach follows a CLOSE. -/
def NoneAfterClose (cmds : List SessionCommand) : Prop :=
  cmds.Pairwise fun a b => a.isClose = true → b.isAttach = false

/-- An attach is sent only while no CLOSE has been sent. -/
@[reducible] def AttachFirst (w : World) : Label → Prop
  | .send cmd => cmd.isAttach = true → ∀ earlier ∈ deliveries w.history, earlier.isClose = false
  | _ => True

instance decidableAttachFirst (w : World) : DecidablePred w.AttachFirst := Label.decidable _

/-- One more command is an attach only if no CLOSE came before. -/
theorem noneAfterClose_snoc {cmds : List SessionCommand} {cmd : SessionCommand} :
    NoneAfterClose (cmds ++ [cmd]) ↔
      NoneAfterClose cmds ∧ (cmd.isAttach = true → ∀ earlier ∈ cmds, earlier.isClose = false) := by
  unfold NoneAfterClose
  rw [List.pairwise_append]
  constructor
  · rintro ⟨hcmds, -, hlast⟩
    refine ⟨hcmds, ?_⟩
    intro hattach earlier hearlier
    rw [Bool.eq_false_iff]
    intro hclose
    rw [hlast earlier hearlier cmd List.mem_cons_self hclose] at hattach
    cases hattach
  · rintro ⟨hcmds, hlast⟩
    refine ⟨hcmds, List.pairwise_singleton _ _, ?_⟩
    intro earlier hearlier b hb hclose
    rw [List.mem_singleton.mp hb, Bool.eq_false_iff]
    intro hattach
    rw [hlast hattach earlier hearlier] at hclose
    cases hclose

/-! ## First in, first out -/

/-- The queue holds what was delivered and not received, in order, and attaches
were executed as they were received. -/
structure Fifo (w : World) : Prop where
  order : deliveries w.history = receptions w.history ++ w.queue
  executed : AttachesStop w.history ↔ NoneAfterClose (receptions w.history)

/-- At the start nothing was sent or received. -/
theorem fifo_start (session : Session) : Fifo (start session) :=
  ⟨rfl, iff_of_true trivial List.Pairwise.nil⟩

/-- A passive move sends nothing. -/
theorem Passive.deliveries (h : Passive w v) :
    Event.deliveries v.history = Event.deliveries w.history := by
  obtain ⟨es, hes, hpassive⟩ := h.events
  rw [hes]
  refine append_unmoved ?_ hpassive w.history
  intro e h he
  cases e with
  | delivered cmd => cases he
  | received _ | attached _ _ | drained _ _ | sent _ _ _ _ | answered _ | signalled _
  | elapsed _ => rfl

/-- A passive move receives nothing. -/
theorem Passive.receptions (h : Passive w v) :
    Event.receptions v.history = Event.receptions w.history := by
  obtain ⟨es, hes, hpassive⟩ := h.events
  rw [hes]
  refine append_unmoved ?_ hpassive w.history
  intro e h he
  cases e with
  | received cmd => cases he
  | delivered _ | attached _ _ | drained _ _ | sent _ _ _ _ | answered _ | signalled _
  | elapsed _ => rfl

/-- A passive move does not spoil the order. -/
theorem Passive.attachesStop (h : Passive w v) :
    AttachesStop v.history ↔ AttachesStop w.history := by
  obtain ⟨es, hes, hpassive⟩ := h.events
  rw [hes]
  refine iff_of_eq (append_unmoved ?_ hpassive w.history)
  intro e h he
  cases e with
  | attached c replay => cases he
  | delivered _ | received _ | drained _ _ | sent _ _ _ _ | answered _ | signalled _
  | elapsed _ => rfl

/-- A passive move keeps the channel in order. -/
theorem Passive.fifo (h : Passive w v) (hw : Fifo w) : Fifo v := by
  constructor
  · rw [h.deliveries, h.receptions, h.queue]
    exact hw.order
  · rw [h.attachesStop, h.receptions]
    exact hw.executed

/-- A command other than an attach is received, and nothing is executed. -/
theorem passive_onCommand (opts : ServerOpts) (w : World) {cmd : SessionCommand}
    (hcmd : cmd.isAttach = false) : Passive w (w.onCommand opts cmd) := by
  cases cmd with
  | input bytes => exact passive_of_eq rfl rfl
  | resize cols rows => exact (innerMove_resize ..).passive
  | info => exact passive_of_cons (e := .answered _) rfl rfl rfl
  | close graceMs => exact passive_onClose opts w graceMs
  | attach req => cases hcmd

/-- An attach is executed as soon as it is received. -/
theorem passive_onAttach (opts : ServerOpts) (w : World) (req : AttachRequest) :
    ∃ replay, Passive (w.record (.attached req.outTx replay)) (w.onAttach opts req) := by
  obtain ⟨-, replay, hpassive⟩ := bindClient_view opts w req
  refine ⟨replay, ?_⟩
  unfold onAttach
  simp only
  split
  · exact hpassive.trans (passive_of_eq rfl rfl)
  · exact hpassive

/-- A command taken is the next one sent. -/
theorem fifo_receive {cmd : SessionCommand} {rest : List SessionCommand} (hw : Fifo w)
    (hqueue : w.queue = cmd :: rest) (a : Answers) :
    Fifo (onCommand opts ((w.answer a).receive cmd rest) cmd) := by
  have hreceptions : receptions ((w.answer a).receive cmd rest).history =
      receptions w.history ++ [cmd] := rfl
  have horder : deliveries ((w.answer a).receive cmd rest).history =
      receptions ((w.answer a).receive cmd rest).history ++ rest := by
    rw [hreceptions, List.append_assoc]
    change deliveries w.history = _
    rw [hw.order, hqueue]
    rfl
  cases hattach : cmd.isAttach with
  | false =>
      refine (passive_onCommand opts _ hattach).fifo ⟨horder, ?_⟩
      rw [hreceptions, noneAfterClose_snoc, ← hw.executed, hattach]
      simp [AttachesStop, receive, record, answer]
  | true =>
      cases cmd with
      | attach req =>
          obtain ⟨replay, hpassive⟩ :=
            passive_onAttach opts ((w.answer a).receive (.attach req) rest) req
          refine hpassive.fifo ⟨horder, ?_⟩
          change _ ∧ AttachesStop w.history ↔ NoneAfterClose (receptions w.history ++ [_])
          rw [noneAfterClose_snoc, ← hw.executed, and_comm]
          refine and_congr_right fun _ => ?_
          constructor
          · intro hnone _ earlier hearlier
            cases earlier with
            | close graceMs =>
                exact absurd (List.mem_cons_of_mem _ (mem_receptions.mp hearlier)) (hnone graceMs)
            | input _ | resize _ _ | attach _ | info => rfl
          · intro hnone graceMs hmem
            rcases List.mem_cons.mp hmem with h | h
            · cases h
            · cases hnone rfl (.close graceMs) (mem_receptions.mpr h)
      | input _ | resize _ _ | close _ | info => cases hattach

/-- Every step keeps the channel in order. -/
theorem fifo_step {label : Label} (hw : Fifo w) (hstep : w.step opts label = some v) : Fifo v := by
  rcases step_view hstep with ⟨cmd, -, hsend⟩ | ⟨a, cmd, rest, -, -, hqueue, rfl⟩ | ⟨-, -, rfl⟩ |
    ⟨-, -, -, hpassive, -⟩
  · obtain ⟨next, rfl, -, -, -⟩ := send_eq_some hsend
    refine ⟨?_, hw.executed⟩
    change deliveries w.history ++ [cmd] = _
    rw [hw.order, List.append_assoc]
    rfl
  · exact fifo_receive hw hqueue a
  · have hpassive : Passive w w.leave := passive_of_eq rfl rfl
    exact hpassive.fifo hw
  · exact hpassive.fifo hw

/-! ## Sends after a CLOSE -/

/-- Only a send delivers. -/
theorem deliveries_step {label : Label} (hstep : w.step opts label = some v) :
    (∃ cmd, label = .send cmd ∧ deliveries v.history = deliveries w.history ++ [cmd]) ∨
      ((∀ cmd, label ≠ .send cmd) ∧ deliveries v.history = deliveries w.history) := by
  rcases step_view hstep with ⟨cmd, rfl, hsend⟩ | ⟨a, cmd, rest, rfl, -, -, rfl⟩ | ⟨rfl, -, rfl⟩ |
    ⟨-, hnosend, -, hpassive, -⟩
  · obtain ⟨next, rfl, -, -, -⟩ := send_eq_some hsend
    exact Or.inl ⟨cmd, rfl, rfl⟩
  · refine Or.inr ⟨by simp, ?_⟩
    cases hattach : cmd.isAttach with
    | false => exact (passive_onCommand opts _ hattach).deliveries
    | true =>
        cases cmd with
        | attach req =>
            obtain ⟨replay, hpassive⟩ :=
              passive_onAttach opts ((w.answer a).receive (.attach req) rest) req
            exact hpassive.deliveries
        | input _ | resize _ _ | close _ | info => cases hattach
  · exact Or.inr ⟨by simp, rfl⟩
  · exact Or.inr ⟨hnosend, hpassive.deliveries⟩

/-- Exactly the sends that break the condition put an attach behind a CLOSE. -/
theorem noneAfterClose_step {label : Label} (hnone : NoneAfterClose (deliveries w.history))
    (hstep : w.step opts label = some v) :
    NoneAfterClose (deliveries v.history) ↔ w.AttachFirst label := by
  rcases deliveries_step hstep with ⟨cmd, rfl, hsent⟩ | ⟨hnosend, hsame⟩
  · rw [hsent, noneAfterClose_snoc]
    exact and_iff_right hnone
  · rw [hsame]
    refine iff_of_true hnone ?_
    cases label with
    | send cmd => exact absurd rfl (hnosend cmd)
    | asyncFdOk | asyncFdFailed | dropSenders | writer _ | elapse _ | command _ | readable _
    | readableError | grace | kill _ | tick _ | remove | finish => trivial

/-- Sends that came after a CLOSE stay so. -/
theorem not_noneAfterClose_step {label : Label}
    (hspoilt : ¬ NoneAfterClose (deliveries w.history)) (hstep : w.step opts label = some v) :
    ¬ NoneAfterClose (deliveries v.history) := by
  intro hafter
  refine hspoilt ?_
  rcases deliveries_step hstep with ⟨cmd, -, hsent⟩ | ⟨-, hsame⟩
  · rw [hsent, noneAfterClose_snoc] at hafter
    exact hafter.1
  · rw [hsame] at hafter
    exact hafter

/-- In every run of a session's actor in which no attach is sent after a CLOSE was
sent, no attach is executed after a CLOSE was received; and in a run at whose end
every command sent has been received these are the only ones. -/
theorem attachesStop_of_along (opts : ServerOpts) (session : Session) (labels : List Label)
    (w : World) (hrun : (machine opts).run (start session) labels = some w) :
    ((machine opts).Along AttachFirst (start session) labels → AttachesStop w.history) ∧
      (w.queue = [] →
        (AttachesStop w.history ↔ (machine opts).Along AttachFirst (start session) labels)) := by
  have hfifo : Fifo w := (machine opts).run_induct (motive := Fifo)
    (fun _ _ _ hw hstep => fifo_step hw hstep) (fifo_start session) hrun
  have hstart : NoneAfterClose (deliveries (start session).history) := List.Pairwise.nil
  have hsent : NoneAfterClose (deliveries w.history) ↔
      (machine opts).Along AttachFirst (start session) labels :=
    (machine opts).good_iff_along (motive := fun _ => True) (fun _ _ _ _ _ => trivial)
      (fun _ _ _ _ hnone hstep => noneAfterClose_step hnone hstep)
      (fun _ _ _ _ hspoilt hstep => not_noneAfterClose_step hspoilt hstep) trivial hstart hrun
  have horder := hfifo.order
  constructor
  · intro halong
    have hall := hsent.mpr halong
    rw [horder] at hall
    exact hfifo.executed.mpr (List.pairwise_append.mp hall).1
  · intro hempty
    rw [hempty, List.append_nil] at horder
    rw [hfifo.executed, ← hsent, horder]

/-- A client attaches, types a line and closes its session; the shell goes away. -/
def attachThenClose : List Label :=
  [.asyncFdOk, .send (.attach ⟨0, 80, 24, 0⟩), .send (.input [0x78]), .send (.close 0), .command .none,
    .command .none, .command .none,
    .readable { Answers.none with reads := [.ok []], waits := [.ok (.signaled 1)] }, .remove,
    .finish]

/-- The attach that came first is executed. -/
theorem attachesStop_attachThenClose :
    ∃ w, (machine .default).run (start shell) attachThenClose = some w ∧ w.phase = .finished ∧
      Event.receptions w.history = [.attach ⟨0, 80, 24, 0⟩, .input [0x78], .close 0] ∧
      AttachesStop w.history := by
  have hsome : ((machine .default).run (start shell) attachThenClose).isSome = true := by
    decide +kernel
  have hend : ∀ w ∈ (machine .default).run (start shell) attachThenClose,
      w.phase = .finished ∧
        Event.receptions w.history = [.attach ⟨0, 80, 24, 0⟩, .input [0x78], .close 0] := by
    decide +kernel
  obtain ⟨w, hw⟩ := Option.isSome_iff_exists.mp hsome
  obtain ⟨hphase, hreceptions⟩ := hend w hw
  exact ⟨w, hw, hphase, hreceptions,
    (attachesStop_of_along .default shell attachThenClose w hw).1 (by decide +kernel)⟩

/-- A session is closed, its shell ignores the signal, and another client attaches. -/
def closeThenAttach : List Label :=
  [.asyncFdOk, .send (.close 0), .command .none, .send (.attach ⟨0, 80, 24, 0⟩), .command .none]

/-- The closing session binds the client. -/
theorem attach_bound_while_closing :
    ∃ w, (machine .default).run (start shell) closeThenAttach = some w ∧
      w.closing = true ∧ w.client = some 0 ∧ ¬ AttachesStop w.history := by
  have hsome : ((machine .default).run (start shell) closeThenAttach).isSome = true := by
    decide +kernel
  have hend : ∀ w ∈ (machine .default).run (start shell) closeThenAttach,
      w.closing = true ∧ w.client = some 0 ∧
        w.history = [.sent 0 (statusFrame ⟨false, none⟩) .handshake true, .attached 0 [],
          .received (.attach ⟨0, 80, 24, 0⟩), .delivered (.attach ⟨0, 80, 24, 0⟩),
          .signalled .sighup, .received (.close 0), .delivered (.close 0)] := by
    decide +kernel
  obtain ⟨w, hw⟩ := Option.isSome_iff_exists.mp hsome
  obtain ⟨hclosing, hclient, hhistory⟩ := hend w hw
  refine ⟨w, hw, hclosing, hclient, ?_⟩
  rw [hhistory]
  rintro ⟨hnone, -⟩
  exact hnone 0 (by simp)

end World

end JftermMuxer.Daemon
