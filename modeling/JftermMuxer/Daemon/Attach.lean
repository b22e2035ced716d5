import JftermMuxer.Daemon.Stream

/-!
# What becomes of an accepted attach

A connection's attach is accepted when its send into the command channel returns
`Ok`.  The receiver of that channel lives until the actor's task has finished,
which is later than the moment the actor decides to leave its loop, so an attach
can be accepted and never looked at.

Main results:

- Theorem {lit}`World.step_view`: what a step does to the command queue, to the
  attaches delivered and executed, and to the task's phase.
- Theorem {lit}`World.attachKept_iff`: no accepted attach is lost in a run iff none
  waits when the registration of the master fails, no attach is sent after the loop
  is left and a dead session takes an attach or a close only with no further attach
  behind it.
-/

namespace JftermMuxer.Daemon

open JftermMuxer.Foundation

namespace Event

/-- The events that deliver commands and execute attaches. -/
def isMark : Event → Bool
  | .delivered _ | .attached _ _ => true
  | .received _ | .drained _ _ | .sent _ _ _ _ | .answered _ | .signalled _ | .elapsed _ => false

/-- The events in the life of a command: its delivery, its reception, and for an
attach its execution. -/
def isTurn : Event → Bool
  | .delivered _ | .received _ | .attached _ _ => true
  | .drained _ _ | .sent _ _ _ _ | .answered _ | .signalled _ | .elapsed _ => false

/-- The deliveries and attaches of a history. -/
def marks (h : List Event) : List Event := h.filter isMark

/-- A connection's send of the client's attach returned `Ok`. -/
def Accepted (c : ClientId) (h : List Event) : Prop :=
  ∃ req, req.outTx = c ∧ .delivered (.attach req) ∈ h

/-- Marks tell which attaches were accepted. -/
theorem accepted_iff_marks (c : ClientId) (h : List Event) :
    Accepted c h ↔ Accepted c (marks h) := by
  simp [Accepted, marks, isMark]

/-- Marks tell which attaches were executed. -/
theorem attached_iff_marks (c : ClientId) (h : List Event) :
    Attached c h ↔ Attached c (marks h) := by
  simp [Attached, marks, isMark]

end Event

namespace World

open Event

variable {opts : ServerOpts} {w v : World}

/-! ## What a step does to the attaches -/

/-- A move that neither delivers a command nor executes an attach. -/
structure Calm (w v : World) : Prop where
  queue : v.queue = w.queue
  marks : marks v.history = marks w.history

/-- A calm move accepts no attach. -/
theorem Calm.accepted (h : Calm w v) (c : ClientId) :
    Accepted c v.history ↔ Accepted c w.history := by
  rw [accepted_iff_marks, h.marks, ← accepted_iff_marks]

/-- A calm move executes no attach. -/
theorem Calm.attached (h : Calm w v) (c : ClientId) :
    Attached c v.history ↔ Attached c w.history := by
  rw [attached_iff_marks, h.marks, ← attached_iff_marks]

/-- An event without a mark is calm. -/
theorem calm_record {e : Event} (he : isMark e = false) (w : World) : Calm w (w.record e) := by
  refine ⟨rfl, ?_⟩
  change (e :: w.history).filter isMark = _
  rw [List.filter_cons_of_neg (by simp [he])]
  rfl

/-- A move that nobody's command notices: none is delivered, received or executed. -/
structure Passive (w v : World) : Prop where
  queue : v.queue = w.queue
  events : ∃ es, v.history = es ++ w.history ∧ ∀ e ∈ es, isTurn e = false

/-- Passive moves add up. -/
theorem Passive.trans {u : World} (huv : Passive u v) (hvw : Passive v w) : Passive u w := by
  constructor
  · exact hvw.queue.trans huv.queue
  · exact Machine.grows_trans huv.events hvw.events

/-- A move that leaves queue and history is passive. -/
theorem passive_of_eq (hqueue : v.queue = w.queue) (hhistory : v.history = w.history) :
    Passive w v :=
  ⟨hqueue, [], hhistory, by simp⟩

/-- A move that records an event other than a turn is passive. -/
theorem passive_of_cons {e : Event} (he : isTurn e = false) (hqueue : v.queue = w.queue)
    (hhistory : v.history = e :: w.history) : Passive w v :=
  ⟨hqueue, [e], hhistory, by simpa using he⟩

/-- Inner moves are passive. -/
theorem InnerMove.passive (h : InnerMove w v) : Passive w v := passive_of_eq h.queue h.history

/-- Offers are passive. -/
theorem Outward.passive (h : Outward w v) : Passive w v := by
  obtain ⟨es, hes, hsent⟩ := h.sends
  refine ⟨h.queue, es, hes, ?_⟩
  intro e he
  obtain ⟨c, f, stage, ok, rfl⟩ := hsent e he
  rfl

/-- A passive move is calm. -/
theorem Passive.calm (h : Passive w v) : Calm w v := by
  obtain ⟨es, hes, hpassive⟩ := h.events
  refine ⟨h.queue, ?_⟩
  have hnone : es.filter isMark = [] := by
    rw [List.filter_eq_nil_iff]
    intro e he hmark
    have hturn := hpassive e he
    cases e with
    | delivered _ | attached _ _ => cases hturn
    | received _ | drained _ _ | sent _ _ _ _ | answered _ | signalled _ | elapsed _ => cases hmark
  rw [hes, Event.marks, List.filter_append, hnone]
  rfl

private theorem passive_pushStatus (opts : ServerOpts) (w : World) : Passive w (w.pushStatus opts) := by
  unfold pushStatus
  split
  · exact passive_of_eq rfl rfl
  · exact (outward_pushOrDrop opts w _).passive.trans (passive_of_eq rfl rfl)

private theorem passive_refreshStatus (opts : ServerOpts) (w : World) :
    Passive w (w.refreshStatus opts) := by
  rcases refreshStatus_cases opts w with ⟨-, heq⟩ | ⟨-, heq | heq⟩
  · rw [heq]
    exact passive_of_eq rfl rfl
  · rw [heq]
    exact (innerMove_poll w).passive.trans (passive_pushStatus opts _)
  · rw [heq]
    exact passive_pushStatus opts w

/-- An exit leaves the loop or keeps it running. -/
theorem onExit_view (opts : ServerOpts) (w : World) (code : Int) :
    Passive w (w.onExit opts code) ∧
      ((w.onExit opts code).phase = w.phase ∨ (w.onExit opts code).phase = .left) := by
  have hpush := outward_pushOrDrop opts w (exitFrame code)
  unfold onExit
  simp only
  split
  · exact ⟨hpush.passive.trans (passive_of_eq rfl rfl), Or.inr rfl⟩
  · exact ⟨hpush.passive.trans (passive_of_eq rfl rfl), Or.inl hpush.phase⟩

/-- A drain is passive and may end the loop. -/
theorem onReadable_view (opts : ServerOpts) (w : World) :
    Passive w (w.onReadable opts) ∧
      ((w.onReadable opts).phase = w.phase ∨ (w.onReadable opts).phase = .left) := by
  rcases hdrained : w.session.drain w.os with ⟨_ | ⟨data, status, exit⟩, session, os⟩
  · rw [onReadable_error hdrained]
    exact ⟨passive_of_eq rfl rfl, Or.inr rfl⟩
  · have hrecord : Passive w (World.record { w with session, os } (.drained data exit)) :=
      passive_of_cons rfl rfl rfl
    have hforward := outward_forwardData opts (World.record { w with session, os }
      (.drained data exit)) data
    have hrefreshed := (hrecord.trans hforward.passive).trans (passive_refreshStatus opts _)
    have hkept := (phase_refreshStatus opts _).trans hforward.phase
    rw [onReadable_ok hdrained]
    cases exit with
    | none => exact ⟨hrefreshed, Or.inl hkept⟩
    | some code =>
        obtain ⟨hexit, hleft⟩ := onExit_view opts
          (((World.record { w with session, os } (.drained data (some code))).forwardData opts
            data).refreshStatus opts) code
        refine ⟨hrefreshed.trans hexit, ?_⟩
        rcases hleft with hsame | hleft
        · exact Or.inl (hsame.trans hkept)
        · exact Or.inr hleft

/-- A kill is passive and leaves the phase. -/
theorem onKill_view (w : World) : Passive w w.onKill ∧ w.onKill.phase = w.phase := by
  unfold onKill kill
  simp only
  split
  · exact ⟨passive_of_eq rfl rfl, rfl⟩
  · exact ⟨passive_of_cons (e := .signalled .sigkill) rfl rfl rfl, rfl⟩

/-- The commands that end the actor of a dead session. -/
def endsDead : SessionCommand → Bool
  | .attach _ | .close _ => true
  | .input _ | .resize _ _ | .info => false

/-- What a received command does: an attach is executed for its client, and an
attach or a close on a dead session leaves the loop. -/
structure CommandView (w : World) (cmd : SessionCommand) (v : World) : Prop where
  queue : v.queue = w.queue
  phase : v.phase = if w.session.isDead && endsDead cmd then .left else w.phase
  accepted : ∀ c, Accepted c v.history ↔ Accepted c w.history
  attached : ∀ c, Attached c v.history ↔ attaches c cmd = true ∨ Attached c w.history

/-- A command that is no attach and moves calmly. -/
theorem Calm.commandView {cmd : SessionCommand} (h : Calm w v) (hcmd : ∀ c, attaches c cmd = false)
    (hphase : v.phase = if w.session.isDead && endsDead cmd then .left else w.phase) :
    CommandView w cmd v := by
  refine ⟨h.queue, hphase, h.accepted, ?_⟩
  intro c
  rw [h.attached, hcmd c]
  simp

private theorem passive_hangup (w : World) : Passive w w.hangup := by
  unfold hangup
  split
  · exact passive_of_eq rfl rfl
  · exact passive_of_cons (e := .signalled .sighup) rfl rfl rfl

/-- The close arm is passive. -/
theorem passive_onClose (opts : ServerOpts) (w : World) (graceMs : UInt32) :
    Passive w (w.onClose opts graceMs) := by
  have hhangup := passive_hangup w
  unfold onClose
  simp only
  split
  · exact hhangup.trans (passive_of_eq rfl rfl)
  · have hsaid : ∀ (u : World) (code : Int), Passive w u → Passive w (u.farewell opts code).leave :=
      fun u code hu =>
        (hu.trans (outward_farewell opts u code).passive).trans (passive_of_eq rfl rfl)
    exact hsaid _ _ (hhangup.trans (passive_of_eq rfl rfl))

/-- What a CLOSE does. -/
theorem onClose_view (opts : ServerOpts) (w : World) (graceMs : UInt32) :
    CommandView w (.close graceMs) (w.onClose opts graceMs) := by
  refine (passive_onClose opts w graceMs).calm.commandView (fun _ => rfl) ?_
  unfold onClose Session.isDead
  cases hlifecycle : w.session.lifecycle with
  | live =>
      have hlive : w.hangup.session.lifecycle = .live := hlifecycle
      simp only [hlive]
      rfl
  | dead code =>
      have hdead : w.hangup.session.lifecycle = .dead code := hlifecycle
      simp only [hdead]
      rfl

/-- Binding a client executes its attach. -/
theorem bindClient_view (opts : ServerOpts) (w : World) (req : AttachRequest) :
    (w.bindClient opts req).session.isDead = w.session.isDead ∧
      ∃ replay, Passive (w.record (.attached req.outTx replay)) (w.bindClient opts req) := by
  have hbound : ∀ u : World, u.queue = w.queue → u.session.isDead = w.session.isDead →
      u.history = w.history →
      ((u.attachClient opts req).session.isDead = w.session.isDead) ∧
        ∃ replay, Passive (w.record (.attached req.outTx replay))
          { u.attachClient opts req with
            lastStatus := some (u.attachClient opts req).effectiveStatus } := by
    intro u hqueue hdead hhistory
    have hout := outward_handshake opts (u.resize req.cols req.rows) req
    constructor
    · change ((u.resize req.cols req.rows).handshake opts req).session.isDead = _
      rw [hout.session]
      exact (u.session.isDead_resize u.os req.cols req.rows).trans hdead
    · refine ⟨((u.resize req.cols req.rows).session.replayForAttach req.wantChunks).data, ?_⟩
      have hstart : ∀ e, Passive (w.record e) ((u.resize req.cols req.rows).record e) :=
        fun e => passive_of_eq hqueue (congrArg (List.cons e) hhistory)
      have hbind := (hstart _).trans hout.passive
      exact ⟨hbind.queue, hbind.events⟩
  unfold bindClient
  simp only
  split
  · exact hbound w rfl rfl rfl
  · exact hbound w.poll rfl rfl rfl

/-- What an attach does. -/
theorem onAttach_view (opts : ServerOpts) (w : World) (req : AttachRequest) :
    CommandView w (.attach req) (w.onAttach opts req) := by
  obtain ⟨hdead, replay, hpassive⟩ := bindClient_view opts w req
  have hqueue : (w.bindClient opts req).queue = w.queue := hpassive.queue
  have hmarks : marks (w.bindClient opts req).history =
      .attached req.outTx replay :: marks w.history := hpassive.calm.marks
  have hphase := phase_bindClient opts w req
  have haccepted : ∀ c, Accepted c (w.bindClient opts req).history ↔ Accepted c w.history := by
    intro c
    rw [accepted_iff_marks, hmarks, accepted_iff_marks c w.history]
    simp [Accepted]
  have hattached : ∀ c, Attached c (w.bindClient opts req).history ↔
      attaches c (.attach req) = true ∨ Attached c w.history := by
    intro c
    rw [attached_iff_marks, hmarks, attached_iff_marks c w.history]
    simp only [Attached, List.mem_cons, attached.injEq, attaches, beq_iff_eq]
    constructor
    · rintro ⟨r, ⟨hc, -⟩ | hmem⟩
      · exact Or.inl hc.symm
      · exact Or.inr ⟨r, hmem⟩
    · rintro (hc | ⟨r, hmem⟩)
      · exact ⟨replay, Or.inl ⟨hc.symm, rfl⟩⟩
      · exact ⟨r, Or.inr hmem⟩
  unfold onAttach
  simp only [hdead]
  split
  · rename_i h
    exact ⟨hqueue, by rw [h]; rfl, haccepted, hattached⟩
  · rename_i h
    refine ⟨hqueue, ?_, haccepted, hattached⟩
    rw [hphase, Bool.eq_false_iff.mpr h]
    rfl

/-- What any command does. -/
theorem onCommand_view (opts : ServerOpts) (w : World) (cmd : SessionCommand) :
    CommandView w cmd (w.onCommand opts cmd) := by
  cases cmd with
  | input bytes =>
      refine Calm.commandView ⟨rfl, rfl⟩ (fun _ => rfl) ?_
      simp [onCommand, endsDead, writeInput]
  | resize cols rows =>
      refine Calm.commandView (innerMove_resize ..).passive.calm (fun _ => rfl) ?_
      rw [endsDead, Bool.and_false]
      rfl
  | info =>
      have hrecord : Calm w (w.record (.answered (w.session.info w.os w.client.isSome).1)) :=
        calm_record rfl w
      refine Calm.commandView ⟨rfl, hrecord.marks⟩ (fun _ => rfl) ?_
      rw [endsDead, Bool.and_false]
      rfl
  | close graceMs => exact onClose_view opts w graceMs
  | attach req => exact onAttach_view opts w req

/-- What the command arm does, compared with the state before the command was
received. -/
theorem received_view (opts : ServerOpts) (w : World) (a : Answers) (cmd : SessionCommand)
    (rest : List SessionCommand) :
    CommandView { w with queue := rest } cmd
      (onCommand opts ((w.answer a).receive cmd rest) cmd) := by
  have hview := onCommand_view opts ((w.answer a).receive cmd rest) cmd
  have hreceived : Calm w (w.record (.received cmd)) := calm_record rfl w
  have hsame : marks ((w.answer a).receive cmd rest).history = marks w.history := hreceived.marks
  refine ⟨hview.queue, hview.phase, ?_, ?_⟩
  · intro c
    rw [hview.accepted, accepted_iff_marks, hsame, ← accepted_iff_marks]
  · intro c
    rw [hview.attached, attached_iff_marks, hsame, ← attached_iff_marks]

/-- The task's phase stays, or moves on from a loop that is left, or the loop is
left with an empty queue. -/
def PhaseView (w v : World) : Prop :=
  v.phase = w.phase ∨ (w.phase ≠ .running ∧ v.phase ≠ .running) ∨
    (w.phase = .running ∧ w.queue = [] ∧ v.phase = .left)

/-- Everything a step can be, as far as commands and attaches are concerned: a send,
a command taken, the end of an actor before its loop, or a passive move. -/
theorem step_view {label : Label} (hstep : w.step opts label = some v) :
    (∃ cmd, label = .send cmd ∧ w.send cmd = some v) ∨
      (∃ a cmd rest, label = .command a ∧ w.phase = .running ∧ w.queue = cmd :: rest ∧
        v = onCommand opts ((w.answer a).receive cmd rest) cmd) ∨
      (label = .asyncFdFailed ∧ w.phase = .running ∧ v = w.leave) ∨
      (label ≠ .asyncFdFailed ∧ (∀ cmd, label ≠ .send cmd) ∧
        (∀ a, label = .command a → w.queue = []) ∧ Passive w v ∧ PhaseView w v) := by
  cases label with
  | asyncFdOk =>
      obtain ⟨-, -, rfl⟩ := asyncFdOk_eq_some hstep
      exact Or.inr (Or.inr (Or.inr ⟨by simp, by simp, by simp, passive_of_eq rfl rfl, Or.inl rfl⟩))
  | asyncFdFailed =>
      obtain ⟨hrun, -, rfl⟩ := asyncFdFailed_eq_some hstep
      exact Or.inr (Or.inr (Or.inl ⟨rfl, hrun, rfl⟩))
  | send cmd => exact Or.inl ⟨cmd, rfl, hstep⟩
  | dropSenders =>
      cases hstep
      exact Or.inr (Or.inr (Or.inr ⟨by simp, by simp, by simp, passive_of_eq rfl rfl, Or.inl rfl⟩))
  | writer move =>
      cases hstep
      rw [writerMove_eq]
      exact Or.inr (Or.inr (Or.inr ⟨by simp, by simp, by simp, passive_of_eq rfl rfl, Or.inl rfl⟩))
  | elapse ms =>
      cases hstep
      exact Or.inr (Or.inr (Or.inr ⟨by simp, by simp, by simp,
        passive_of_cons (e := .elapsed ms) rfl rfl rfl, Or.inl rfl⟩))
  | command a =>
      obtain ⟨hrun, ⟨hempty, -, rfl⟩ | ⟨cmd, rest, hqueue, rfl⟩⟩ := command_eq_some hstep
      · exact Or.inr (Or.inr (Or.inr ⟨by simp, by simp, fun _ _ => hempty, passive_of_eq rfl rfl,
          Or.inr (Or.inr ⟨hrun, hempty, rfl⟩)⟩))
      · exact Or.inr (Or.inl ⟨a, cmd, rest, rfl, hrun, hqueue, rfl⟩)
  | readable a =>
      obtain ⟨hidle, -, rfl⟩ := readable_eq_some hstep
      obtain ⟨hrun, hempty, -⟩ := idle_iff.mp hidle
      obtain ⟨hpassive, hphase⟩ := onReadable_view opts (w.answer a)
      refine Or.inr (Or.inr (Or.inr ⟨by simp, by simp, by simp,
        (innerMove_answer w a).passive.trans hpassive, ?_⟩))
      rcases hphase with hsame | hleft
      · exact Or.inl hsame
      · exact Or.inr (Or.inr ⟨hrun, hempty, hleft⟩)
  | readableError =>
      obtain ⟨hidle, -, rfl⟩ := readableError_eq_some hstep
      obtain ⟨hrun, hempty, -⟩ := idle_iff.mp hidle
      exact Or.inr (Or.inr (Or.inr ⟨by simp, by simp, by simp, passive_of_eq rfl rfl,
        Or.inr (Or.inr ⟨hrun, hempty, rfl⟩)⟩))
  | grace =>
      obtain ⟨hidle, -, rfl⟩ := grace_eq_some hstep
      obtain ⟨hrun, hempty, -⟩ := idle_iff.mp hidle
      exact Or.inr (Or.inr (Or.inr ⟨by simp, by simp, by simp, passive_of_eq rfl rfl,
        Or.inr (Or.inr ⟨hrun, hempty, rfl⟩)⟩))
  | kill a =>
      obtain ⟨-, -, rfl⟩ := kill_eq_some hstep
      obtain ⟨hpassive, hphase⟩ := onKill_view (w.answer a)
      exact Or.inr (Or.inr (Or.inr ⟨by simp, by simp, by simp,
        (innerMove_answer w a).passive.trans hpassive, Or.inl hphase⟩))
  | tick a =>
      obtain ⟨-, -, rfl⟩ := tick_eq_some hstep
      refine Or.inr (Or.inr (Or.inr ⟨by simp, by simp, by simp, ?_, Or.inl ?_⟩))
      · exact ((innerMove_answer w a).trans (innerMove_poll _)).passive.trans (passive_pushStatus ..)
      · exact (phase_pushStatus ..).trans ((innerMove_answer w a).trans (innerMove_poll _)).phase
  | remove =>
      obtain ⟨hleft, rfl⟩ := remove_eq_some hstep
      exact Or.inr (Or.inr (Or.inr ⟨by simp, by simp, by simp, passive_of_eq rfl rfl,
        Or.inr (Or.inl ⟨by simp [hleft], by simp⟩)⟩))
  | finish =>
      obtain ⟨hremoved, rfl⟩ := finish_eq_some hstep
      exact Or.inr (Or.inr (Or.inr ⟨by simp, by simp, by simp, passive_of_eq rfl rfl,
        Or.inr (Or.inl ⟨by simp [hremoved], by simp⟩)⟩))

/-- A loop that is left is not entered again. -/
theorem running_of_step {label : Label} (hstep : w.step opts label = some v)
    (hrun : v.phase = .running) : w.phase = .running := by
  rcases step_view hstep with ⟨cmd, -, hsend⟩ | ⟨a, cmd, rest, -, hwas, -, -⟩ | ⟨-, hwas, -⟩ |
    ⟨-, -, -, -, hsame | ⟨-, hnot⟩ | ⟨hwas, -⟩⟩
  · obtain ⟨next, rfl, -⟩ := send_eq_some hsend
    exact hrun
  · exact hwas
  · exact hwas
  · exact hsame.symm.trans hrun
  · exact absurd hrun hnot
  · exact hwas

/-! ## Accepted attaches -/

/-- No accepted attach is lost: once the loop is left, or never entered, every attach
whose send returned `Ok` has been executed. -/
def AttachKept (w : World) : Prop :=
  w.phase ≠ .running → ∀ c, Accepted c w.history → Attached c w.history

/-- Another attach waits in the queue. -/
def Awaited (queue : List SessionCommand) : Prop := ∃ c, queue.countP (attaches c) ≠ 0

/-- An attach is sent only before the loop is left, none waits when the registration
fails, and a dead session takes an attach or a close only when no further attach waits
behind it. -/
def LastOut (w : World) : Label → Prop
  | .asyncFdFailed => ¬ Awaited w.queue
  | .send (.attach _) => w.phase = .running
  | .command _ => ∀ cmd rest, w.queue = cmd :: rest → w.session.isDead = true →
      endsDead cmd = true → ¬ Awaited rest
  | _ => True

/-- What the analysis rests on: attaches are delivered before they are queued, every
delivered attach is executed or queued while the loop runs, and a client attaches
once. -/
structure Attaching (opts : ServerOpts) (w : World) : Prop where
  feed : ∀ c, Feed opts c w
  queued : ∀ c, w.queue.countP (attaches c) ≠ 0 → Accepted c w.history
  waiting : w.phase = .running → ∀ c, Accepted c w.history →
    Attached c w.history ∨ w.queue.countP (attaches c) ≠ 0

/-- At the start nobody waits. -/
theorem attaching_start (opts : ServerOpts) (session : Session) :
    Attaching opts (start session) := by
  refine ⟨fun c => feed_start opts c session, ?_, ?_⟩
  · intro c h
    exact absurd rfl h
  · intro _ c h
    obtain ⟨req, -, hmem⟩ := h
    cases hmem

private theorem accepted_send {cmd : SessionCommand} {h : List Event} (c : ClientId) :
    Accepted c (.delivered cmd :: h) ↔ attaches c cmd = true ∨ Accepted c h := by
  cases cmd with
  | attach req =>
      simp only [Accepted, List.mem_cons, delivered.injEq, SessionCommand.attach.injEq, attaches,
        beq_iff_eq]
      constructor
      · rintro ⟨r, hr, rfl | hmem⟩
        · exact Or.inl hr
        · exact Or.inr ⟨r, hr, hmem⟩
      · rintro (hc | ⟨r, hr, hmem⟩)
        · exact ⟨req, hc, Or.inl rfl⟩
        · exact ⟨r, hr, Or.inr hmem⟩
  | input _ | resize _ _ | close _ | info => simp [Accepted, attaches]

private theorem countP_snoc (c : ClientId) (queue : List SessionCommand) (cmd : SessionCommand) :
    (queue ++ [cmd]).countP (attaches c) ≠ 0 ↔
      attaches c cmd = true ∨ queue.countP (attaches c) ≠ 0 := by
  rw [List.countP_append, List.countP_singleton]
  cases attaches c cmd <;> simp

private theorem countP_cons_ne (c : ClientId) (cmd : SessionCommand)
    (rest : List SessionCommand) :
    (cmd :: rest).countP (attaches c) ≠ 0 ↔
      attaches c cmd = true ∨ rest.countP (attaches c) ≠ 0 := by
  rw [List.countP_cons]
  cases attaches c cmd <;> simp

/-- Every step keeps the account of attaches. -/
theorem attaching_step {label : Label} (hw : Attaching opts w)
    (hstep : w.step opts label = some v) : Attaching opts v := by
  have hfeed : ∀ c, Feed opts c v := fun c => (kept_feed opts c).step (hw.feed c) hstep
  rcases step_view hstep with ⟨cmd, -, hsend⟩ | ⟨a, cmd, rest, -, hrun, hqueue, rfl⟩ |
    ⟨-, -, rfl⟩ | ⟨-, -, -, hpassive, hphase⟩
  · obtain ⟨next, rfl, -, -, -⟩ := send_eq_some hsend
    refine ⟨hfeed, ?_, ?_⟩
    · intro c hc
      rw [accepted_send]
      exact ((countP_snoc c w.queue cmd).mp hc).imp_right (hw.queued c)
    · intro hrun c hc
      rw [accepted_send] at hc
      rcases hc with hcmd | hacc
      · exact Or.inr ((countP_snoc c w.queue cmd).mpr (Or.inl hcmd))
      · rcases hw.waiting hrun c hacc with hattached | hwait
        · exact Or.inl (hattached.cons _)
        · exact Or.inr ((countP_snoc c w.queue cmd).mpr (Or.inr hwait))
  · have hview := received_view opts w a cmd rest
    refine ⟨hfeed, ?_, ?_⟩
    · intro c hc
      rw [hview.queue] at hc
      rw [hview.accepted]
      refine hw.queued c ?_
      rw [hqueue]
      exact (countP_cons_ne c cmd rest).mpr (Or.inr hc)
    · intro _ c hc
      rw [hview.accepted] at hc
      rw [hview.attached, hview.queue]
      rcases hw.waiting hrun c hc with hatt | hwait
      · exact Or.inl (Or.inr hatt)
      · rw [hqueue, countP_cons_ne] at hwait
        rcases hwait with hcmd | hrest
        · exact Or.inl (Or.inl hcmd)
        · exact Or.inr hrest
  · exact ⟨hfeed, hw.queued, fun hrun => nomatch hrun⟩
  · have hcalm := hpassive.calm
    refine ⟨hfeed, ?_, ?_⟩
    · intro c hc
      rw [hcalm.queue] at hc
      exact (hcalm.accepted c).mpr (hw.queued c hc)
    · intro hrun c hc
      have hwrun : w.phase = .running := by
        rcases hphase with hsame | ⟨-, hnot⟩ | ⟨-, -, hleft⟩
        · rw [← hsame]
          exact hrun
        · exact absurd hrun hnot
        · rw [hleft] at hrun
          cases hrun
      rw [hcalm.queue, hcalm.attached]
      exact hw.waiting hwrun c ((hcalm.accepted c).mp hc)

/-- A dead session that takes an attach or a close loses exactly the attaches behind
it. -/
theorem attachKept_command {cmd : SessionCommand} {rest : List SessionCommand}
    (hw : Attaching opts w) (hrun : w.phase = .running) (hqueue : w.queue = cmd :: rest)
    (hview : CommandView { w with queue := rest } cmd v) :
    v.AttachKept ↔ (w.session.isDead = true → endsDead cmd = true → ¬ Awaited rest) := by
  by_cases hends : (w.session.isDead && endsDead cmd) = true
  · have hleft : v.phase ≠ .running := by
      rw [hview.phase, if_pos hends]
      simp
    rw [Bool.and_eq_true] at hends
    constructor
    · rintro hkept - - ⟨c, hc⟩
      -- The attach behind was accepted, and neither it nor the command taken was executed for it.
      have hcount : w.queue.countP (attaches c) ≠ 0 := by
        rw [hqueue]
        exact (countP_cons_ne c cmd rest).mpr (Or.inr hc)
      obtain ⟨hone, hnot⟩ := (hw.feed c).pending hcount
      have hatt := hkept hleft c ((hview.accepted c).mpr (hw.queued c hcount))
      rcases (hview.attached c).mp hatt with hcmd | hbefore
      · rw [hqueue, List.countP_cons, if_pos hcmd] at hone
        omega
      · exact hnot hbefore
    · intro hlast _ c hacc
      rw [hview.attached]
      rcases hw.waiting hrun c ((hview.accepted c).mp hacc) with hatt | hwait
      · exact Or.inr hatt
      · rw [hqueue, countP_cons_ne] at hwait
        rcases hwait with hcmd | hrest
        · exact Or.inl hcmd
        · exact absurd ⟨c, hrest⟩ (hlast hends.1 hends.2)
  · have hrunning : v.phase = .running := by
      rw [hview.phase, if_neg hends]
      exact hrun
    refine iff_of_true (fun h => absurd hrunning h) ?_
    intro hdead hcmd
    exact absurd (by rw [hdead, hcmd]; rfl) hends

/-- An actor that ends before its loop loses exactly the attaches in its queue. -/
theorem attachKept_failed (hw : Attaching opts w) (hrun : w.phase = .running) :
    w.leave.AttachKept ↔ ¬ Awaited w.queue := by
  constructor
  · rintro hkept ⟨c, hc⟩
    exact ((hw.feed c).pending hc).2 (hkept (by simp [leave]) c (hw.queued c hc))
  · intro hnone _ c hacc
    rcases hw.waiting hrun c hacc with hatt | hwait
    · exact hatt
    · exact absurd ⟨c, hwait⟩ hnone

/-- Exactly the steps that break the condition lose an attach. -/
theorem attachKept_step {label : Label} (hw : Attaching opts w) (hkept : w.AttachKept)
    (hstep : w.step opts label = some v) : v.AttachKept ↔ w.LastOut label := by
  rcases step_view hstep with ⟨cmd, rfl, hsend⟩ | ⟨a, cmd, rest, rfl, hrun, hqueue, rfl⟩ |
    ⟨rfl, hrun, rfl⟩ | ⟨hnofail, hnosend, hnocmd, hpassive, hphase⟩
  · obtain ⟨next, rfl, -, -, hattach⟩ := send_eq_some hsend
    cases cmd with
    | attach req =>
        by_cases hrun : w.phase = .running
        · exact iff_of_true (fun h => absurd hrun h) hrun
        · refine iff_of_false ?_ hrun
          intro hafter
          obtain ⟨hfresh, -⟩ := hattach req rfl
          have hacc : Accepted req.outTx (.delivered (.attach req) :: w.history) :=
            ⟨req, rfl, List.mem_cons_self⟩
          obtain ⟨replay, hmem⟩ := hafter hrun req.outTx hacc
          have hatt : Attached req.outTx w.history := by
            rcases List.mem_cons.mp hmem with h | h
            · cases h
            · exact ⟨replay, h⟩
          have hissued := (hw.feed req.outTx).issued (Or.inr hatt)
          rw [hfresh] at hissued
          exact Nat.lt_irrefl _ hissued
    | input _ | resize _ _ | close _ | info =>
        refine iff_of_true ?_ trivial
        intro hphase c hacc
        rw [accepted_send] at hacc
        have hattached := hkept hphase c (hacc.resolve_left (by simp [attaches]))
        exact hattached.cons _
  · rw [attachKept_command hw hrun hqueue (received_view opts w a cmd rest)]
    constructor
    · intro hlast cmd' rest' hqueue'
      rw [hqueue] at hqueue'
      cases hqueue'
      exact hlast
    · exact fun h => h cmd rest hqueue
  · exact attachKept_failed hw hrun
  · have hok : w.LastOut label := by
      cases label with
      | asyncFdFailed => exact absurd rfl hnofail
      | send cmd => exact absurd rfl (hnosend cmd)
      | command a =>
          intro cmd rest hqueue
          rw [hnocmd a rfl] at hqueue
          cases hqueue
      | asyncFdOk | dropSenders | writer _ | elapse _ | readable _ | readableError | grace | kill _
      | tick _ | remove | finish => trivial
    refine iff_of_true ?_ hok
    have hcalm := hpassive.calm
    intro hv c hacc
    rw [hcalm.attached]
    have hwacc := (hcalm.accepted c).mp hacc
    rcases hphase with hsame | ⟨hnot, -⟩ | ⟨hrun, hempty, -⟩
    · exact hkept (by rw [← hsame]; exact hv) c hwacc
    · exact hkept hnot c hwacc
    · rcases hw.waiting hrun c hwacc with hatt | hwait
      · exact hatt
      · rw [hempty] at hwait
        exact absurd rfl hwait

/-- A lost attach stays lost. -/
theorem not_attachKept_step {label : Label} (hlost : ¬ w.AttachKept)
    (hstep : w.step opts label = some v) : ¬ v.AttachKept := by
  simp only [AttachKept, not_forall] at hlost
  obtain ⟨hphase, c, hacc, hnot⟩ := hlost
  intro hkept
  rcases step_view hstep with ⟨cmd, -, hsend⟩ | ⟨a, cmd, rest, -, hrun, -, -⟩ | ⟨-, hrun, -⟩ |
    ⟨-, -, -, hpassive, hview⟩
  · obtain ⟨next, rfl, -, -, -⟩ := send_eq_some hsend
    obtain ⟨replay, hmem⟩ := hkept hphase c ((accepted_send c).mpr (Or.inr hacc))
    rcases List.mem_cons.mp hmem with h | h
    · cases h
    · exact hnot ⟨replay, h⟩
  · exact hphase hrun
  · exact hphase hrun
  · have hcalm := hpassive.calm
    refine hnot ((hcalm.attached c).mp (hkept ?_ c ((hcalm.accepted c).mpr hacc)))
    rcases hview with hsame | ⟨-, hleft⟩ | ⟨hrun, -, -⟩
    · rw [hsame]
      exact hphase
    · exact hleft
    · exact absurd hrun hphase

/-- In every run of a session's actor and the connections that send to it: every
accepted attach is executed before the actor ends iff none waits when the registration
of the master fails, no attach is sent after the loop was left, and a dead session
takes an attach or a close only with no further attach behind it. -/
theorem attachKept_iff (opts : ServerOpts) (session : Session) (labels : List Label) (w : World)
    (hrun : (machine opts).run (start session) labels = some w) :
    w.AttachKept ↔ (machine opts).Along LastOut (start session) labels :=
  (machine opts).good_iff_along (motive := Attaching opts)
    (fun _ _ _ hw hstep => attaching_step hw hstep)
    (fun _ _ _ hw hkept hstep => attachKept_step hw hkept hstep)
    (fun _ _ _ _ hlost hstep => not_attachKept_step hlost hstep)
    (attaching_start opts session) (fun h => absurd rfl h) hrun

/-- The shell exits, and one client comes back for its last output. -/
def lateAttach : List Label :=
  [.asyncFdOk, .readable { Answers.none with reads := [.ok []], waits := [.ok (.exited 0)] },
    .send (.attach ⟨0, 80, 24, 0⟩), .command .none, .remove, .finish]

/-- The client is told, and nothing is lost. -/
theorem attachKept_lateAttach :
    ∃ w, (machine .default).run (start shell) lateAttach = some w ∧ w.phase = .finished ∧
      w.AttachKept ∧ (machine .default).Along LastOut (start shell) lateAttach := by
  have hsome : ((machine .default).run (start shell) lateAttach).isSome = true := by decide +kernel
  have hend : ∀ w ∈ (machine .default).run (start shell) lateAttach,
      w.phase = .finished ∧
        marks w.history = [.attached 0 [], .delivered (.attach ⟨0, 80, 24, 0⟩)] := by
    decide +kernel
  obtain ⟨w, hw⟩ := Option.isSome_iff_exists.mp hsome
  obtain ⟨hphase, hmarks⟩ := hend w hw
  have hkept : w.AttachKept := by
    intro _ c hacc
    rw [accepted_iff_marks, hmarks] at hacc
    rw [attached_iff_marks, hmarks]
    obtain ⟨req, hc, hmem⟩ := hacc
    simp only [List.mem_cons, reduceCtorEq, delivered.injEq, SessionCommand.attach.injEq,
      List.not_mem_nil, or_false, false_or] at hmem
    subst hmem
    subst hc
    exact ⟨[], List.mem_cons_self⟩
  exact ⟨w, hw, hphase, hkept, (attachKept_iff .default shell lateAttach w hw).mp hkept⟩

/-- The shell exits, and two clients come back for its last output. -/
def twoLateAttaches : List Label :=
  [.asyncFdOk, .readable { Answers.none with reads := [.ok []], waits := [.ok (.exited 0)] },
    .send (.attach ⟨0, 80, 24, 0⟩), .send (.attach ⟨0, 80, 24, 1⟩), .command .none, .remove,
    .finish]

/-- The second client's attach was accepted and never executed. -/
theorem attach_lost_behind_dead_attach :
    ∃ w, (machine .default).run (start shell) twoLateAttaches = some w ∧ w.phase = .finished ∧
      Accepted 1 w.history ∧ ¬ Attached 1 w.history ∧ ¬ w.AttachKept := by
  have hsome : ((machine .default).run (start shell) twoLateAttaches).isSome = true := by
    decide +kernel
  have hend : ∀ w ∈ (machine .default).run (start shell) twoLateAttaches,
      w.phase = .finished ∧ marks w.history = [.attached 0 [],
        .delivered (.attach ⟨0, 80, 24, 1⟩), .delivered (.attach ⟨0, 80, 24, 0⟩)] := by
    decide +kernel
  obtain ⟨w, hw⟩ := Option.isSome_iff_exists.mp hsome
  obtain ⟨hphase, hmarks⟩ := hend w hw
  have hacc : Accepted 1 w.history := by
    rw [accepted_iff_marks, hmarks]
    exact ⟨⟨0, 80, 24, 1⟩, rfl, by simp⟩
  have hnot : ¬ Attached 1 w.history := by
    rw [attached_iff_marks, hmarks]
    simp [Attached]
  exact ⟨w, hw, hphase, hacc, hnot, fun hkept => hnot (hkept (by simp [hphase]) 1 hacc)⟩

end World

end JftermMuxer.Daemon
