import JftermMuxer.Daemon.Escalation
import JftermMuxer.Daemon.Handshake

/-!
# The retention of a dead session

When the shell of a session exits without a CLOSE, the actor of
{lit}`jftermd/src/server.rs` stays in its loop for {lit}`dead_grace`, so that one more
client can attach, read the last output and learn the exit status.

Main results:

- Theorem {lit}`World.retaining_step`: a step keeps the deadline of a dead session at its
  exit's time plus the grace.
- Theorem {lit}`World.ends_dead`: what can end the loop of a dead session.
- Theorem {lit}`World.dead_retention`: it ends no sooner and no later than the deadline, and
  an attach before that gets the last output and EXIT.
-/

namespace JftermMuxer.Daemon

open JftermMuxer.Foundation

namespace Event

/-- The exit with this status was reported at this time. -/
def ExitAt (h : List Event) (code : Int) (t : Nat) : Prop :=
  ∃ since data older, h = since ++ .drained data (some code) :: older ∧ t = clock older

/-- The time of the exit stays. -/
theorem ExitAt.append {h : List Event} {code : Int} {t : Nat} (hh : ExitAt h code t)
    (es : List Event) : ExitAt (es ++ h) code t := by
  obtain ⟨since, data, older, rfl, ht⟩ := hh
  exact ⟨es ++ since, data, older, by rw [List.append_assoc], ht⟩

end Event

namespace World

open Event

variable {opts : ServerOpts} {w v : World}

/-- A dead session is retained until its exit's time plus the grace. -/
def Retaining (opts : ServerOpts) (w : World) : Prop :=
  w.phase = .running → ∀ code, w.session.lifecycle = .dead code →
    ∃ t, ExitAt w.history code t ∧ w.graceDeadline = some (t + opts.deadGrace)

/-- The report of an exit ends the loop or retains the session from now on. -/
theorem onExit_retains (opts : ServerOpts) (w : World) (code : Int) :
    (w.onExit opts code).session = w.session ∧
      (∃ es, (w.onExit opts code).history = es ++ w.history) ∧
      ((w.onExit opts code).phase = .running →
        (w.onExit opts code).graceDeadline = some (w.now + opts.deadGrace)) := by
  have hpush := outward_pushOrDrop opts w (exitFrame code)
  obtain ⟨es, hes, -⟩ := hpush.sends
  unfold onExit
  simp only
  split
  · exact ⟨hpush.session, ⟨es, hes⟩, fun h => by cases h⟩
  · refine ⟨hpush.session, ⟨es, hes⟩, fun _ => ?_⟩
    simp only
    rw [hpush.apart.now]

/-- What a drain does to a session's life and its deadline: nothing, or it reports an exit,
and the actor leaves or retains the session from now on. -/
theorem onReadable_retains (opts : ServerOpts) (w : World) :
    ((w.onReadable opts).session.lifecycle = w.session.lifecycle ∧
        (w.onReadable opts).graceDeadline = w.graceDeadline) ∨
      w.session.isDead = false ∧ ∃ data code es,
        (w.onReadable opts).session.lifecycle = .dead code ∧
          (w.onReadable opts).history = es ++ .drained data (some code) :: w.history ∧
          ((w.onReadable opts).phase = .running →
            (w.onReadable opts).graceDeadline = some (w.now + opts.deadGrace)) := by
  obtain ⟨hdies, hstays⟩ := w.session.lifecycle_drain w.os
  rcases hdrained : w.session.drain w.os with ⟨_ | ⟨data, status, exit⟩, session, os⟩
  · rw [hdrained] at hstays
    rw [onReadable_error hdrained]
    exact Or.inl ⟨hstays (by simp), rfl⟩
  · rw [hdrained] at hdies hstays
    rw [onReadable_ok hdrained]
    have hchat : ∀ u : World, ((u.forwardData opts data).refreshStatus opts).session = u.session :=
      fun u => ((chat_forwardData opts u data).trans (chat_refreshStatus opts _)).session
    have hapart : ∀ u : World, Apart u ((u.forwardData opts data).refreshStatus opts) :=
      fun u => (outward_forwardData opts u data).apart.trans (apart_refreshStatus opts _)
    cases exit with
    | none =>
        refine Or.inl ⟨?_, (hapart _).graceDeadline⟩
        rw [hchat]
        exact hstays (by simp)
    | some code =>
        obtain ⟨hlive, hlifecycle⟩ := hdies _ rfl code rfl
        refine Or.inr ⟨hlive, data, code, ?_⟩
        have hafter := hapart (World.record { w with session, os } (.drained data (some code)))
        obtain ⟨es, hes, -⟩ := hafter.events
        have hnow := hafter.now
        have hsession := hchat (World.record { w with session, os } (.drained data (some code)))
        generalize ((World.record { w with session, os } (.drained data (some code))).forwardData
          opts data).refreshStatus opts = u at hes hnow hsession
        obtain ⟨hkept, ⟨fs, hfs⟩, hdeadline⟩ := onExit_retains opts u code
        refine ⟨fs ++ es, ?_, ?_, ?_⟩
        · change (u.onExit opts code).session.lifecycle = _
          rw [hkept, hsession]
          exact hlifecycle
        · change (u.onExit opts code).history = _
          rw [hfs, hes, List.append_assoc]
          rfl
        · intro hphase
          change (u.onExit opts code).graceDeadline = _
          rw [hdeadline hphase, hnow]
          rfl

/-- Only a drain moves the deadline of a loop that goes on. -/
theorem graceDeadline_step {label : Label} (hstep : w.step opts label = some v) :
    v.graceDeadline = w.graceDeadline ∨ ∃ a, v = (w.answer a).onReadable opts := by
  rcases step_escalation hstep with hapart | ⟨ms, rfl⟩ | ⟨a, graceMs, rest, rfl⟩ |
    ⟨a, -, rfl⟩ | ⟨a, -, rfl⟩
  · exact Or.inl hapart.graceDeadline
  · exact Or.inl rfl
  · unfold onClose
    simp only
    split
    · exact Or.inl rfl
    · exact Or.inl ((outward_farewell opts _ _).apart.trans (apart_leave _)).graceDeadline
  · unfold onKill
    simp only
    split
    · exact Or.inl rfl
    · exact Or.inl rfl
  · exact Or.inr ⟨a, rfl⟩

/-- Every step keeps the deadline of a dead session. -/
theorem retaining_step {label : Label} (hw : Retaining opts w) (hexiting : Exiting opts w)
    (hescalating : Escalating w) (hstep : w.step opts label = some v) : Retaining opts v := by
  intro hrunning code hdead
  have hbefore := running_of_step hstep hrunning
  obtain ⟨es, hes⟩ := history_step hstep
  cases hlifecycle : w.session.lifecycle with
  | dead status =>
      have hwasDead : w.session.isDead = true := by rw [Session.isDead, hlifecycle]
      have hsame : v.session.lifecycle = w.session.lifecycle := by
        rcases step_report hexiting hstep with ⟨hreport, -⟩ | ⟨d, ok, hfarewell, -⟩
        · exact hreport.lifecycle hwasDead
        · rw [hfarewell.left] at hrunning
          cases hrunning
      rw [hsame] at hdead
      obtain ⟨t, hexit, hdeadline⟩ := hw hbefore code hdead
      refine ⟨t, ?_, ?_⟩
      · rw [← hes]
        exact hexit.append es
      · rw [← hdeadline]
        rcases graceDeadline_step hstep with hgrace | ⟨a, rfl⟩
        · exact hgrace
        · rcases onReadable_retains opts (w.answer a) with ⟨-, hgrace⟩ | ⟨hlive, -⟩
          · exact hgrace
          · rw [show (w.answer a).session.isDead = w.session.isDead from rfl, hwasDead] at hlive
            cases hlive
  | live =>
      have hwasLive : w.session.isDead = false := by rw [Session.isDead, hlifecycle]
      have hnowDead : v.session.isDead = true := by rw [Session.isDead, hdead]
      rcases isDead_step hstep with hsame | ⟨a, -, rfl⟩
      · rw [hsame, hwasLive] at hnowDead
        cases hnowDead
      · rcases onReadable_retains opts (w.answer a) with ⟨hsame, -⟩ |
          ⟨-, data, status, fs, hstored, hhistory, hdeadline⟩
        · rw [hsame] at hdead
          rw [show (w.answer a).session.lifecycle = w.session.lifecycle from rfl, hlifecycle] at hdead
          cases hdead
        · rw [hdead, Lifecycle.dead.injEq] at hstored
          subst hstored
          exact ⟨w.now, ⟨fs, data, w.history, hhistory, hescalating.now⟩, hdeadline hrunning⟩

/-- A dead session is neither drained nor polled. -/
theorem not_polled_of_dead {label : Label} (hstep : w.step opts label = some v)
    (hdead : w.session.isDead = true) :
    (∀ a, label ≠ .readable a) ∧ label ≠ .readableError ∧ ∀ a, label ≠ .tick a := by
  have hnot : w.session.isDead ≠ false := by
    rw [hdead]
    simp
  refine ⟨?_, ?_, ?_⟩
  · rintro a rfl
    exact hnot (readable_eq_some hstep).2.1
  · rintro rfl
    exact hnot (readableError_eq_some hstep).2.1
  · rintro a rfl
    exact hnot (tick_eq_some hstep).2.1

/-- Is the step an arm of the loop? -/
def Label.isArm : Label → Bool
  | .command _ | .readable _ | .readableError | .grace | .kill _ | .tick _ => true
  | .asyncFdOk | .asyncFdFailed | .send _ | .dropSenders | .writer _ | .elapse _ | .remove
  | .finish => false

/-- Only the loop finds out that the shell has exited. -/
theorem registered_of_dead_step {label : Label} (hstep : w.step opts label = some v)
    (hw : w.session.isDead = true → w.registered = true) (hdead : v.session.isDead = true) :
    v.registered = true := by
  rcases isDead_step hstep with hsame | ⟨a, hidle, -⟩
  · exact registered_step hstep (hw (hsame.symm.trans hdead))
  · exact registered_step hstep (idle_iff.mp hidle).2.2.2

/-- What ends the loop of a dead session: an attach or a CLOSE, the loss of all senders, or
the deadline. -/
theorem ends_dead {label : Label} (hstep : w.step opts label = some v) (hloop : w.phase = .running)
    (hregistered : w.registered = true) (hdead : w.session.isDead = true) (hleft : v.phase ≠ .running) :
    (∃ a, label = .command a ∧ ((w.queue = [] ∧ w.sendersAlive = false) ∨
        ∃ cmd, w.queue.head? = some cmd ∧ (cmd.isAttach = true ∨ cmd.isClose = true))) ∨
      label = .grace ∧ w.due w.graceDeadline = true := by
  cases label with
  | asyncFdOk =>
      obtain ⟨-, -, rfl⟩ := asyncFdOk_eq_some hstep
      exact absurd hloop hleft
  | asyncFdFailed =>
      obtain ⟨-, hfresh, -⟩ := asyncFdFailed_eq_some hstep
      rw [hregistered] at hfresh
      cases hfresh
  | send cmd =>
      obtain ⟨next, rfl, -⟩ := send_eq_some hstep
      exact absurd hloop hleft
  | dropSenders =>
      cases hstep
      exact absurd hloop hleft
  | writer move =>
      cases hstep
      rw [writerMove_eq] at hleft
      exact absurd hloop hleft
  | elapse ms =>
      cases hstep
      exact absurd hloop hleft
  | command a =>
      obtain ⟨-, ⟨hempty, hsenders, -⟩ | ⟨cmd, rest, hqueue, rfl⟩⟩ := command_eq_some hstep
      · exact Or.inl ⟨a, rfl, Or.inl ⟨hempty, hsenders⟩⟩
      · refine Or.inl ⟨a, rfl, Or.inr ⟨cmd, by rw [hqueue]; rfl, ?_⟩⟩
        cases cmd with
        | attach req => exact Or.inl rfl
        | close graceMs => exact Or.inr rfl
        | input bytes => exact absurd hloop hleft
        | resize cols rows => exact absurd hloop hleft
        | info => exact absurd hloop hleft
  | readable a => exact absurd rfl ((not_polled_of_dead hstep hdead).1 a)
  | readableError => exact absurd rfl (not_polled_of_dead hstep hdead).2.1
  | grace =>
      obtain ⟨-, hdue, -⟩ := grace_eq_some hstep
      exact Or.inr ⟨rfl, hdue⟩
  | kill a =>
      obtain ⟨-, -, rfl⟩ := kill_eq_some hstep
      unfold onKill kill at hleft
      simp only at hleft
      split at hleft
      · exact absurd hloop hleft
      · exact absurd hloop hleft
  | tick a => exact absurd rfl ((not_polled_of_dead hstep hdead).2.2 a)
  | remove =>
      obtain ⟨hphase, -⟩ := remove_eq_some hstep
      rw [hloop] at hphase
      cases hphase
  | finish =>
      obtain ⟨hphase, -⟩ := finish_eq_some hstep
      rw [hloop] at hphase
      cases hphase

/-- Once the deadline of a dead session has passed and nothing is queued, its actor can
only end. -/
theorem arm_of_due {label : Label} (hstep : w.step opts label = some v) (hidle : w.idle = true)
    (hdead : w.session.isDead = true) (hdue : w.due w.graceDeadline = true)
    (harm : label.isArm = true) : label = .grace := by
  obtain ⟨-, hqueue, hsenders, -⟩ := idle_iff.mp hidle
  cases label with
  | grace => rfl
  | command a =>
      obtain ⟨-, ⟨-, hnone, -⟩ | ⟨cmd, rest, hsome, -⟩⟩ := command_eq_some hstep
      · rw [hsenders] at hnone
        cases hnone
      · rw [hqueue] at hsome
        cases hsome
  | readable a => exact absurd rfl ((not_polled_of_dead hstep hdead).1 a)
  | readableError => exact absurd rfl (not_polled_of_dead hstep hdead).2.1
  | kill a => simp [step, hdue] at hstep
  | tick a => simp [step, hdue] at hstep
  | asyncFdOk | asyncFdFailed | send cmd | dropSenders | writer move | elapse ms | remove | finish =>
      cases harm

/-- In every run, a dead session in its loop is retained: no CLOSE has come, and its actor
stays until the time of the exit plus the grace, unless an attach or a CLOSE comes first or
all senders are gone; then, while a sender lives and nothing is queued, it can only end.  An
attach in between is offered the replay, STATUS and EXIT, all of which fit its queue if that
has room for them, and ends the actor. -/
theorem dead_retention (opts : ServerOpts) (session : Session) (hlive : session.lifecycle = .live)
    (labels : List Label) (w : World) (hrun : (machine opts).run (start session) labels = some w)
    (hloop : w.phase = .running) (code : Int) (hdead : w.session.lifecycle = .dead code) :
    ∃ t, ExitAt w.history code t ∧ (∀ graceMs, .received (.close graceMs) ∉ w.history) ∧
      (∀ label v, w.step opts label = some v → v.phase ≠ .running →
        (∃ a, label = .command a ∧ ((w.queue = [] ∧ w.sendersAlive = false) ∨
            ∃ cmd, w.queue.head? = some cmd ∧ (cmd.isAttach = true ∨ cmd.isClose = true))) ∨
          label = .grace ∧ t + opts.deadGrace ≤ clock w.history) ∧
      (t + opts.deadGrace ≤ clock w.history → w.idle = true →
        w.step opts .grace = some w.leave ∧
          ∀ label v, w.step opts label = some v → label.isArm = true → label = .grace) ∧
      ∀ a req rest v, w.queue = .attach req :: rest → w.step opts (.command a) = some v →
        v.phase = .left ∧ ∃ es replay status,
          v.history = es ++ .attached req.outTx replay :: .received (.attach req) :: w.history ∧
            if Room.takes opts.outQueue req.outTx (w.burst req).length a.moves (w.room req.outTx) then
              frames req.outTx es = frameData replay ++ [statusFrame status, exitFrame code]
            else Gap req.outTx es := by
  have hinvariant : (Exiting opts w ∧ Escalating w) ∧ Retaining opts w ∧
      (w.session.isDead = true → w.registered = true) := by
    apply (machine opts).run_induct
      (motive := fun x => (Exiting opts x ∧ Escalating x) ∧ Retaining opts x ∧
        (x.session.isDead = true → x.registered = true)) ?_ ?_ hrun
    · rintro x label y ⟨⟨hexiting, hescalating⟩, hx, hregistered⟩ hstep
      exact ⟨⟨exiting_step hexiting hstep, escalating_step hescalating hstep⟩,
        retaining_step hx hexiting hescalating hstep, registered_of_dead_step hstep hregistered⟩
    · refine ⟨⟨exiting_start opts session, escalating_start hlive⟩, ?_, ?_⟩
      · intro _ status hstatus
        rw [show (start session).session.lifecycle = session.lifecycle from rfl, hlive] at hstatus
        cases hstatus
      · intro hdead
        rw [(escalating_start hlive).dead] at hdead
        cases hdead
  obtain ⟨⟨-, hescalating⟩, hretaining, hregistered⟩ := hinvariant
  have hisDead : w.session.isDead = true := by rw [Session.isDead, hdead]
  obtain ⟨t, hexit, hdeadline⟩ := hretaining hloop code hdead
  have hdue : w.due w.graceDeadline = true ↔ t + opts.deadGrace ≤ clock w.history := by
    rw [hdeadline, due, decide_eq_true_eq, hescalating.now]
  refine ⟨t, hexit, ?_, ?_, ?_, ?_⟩
  · intro graceMs hclose
    have hclosing : w.closing = true := hescalating.closing.trans (any_closes_iff.mpr ⟨graceMs, hclose⟩)
    have halive := hescalating.ending hclosing hloop
    rw [hisDead] at halive
    cases halive
  · intro label v hstep hleft
    rcases ends_dead hstep hloop (hregistered hisDead) hisDead hleft with hcommand | ⟨rfl, hover⟩
    · exact Or.inl hcommand
    · exact Or.inr ⟨rfl, hdue.mp hover⟩
  · intro hover hidle
    refine ⟨?_, fun label v hstep harm => arm_of_due hstep hidle hisDead (hdue.mpr hover) harm⟩
    simp [step, hidle, hdue.mpr hover]
  · intro a req rest v hqueue hstep
    obtain ⟨-, ⟨hempty, -⟩ | ⟨cmd, more, hsome, rfl⟩⟩ := command_eq_some hstep
    · rw [hqueue] at hempty
      cases hempty
    · rw [hqueue] at hsome
      cases hsome
      obtain ⟨u, hu⟩ := onAttach_eq opts w a req rest
      obtain ⟨es, replay, hburst, hhistory, -, houtcome⟩ := hu.events
      refine ⟨?_, es, replay, u.effectiveStatus, hhistory, ?_⟩
      · have hphase := hu.phase
        rwa [if_pos hisDead] at hphase
      · rw [hburst, hdead] at houtcome
        split
        · rename_i htakes
          rw [if_pos htakes] at houtcome
          exact houtcome.1
        · rename_i htakes
          rw [if_neg htakes] at houtcome
          exact houtcome

/-- The shell exits while a client is bound; another one attaches just before the session
would be given up. -/
def lateVisit : List Label :=
  [.asyncFdOk, .send (.attach ⟨0, 80, 24, 0⟩), .command .none,
    .readable { Answers.none with reads := [.ok [98, 121, 101], .ok []], waits := [.ok (.exited 3)] },
    .elapse 29999, .send (.attach ⟨0, 80, 24, 1⟩)]

/-- The visitor is told everything, and the actor ends. -/
theorem dead_retention_lateVisit :
    ∃ w v, (machine .default).run (start shell) lateVisit = some w ∧
      w.step .default (.command .none) = some v ∧ v.phase = .left ∧ ∃ es replay status,
        v.history = es ++ .attached 1 replay :: .received (.attach ⟨0, 80, 24, 1⟩) :: w.history ∧
          frames 1 es = frameData replay ++ [statusFrame status, exitFrame 3] := by
  have hsome : ((machine .default).run (start shell) lateVisit).isSome = true := by decide +kernel
  have hstate : ∀ w ∈ (machine .default).run (start shell) lateVisit,
      w.phase = .running ∧ w.session.lifecycle = .dead 3 ∧ w.queue = [.attach ⟨0, 80, 24, 1⟩] ∧
        (w.step .default (.command .none)).isSome = true ∧
        Room.takes ServerOpts.default.outQueue 1 (w.burst ⟨0, 80, 24, 1⟩).length Answers.none.moves
          (w.room 1) = true := by
    decide +kernel
  obtain ⟨w, hw⟩ := Option.isSome_iff_exists.mp hsome
  obtain ⟨hloop, hdead, hqueue, hstepped, hroom⟩ := hstate w hw
  obtain ⟨v, hv⟩ := Option.isSome_iff_exists.mp hstepped
  obtain ⟨t, -, -, -, -, hattach⟩ :=
    dead_retention .default shell rfl lateVisit w hw hloop 3 hdead
  obtain ⟨hleft, es, replay, status, hhistory, hframes⟩ := hattach .none _ [] v hqueue hv
  rw [if_pos hroom] at hframes
  exact ⟨w, v, hw, hv, hleft, es, replay, status, hhistory, hframes⟩

end World

end JftermMuxer.Daemon
