import JftermMuxer.Daemon.Attach

/-!
# Detached sessions keep running

Leaving the actor's loop drops the session, and dropping it kills the shell.  As
long as nobody sends a CLOSE, the PTY can be read and the registry holds its
sender, a client that detaches, stalls or is replaced never takes the actor out of
its loop; only the end of the shell does, and then only through a later attach or
the end of the retention.

Main results:

- Theorem {lit}`World.detached_step`: an undisturbed step keeps the invariant, and
  leaves the loop only for one of the two reasons.
- Theorem {lit}`World.detach_never_kills`: the same for every undisturbed run.
-/

namespace JftermMuxer.Daemon

open JftermMuxer.Foundation

/-- A drain that reports the exit of the shell. -/
def Event.reportsExit : Event → Bool
  | .drained _ (some _) => true
  | _ => false

namespace World

open Event

variable {opts : ServerOpts} {w v : World}

/-- A drain reported that the shell has exited. -/
def ExitReported (h : List Event) : Prop := ∃ data code, .drained data (some code) ∈ h

/-- The actor takes no CLOSE, and the registry's sender lives until the actor removes
its entry.  No PTY operation of the actor fails: the master is registered, waiting for
it succeeds, and a drain neither fails to read nor, at the end of the output, to reap. -/
@[reducible] def Undisturbed (w : World) : Label → Prop
  | .asyncFdFailed => False
  | .dropSenders => w.phase = .removed ∨ w.phase = .finished
  | .command _ => ∀ cmd ∈ w.queue.head?, cmd.isClose = false
  | .readable a => (w.session.drain (w.answer a).os).1.isOk = true
  | .readableError => False
  | _ => True

instance decidableUndisturbed (w : World) : DecidablePred w.Undisturbed := Label.decidable _

/-- The reasons to leave the loop: the shell's exit was reported, and either an
attach is taken or the retention is over. -/
def Ending (w : World) (label : Label) : Prop :=
  ExitReported w.history ∧
    ((∃ a req rest, label = .command a ∧ w.queue = .attach req :: rest) ∨
      (label = .grace ∧ ∃ deadline, w.graceDeadline = some deadline ∧ deadline ≤ w.now))

/-- What an undisturbed run keeps: nothing asks for the shell's end, and whatever
speaks of it comes after the report of its exit. -/
structure Detached (w : World) : Prop where
  senders : w.phase = .running ∨ w.phase = .left → w.sendersAlive = true
  unclosed : w.closing = false
  unkilled : w.killDeadline = none
  dead : w.session.isDead = true → ExitReported w.history
  retained : w.graceDeadline ≠ none → ExitReported w.history
  ended : w.phase ≠ .running → ExitReported w.history
  unsignalled : ∀ sig, .signalled sig ∉ w.history

/-! ## Steady moves -/

/-- A move that signals nobody and leaves the deadlines, the flags and the shell's
life as they are. -/
structure Steady (w v : World) : Prop where
  dead : v.session.isDead = w.session.isDead
  phase : v.phase = w.phase
  closing : v.closing = w.closing
  killDeadline : v.killDeadline = w.killDeadline
  graceDeadline : v.graceDeadline = w.graceDeadline
  sendersAlive : v.sendersAlive = w.sendersAlive
  events : ∃ es, v.history = es ++ w.history ∧ ∀ sig, .signalled sig ∉ es

namespace Steady

/-- Steady moves add up. -/
theorem trans {u : World} (huv : Steady u v) (hvw : Steady v w) : Steady u w := by
  refine ⟨hvw.dead.trans huv.dead, hvw.phase.trans huv.phase, hvw.closing.trans huv.closing,
    hvw.killDeadline.trans huv.killDeadline, hvw.graceDeadline.trans huv.graceDeadline,
    hvw.sendersAlive.trans huv.sendersAlive, ?_⟩
  obtain ⟨es, hes, hquiet⟩ := huv.events
  obtain ⟨fs, hfs, hmore⟩ := hvw.events
  refine ⟨fs ++ es, by rw [hfs, hes, List.append_assoc], ?_⟩
  intro sig hsig
  rcases List.mem_append.mp hsig with hsig | hsig
  · exact hmore sig hsig
  · exact hquiet sig hsig

/-- A steady move keeps a reported exit. -/
theorem reported (h : Steady w v) (hexit : ExitReported w.history) : ExitReported v.history := by
  obtain ⟨es, hes, -⟩ := h.events
  obtain ⟨data, code, hmem⟩ := hexit
  exact ⟨data, code, by rw [hes]; exact List.mem_append_right es hmem⟩

private theorem unsignalled (h : Steady w v) (hw : ∀ sig, .signalled sig ∉ w.history) :
    ∀ sig, .signalled sig ∉ v.history := by
  obtain ⟨es, hes, hquiet⟩ := h.events
  intro sig hsig
  rw [hes, List.mem_append] at hsig
  rcases hsig with hsig | hsig
  · exact hquiet sig hsig
  · exact hw sig hsig

/-- A steady move keeps the loop undisturbed. -/
theorem detached (h : Steady w v) (hw : Detached w) : Detached v := by
  constructor
  · rw [h.phase, h.sendersAlive]
    exact hw.senders
  · rw [h.closing]
    exact hw.unclosed
  · rw [h.killDeadline]
    exact hw.unkilled
  · rw [h.dead]
    exact fun hdead => h.reported (hw.dead hdead)
  · rw [h.graceDeadline]
    exact fun hsome => h.reported (hw.retained hsome)
  · rw [h.phase]
    exact fun hended => h.reported (hw.ended hended)
  · exact h.unsignalled hw.unsignalled

end Steady

/-- A move that touches only the clients, the queues, the status, the clock and the
kernel. -/
theorem steady_of_eq
    (h : v = { w with
      client := v.client, lastStatus := v.lastStatus, pollRunning := v.pollRunning,
      queue := v.queue, nextClient := v.nextClient, outQueues := v.outQueues, now := v.now,
      os := v.os, moves := v.moves }) : Steady w v := by
  refine ⟨?_, ?_, ?_, ?_, ?_, ?_, [], ?_, by simp⟩
  all_goals rw [h]
  rfl

private theorem steady_record {e : Event} (he : ∀ sig, e ≠ .signalled sig) (w : World) :
    Steady w (w.record e) := by
  refine ⟨rfl, rfl, rfl, rfl, rfl, rfl, [e], rfl, ?_⟩
  intro sig hsig
  exact he sig (List.mem_singleton.mp hsig).symm

private theorem steady_answer (w : World) (a : Answers) : Steady w (w.answer a) := steady_of_eq rfl

private theorem steady_poll (w : World) : Steady w w.poll := steady_of_eq rfl

private theorem steady_resize (w : World) (cols rows : UInt16) : Steady w (w.resize cols rows) :=
  ⟨w.session.isDead_resize w.os cols rows, rfl, rfl, rfl, rfl, rfl, [], rfl, by simp⟩

private theorem Outward.steady (h : Outward w v) : Steady w v := by
  refine ⟨by rw [h.same], by rw [h.same], by rw [h.same], by rw [h.same], by rw [h.same],
    by rw [h.same], ?_⟩
  obtain ⟨es, hes, hsent⟩ := h.sends
  refine ⟨es, hes, ?_⟩
  intro sig hsig
  obtain ⟨c, f, stage, ok, heq⟩ := hsent _ hsig
  cases heq

private theorem steady_pushStatus (opts : ServerOpts) (w : World) : Steady w (w.pushStatus opts) := by
  unfold pushStatus
  split
  · exact steady_of_eq rfl
  · have hpush := (outward_pushOrDrop opts w (statusFrame w.effectiveStatus)).steady
    exact ⟨hpush.dead, hpush.phase, hpush.closing, hpush.killDeadline, hpush.graceDeadline,
      hpush.sendersAlive, hpush.events⟩

private theorem steady_refreshStatus (opts : ServerOpts) (w : World) :
    Steady w (w.refreshStatus opts) := by
  rcases refreshStatus_cases opts w with ⟨-, heq⟩ | ⟨-, heq | heq⟩
  · rw [heq]
    exact steady_of_eq rfl
  · rw [heq]
    exact (steady_poll w).trans (steady_pushStatus opts _)
  · rw [heq]
    exact steady_pushStatus opts w

private theorem steady_bindClient (opts : ServerOpts) (w : World) (req : AttachRequest) :
    Steady w (w.bindClient opts req) := by
  have hbound : ∀ u : World, Steady u { u.attachClient opts req with
      lastStatus := some (u.attachClient opts req).effectiveStatus } := by
    intro u
    have hshake := ((steady_resize u req.cols req.rows).trans (steady_record (by simp) _)).trans
      (outward_handshake opts (u.resize req.cols req.rows) req).steady
    exact ⟨hshake.dead, hshake.phase, hshake.closing, hshake.killDeadline, hshake.graceDeadline,
      hshake.sendersAlive, hshake.events⟩
  unfold bindClient
  simp only
  split
  · exact hbound w
  · exact (steady_poll w).trans (hbound w.poll)

/-! ## The arms -/

/-- An actor may leave its loop after a reported exit. -/
theorem Detached.leave (hw : Detached w) (hrun : w.phase = .running)
    (hexit : ExitReported w.history) : Detached w.leave :=
  ⟨fun _ => hw.senders (Or.inl hrun), hw.unclosed, hw.unkilled, hw.dead, hw.retained,
    fun _ => hexit, hw.unsignalled⟩

/-- An attach ends the actor only when the exit was reported. -/
theorem detached_onAttach (opts : ServerOpts) (hw : Detached w) (hrun : w.phase = .running)
    (req : AttachRequest) :
    Detached (w.onAttach opts req) ∧
      ((w.onAttach opts req).phase ≠ .running → ExitReported w.history) := by
  have hsteady := steady_bindClient opts w req
  have hbound := hsteady.detached hw
  have hrunning : (w.bindClient opts req).phase = .running := hsteady.phase.trans hrun
  unfold onAttach
  simp only
  split
  · rename_i hdead
    refine ⟨hbound.leave hrunning (hbound.dead hdead), fun _ => hw.dead ?_⟩
    rw [← hsteady.dead]
    exact hdead
  · exact ⟨hbound, fun hended => absurd hrunning hended⟩

/-- A drain that succeeds keeps the loop running, whatever it reports. -/
theorem detached_onReadable (opts : ServerOpts) (hw : Detached w) (hrun : w.phase = .running)
    (hok : (w.session.drain w.os).1.isOk = true) :
    Detached (w.onReadable opts) ∧ (w.onReadable opts).phase = .running := by
  obtain ⟨-, hstays⟩ := w.session.lifecycle_drain w.os
  rcases hdrained : w.session.drain w.os with ⟨_ | ⟨data, status, exit⟩, session, os⟩
  · rw [hdrained] at hok
    cases hok
  · rw [hdrained] at hstays
    -- The session may have died in this drain, and then the drain's own event says so.
    have hrecorded : Detached (World.record { w with session, os } (.drained data exit)) := by
      have hgrows : ExitReported w.history → ExitReported (.drained data exit :: w.history) := by
        rintro ⟨d, code, hmem⟩
        exact ⟨d, code, List.mem_cons_of_mem _ hmem⟩
      refine ⟨hw.senders, hw.unclosed, hw.unkilled, ?_, fun h => hgrows (hw.retained h),
        fun h => hgrows (hw.ended h), ?_⟩
      · intro hdead
        cases exit with
        | none =>
            have hsame : session.lifecycle = w.session.lifecycle := hstays (by simp)
            refine hgrows (hw.dead ?_)
            unfold Session.isDead
            rw [← hsame]
            exact hdead
        | some code => exact ⟨data, code, List.mem_cons_self⟩
      · intro sig hsig
        rcases List.mem_cons.mp hsig with h | h
        · cases h
        · exact hw.unsignalled sig h
    have hsteady := (outward_forwardData opts (World.record { w with session, os }
      (.drained data exit)) data).steady.trans (steady_refreshStatus opts _)
    have htold := hsteady.detached hrecorded
    have hrunning := hsteady.phase.trans hrun
    rw [onReadable_ok hdrained]
    cases exit with
    | none => exact ⟨htold, hrunning⟩
    | some code =>
        have hpush := (outward_pushOrDrop opts (((World.record { w with session, os }
          (.drained data (some code))).forwardData opts data).refreshStatus opts)
          (exitFrame code)).steady
        have hpushed := hpush.detached htold
        have hreported := hpush.reported (hsteady.reported ⟨data, code, List.mem_cons_self⟩)
        have hopen := Bool.eq_false_iff.mp hpushed.unclosed
        unfold onExit
        simp only
        rw [if_neg hopen]
        exact ⟨⟨hpushed.senders, hpushed.unclosed, hpushed.unkilled, hpushed.dead,
          fun _ => hreported, hpushed.ended, hpushed.unsignalled⟩, hpush.phase.trans hrunning⟩

/-- A command other than CLOSE. -/
theorem detached_onCommand (opts : ServerOpts) (hw : Detached w) (hrun : w.phase = .running)
    {cmd : SessionCommand} (hcmd : cmd.isClose = false) :
    Detached (w.onCommand opts cmd) ∧
      ((w.onCommand opts cmd).phase ≠ .running →
        ExitReported w.history ∧ ∃ req, cmd = .attach req) := by
  have hkeeps : ∀ v : World, Steady w v →
      Detached v ∧ (v.phase ≠ .running → ExitReported w.history ∧ ∃ req, cmd = .attach req) := by
    intro v hv
    exact ⟨hv.detached hw, fun hended => absurd (hv.phase.trans hrun) hended⟩
  cases cmd with
  | input bytes => exact hkeeps _ (steady_of_eq rfl)
  | resize cols rows => exact hkeeps _ (steady_resize w cols rows)
  | info =>
      have hanswered := steady_record
        (e := .answered (w.session.info w.os w.client.isSome).1) (by simp) w
      exact hkeeps _ (hanswered.trans (steady_of_eq rfl))
  | close graceMs => cases hcmd
  | attach req =>
      obtain ⟨hattached, hended⟩ := detached_onAttach opts hw hrun req
      exact ⟨hattached, fun h => ⟨hended h, req, rfl⟩⟩

/-! ## Steps and runs -/

/-- An undisturbed step keeps the invariant, and it leaves the loop only by taking
an attach after the exit was reported or because the retention is over. -/
theorem detached_step {label : Label} (hw : Detached w) (hok : w.Undisturbed label)
    (hstep : w.step opts label = some v) :
    Detached v ∧ (w.phase = .running → v.phase ≠ .running → w.Ending label) := by
  have hkeeps : ∀ u : World, Detached u → u.phase = w.phase →
      Detached u ∧ (w.phase = .running → u.phase ≠ .running → w.Ending label) := by
    intro u hu hphase
    exact ⟨hu, fun hrun hended => absurd (hphase.trans hrun) hended⟩
  cases label with
  | asyncFdOk =>
      obtain ⟨-, -, rfl⟩ := asyncFdOk_eq_some hstep
      exact hkeeps _ ⟨hw.senders, hw.unclosed, hw.unkilled, hw.dead, hw.retained, hw.ended,
        hw.unsignalled⟩ rfl
  | asyncFdFailed => exact absurd hok id
  | send cmd =>
      obtain ⟨next, rfl, -, -, -⟩ := send_eq_some hstep
      have hsteady : Steady w { w with
          queue := w.queue ++ [cmd], nextClient := next, history := .delivered cmd :: w.history } :=
        (steady_record (e := .delivered cmd) (by simp) w).trans (steady_of_eq rfl)
      exact hkeeps _ (hsteady.detached hw) rfl
  | dropSenders =>
      cases hstep
      refine hkeeps _ ⟨?_, hw.unclosed, hw.unkilled, hw.dead, hw.retained, hw.ended,
        hw.unsignalled⟩ rfl
      intro halive
      rcases hok with hremoved | hfinished
      · change w.phase = _ ∨ w.phase = _ at halive
        rw [hremoved] at halive
        rcases halive with h | h <;> cases h
      · change w.phase = _ ∨ w.phase = _ at halive
        rw [hfinished] at halive
        rcases halive with h | h <;> cases h
  | writer move =>
      cases hstep
      rw [writerMove_eq]
      exact hkeeps _ ⟨hw.senders, hw.unclosed, hw.unkilled, hw.dead, hw.retained, hw.ended,
        hw.unsignalled⟩ rfl
  | elapse ms =>
      cases hstep
      have hsteady : Steady w (World.record { w with now := w.now + ms } (.elapsed ms)) :=
        (steady_record (e := .elapsed ms) (by simp) w).trans (steady_of_eq rfl)
      exact hkeeps _ (hsteady.detached hw) rfl
  | command a =>
      obtain ⟨hrun, ⟨-, hgone, -⟩ | ⟨cmd, rest, hqueue, rfl⟩⟩ := command_eq_some hstep
      · rw [hw.senders (Or.inl hrun)] at hgone
        cases hgone
      · have hcmd : cmd.isClose = false := hok cmd (by rw [hqueue]; rfl)
        have hreceived : Steady w ((w.answer a).receive cmd rest) :=
          (steady_record (e := .received cmd) (by simp) w).trans (steady_of_eq rfl)
        obtain ⟨hv, hended⟩ :=
          detached_onCommand opts (hreceived.detached hw) hrun hcmd
        refine ⟨hv, fun _ hleft => ?_⟩
        obtain ⟨⟨data, code, hmem⟩, req, rfl⟩ := hended hleft
        refine ⟨⟨data, code, ?_⟩, Or.inl ⟨a, req, rest, rfl, hqueue⟩⟩
        rcases List.mem_cons.mp hmem with h | h
        · cases h
        · exact h
  | readable a =>
      obtain ⟨hidle, -, rfl⟩ := readable_eq_some hstep
      have hrun := (idle_iff.mp hidle).1
      obtain ⟨hv, hphase⟩ :=
        detached_onReadable opts ((steady_answer w a).detached hw) hrun hok
      exact hkeeps _ hv (hphase.trans hrun.symm)
  | readableError => exact absurd hok id
  | grace =>
      obtain ⟨hidle, hdue, rfl⟩ := grace_eq_some hstep
      cases hdeadline : w.graceDeadline with
      | none =>
          rw [hdeadline] at hdue
          cases hdue
      | some deadline =>
          rw [hdeadline] at hdue
          have hexit := hw.retained (by simp [hdeadline])
          exact ⟨hw.leave (idle_iff.mp hidle).1 hexit,
            fun _ _ => ⟨hexit, Or.inr ⟨rfl, deadline, hdeadline, of_decide_eq_true hdue⟩⟩⟩
  | kill a =>
      obtain ⟨-, hdue, -⟩ := kill_eq_some hstep
      rw [hw.unkilled] at hdue
      cases hdue
  | tick a =>
      obtain ⟨-, -, rfl⟩ := tick_eq_some hstep
      have hsteady := ((steady_answer w a).trans (steady_poll _)).trans (steady_pushStatus opts _)
      exact hkeeps _ (hsteady.detached hw) hsteady.phase
  | remove =>
      obtain ⟨hleft, rfl⟩ := remove_eq_some hstep
      have hended := hw.ended (by simp [hleft])
      refine ⟨⟨?_, hw.unclosed, hw.unkilled, hw.dead, hw.retained, fun _ => hended,
        hw.unsignalled⟩, ?_⟩
      · rintro (h | h) <;> cases h
      · intro hrun
        rw [hleft] at hrun
        cases hrun
  | finish =>
      obtain ⟨hremoved, rfl⟩ := finish_eq_some hstep
      have hended := hw.ended (by simp [hremoved])
      refine ⟨⟨?_, hw.unclosed, hw.unkilled, hw.dead, hw.retained, fun _ => hended,
        hw.unsignalled⟩, ?_⟩
      · rintro (h | h) <;> cases h
      · intro hrun
        rw [hremoved] at hrun
        cases hrun

/-- In every run of the actor of an opened session that takes no CLOSE, whose PTY operations
(registering, waiting, reading and reaping) do not fail and which the registry holds: the
loop runs on as long as no drain reported an exit, the shell is sent no signal to end, and
the step that leaves the loop takes an attach after such a report, or comes after the
retention deadline. -/
theorem detach_never_kills (opts : ServerOpts) (session : Session)
    (hopened : session.lifecycle = .live) (labels : List Label) (w : World)
    (hrun : (machine opts).run (start session) labels = some w)
    (halong : (machine opts).Along Undisturbed (start session) labels) :
    (¬ ExitReported w.history → w.phase = .running) ∧ (∀ sig, .signalled sig ∉ w.history) ∧
      ∀ label v, w.Undisturbed label → w.step opts label = some v → w.phase = .running →
        v.phase ≠ .running → w.Ending label := by
  have hstart : Detached (start session) := by
    refine ⟨fun _ => rfl, rfl, rfl, ?_, fun h => absurd rfl h, fun h => absurd rfl h, ?_⟩
    · intro hdead
      change session.isDead = true at hdead
      rw [Session.isDead, hopened] at hdead
      cases hdead
    · intro sig hsig
      cases hsig
  have hw : Detached w := (machine opts).along_induct (motive := Detached)
    (fun _ _ _ hu hok hstep => (detached_step hu hok hstep).1) hstart halong hrun
  refine ⟨?_, hw.unsignalled, ?_⟩
  · intro hnone
    by_contra hended
    exact hnone (hw.ended hended)
  · intro label v hok hstep hrunning hended
    exact (detached_step hw hok hstep).2 hrunning hended

/-- A client attaches and hangs up, output is lost on it, and two others attach one
after the other. -/
def comeAndGo : List Label :=
  [.asyncFdOk, .send (.attach ⟨0, 80, 24, 0⟩), .command .none, .writer (.close 0),
    .readable { Answers.none with reads := [.ok [0x61], .error .eagain] },
    .send (.attach ⟨0, 80, 24, 1⟩), .command .none, .send (.attach ⟨0, 80, 24, 2⟩), .command .none,
    .elapse 60000]

/-- The loop runs on, and the shell is sent no signal. -/
theorem detach_never_kills_comeAndGo :
    ∃ w, (machine .default).run (start shell) comeAndGo = some w ∧ w.client = some 2 ∧
      w.phase = .running ∧ ∀ sig, .signalled sig ∉ w.history := by
  have hsome : ((machine .default).run (start shell) comeAndGo).isSome = true := by decide +kernel
  have hend : ∀ w ∈ (machine .default).run (start shell) comeAndGo,
      w.client = some 2 ∧ w.history.any Event.reportsExit = false := by
    decide +kernel
  obtain ⟨w, hw⟩ := Option.isSome_iff_exists.mp hsome
  obtain ⟨hclient, hquiet⟩ := hend w hw
  have hnone : ¬ ExitReported w.history := by
    rintro ⟨data, code, hmem⟩
    exact List.any_eq_false.mp hquiet _ hmem rfl
  obtain ⟨hrunning, hunsignalled, -⟩ :=
    detach_never_kills .default shell rfl comeAndGo w hw (by decide +kernel)
  exact ⟨w, hw, hclient, hrunning hnone, hunsignalled⟩

end World

end JftermMuxer.Daemon
