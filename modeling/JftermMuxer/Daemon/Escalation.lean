import JftermMuxer.Daemon.Close
import JftermMuxer.Daemon.Detach
import JftermMuxer.Daemon.Exit

/-!
# The escalation of a CLOSE

A CLOSE sends SIGHUP at once and, when it comes with a grace, arms the deadline of a
SIGKILL.  Closes can be repeated with other graces, and they race with the shell's
exit, with attaches and with the retention of a dead session.  The signals that the
actor sends are judged here by its history alone: by the closes received, the exits
reported and the time passed before each of them.

Main results:

- Theorem {lit}`World.escalating_step`: a step keeps the agreement between the
  actor's flags and deadlines and its history.
- Theorem {lit}`World.close_escalation`: in every run the signals of the history are the
  calls made to end the shell, each CLOSE of a live session sends one SIGHUP, a SIGKILL
  is sent only to a live session whose latest grace is over and once for each grace, and
  after a CLOSE the first reported exit ends the actor.
-/

namespace JftermMuxer.Daemon

open JftermMuxer.Foundation

namespace Event

/-- The reception of a CLOSE. -/
def closes : Event → Bool
  | .received cmd => cmd.isClose
  | .delivered _ | .attached _ _ | .drained _ _ | .sent _ _ _ _ | .answered _ | .signalled _
  | .elapsed _ => false

/-- The reception of a CLOSE that comes with a grace. -/
def grants : Event → Bool
  | .received (.close graceMs) => decide (0 < graceMs)
  | .received (.input _) | .received (.resize _ _) | .received (.attach _) | .received .info
  | .delivered _ | .attached _ _ | .drained _ _ | .sent _ _ _ _ | .answered _ | .signalled _
  | .elapsed _ => false

/-- The signal that was sent, if it is one. -/
def signal : Event → Option Signal
  | .signalled sig => some sig
  | .delivered _ | .received _ | .attached _ _ | .drained _ _ | .sent _ _ _ _ | .answered _
  | .elapsed _ => none

/-- The signals sent to the shell, newest first. -/
def signals (h : List Event) : List Signal := h.filterMap signal

/-- The events that the escalation turns on. -/
def escalates : Event → Bool
  | .received cmd => cmd.isClose
  | .drained _ exit => exit.isSome
  | .signalled _ | .elapsed _ => true
  | .delivered _ | .attached _ _ | .sent _ _ _ _ | .answered _ => false

/-- The time that has passed, in milliseconds. -/
def clock : List Event → Nat
  | [] => 0
  | .elapsed ms :: older => clock older + ms
  | _ :: older => clock older

/-- The closes received before an exit was reported. -/
def liveCloses : List Event → Nat
  | [] => 0
  | .received (.close _) :: older => liveCloses older + if older.any reportsExit then 0 else 1
  | _ :: older => liveCloses older

/-- The latest CLOSE with a grace gives this deadline, and no SIGKILL was sent since. -/
def Armed (h : List Event) (deadline : Nat) : Prop :=
  ∃ since graceMs older, h = since ++ .received (.close graceMs) :: older ∧ 0 < graceMs ∧
    deadline = clock older + graceMs.toNat ∧
    ∀ e ∈ since, e.grants = false ∧ e ≠ .signalled .sigkill

/-- Every SIGKILL was sent before an exit was reported, at or after the deadline of
the latest CLOSE with a grace, and was the first one since that CLOSE. -/
def KillsDue : List Event → Prop
  | [] => True
  | .signalled .sigkill :: older =>
      (older.any reportsExit = false ∧ ∃ deadline, Armed older deadline ∧ deadline ≤ clock older) ∧
        KillsDue older
  | _ :: older => KillsDue older

/-! ## Events that the escalation does not turn on -/

section Quiet

variable {e : Event} (h : List Event) (he : e.escalates = false)

include he

private theorem any_reportsExit_quiet : (e :: h).any reportsExit = h.any reportsExit := by
  cases e with
  | drained data exit =>
      cases exit with
      | none => rfl
      | some code => cases he
  | delivered _ | received _ | attached _ _ | sent _ _ _ _ | answered _ | signalled _ | elapsed _ =>
      rfl

private theorem any_closes_quiet : (e :: h).any closes = h.any closes := by
  cases e with
  | received cmd =>
      have hother : cmd.isClose = false := he
      rw [List.any_cons, closes, hother, Bool.false_or]
  | delivered _ | drained _ _ | attached _ _ | sent _ _ _ _ | answered _ | signalled _
  | elapsed _ => rfl

private theorem clock_quiet : clock (e :: h) = clock h := by
  cases e with
  | elapsed ms => cases he
  | delivered _ | received _ | drained _ _ | attached _ _ | sent _ _ _ _ | answered _
  | signalled _ => rfl

private theorem liveCloses_quiet : liveCloses (e :: h) = liveCloses h := by
  cases e with
  | received cmd =>
      cases cmd with
      | close graceMs => cases he
      | input _ | resize _ _ | attach _ | info => rfl
  | delivered _ | drained _ _ | attached _ _ | sent _ _ _ _ | answered _ | signalled _
  | elapsed _ => rfl

private theorem count_sighup_quiet :
    (e :: h).count (.signalled .sighup) = h.count (.signalled .sighup) := by
  apply List.count_cons_of_ne
  intro heq
  rw [heq] at he
  cases he

private theorem signals_quiet : signals (e :: h) = signals h := by
  cases e with
  | signalled sig => cases he
  | delivered _ | received _ | drained _ _ | attached _ _ | sent _ _ _ _ | answered _
  | elapsed _ => rfl

private theorem killsDue_quiet : KillsDue (e :: h) = KillsDue h := by
  cases e with
  | signalled sig => cases he
  | delivered _ | received _ | drained _ _ | attached _ _ | sent _ _ _ _ | answered _
  | elapsed _ => rfl

private theorem grants_quiet : e.grants = false ∧ e ≠ .signalled .sigkill := by
  cases e with
  | received cmd =>
      cases cmd with
      | close graceMs => cases he
      | input _ | resize _ _ | attach _ | info => exact ⟨rfl, nofun⟩
  | signalled sig => cases he
  | delivered _ | drained _ _ | attached _ _ | sent _ _ _ _ | answered _ | elapsed _ =>
      exact ⟨rfl, nofun⟩

end Quiet

/-- A deadline stays armed as long as no CLOSE with a grace comes and nobody is
killed. -/
theorem Armed.append {h es : List Event} {deadline : Nat} (hh : Armed h deadline)
    (hes : ∀ e ∈ es, e.grants = false ∧ e ≠ .signalled .sigkill) : Armed (es ++ h) deadline := by
  obtain ⟨since, graceMs, older, heq, hgrace, hdeadline, hsince⟩ := hh
  refine ⟨es ++ since, graceMs, older, by rw [heq, List.append_assoc], hgrace, hdeadline, ?_⟩
  intro e he
  rcases List.mem_append.mp he with he | he
  · exact hes e he
  · exact hsince e he

/-- A grant lasts until the next one or the kill. -/
theorem Armed.cons {h : List Event} {e : Event} {deadline : Nat} (hh : Armed h deadline)
    (hgrants : e.grants = false) (hkill : e ≠ .signalled .sigkill) : Armed (e :: h) deadline := by
  have hsingle : ∀ e' ∈ [e], e'.grants = false ∧ e' ≠ .signalled .sigkill := by
    intro e' he'
    rw [List.mem_singleton.mp he']
    exact ⟨hgrants, hkill⟩
  exact hh.append hsingle

/-- A CLOSE with a grace arms its own deadline. -/
theorem armed_close {graceMs : UInt32} (hgrace : 0 < graceMs) (h : List Event) :
    Armed (.received (.close graceMs) :: h) (clock h + graceMs.toNat) :=
  ⟨[], graceMs, h, rfl, hgrace, rfl, by simp⟩

/-- A CLOSE was received. -/
theorem any_closes_iff {h : List Event} :
    h.any closes = true ↔ ∃ graceMs, .received (.close graceMs) ∈ h := by
  rw [List.any_eq_true]
  constructor
  · rintro ⟨e, he, hcloses⟩
    cases e with
    | received cmd =>
        cases cmd with
        | close graceMs => exact ⟨graceMs, he⟩
        | input _ | resize _ _ | attach _ | info => cases hcloses
    | delivered _ | drained _ _ | attached _ _ | sent _ _ _ _ | answered _ | signalled _
    | elapsed _ => cases hcloses
  · rintro ⟨graceMs, hmem⟩
    exact ⟨_, hmem, rfl⟩

/-- Without a CLOSE that grants a grace nobody is killed. -/
theorem KillsDue.unkilled {h : List Event} (hdue : KillsDue h)
    (hgrants : ∀ e ∈ h, e.grants = false) : .signalled .sigkill ∉ h := by
  induction h with
  | nil => exact List.not_mem_nil
  | cons e h ih =>
      have hlater := fun hh => ih hh fun e he => hgrants e (List.mem_cons_of_mem _ he)
      have hkeeps : KillsDue h → e ≠ .signalled .sigkill → .signalled .sigkill ∉ e :: h := by
        intro hh hne hmem
        rcases List.mem_cons.mp hmem with heq | hmem
        · exact hne heq.symm
        · exact hlater hh hmem
      cases e with
      | signalled sig =>
          cases sig with
          | sigkill =>
              obtain ⟨⟨-, deadline, ⟨since, graceMs, older, heq, hgrace, -⟩, -⟩, -⟩ := hdue
              have hmem : .received (.close graceMs) ∈ .signalled .sigkill :: h := by
                rw [heq]
                exact List.mem_cons_of_mem _ (List.mem_append_right _ List.mem_cons_self)
              have hnone := hgrants _ hmem
              rw [grants, decide_eq_false_iff_not] at hnone
              exact absurd hgrace hnone
          | sigwinch | sighup => exact hkeeps hdue (by simp)
      | delivered _ | received _ | drained _ _ | attached _ _ | sent _ _ _ _ | answered _
      | elapsed _ => exact hkeeps hdue (by simp)

end Event

namespace World

open Event

variable {opts : ServerOpts} {w v : World}

/-! ## The invariant -/

/-- The actor's flags and deadlines agree with its history, and so do the signals that
reached the kernel. -/
structure Tallied (w : World) : Prop where
  dead : w.session.isDead = w.history.any reportsExit
  now : w.now = clock w.history
  closing : w.closing = w.history.any closes
  armed : ∀ deadline, w.killDeadline = some deadline → Armed w.history deadline
  retained : w.graceDeadline ≠ none → w.session.isDead = true
  hangups : w.history.count (.signalled .sighup) = liveCloses w.history
  kills : KillsDue w.history
  calls : w.os.endCalls = (signals w.history).map (Call.killpg w.session.pty.child)

/-- At the head of the loop they do, and a closing session is live. -/
structure Escalating (w : World) : Prop extends Tallied w where
  ending : w.closing = true → w.phase = .running → w.session.isDead = false

/-- At the start nothing was closed or signalled. -/
theorem escalating_start {session : Session} (hopened : session.lifecycle = .live) :
    Escalating (start session) := by
  have hlive : (start session).session.isDead = false := by
    change session.isDead = false
    rw [Session.isDead, hopened]
  exact ⟨⟨hlive, rfl, rfl, by simp [start], fun h => absurd rfl h, rfl, trivial, rfl⟩,
    fun _ _ => hlive⟩

/-- Out of the loop the tallies are all there is to keep. -/
theorem Tallied.left (hw : Tallied w) (hleft : w.phase ≠ .running) : Escalating w :=
  ⟨hw, fun _ hrun => absurd hrun hleft⟩

/-- A move that the escalation does not turn on; the loop may be left. -/
structure Apart (w v : World) : Prop where
  dead : v.session.isDead = w.session.isDead
  pty : v.session.pty = w.session.pty
  calls : v.os.endCalls = w.os.endCalls
  closing : v.closing = w.closing
  killDeadline : v.killDeadline = w.killDeadline
  graceDeadline : v.graceDeadline = w.graceDeadline
  now : v.now = w.now
  phase : v.phase = .running → w.phase = .running
  events : ∃ es, v.history = es ++ w.history ∧ ∀ e ∈ es, e.escalates = false

namespace Apart

/-- Moves apart from the escalation add up. -/
theorem trans {u : World} (huv : Apart u v) (hvw : Apart v w) : Apart u w :=
  ⟨hvw.dead.trans huv.dead, hvw.pty.trans huv.pty, hvw.calls.trans huv.calls,
    hvw.closing.trans huv.closing, hvw.killDeadline.trans huv.killDeadline,
    hvw.graceDeadline.trans huv.graceDeadline, hvw.now.trans huv.now,
    fun h => huv.phase (hvw.phase h), Machine.grows_trans huv.events hvw.events⟩

/-- A move apart keeps the tallies. -/
theorem tallied (h : Apart w v) (hw : Tallied w) : Tallied v := by
  obtain ⟨es, hes, hquiet⟩ := h.events
  constructor
  · have hsame := append_unmoved (f := fun h => h.any reportsExit)
      (fun _ h => any_reportsExit_quiet h) hquiet w.history
    rw [h.dead, hes, hw.dead, hsame]
  · rw [h.now, hes, hw.now, append_unmoved (fun _ h => clock_quiet h) hquiet]
  · have hsame := append_unmoved (f := fun h => h.any closes)
      (fun _ h => any_closes_quiet h) hquiet w.history
    rw [h.closing, hes, hw.closing, hsame]
  · rw [h.killDeadline, hes]
    exact fun deadline hd => (hw.armed deadline hd).append fun e he => grants_quiet (hquiet e he)
  · rw [h.graceDeadline, h.dead]
    exact hw.retained
  · have hsame := append_unmoved (f := fun h => h.count (.signalled .sighup))
      (fun _ h => count_sighup_quiet h) hquiet w.history
    rw [hes, hsame, hw.hangups, append_unmoved (fun _ h => liveCloses_quiet h) hquiet]
  · rw [hes, append_unmoved (fun _ h => killsDue_quiet h) hquiet]
    exact hw.kills
  · rw [h.calls, h.pty, hes, append_unmoved (fun _ h => signals_quiet h) hquiet]
    exact hw.calls

/-- A move apart keeps the escalation. -/
theorem escalating (h : Apart w v) (hw : Escalating w) : Escalating v := by
  refine ⟨h.tallied hw.toTallied, ?_⟩
  rw [h.closing, h.dead]
  exact fun hclosing hrun => hw.ending hclosing (h.phase hrun)

end Apart

/-- A move that touches only the registration, the clients, the queues, the status and
the kernel, and sends no signal to end the shell. -/
theorem apart_of_eq
    (h : v = { w with
      registered := v.registered, client := v.client, lastStatus := v.lastStatus, pollRunning := v.pollRunning,
      phase := v.phase, queue := v.queue, sendersAlive := v.sendersAlive,
      nextClient := v.nextClient, outQueues := v.outQueues, os := v.os, moves := v.moves })
    (hcalls : v.os.endCalls = w.os.endCalls)
    (hphase : v.phase = .running → w.phase = .running) : Apart w v := by
  refine ⟨?_, ?_, hcalls, ?_, ?_, ?_, ?_, hphase, [], ?_, by simp⟩
  all_goals rw [h]
  rfl

private theorem apart_answer (w : World) (a : Answers) : Apart w (w.answer a) := apart_of_eq rfl rfl id

private theorem apart_poll (w : World) : Apart w w.poll :=
  apart_of_eq rfl (congrArg (List.filter Call.endsShell) (w.session.calls_pollRunning w.os)) id

private theorem apart_record {e : Event} (he : e.escalates = false) (w : World) : Apart w (w.record e) :=
  ⟨rfl, rfl, rfl, rfl, rfl, rfl, rfl, id, [e], rfl, by simpa using he⟩

private theorem apart_resize (w : World) (cols rows : UInt16) : Apart w (w.resize cols rows) :=
  ⟨w.session.isDead_resize w.os cols rows, w.session.pty_resize w.os cols rows,
    w.session.filter_calls_resize (fun _ => rfl) w.os cols rows, rfl, rfl, rfl, rfl, id, [], rfl,
    by simp⟩

/-- Leaving the loop is apart. -/
theorem apart_leave (w : World) : Apart w w.leave := apart_of_eq rfl rfl nofun

/-- Offers are apart. -/
theorem Outward.apart (h : Outward w v) : Apart w v := by
  refine ⟨by rw [h.session], by rw [h.session], by rw [h.os], by rw [h.same], by rw [h.same],
    by rw [h.same], by rw [h.same], by rw [h.phase]; exact id, ?_⟩
  obtain ⟨es, hes, hsent⟩ := h.sends
  refine ⟨es, hes, ?_⟩
  intro e he
  obtain ⟨c, f, stage, ok, rfl⟩ := hsent e he
  rfl

private theorem apart_pushStatus (opts : ServerOpts) (w : World) : Apart w (w.pushStatus opts) := by
  unfold pushStatus
  split
  · exact apart_of_eq rfl rfl id
  · exact (outward_pushOrDrop opts w _).apart.trans (apart_of_eq rfl rfl id)

/-- A refreshed STATUS is apart. -/
theorem apart_refreshStatus (opts : ServerOpts) (w : World) : Apart w (w.refreshStatus opts) := by
  rcases refreshStatus_cases opts w with ⟨-, heq⟩ | ⟨-, heq | heq⟩
  · rw [heq]
    exact apart_of_eq rfl rfl id
  · rw [heq]
    exact (apart_poll w).trans (apart_pushStatus opts _)
  · rw [heq]
    exact apart_pushStatus opts w

private theorem apart_bindClient (opts : ServerOpts) (w : World) (req : AttachRequest) :
    Apart w (w.bindClient opts req) := by
  have hbound : ∀ u : World, Apart u { u.attachClient opts req with
      lastStatus := some (u.attachClient opts req).effectiveStatus } := by
    intro u
    have hshake := ((apart_resize u req.cols req.rows).trans (apart_record rfl _)).trans
      (outward_handshake opts (u.resize req.cols req.rows) req).apart
    exact hshake.trans (apart_of_eq rfl rfl id)
  unfold bindClient
  simp only
  split
  · exact hbound w
  · exact (apart_poll w).trans (hbound w.poll)

private theorem apart_onAttach (opts : ServerOpts) (w : World) (req : AttachRequest) :
    Apart w (w.onAttach opts req) := by
  have hbound := apart_bindClient opts w req
  unfold onAttach
  simp only
  split
  · exact hbound.trans (apart_leave _)
  · exact hbound

/-- Commands other than CLOSE. -/
theorem apart_onCommand (opts : ServerOpts) (w : World) {cmd : SessionCommand}
    (hcmd : cmd.isClose = false) : Apart w (w.onCommand opts cmd) := by
  cases cmd with
  | input bytes => exact apart_of_eq rfl (w.session.endCalls_writeInput w.os bytes) id
  | resize cols rows => exact apart_resize w cols rows
  | info =>
      have hcalls := w.session.calls_info w.os w.client.isSome
      exact (apart_record (e := .answered (w.session.info w.os w.client.isSome).1) rfl w).trans
        (apart_of_eq rfl (congrArg (List.filter Call.endsShell) hcalls) id)
  | close graceMs => cases hcmd
  | attach req => exact apart_onAttach opts w req

/-! ## Closes, exits, kills and the clock -/

/-- A CLOSE is counted, and sets the flag and the deadline. -/
theorem tallied_close (hw : Tallied w) (a : Answers) (graceMs : UInt32)
    (rest : List SessionCommand) :
    Tallied { ((w.answer a).receive (.close graceMs) rest).hangup with
      closing := true
      killDeadline := if 0 < graceMs then some (w.now + graceMs.toNat) else w.killDeadline } := by
  have harmed : ∀ deadline,
      (if 0 < graceMs then some (w.now + graceMs.toNat) else w.killDeadline) = some deadline →
        Armed (.received (.close graceMs) :: w.history) deadline := by
    intro deadline hd
    by_cases hgrace : 0 < graceMs
    · rw [if_pos hgrace, hw.now] at hd
      cases hd
      exact armed_close hgrace w.history
    · rw [if_neg hgrace] at hd
      exact (hw.armed deadline hd).cons (by simp [grants, hgrace]) (by simp)
  have hany := hw.dead
  unfold hangup
  cases hdead : w.session.isDead with
  | true =>
      have hhistory : (if ((w.answer a).receive (.close graceMs) rest).session.isDead then
          ((w.answer a).receive (.close graceMs) rest).history
          else .signalled .sighup :: ((w.answer a).receive (.close graceMs) rest).history) =
            .received (.close graceMs) :: w.history := if_pos hdead
      rw [hhistory]
      refine ⟨hw.dead, hw.now, rfl, harmed, hw.retained, ?_, hw.kills, ?_⟩
      · simp only [liveCloses, ← hany, hdead, if_true, Nat.add_zero]
        rw [List.count_cons_of_ne (by simp)]
        exact hw.hangups
      · change (w.session.hangup (w.answer a).os).2.endCalls = _
        rw [Session.hangup, if_pos hdead]
        exact hw.calls
  | false =>
      have hhistory : (if ((w.answer a).receive (.close graceMs) rest).session.isDead then
          ((w.answer a).receive (.close graceMs) rest).history
          else .signalled .sighup :: ((w.answer a).receive (.close graceMs) rest).history) =
            .signalled .sighup :: .received (.close graceMs) :: w.history := by
        refine if_neg ?_
        exact Bool.eq_false_iff.mp hdead
      rw [hhistory]
      refine ⟨hw.dead, hw.now, rfl, fun deadline hd => (harmed deadline hd).cons rfl (by simp),
        hw.retained, ?_, hw.kills, ?_⟩
      · simp only [liveCloses, ← hany, hdead, Bool.false_eq_true, if_false]
        rw [List.count_cons_self, List.count_cons_of_ne (by simp), hw.hangups]
      · change (w.session.hangup (w.answer a).os).2.endCalls = _
        rw [Session.hangup, if_neg (Bool.eq_false_iff.mp hdead)]
        exact congrArg (Call.killpg w.session.pty.child .sighup :: ·) hw.calls

/-- The close arm grants a kill or ends the loop. -/
theorem escalating_onClose (hw : Escalating w) (a : Answers) (graceMs : UInt32)
    (rest : List SessionCommand) :
    Escalating (((w.answer a).receive (.close graceMs) rest).onClose opts graceMs) := by
  have hclosed := tallied_close hw.toTallied a graceMs rest
  unfold onClose
  simp only
  split
  · rename_i hlive
    refine ⟨hclosed, fun _ _ => ?_⟩
    rw [Session.isDead, hlive]
  · exact (((outward_farewell opts _ _).apart.trans (apart_leave _)).tallied hclosed).left
      (by simp [leave])

/-- The drain that reports the exit ends a closing session; one that is not closing
is retained from then on. -/
theorem escalating_onExit {code : Int} (hw : Tallied w) (hdead : w.session.isDead = true) :
    Escalating (w.onExit opts code) := by
  have hpush := (outward_pushOrDrop opts w (exitFrame code)).apart
  have hpushed := hpush.tallied hw
  unfold onExit
  simp only
  split
  · exact ((apart_leave _).tallied hpushed).left (by simp [leave])
  · rename_i hopen
    refine ⟨⟨hpushed.dead, hpushed.now, hpushed.closing, hpushed.armed, fun _ => ?_,
      hpushed.hangups, hpushed.kills, hpushed.calls⟩, fun hclosing => absurd hclosing hopen⟩
    exact hpush.dead.trans hdead

/-- A drain keeps the escalation in order. -/
theorem escalating_onReadable (hw : Escalating w) : Escalating (w.onReadable opts) := by
  obtain ⟨hdies, hstays⟩ := w.session.lifecycle_drain w.os
  have hpty := w.session.pty_drain w.os
  have hcalls : (w.session.drain w.os).2.2.endCalls = w.os.endCalls :=
    w.session.filter_calls_drain (fun _ _ => rfl) w.os
  rcases hdrained : w.session.drain w.os with ⟨_ | ⟨data, status, exit⟩, session, os⟩
  · rw [hdrained] at hstays hpty hcalls
    have hsame : session.isDead = w.session.isDead := by
      rw [Session.isDead, hstays (by simp), Session.isDead]
    rw [onReadable_error hdrained]
    have hleft : TaskPhase.left = .running → w.phase = .running := by simp
    exact Apart.escalating (w := w)
      ⟨hsame, hpty, hcalls, rfl, rfl, rfl, rfl, hleft, [], rfl, by simp⟩ hw
  · rw [hdrained] at hdies hstays hpty hcalls
    have hrest := fun u : World => (outward_forwardData opts u data).apart.trans
      (apart_refreshStatus opts _)
    rw [onReadable_ok hdrained]
    cases exit with
    | none =>
        have hsame : session.isDead = w.session.isDead := by
          rw [Session.isDead, hstays (by simp), Session.isDead]
        have hrecorded : Apart w (World.record { w with session, os } (.drained data none)) :=
          ⟨hsame, hpty, hcalls, rfl, rfl, rfl, rfl, id, [.drained data none], rfl,
            by simp [escalates]⟩
        exact (hrecorded.trans (hrest _)).escalating hw
    | some code =>
        obtain ⟨-, hlifecycle⟩ := hdies _ rfl code rfl
        have hdead : session.isDead = true := by
          rw [Session.isDead, hlifecycle]
        have hrecorded : Tallied (World.record { w with session, os } (.drained data (some code))) := by
          refine ⟨hdead, hw.now, hw.closing, ?_, fun _ => hdead, ?_, hw.kills, ?_⟩
          · exact fun deadline hd => (hw.armed deadline hd).cons rfl (by simp)
          · rw [record, List.count_cons_of_ne (by simp)]
            exact hw.hangups
          · change os.endCalls = (signals w.history).map (Call.killpg session.pty.child)
            change session.pty = w.session.pty at hpty
            rw [hpty]
            exact hcalls.trans hw.calls
        exact escalating_onExit ((hrest _).tallied hrecorded) ((hrest _).dead.trans hdead)

/-- The kill arm signals a live session only, and when its deadline is over. -/
theorem escalating_onKill (hw : Escalating w) (hdue : w.due w.killDeadline = true) :
    Escalating w.onKill := by
  cases hdead : w.session.isDead with
  | true =>
      rw [onKill, if_pos hdead]
      exact ⟨⟨hw.dead, hw.now, hw.closing, nofun, hw.retained, hw.hangups, hw.kills, hw.calls⟩,
        hw.ending⟩
  | false =>
      cases hdeadline : w.killDeadline with
      | none =>
          rw [hdeadline] at hdue
          cases hdue
      | some deadline =>
          rw [hdeadline] at hdue
          have hover : deadline ≤ clock w.history := by
            rw [← hw.now]
            exact of_decide_eq_true hdue
          have hlive : w.history.any reportsExit = false := by
            rw [← hw.dead]
            exact hdead
          have hkill : w.kill.history = .signalled .sigkill :: w.history := by
            rw [kill, hdead]
            rfl
          rw [onKill, if_neg (Bool.eq_false_iff.mp hdead)]
          refine ⟨⟨?_, ?_, ?_, nofun, hw.retained, ?_, ?_, ?_⟩, hw.ending⟩
          · exact hw.dead.trans (congrArg (List.any · reportsExit) hkill).symm
          · exact hw.now.trans (congrArg clock hkill).symm
          · exact hw.closing.trans (congrArg (List.any · closes) hkill).symm
          · change w.kill.history.count _ = liveCloses w.kill.history
            rw [hkill, List.count_cons_of_ne (by simp)]
            exact hw.hangups
          · change KillsDue w.kill.history
            rw [hkill]
            exact ⟨⟨hlive, deadline, hw.armed deadline hdeadline, hover⟩, hw.kills⟩
          · change (w.session.kill w.os).2.endCalls =
              (signals w.kill.history).map (Call.killpg w.session.pty.child)
            rw [hkill, Session.kill, if_neg (Bool.eq_false_iff.mp hdead)]
            exact congrArg (Call.killpg w.session.pty.child .sigkill :: ·) hw.calls

/-- Time passes for the events as for the actor. -/
theorem escalating_elapse (hw : Escalating w) (ms : Nat) :
    Escalating (World.record { w with now := w.now + ms } (.elapsed ms)) := by
  refine ⟨⟨hw.dead, congrArg (· + ms) hw.now, hw.closing, ?_, hw.retained, ?_, hw.kills, hw.calls⟩,
    hw.ending⟩
  · exact fun deadline hd => (hw.armed deadline hd).cons rfl (by simp)
  · rw [record, List.count_cons_of_ne (by simp)]
    exact hw.hangups

/-! ## Steps and runs -/

/-- Everything a step can be, as far as the escalation is concerned. -/
theorem step_escalation {label : Label} (hstep : w.step opts label = some v) :
    Apart w v ∨
      (∃ ms, v = World.record { w with now := w.now + ms } (.elapsed ms)) ∨
      (∃ a graceMs rest, v = ((w.answer a).receive (.close graceMs) rest).onClose opts graceMs) ∨
      (∃ a, w.due w.killDeadline = true ∧ v = (w.answer a).onKill) ∨
      ∃ a, w.idle = true ∧ v = (w.answer a).onReadable opts := by
  cases label with
  | asyncFdOk =>
      obtain ⟨-, -, rfl⟩ := asyncFdOk_eq_some hstep
      exact Or.inl (apart_of_eq rfl rfl id)
  | asyncFdFailed =>
      obtain ⟨-, -, rfl⟩ := asyncFdFailed_eq_some hstep
      exact Or.inl (apart_leave w)
  | send cmd =>
      obtain ⟨next, rfl, -⟩ := send_eq_some hstep
      exact Or.inl
        ⟨rfl, rfl, rfl, rfl, rfl, rfl, rfl, id, [.delivered cmd], rfl, by simp [escalates]⟩
  | dropSenders =>
      cases hstep
      exact Or.inl (apart_of_eq rfl rfl id)
  | writer move =>
      cases hstep
      rw [writerMove_eq]
      exact Or.inl (apart_of_eq rfl rfl id)
  | elapse ms =>
      cases hstep
      exact Or.inr (Or.inl ⟨ms, rfl⟩)
  | command a =>
      obtain ⟨-, ⟨-, -, rfl⟩ | ⟨cmd, rest, -, rfl⟩⟩ := command_eq_some hstep
      · exact Or.inl (apart_leave w)
      · cases hcmd : cmd.isClose with
        | true =>
            cases cmd with
            | close graceMs => exact Or.inr (Or.inr (Or.inl ⟨a, graceMs, rest, rfl⟩))
            | input _ | resize _ _ | attach _ | info => cases hcmd
        | false =>
            have hreceived : Apart w ((w.answer a).receive cmd rest) :=
              ⟨rfl, rfl, rfl, rfl, rfl, rfl, rfl, id, [.received cmd], rfl,
                by simpa [escalates] using hcmd⟩
            exact Or.inl (hreceived.trans (apart_onCommand opts _ hcmd))
  | readable a =>
      obtain ⟨hidle, -, rfl⟩ := readable_eq_some hstep
      exact Or.inr (Or.inr (Or.inr (Or.inr ⟨a, hidle, rfl⟩)))
  | readableError =>
      obtain ⟨-, -, rfl⟩ := readableError_eq_some hstep
      exact Or.inl (apart_leave w)
  | grace =>
      obtain ⟨-, -, rfl⟩ := grace_eq_some hstep
      exact Or.inl (apart_leave w)
  | kill a =>
      obtain ⟨-, hdue, rfl⟩ := kill_eq_some hstep
      exact Or.inr (Or.inr (Or.inr (Or.inl ⟨a, hdue, rfl⟩)))
  | tick a =>
      obtain ⟨-, -, rfl⟩ := tick_eq_some hstep
      have hpolled := (apart_answer w a).trans (apart_poll _)
      exact Or.inl (hpolled.trans (apart_pushStatus opts _))
  | remove =>
      obtain ⟨-, rfl⟩ := remove_eq_some hstep
      exact Or.inl (apart_of_eq rfl rfl nofun)
  | finish =>
      obtain ⟨-, rfl⟩ := finish_eq_some hstep
      exact Or.inl (apart_of_eq rfl rfl nofun)

/-- Every step keeps the escalation. -/
theorem escalating_step {label : Label} (hw : Escalating w) (hstep : w.step opts label = some v) :
    Escalating v := by
  have hanswered : ∀ a, Escalating (w.answer a) := fun a => (apart_answer w a).escalating hw
  rcases step_escalation hstep with hapart | ⟨ms, rfl⟩ | ⟨a, graceMs, rest, rfl⟩ |
    ⟨a, hdue, rfl⟩ | ⟨a, -, rfl⟩
  · exact hapart.escalating hw
  · exact escalating_elapse hw ms
  · exact escalating_onClose hw a graceMs rest
  · exact escalating_onKill (hanswered a) hdue
  · exact escalating_onReadable (hanswered a)

/-- Only a drain ends the shell's life. -/
theorem isDead_step {label : Label} (hstep : w.step opts label = some v) :
    v.session.isDead = w.session.isDead ∨
      ∃ a, w.idle = true ∧ v = (w.answer a).onReadable opts := by
  rcases step_escalation hstep with hapart | ⟨ms, rfl⟩ | ⟨a, graceMs, rest, rfl⟩ |
    ⟨a, -, rfl⟩ | ⟨a, hidle, rfl⟩
  · exact Or.inl hapart.dead
  · exact Or.inl rfl
  · unfold onClose
    simp only
    split
    · exact Or.inl rfl
    · exact Or.inl ((outward_farewell opts _ _).apart.trans (apart_leave _)).dead
  · unfold onKill
    simp only
    split
    · exact Or.inl rfl
    · exact Or.inl rfl
  · exact Or.inr ⟨a, hidle, rfl⟩

/-- The client that was bound is bound still, or a frame of these events did not fit
its queue. -/
def Lasting (w v : World) : Prop :=
  ∃ es, v.history = es ++ w.history ∧
    ∀ c, w.client = some c → v.client = some c ∨ ∃ f, .sent c f .live false ∈ es

/-- Moves after which the client lasts add up. -/
theorem Lasting.trans {u : World} (huv : Lasting u v) (hvw : Lasting v w) : Lasting u w := by
  obtain ⟨es, hes, hkept⟩ := huv
  obtain ⟨fs, hfs, hthen⟩ := hvw
  refine ⟨fs ++ es, by rw [hfs, hes, List.append_assoc], ?_⟩
  intro c hc
  rcases hkept c hc with hbound | ⟨f, hf⟩
  · rcases hthen c hbound with hbound | ⟨f, hf⟩
    · exact Or.inl hbound
    · exact Or.inr ⟨f, List.mem_append_left es hf⟩
  · exact Or.inr ⟨f, List.mem_append_right fs hf⟩

private theorem lasting_of_eq (hclient : v.client = w.client) (hhistory : v.history = w.history) :
    Lasting w v :=
  ⟨[], hhistory, fun _ hc => Or.inl (hclient.trans hc)⟩

private theorem lasting_pushOrDrop (opts : ServerOpts) (w : World) (f : Frame) :
    Lasting w (w.pushOrDrop opts f) := by
  rcases pushOrDrop_cases opts w f with ⟨-, hsame⟩ | ⟨c, ok, hbound, hsent, hclient⟩
  · exact lasting_of_eq (congrArg client hsame) (congrArg history hsame)
  · refine ⟨[.sent c f .live ok], hsent, ?_⟩
    intro d hd
    rw [hbound] at hd
    cases hd
    cases ok with
    | true => exact Or.inl hclient
    | false => exact Or.inr ⟨f, List.mem_singleton_self _⟩

private theorem lasting_forwardData (opts : ServerOpts) (w : World) (data : List UInt8) :
    Lasting w (w.forwardData opts data) := by
  unfold forwardData
  induction frameData data generalizing w with
  | nil => exact lasting_of_eq rfl rfl
  | cons f fs ih => exact (lasting_pushOrDrop opts w f).trans (ih _)

private theorem lasting_refreshStatus (opts : ServerOpts) (w : World) :
    Lasting w (w.refreshStatus opts) := by
  have hpush : ∀ u : World, Lasting u (u.pushStatus opts) := by
    intro u
    unfold pushStatus
    split
    · exact lasting_of_eq rfl rfl
    · exact (lasting_pushOrDrop opts u _).trans (lasting_of_eq rfl rfl)
  rcases refreshStatus_cases opts w with ⟨-, heq⟩ | ⟨-, heq | heq⟩
  · rw [heq]
    exact lasting_of_eq rfl rfl
  · rw [heq]
    exact (lasting_of_eq (v := w.poll) rfl rfl).trans (hpush _)
  · rw [heq]
    exact hpush w

/-- The client that was bound is offered EXIT, or it was let go of before because a
frame did not fit. -/
def ExitOffered (w : World) (code : Int) (new : List Event) : Prop :=
  ∀ c, w.client = some c →
    (∃ ok, .sent c (exitFrame code) .live ok ∈ new) ∨ ∃ f, .sent c f .live false ∈ new

/-- A closing actor offers EXIT and leaves its loop. -/
theorem onExit_ends (opts : ServerOpts) (hclosing : w.closing = true) (code : Int) :
    (w.onExit opts code).phase = .left ∧
      ∃ es, (w.onExit opts code).history = es ++ w.history ∧ (∀ e ∈ es, e.escalates = false) ∧
        ∀ c, w.client = some c → ∃ ok, .sent c (exitFrame code) .live ok ∈ es := by
  have hpush := (outward_pushOrDrop opts w (exitFrame code)).apart
  unfold onExit
  simp only
  rw [if_pos (hpush.closing.trans hclosing)]
  refine ⟨rfl, ?_⟩
  rcases pushOrDrop_cases opts w (exitFrame code) with ⟨hnone, hsame⟩ | ⟨c, ok, hbound, hsent, -⟩
  · refine ⟨[], congrArg (history ∘ leave) hsame, by simp, ?_⟩
    intro c hc
    rw [hnone] at hc
    cases hc
  · refine ⟨[.sent c (exitFrame code) .live ok], hsent, by simp [escalates], ?_⟩
    intro d hd
    rw [hbound] at hd
    cases hd
    exact ⟨ok, List.mem_singleton_self _⟩

/-- In a closing session the drain that reports the exit offers it and leaves. -/
theorem onReadable_ends (hclosing : w.closing = true) {new : List Event}
    (hnew : (w.onReadable opts).history = new ++ w.history) {data : List UInt8} {code : Int}
    (hexit : .drained data (some code) ∈ new) :
    (w.onReadable opts).phase = .left ∧ w.ExitOffered code new := by
  have hloud : ∀ es : List Event, (∀ e ∈ es, e.escalates = false) →
      .drained data (some code) ∉ es := fun es hquiet hmem => nomatch hquiet _ hmem
  rcases hdrained : w.session.drain w.os with ⟨_ | ⟨bytes, status, exit⟩, session, os⟩
  · rw [onReadable_error hdrained] at hnew
    have hnone : new = [] := List.self_eq_append_left.mp hnew
    rw [hnone] at hexit
    cases hexit
  · rw [onReadable_ok hdrained] at hnew ⊢
    have hapart := (outward_forwardData opts
      (World.record { w with session, os } (.drained bytes exit)) bytes).apart.trans
        (apart_refreshStatus opts _)
    obtain ⟨es, hes, hlasting⟩ := (lasting_forwardData opts
      (World.record { w with session, os } (.drained bytes exit)) bytes).trans
        (lasting_refreshStatus opts _)
    obtain ⟨es', hes', hquiet⟩ := hapart.events
    rw [List.append_cancel_right (hes'.symm.trans hes)] at hquiet
    cases exit with
    | none =>
        have hsplit : new = es ++ [.drained bytes none] := by
          apply List.append_cancel_right (hnew.symm.trans (hes.trans _))
          exact List.append_cons es _ w.history
        rw [hsplit] at hexit
        rcases List.mem_append.mp hexit with hmem | hmem
        · exact absurd hmem (hloud es hquiet)
        · cases List.mem_singleton.mp hmem
    | some reported =>
        obtain ⟨hleft, fs, hfs, hmute, hoffered⟩ := onExit_ends opts
          (hapart.closing.trans hclosing) reported
        have hsplit : new = fs ++ (es ++ [.drained bytes (some reported)]) := by
          apply List.append_cancel_right (hnew.symm.trans (hfs.trans _))
          rw [hes]
          simp [record]
        rw [hsplit] at hexit ⊢
        have hcode : code = reported := by
          rcases List.mem_append.mp hexit with hmem | hmem
          · exact absurd hmem (hloud fs hmute)
          · rcases List.mem_append.mp hmem with hmem | hmem
            · exact absurd hmem (hloud es hquiet)
            · cases List.mem_singleton.mp hmem
              rfl
        rw [hcode]
        refine ⟨hleft, ?_⟩
        intro c hc
        rcases hlasting c hc with hbound | ⟨f, hf⟩
        · obtain ⟨ok, hsent⟩ := hoffered c hbound
          exact Or.inl ⟨ok, List.mem_append_left _ hsent⟩
        · exact Or.inr ⟨f, List.mem_append_right _ (List.mem_append_left _ hf)⟩

/-- In every run of the actor of an opened session, with any closes: the signals of the
history are the calls that reached the kernel to end the shell; SIGHUP is sent once for each
CLOSE received while the session is live; a SIGKILL is sent only while it is, at or after the
deadline of the latest CLOSE with a grace and once for that CLOSE, and never when no CLOSE
has a grace; and once a CLOSE was received a loop that runs serves a live session that is not
retained, and the drain that reports its exit offers EXIT to the bound client and leaves the
loop. -/
theorem close_escalation (opts : ServerOpts) (session : Session)
    (hopened : session.lifecycle = .live) (labels : List Label) (w : World)
    (hrun : (machine opts).run (start session) labels = some w) :
    w.session.isDead = w.history.any reportsExit ∧
      w.os.endCalls = (signals w.history).map (Call.killpg w.session.pty.child) ∧
      w.history.count (.signalled .sighup) = liveCloses w.history ∧
      KillsDue w.history ∧
      ((∀ graceMs, .received (.close graceMs) ∈ w.history → graceMs = 0) →
        .signalled .sigkill ∉ w.history) ∧
      ((∃ graceMs, .received (.close graceMs) ∈ w.history) → w.phase = .running →
        w.session.isDead = false ∧ w.graceDeadline = none ∧
          ∀ label v, w.step opts label = some v → ∀ new, v.history = new ++ w.history →
            ∀ data code, .drained data (some code) ∈ new →
              v.phase = .left ∧ w.ExitOffered code new) := by
  have hw : Escalating w := (machine opts).run_induct (motive := Escalating)
    (fun _ _ _ hu hstep => escalating_step hu hstep) (escalating_start hopened) hrun
  refine ⟨hw.dead, hw.calls, hw.hangups, hw.kills, ?_, ?_⟩
  · intro hzero
    apply hw.kills.unkilled
    intro e he
    cases hgrants : e.grants with
    | false => rfl
    | true =>
        cases e with
        | received cmd =>
            cases cmd with
            | close graceMs =>
                rw [hzero graceMs he] at hgrants
                cases hgrants
            | input _ | resize _ _ | attach _ | info => cases hgrants
        | delivered _ | drained _ _ | attached _ _ | sent _ _ _ _ | answered _ | signalled _
        | elapsed _ => cases hgrants
  · intro hclose hrunning
    have hclosing : w.closing = true := hw.closing.trans (any_closes_iff.mpr hclose)
    have hlive := hw.ending hclosing hrunning
    refine ⟨hlive, ?_, ?_⟩
    · by_contra hretained
      rw [hw.retained hretained] at hlive
      cases hlive
    · intro label v hstep new hnew data code hexit
      rcases isDead_step hstep with hsame | ⟨a, -, rfl⟩
      · -- The event reports an exit, and nothing but a drain can.
        have hdead : v.session.isDead = true := by
          rw [(escalating_step hw hstep).dead, hnew, List.any_append, Bool.or_eq_true]
          exact Or.inl (List.any_eq_true.mpr ⟨_, hexit, rfl⟩)
        rw [hsame, hlive] at hdead
        cases hdead
      · exact onReadable_ends (w := w.answer a) hclosing hnew hexit

/-- A client's shell ignores a CLOSE, a second one with a shorter grace too, and is
killed once that grace is over. -/
def stubborn : List Label :=
  [.asyncFdOk, .send (.attach ⟨0, 80, 24, 0⟩), .command .none, .send (.close 900), .command .none,
    .elapse 300, .send (.close 200), .command .none, .elapse 200, .kill .none]

/-- The shell is gone. -/
def reaped : Label :=
  .readable { Answers.none with reads := [.ok []], waits := [.ok (.signaled 9)] }

/-- The shell gets two SIGHUPs and the SIGKILL, and its end is reported to the client. -/
theorem close_escalation_stubborn :
    ∃ w, (machine .default).run (start shell) stubborn = some w ∧
      w.history.count (.signalled .sighup) = 2 ∧ .signalled .sigkill ∈ w.history ∧
      KillsDue w.history ∧ w.session.isDead = false ∧ w.graceDeadline = none ∧
      ∃ v new, w.step .default reaped = some v ∧ v.history = new ++ w.history ∧ v.phase = .left ∧
        w.ExitOffered 137 new := by
  have hsome : ((machine .default).run (start shell) stubborn).isSome = true := by decide +kernel
  have hend : ∀ w ∈ (machine .default).run (start shell) stubborn,
      liveCloses w.history = 2 ∧ .signalled .sigkill ∈ w.history ∧
        .received (.close 900) ∈ w.history ∧ w.phase = .running ∧
        .drained [] (some 137) ∉ w.history ∧ (w.step .default reaped).isSome = true ∧
        ∀ v ∈ w.step .default reaped, .drained [] (some 137) ∈ v.history := by
    decide +kernel
  obtain ⟨w, hw⟩ := Option.isSome_iff_exists.mp hsome
  obtain ⟨hcloses, hkilled, hclose, hrunning, hbefore, hstepped, hafter⟩ := hend w hw
  obtain ⟨v, hv⟩ := Option.isSome_iff_exists.mp hstepped
  obtain ⟨new, hnew⟩ := history_step hv
  have hexit : .drained [] (some 137) ∈ new := by
    have hmem := hafter v hv
    rw [← hnew] at hmem
    exact (List.mem_append.mp hmem).resolve_right hbefore
  obtain ⟨-, -, hhangups, hdue, -, hclosing⟩ :=
    close_escalation .default shell rfl stubborn w hw
  obtain ⟨hlive, hretained, hreaped⟩ := hclosing ⟨900, hclose⟩ hrunning
  obtain ⟨hleft, hoffered⟩ := hreaped reaped v hv new hnew.symm [] 137 hexit
  exact ⟨w, hw, hhangups.trans hcloses, hkilled, hdue, hlive, hretained, v, new, hv, hnew.symm,
    hleft, hoffered⟩

end World

end JftermMuxer.Daemon
