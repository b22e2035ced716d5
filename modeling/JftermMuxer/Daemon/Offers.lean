import JftermMuxer.Daemon.Actor

/-!
# What a step of the actor offers

Every frame that the actor of {lit}`jftermd/src/server.rs` offers comes from the
session as it stands: output, the progress of the engine under STATUS, the status of
a dead shell under EXIT.  This file says once which events a step adds; what the
frames have in common follows from it.

Main results:

- Theorem {lit}`World.step_speaks`: every step but a drain leaves the engine and the
  lifecycle alone and offers what the session justifies.
- Theorem {lit}`World.onReadable_speaks`: a drain does so with the session it leaves.
-/

namespace JftermMuxer.Daemon

open JftermMuxer.Core

/-- The frames that a session in its present state justifies. -/
inductive Session.Offers (s : Session) : Frame → Prop where
  | data {bytes : List UInt8} {f : Frame} (h : f ∈ frameData bytes) : Offers s f
  | status {t : StatusSnapshot} (h : t.progress = s.status.progress) : Offers s (statusFrame t)
  | exit {code : Int} (h : s.lifecycle = .dead code) : Offers s (exitFrame code)

/-- What may be offered depends on the engine and the lifecycle alone. -/
theorem Session.Offers.congr {s t : Session} {f : Frame} (h : s.Offers f)
    (hengine : t.engine = s.engine) (hlifecycle : t.lifecycle = s.lifecycle) : t.Offers f := by
  cases h with
  | data hf => exact .data hf
  | status hprogress =>
      have hsame : t.status = s.status := congrArg ReplayEngine.status hengine
      exact .status (by rw [hprogress, hsame])
  | exit hdead => exact .exit (hlifecycle.trans hdead)

/-- Not a drain, and no offer that the session does not justify. -/
def Event.Offered (s : Session) : Event → Prop
  | .sent _ f _ _ => s.Offers f
  | .drained _ _ => False
  | .delivered _ | .received _ | .attached _ _ | .answered _ | .signalled _ | .elapsed _ => True

/-- What was offered is justified by the engine and the lifecycle alone. -/
theorem Event.Offered.congr {s t : Session} {e : Event} (h : e.Offered s)
    (hengine : t.engine = s.engine) (hlifecycle : t.lifecycle = s.lifecycle) : e.Offered t := by
  cases e with
  | sent c f stage ok => exact Session.Offers.congr h hengine hlifecycle
  | drained data exit => exact h
  | delivered _ | received _ | attached _ _ | answered _ | signalled _ | elapsed _ => trivial

namespace World

variable {u v w : World}

/-- A move that leaves the engine and the lifecycle alone and adds such events. -/
structure Speaks (w v : World) : Prop where
  engine : v.session.engine = w.session.engine
  lifecycle : v.session.lifecycle = w.session.lifecycle
  events : ∃ es, v.history = es ++ w.history ∧ ∀ e ∈ es, e.Offered w.session

namespace Speaks

private theorem of_eq (hengine : v.session.engine = w.session.engine)
    (hlifecycle : v.session.lifecycle = w.session.lifecycle) (hhistory : v.history = w.history) :
    Speaks w v :=
  ⟨hengine, hlifecycle, [], hhistory, by simp⟩

/-- Saying nothing. -/
theorem refl (w : World) : Speaks w w := of_eq rfl rfl rfl

/-- What is said adds up. -/
theorem trans (huv : Speaks u v) (hvw : Speaks v w) : Speaks u w := by
  obtain ⟨es, hes, hoffered⟩ := huv.events
  obtain ⟨fs, hfs, hlater⟩ := hvw.events
  refine ⟨hvw.engine.trans huv.engine, hvw.lifecycle.trans huv.lifecycle, fs ++ es, ?_, ?_⟩
  · rw [hfs, hes, List.append_assoc]
  · intro e he
    rcases List.mem_append.mp he with he | he
    · exact (hlater e he).congr huv.engine.symm huv.lifecycle.symm
    · exact hoffered e he

/-- One event that the session justifies. -/
theorem of_cons {e : Event} (he : e.Offered w.session)
    (hengine : v.session.engine = w.session.engine)
    (hlifecycle : v.session.lifecycle = w.session.lifecycle)
    (hhistory : v.history = e :: w.history) : Speaks w v := by
  refine ⟨hengine, hlifecycle, [e], hhistory, ?_⟩
  intro e' he'
  rw [List.mem_singleton.mp he']
  exact he

/-- Frames said one after the other. -/
theorem foldl {move : World → Frame → World} {fs : List Frame}
    (hmove : ∀ w f, f ∈ fs → Speaks w (move w f)) (w : World) : Speaks w (fs.foldl move w) := by
  induction fs generalizing w with
  | nil => exact refl w
  | cons f fs ih =>
      have hfirst := hmove w f List.mem_cons_self
      exact hfirst.trans (ih (fun w g hg => hmove w g (List.mem_cons_of_mem f hg)) (move w f))

end Speaks

section Arms

variable (opts : ServerOpts)

private theorem speaks_trySend (c : ClientId) {f : Frame} (stage : Stage) (hf : w.session.Offers f) :
    Speaks w (w.trySend opts c f stage).2 := by
  obtain ⟨ok, queues, moves, heq, -⟩ := trySend_cases opts w c f stage
  rw [heq]
  exact Speaks.of_cons (e := .sent c f stage ok) hf rfl rfl rfl

private theorem speaks_pushOrDrop {f : Frame} (hf : w.session.Offers f) :
    Speaks w (w.pushOrDrop opts f) := by
  unfold pushOrDrop
  cases w.client with
  | none => exact Speaks.refl w
  | some tx =>
      have hsent := speaks_trySend opts tx .live hf
      simp only
      rcases hresult : w.trySend opts tx f .live with ⟨_ | _, u⟩
      · rw [hresult] at hsent
        exact hsent.trans (Speaks.of_eq rfl rfl rfl)
      · rw [hresult] at hsent
        exact hsent

private theorem speaks_forwardData (w : World) (data : List UInt8) :
    Speaks w (w.forwardData opts data) :=
  Speaks.foldl (fun _ _ hf => speaks_pushOrDrop opts (.data hf)) w

private theorem speaks_poll (w : World) : Speaks w w.poll := Speaks.of_eq rfl rfl rfl

private theorem speaks_pushStatus (w : World) : Speaks w (w.pushStatus opts) := by
  unfold pushStatus
  split
  · exact Speaks.refl w
  · have hstatus : w.session.Offers (statusFrame w.effectiveStatus) := .status rfl
    exact (speaks_pushOrDrop opts hstatus).trans (Speaks.of_eq rfl rfl rfl)

private theorem speaks_refreshStatus (w : World) : Speaks w (w.refreshStatus opts) := by
  rcases refreshStatus_cases opts w with ⟨-, heq⟩ | ⟨-, heq | heq⟩
  · rw [heq]
    exact Speaks.refl w
  · rw [heq]
    exact (speaks_poll w).trans (speaks_pushStatus opts w.poll)
  · rw [heq]
    exact speaks_pushStatus opts w

private theorem speaks_offerExit (tx : ClientId) (w : World) : Speaks w (w.offerExit opts tx) := by
  unfold offerExit
  cases hlifecycle : w.session.lifecycle with
  | live => exact Speaks.refl w
  | dead code => exact speaks_trySend opts tx .handshake (.exit hlifecycle)

private theorem speaks_handshake (w : World) (req : AttachRequest) : Speaks w (w.handshake opts req) := by
  rcases hreplay : w.session.replayForAttach req.wantChunks with ⟨data, status⟩
  have hattached : Speaks w (w.record (.attached req.outTx data)) :=
    Speaks.of_cons (e := .attached req.outTx data) trivial rfl rfl rfl
  have hframes : ∀ u f, f ∈ frameData data → Speaks u (u.offer opts req.outTx f) :=
    fun _ _ hf => speaks_trySend opts req.outTx .handshake (.data hf)
  have hreplayed := hattached.trans (Speaks.foldl hframes _)
  have htold := hreplayed.trans (speaks_trySend opts req.outTx .handshake (.status (t :=
    World.effectiveStatus ((frameData data).foldl (offer opts req.outTx)
      (w.record (.attached req.outTx data)))) rfl))
  unfold handshake
  rw [hreplay]
  exact (htold.trans (speaks_offerExit opts req.outTx _)).trans (Speaks.of_eq rfl rfl rfl)

private theorem speaks_resize (w : World) (cols rows : UInt16) : Speaks w (w.resize cols rows) :=
  Speaks.of_eq (Session.engine_resize ..) (Session.lifecycle_resize ..) rfl

private theorem speaks_bindClient (w : World) (req : AttachRequest) :
    Speaks w (w.bindClient opts req) := by
  have hattach : ∀ u : World, Speaks u (u.attachClient opts req) := fun u =>
    (speaks_resize u req.cols req.rows).trans (speaks_handshake opts _ req)
  unfold bindClient
  simp only
  split
  · exact (hattach w).trans (Speaks.of_eq rfl rfl rfl)
  · exact ((speaks_poll w).trans (hattach w.poll)).trans (Speaks.of_eq rfl rfl rfl)

private theorem speaks_leave (w : World) : Speaks w w.leave := Speaks.of_eq rfl rfl rfl

private theorem speaks_onAttach (w : World) (req : AttachRequest) : Speaks w (w.onAttach opts req) := by
  have hbound := speaks_bindClient opts w req
  unfold onAttach
  simp only
  split
  · exact hbound.trans (speaks_leave _)
  · exact hbound

private theorem speaks_farewell {code : Int} (hdead : w.session.lifecycle = .dead code) :
    Speaks w (w.farewell opts code) := by
  unfold farewell
  cases w.client with
  | none => exact Speaks.refl w
  | some tx =>
      have htaken : Speaks w { w with client := none } := Speaks.of_eq rfl rfl rfl
      exact htaken.trans (speaks_trySend opts tx .live (.exit hdead))

private theorem speaks_hangup (w : World) : Speaks w w.hangup := by
  unfold hangup
  split
  · exact Speaks.of_eq rfl rfl rfl
  · exact Speaks.of_cons (e := .signalled .sighup) trivial rfl rfl rfl

private theorem speaks_kill (w : World) : Speaks w w.kill := by
  unfold kill
  split
  · exact Speaks.of_eq rfl rfl rfl
  · exact Speaks.of_cons (e := .signalled .sigkill) trivial rfl rfl rfl

private theorem speaks_onKill (w : World) : Speaks w w.onKill := by
  unfold onKill
  simp only
  split
  · exact Speaks.of_eq rfl rfl rfl
  · exact (speaks_kill w).trans (Speaks.of_eq rfl rfl rfl)

private theorem speaks_onClose (w : World) (graceMs : UInt32) : Speaks w (w.onClose opts graceMs) := by
  have hclosing : Speaks w { w.hangup with
      closing := true
      killDeadline := if 0 < graceMs then some (w.hangup.now + graceMs.toNat)
        else w.hangup.killDeadline } :=
    (speaks_hangup w).trans (Speaks.of_eq rfl rfl rfl)
  unfold onClose
  simp only
  split
  · exact hclosing
  · rename_i code hdead
    exact (hclosing.trans (speaks_farewell opts hdead)).trans (speaks_leave _)

private theorem speaks_onExit {code : Int} (hdead : w.session.lifecycle = .dead code) :
    Speaks w (w.onExit opts code) := by
  have hpushed : Speaks w (w.pushOrDrop opts (exitFrame code)) :=
    speaks_pushOrDrop opts (.exit hdead)
  unfold onExit
  simp only
  split
  · exact hpushed.trans (speaks_leave _)
  · exact hpushed.trans (Speaks.of_eq rfl rfl rfl)

/-- A drain: the session it leaves justifies what the arm offers; nothing is offered
when the drain fails. -/
theorem onReadable_speaks (w : World) :
    (∃ e session os, w.session.drain w.os = (.error e, session, os) ∧
      w.onReadable opts = World.leave { w with session, os }) ∨
    ∃ outcome session os, w.session.drain w.os = (.ok outcome, session, os) ∧
      Speaks (World.record { w with session, os } (.drained outcome.data outcome.exit))
        (w.onReadable opts) := by
  have hexit := (w.session.lifecycle_drain w.os).1
  rcases hdrained : w.session.drain w.os with ⟨e | outcome, session, os⟩
  · exact Or.inl ⟨e, session, os, rfl, onReadable_error hdrained⟩
  · refine Or.inr ⟨outcome, session, os, rfl, ?_⟩
    rw [hdrained] at hexit
    have hrefreshed := (speaks_forwardData opts (World.record { w with session, os }
      (.drained outcome.data outcome.exit)) outcome.data).trans (speaks_refreshStatus opts _)
    rw [onReadable_ok hdrained]
    cases hreported : outcome.exit with
    | none =>
        rw [hreported] at hrefreshed
        exact hrefreshed
    | some code =>
        rw [hreported] at hrefreshed
        have hdead := (hexit outcome rfl code hreported).2
        exact hrefreshed.trans (speaks_onExit opts (hrefreshed.lifecycle.trans hdead))

/-- The kernel's answers say nothing. -/
theorem speaks_answer (w : World) (a : Answers) : Speaks w (w.answer a) := Speaks.of_eq rfl rfl rfl

/-- A command is answered with what the session justifies. -/
theorem speaks_command {a : Answers} (hstep : w.command opts a = some v) : Speaks w v := by
  obtain ⟨-, ⟨-, -, rfl⟩ | ⟨cmd, rest, -, rfl⟩⟩ := command_eq_some hstep
  · exact speaks_leave w
  · have hreceived : Speaks w ((w.answer a).receive cmd rest) :=
      (speaks_answer w a).trans (Speaks.of_cons (e := .received cmd) trivial rfl rfl rfl)
    cases cmd with
    | input bytes => exact hreceived.trans (Speaks.of_eq rfl rfl rfl)
    | resize cols rows => exact hreceived.trans (speaks_resize _ cols rows)
    | info => exact hreceived.trans (Speaks.of_cons (e := .answered _) trivial rfl rfl rfl)
    | close graceMs => exact hreceived.trans (speaks_onClose opts _ graceMs)
    | attach req => exact hreceived.trans (speaks_onAttach opts _ req)

/-- Every step but a drain offers what the session justifies, and leaves it alone. -/
theorem step_speaks {label : Label} (hstep : w.step opts label = some v) :
    Speaks w v ∨ ∃ a, label = .readable a ∧ v = onReadable opts (w.answer a) := by
  cases label with
  | asyncFdOk =>
      obtain ⟨-, -, rfl⟩ := asyncFdOk_eq_some hstep
      exact Or.inl (Speaks.of_eq rfl rfl rfl)
  | asyncFdFailed =>
      obtain ⟨-, -, rfl⟩ := asyncFdFailed_eq_some hstep
      exact Or.inl (speaks_leave w)
  | send cmd =>
      obtain ⟨next, rfl, -⟩ := send_eq_some hstep
      exact Or.inl (Speaks.of_cons (e := .delivered cmd) trivial rfl rfl rfl)
  | dropSenders =>
      cases hstep
      exact Or.inl (Speaks.of_eq rfl rfl rfl)
  | writer move =>
      cases hstep
      rw [writerMove_eq]
      exact Or.inl (Speaks.of_eq rfl rfl rfl)
  | elapse ms =>
      cases hstep
      exact Or.inl (Speaks.of_cons (e := .elapsed ms) trivial rfl rfl rfl)
  | command a => exact Or.inl (speaks_command opts hstep)
  | readable a =>
      obtain ⟨-, -, rfl⟩ := readable_eq_some hstep
      exact Or.inr ⟨a, rfl, rfl⟩
  | readableError =>
      obtain ⟨-, -, rfl⟩ := readableError_eq_some hstep
      exact Or.inl (speaks_leave w)
  | grace =>
      obtain ⟨-, -, rfl⟩ := grace_eq_some hstep
      exact Or.inl (speaks_leave w)
  | kill a =>
      obtain ⟨-, -, rfl⟩ := kill_eq_some hstep
      exact Or.inl ((speaks_answer w a).trans (speaks_onKill _))
  | tick a =>
      obtain ⟨-, -, rfl⟩ := tick_eq_some hstep
      have hpolled := (speaks_answer w a).trans (speaks_poll _)
      exact Or.inl (hpolled.trans (speaks_pushStatus opts _))
  | remove =>
      obtain ⟨-, rfl⟩ := remove_eq_some hstep
      exact Or.inl (Speaks.of_eq rfl rfl rfl)
  | finish =>
      obtain ⟨-, rfl⟩ := finish_eq_some hstep
      exact Or.inl (Speaks.of_eq rfl rfl rfl)

end Arms

end World

end JftermMuxer.Daemon
