import JftermMuxer.Daemon.Handshake
import Mathlib.Data.List.Chain

/-!
# The STATUS of the attached client

The actor of {lit}`jftermd/src/server.rs` tells its client the merged status in the
handshake and pushes a STATUS whenever it changes.  What was told last is a variable
of the loop; it is set by the handshake, by a drain and by the poll, also when the
push fails and the client is dropped.

Main results:

- Theorem {lit}`World.Noted.pushStatus`: a push keeps the client's record in step.
- Theorem {lit}`World.noted_step`: so does every step whose handshake misses nothing.
- Theorem {lit}`World.status_never_stale`: in every run, the last STATUS of the bound client
  is the current one, and no STATUS repeats the one before.
-/

namespace JftermMuxer.Daemon

open JftermMuxer.Core JftermMuxer.Foundation

/-- A frame of a handshake that its queue did not take. -/
def Event.missesHandshake : Event → Bool
  | .sent _ _ .handshake false => true
  | _ => false

namespace Event

/-- The STATUS frames enqueued to a client, oldest first. -/
def statuses (c : ClientId) (h : List Event) : List Frame :=
  (frames c h).filter fun f => f.ty == .status

/-- Not the enqueueing of a STATUS. -/
def NotStatus : Event → Prop
  | .sent _ f _ true => f.ty ≠ .status
  | .sent _ _ _ false | .delivered _ | .received _ | .attached _ _ | .drained _ _ | .answered _
  | .signalled _ | .elapsed _ => True

/-- The STATUS frames of two histories in a row. -/
theorem statuses_append (c : ClientId) (es h : List Event) :
    statuses c (es ++ h) = statuses c h ++ statuses c es := by
  unfold statuses
  rw [frames_append, List.filter_append]

/-- Without an offered STATUS none is enqueued. -/
theorem statuses_notStatus {es : List Event} (hes : ∀ e ∈ es, NotStatus e) (c : ClientId)
    (h : List Event) : statuses c (es ++ h) = statuses c h := by
  have hnone : statuses c es = [] := by
    unfold statuses
    rw [List.filter_eq_nil_iff]
    intro f hf
    obtain ⟨stage, hmem⟩ := mem_of_mem_frames hf
    have hty : f.ty ≠ .status := hes _ hmem
    simpa using hty
  rw [statuses_append, hnone, List.append_nil]

/-- A STATUS that is taken is the client's last one. -/
theorem statuses_sent_ok (c : ClientId) (s : StatusSnapshot) (stage : Stage) (h : List Event) :
    statuses c (.sent c (statusFrame s) stage true :: h) = statuses c h ++ [statusFrame s] := by
  unfold statuses
  rw [frames_sent_ok, List.filter_append]
  rfl

/-- One for somebody else changes nothing. -/
theorem statuses_sent_other {c d : ClientId} (hd : d ≠ c) (f : Frame) (stage : Stage) (ok : Bool)
    (h : List Event) : statuses c (.sent d f stage ok :: h) = statuses c h := by
  unfold statuses
  rw [frames_sent_other hd]

end Event

namespace World

open Event

variable {opts : ServerOpts} {w v u : World}

/-! ## The record of the last STATUS -/

/-- No STATUS repeats the one before, and the bound client's last one is the one
recorded. -/
structure Noted (w : World) : Prop where
  chain : ∀ c, (statuses c w.history).IsChain (· ≠ ·)
  told : ∀ c, w.client = some c →
    ∃ s, w.lastStatus = some s ∧ (statuses c w.history).getLast? = some (statusFrame s)

/-- What is recorded is the current status. -/
def Current (w : World) : Prop := w.client.isSome = true → w.lastStatus = some w.effectiveStatus

/-- A move without a STATUS that binds nobody. -/
structure Silent (w v : World) : Prop where
  client : ∀ c, v.client = some c → w.client = some c
  lastStatus : v.lastStatus = w.lastStatus
  events : ∃ es, v.history = es ++ w.history ∧ ∀ e ∈ es, NotStatus e

/-- Silent moves add up. -/
theorem Silent.trans (hwv : Silent w v) (hvu : Silent v u) : Silent w u := by
  constructor
  · exact fun c hc => hwv.client c (hvu.client c hc)
  · exact hvu.lastStatus.trans hwv.lastStatus
  · exact Machine.grows_trans hwv.events hvu.events

private theorem silent_of_eq (hclient : v.client = w.client) (hlast : v.lastStatus = w.lastStatus)
    (hhistory : v.history = w.history) : Silent w v := by
  constructor
  · rw [hclient]
    exact fun _ => id
  · exact hlast
  · exact ⟨[], hhistory, by simp⟩

private theorem silent_of_cons {e : Event} (he : NotStatus e) (hclient : v.client = w.client)
    (hlast : v.lastStatus = w.lastStatus) (hhistory : v.history = e :: w.history) :
    Silent w v := by
  constructor
  · rw [hclient]
    exact fun _ => id
  · exact hlast
  · refine ⟨[e], hhistory, ?_⟩
    intro e' he'
    rw [List.mem_singleton.mp he']
    exact he

/-- A silent move keeps the record noted. -/
theorem Noted.of_silent (hw : Noted w) (h : Silent w v) : Noted v := by
  obtain ⟨es, hes, hquiet⟩ := h.events
  have hsame : ∀ c, statuses c v.history = statuses c w.history := by
    intro c
    rw [hes]
    exact statuses_notStatus hquiet c w.history
  constructor
  · intro c
    rw [hsame]
    exact hw.chain c
  · intro c hc
    rw [hsame, h.lastStatus]
    exact hw.told c (h.client c hc)

/-- A silent move that leaves the status alone. -/
theorem Current.of_silent (hw : Current w) (h : Silent w v)
    (hstatus : v.effectiveStatus = w.effectiveStatus) : Current v := by
  intro hbound
  obtain ⟨c, hc⟩ := Option.isSome_iff_exists.mp hbound
  rw [h.lastStatus, hstatus]
  apply hw
  rw [h.client c hc]
  rfl

private theorem silent_pushOrDrop (opts : ServerOpts) (w : World) {f : Frame} (hf : f.ty ≠ .status) :
    Silent w (w.pushOrDrop opts f) := by
  rcases pushOrDrop_cases opts w f with ⟨-, heq⟩ | ⟨c, ok, hbound, hhistory, hclient⟩
  · rw [heq]
    exact silent_of_eq rfl rfl rfl
  · refine ⟨?_, (outward_pushOrDrop opts w f).lastStatus, [.sent c f .live ok], hhistory, ?_⟩
    · intro d hd
      rw [hclient] at hd
      cases ok with
      | true => exact hbound.trans hd
      | false => cases hd
    · intro e he
      rw [List.mem_singleton.mp he]
      cases ok with
      | true => exact hf
      | false => trivial

private theorem silent_forwardData (opts : ServerOpts) (w : World) (data : List UInt8) :
    Silent w (w.forwardData opts data) := by
  have hfold : ∀ (fs : List Frame) (w : World), (∀ f ∈ fs, f.ty = .data) →
      Silent w (fs.foldl (pushOrDrop opts) w) := by
    intro fs
    induction fs with
    | nil => exact fun w _ => silent_of_eq rfl rfl rfl
    | cons f fs ih =>
        intro w hfs
        have hf : f.ty ≠ .status := by
          rw [hfs f List.mem_cons_self]
          exact FrameType.noConfusion
        have hrest := ih (w.pushOrDrop opts f) fun g hg => hfs g (List.mem_cons_of_mem f hg)
        exact (silent_pushOrDrop opts w hf).trans hrest
  exact hfold (frameData data) w fun f hf => ty_of_mem_frameData hf

/-! ## Pushing a STATUS -/

/-- A push of the status keeps the client's record in step with what it was told, and
makes it current, whether or not the client takes the frame. -/
theorem Noted.pushStatus (opts : ServerOpts) (hw : Noted w) :
    Noted (w.pushStatus opts) ∧
      (w.pushStatus opts).lastStatus = some (w.pushStatus opts).effectiveStatus := by
  unfold World.pushStatus
  by_cases hsame : w.lastStatus = some w.effectiveStatus
  · rw [if_pos hsame]
    exact ⟨hw, hsame⟩
  · rw [if_neg hsame]
    have hstatus := (outward_pushOrDrop opts w (statusFrame w.effectiveStatus)).effectiveStatus
    refine ⟨?_, congrArg some hstatus.symm⟩
    rcases pushOrDrop_cases opts w (statusFrame w.effectiveStatus) with
      ⟨hnone, heq⟩ | ⟨c, ok, hbound, hhistory, hclient⟩
    · rw [heq]
      refine ⟨hw.chain, ?_⟩
      intro c hc
      have hsome : w.client = some c := hc
      rw [hnone] at hsome
      cases hsome
    · obtain ⟨s, hlast, hend⟩ := hw.told c hbound
      -- The frame differs from the client's last one, because the snapshots do.
      have hnew : statusFrame s ≠ statusFrame w.effectiveStatus := by
        intro hframes
        rw [hlast, statusFrame_injective hframes] at hsame
        exact hsame rfl
      constructor
      · intro d
        change (statuses d (w.pushOrDrop opts (statusFrame w.effectiveStatus)).history).IsChain _
        rw [hhistory]
        by_cases hd : c = d
        · subst hd
          cases ok with
          | true =>
              rw [statuses_sent_ok]
              apply (hw.chain c).append (List.isChain_singleton _)
              intro x hx y hy
              rw [hend] at hx
              cases hx
              cases hy
              exact hnew
          | false => exact hw.chain c
        · rw [statuses_sent_other hd]
          exact hw.chain d
      · intro d hd
        change (w.pushOrDrop opts (statusFrame w.effectiveStatus)).client = some d at hd
        rw [hclient] at hd
        cases ok with
        | true =>
            cases hd
            refine ⟨w.effectiveStatus, rfl, ?_⟩
            change (statuses c (w.pushOrDrop opts (statusFrame w.effectiveStatus)).history).getLast? = _
            rw [hhistory, statuses_sent_ok, List.getLast?_append]
            rfl
        | false => cases hd

/-- A refreshed STATUS is noted and current. -/
theorem Noted.refreshStatus (opts : ServerOpts) (hw : Noted w) :
    Noted (w.refreshStatus opts) ∧ Current (w.refreshStatus opts) := by
  have hpushed : ∀ x : World, Noted x →
      Noted (x.pushStatus opts) ∧ Current (x.pushStatus opts) :=
    fun x hx => ⟨(hx.pushStatus opts).1, fun _ => (hx.pushStatus opts).2⟩
  rcases refreshStatus_cases opts w with ⟨hclient, heq⟩ | ⟨-, heq | heq⟩
  · rw [heq]
    exact ⟨hw, fun hbound => absurd hbound (by simp [hclient])⟩
  · rw [heq]
    exact hpushed w.poll (hw.of_silent (silent_of_eq rfl rfl rfl))
  · rw [heq]
    exact hpushed w hw

/-! ## The arms -/

private theorem effectiveStatus_resize (w : World) (cols rows : UInt16) :
    (w.resize cols rows).effectiveStatus = w.effectiveStatus := by
  have hengine : (w.resize cols rows).session.engine = w.session.engine :=
    w.session.engine_resize w.os cols rows
  unfold effectiveStatus Session.hasPromptMarking Session.status
  rw [hengine]
  rfl

/-- What holds between two iterations of the loop. -/
structure InStep (w : World) : Prop where
  noted : Noted w
  current : w.phase = .running → Current w

/-- A silent move that leaves the status alone and does not enter the loop. -/
theorem InStep.of_silent (hw : InStep w) (h : Silent w v)
    (hstatus : v.effectiveStatus = w.effectiveStatus)
    (hphase : v.phase = .running → w.phase = .running) : InStep v :=
  ⟨hw.noted.of_silent h, fun hrun => (hw.current (hphase hrun)).of_silent h hstatus⟩

/-- The loop is left. -/
theorem InStep.of_left (hw : Noted w) (h : Silent w v) (hleft : v.phase = .left) : InStep v := by
  refine ⟨hw.of_silent h, ?_⟩
  intro hrun
  rw [hleft] at hrun
  cases hrun

/-- The report of an exit keeps the record in step. -/
theorem inStep_onExit (hw : Noted w) (hcurrent : Current w) (code : Int) :
    InStep (w.onExit opts code) := by
  have hpush := silent_pushOrDrop opts w (f := exitFrame code) FrameType.noConfusion
  have hstatus := (outward_pushOrDrop opts w (exitFrame code)).effectiveStatus
  unfold onExit
  simp only
  split
  · exact InStep.of_left (hw.of_silent hpush) (silent_of_eq rfl rfl rfl) rfl
  · have hpushed : InStep (w.pushOrDrop opts (exitFrame code)) :=
      ⟨hw.of_silent hpush, fun _ => hcurrent.of_silent hpush hstatus⟩
    exact hpushed.of_silent (silent_of_eq rfl rfl rfl) rfl id

/-- A drain keeps the record in step. -/
theorem inStep_onReadable (hw : Noted w) : InStep (w.onReadable opts) := by
  rcases hdrained : w.session.drain w.os with ⟨_ | ⟨data, status, exit⟩, session, os⟩
  · rw [onReadable_error hdrained]
    exact InStep.of_left hw (silent_of_eq rfl rfl rfl) rfl
  · have hrecord : Silent w (World.record { w with session, os } (.drained data exit)) :=
      silent_of_cons (e := .drained data exit) trivial rfl rfl rfl
    have hforward := silent_forwardData opts
      (World.record { w with session, os } (.drained data exit)) data
    have hnoted := hw.of_silent (hrecord.trans hforward)
    obtain ⟨hrefreshed, hcurrent⟩ := hnoted.refreshStatus opts
    rw [onReadable_ok hdrained]
    cases exit with
    | none => exact ⟨hrefreshed, fun _ => hcurrent⟩
    | some code => exact inStep_onExit hrefreshed hcurrent code

private theorem silent_farewell (opts : ServerOpts) (w : World) (code : Int) :
    Silent w (w.farewell opts code) := by
  unfold farewell
  cases hclient : w.client with
  | none => exact silent_of_eq rfl rfl rfl
  | some c =>
      obtain ⟨ok, queues, moves, heq, -⟩ :=
        trySend_cases opts { w with client := none } c (exitFrame code) .live
      simp only [heq]
      refine ⟨?_, rfl, [.sent c (exitFrame code) .live ok], rfl, ?_⟩
      · intro d hd
        cases hd
      · intro e he
        rw [List.mem_singleton.mp he]
        cases ok with
        | true => exact FrameType.noConfusion
        | false => trivial

/-- A CLOSE keeps the record in step. -/
theorem inStep_onClose (hw : InStep w) (graceMs : UInt32) : InStep (w.onClose opts graceMs) := by
  have hhangup : Silent w w.hangup := by
    unfold hangup
    split
    · exact silent_of_eq rfl rfl rfl
    · exact silent_of_cons (e := .signalled .sighup) trivial rfl rfl rfl
  have hclosing : InStep { w.hangup with
      closing := true
      killDeadline := if 0 < graceMs then some (w.hangup.now + graceMs.toNat)
        else w.hangup.killDeadline } :=
    hw.of_silent (hhangup.trans (silent_of_eq rfl rfl rfl)) rfl id
  unfold onClose
  simp only
  split
  · exact hclosing
  · exact InStep.of_left (hclosing.noted.of_silent (silent_farewell opts _ _))
      (silent_of_eq rfl rfl rfl) rfl

/-- The handshake tells its client the status that it records. -/
theorem AttachedVia.inStep {a : Answers} {req : AttachRequest} (h : AttachedVia opts w a req u v)
    (hw : Noted w) (hnew : frames req.outTx w.history = []) (hafter : Unbroken v.history)
    (hbefore : Unbroken w.history) : InStep v := by
  obtain ⟨replay, -, hframes⟩ := h.given hnew hafter hbefore
  have hown : statuses req.outTx v.history = [statusFrame u.effectiveStatus] := by
    have hdata : (frameData replay).filter (fun f => f.ty == .status) = [] := by
      rw [List.filter_eq_nil_iff]
      intro f hf
      rw [ty_of_mem_frameData hf]
      exact Bool.noConfusion
    have hexit : (exitOf w.session.lifecycle).filter (fun f => f.ty == .status) = [] := by
      cases w.session.lifecycle with
      | live => rfl
      | dead code => rfl
    unfold statuses
    rw [hframes, List.filter_append, hdata, List.nil_append,
      List.filter_cons_of_pos (by rfl), hexit]
  have hothers : ∀ c, c ≠ req.outTx → statuses c v.history = statuses c w.history := by
    intro c hc
    obtain ⟨es, replay', hhistory, hes⟩ := handshake_addressed opts u req
    have hnone : statuses c es = [] := by
      have hframes : frames c es = [] := by
        apply frames_eq_nil
        intro f stage ok hmem
        obtain ⟨g, ok', hsent⟩ := hes _ hmem
        cases hsent
        exact hc rfl
      unfold statuses
      rw [hframes]
      rfl
    rw [h.history, hhistory, statuses_append, hnone, List.append_nil, h.before]
    rfl
  constructor
  · constructor
    · intro c
      by_cases hc : c = req.outTx
      · rw [hc, hown]
        exact List.isChain_singleton _
      · rw [hothers c hc]
        exact hw.chain c
    · intro c hc
      rw [h.client, Option.some.injEq] at hc
      subst hc
      rw [hown]
      exact ⟨u.effectiveStatus, h.lastStatus, rfl⟩
  · intro _ _
    rw [h.status]
    exact h.lastStatus

/-! ## Every step and every run -/

/-- Every step whose handshake misses nothing keeps the record in step. -/
theorem noted_step {label : Label} (hw : InStep w) (hfeed : ∀ c, Feed opts c w)
    (hintroduced : Introduced w) (hbefore : Unbroken w.history) (hafter : Unbroken v.history)
    (hstep : w.step opts label = some v) : InStep v := by
  cases label with
  | asyncFdOk =>
      obtain ⟨-, -, rfl⟩ := asyncFdOk_eq_some hstep
      exact hw.of_silent (silent_of_eq rfl rfl rfl) rfl id
  | asyncFdFailed =>
      obtain ⟨-, -, rfl⟩ := asyncFdFailed_eq_some hstep
      exact InStep.of_left hw.noted (silent_of_eq rfl rfl rfl) rfl
  | send cmd =>
      obtain ⟨next, rfl, -⟩ := send_eq_some hstep
      exact hw.of_silent (silent_of_cons (e := .delivered cmd) trivial rfl rfl rfl) rfl id
  | dropSenders =>
      cases hstep
      exact hw.of_silent (silent_of_eq rfl rfl rfl) rfl id
  | writer move =>
      cases hstep
      rw [writerMove_eq]
      exact hw.of_silent (silent_of_eq rfl rfl rfl) rfl id
  | elapse ms =>
      cases hstep
      exact hw.of_silent (silent_of_cons (e := .elapsed ms) trivial rfl rfl rfl) rfl id
  | command a =>
      obtain ⟨hrun, ⟨-, -, rfl⟩ | ⟨cmd, rest, hqueue, rfl⟩⟩ := command_eq_some hstep
      · exact InStep.of_left hw.noted (silent_of_eq rfl rfl rfl) rfl
      · have hreceived : InStep ((w.answer a).receive cmd rest) :=
          hw.of_silent (silent_of_cons (e := .received cmd) trivial rfl rfl rfl) rfl id
        cases cmd with
        | input bytes => exact hreceived.of_silent (silent_of_eq rfl rfl rfl) rfl id
        | resize cols rows =>
            exact hreceived.of_silent (silent_of_eq rfl rfl rfl) (effectiveStatus_resize ..) id
        | info =>
            exact hreceived.of_silent (silent_of_cons (e := .answered _) trivial rfl rfl rfl) rfl id
        | close graceMs => exact inStep_onClose hreceived graceMs
        | attach req =>
            obtain ⟨u, hu⟩ := onAttach_eq opts w a req rest
            exact hu.inStep hw.noted (frames_of_pending hfeed hintroduced hqueue) hafter hbefore
  | readable a =>
      obtain ⟨-, -, rfl⟩ := readable_eq_some hstep
      exact inStep_onReadable (w := w.answer a) (hw.noted.of_silent (silent_of_eq rfl rfl rfl))
  | readableError =>
      obtain ⟨-, -, rfl⟩ := readableError_eq_some hstep
      exact InStep.of_left hw.noted (silent_of_eq rfl rfl rfl) rfl
  | grace =>
      obtain ⟨-, -, rfl⟩ := grace_eq_some hstep
      exact InStep.of_left hw.noted (silent_of_eq rfl rfl rfl) rfl
  | kill a =>
      obtain ⟨-, -, rfl⟩ := kill_eq_some hstep
      unfold onKill kill
      simp only
      split
      · exact hw.of_silent (silent_of_eq rfl rfl rfl) rfl id
      · exact hw.of_silent (silent_of_cons (e := .signalled .sigkill) trivial rfl rfl rfl) rfl id
  | tick a =>
      obtain ⟨-, -, rfl⟩ := tick_eq_some hstep
      have hpolled : Noted (w.answer a).poll := hw.noted.of_silent (silent_of_eq rfl rfl rfl)
      obtain ⟨hnoted, hcurrent⟩ := hpolled.pushStatus opts
      exact ⟨hnoted, fun _ _ => hcurrent⟩
  | remove =>
      obtain ⟨-, rfl⟩ := remove_eq_some hstep
      refine hw.of_silent (silent_of_eq rfl rfl rfl) rfl ?_
      intro hrun
      cases hrun
  | finish =>
      obtain ⟨-, rfl⟩ := finish_eq_some hstep
      refine ⟨⟨hw.noted.chain, ?_⟩, ?_⟩
      · intro c hc
        cases hc
      · intro hrun
        cases hrun

/-- In every run whose handshakes miss nothing, the bound client's last STATUS is the
recorded and the current one, and no client is told the same STATUS twice in a row. -/
theorem status_never_stale (opts : ServerOpts) (session : Session) (labels : List Label) (w : World)
    (hrun : (machine opts).run (start session) labels = some w)
    (hhandshakes : ∀ c f, .sent c f .handshake false ∉ w.history) :
    (w.phase = .running → ∀ c, w.client = some c →
        (statuses c w.history).getLast? = some (statusFrame w.effectiveStatus) ∧
          w.lastStatus = some w.effectiveStatus) ∧
      ∀ c, (statuses c w.history).IsChain (· ≠ ·) := by
  have hinvariant : ((∀ c, Feed opts c w) ∧ Introduced w) ∧ (Unbroken w.history → InStep w) := by
    apply (machine opts).run_induct (motive := fun x =>
      ((∀ c, Feed opts c x) ∧ Introduced x) ∧ (Unbroken x.history → InStep x)) ?_ ?_ hrun
    · rintro x label y ⟨⟨hfeed, hintroduced⟩, hx⟩ hstep
      refine ⟨⟨fun c => (kept_feed opts c).step (hfeed c) hstep,
        introduced_step hintroduced hstep⟩, ?_⟩
      intro hafter
      have hbefore := hafter.suffix (history_step hstep)
      exact noted_step (hx hbefore) hfeed hintroduced hbefore hafter hstep
    · refine ⟨⟨fun c => feed_start opts c session, introduced_start session⟩, ?_⟩
      intro _
      refine ⟨⟨fun c => List.IsChain.nil, ?_⟩, ?_⟩
      · intro c hc
        cases hc
      · intro _ hbound
        cases hbound
  have hunbroken : Unbroken w.history := by
    rintro c ⟨f, hf⟩
    exact hhandshakes c f hf
  have hstep := hinvariant.2 hunbroken
  refine ⟨?_, hstep.noted.chain⟩
  intro hphase c hc
  have hcurrent := hstep.current hphase (by rw [hc]; rfl)
  obtain ⟨s, hlast, hend⟩ := hstep.noted.told c hc
  rw [hcurrent, Option.some.injEq] at hlast
  rw [hlast]
  exact ⟨hend, by rw [hcurrent, hlast]⟩

/-- A client attaches, the shell marks the start of a command, another client takes
over, and the shell marks the end. -/
def markedCommand : List Label :=
  [.asyncFdOk, .send (.attach ⟨0, 80, 24, 0⟩), .command .none,
    .readable { Answers.none with
      reads := [.ok [0x1B, 0x5D, 0x31, 0x33, 0x33, 0x3B, 0x43, 0x07]] },
    .send (.attach ⟨0, 80, 24, 1⟩), .command .none,
    .readable { Answers.none with
      reads := [.ok [0x1B, 0x5D, 0x31, 0x33, 0x33, 0x3B, 0x44, 0x07]] }]

/-- Both clients have the session's status, and neither was told it twice. -/
theorem status_never_stale_markedCommand :
    ∃ w, (machine .default).run (start shell) markedCommand = some w ∧ w.client = some 1 ∧
      statuses 0 w.history = [statusFrame ⟨false, none⟩, statusFrame ⟨true, none⟩] ∧
      (statuses 1 w.history).getLast? = some (statusFrame w.effectiveStatus) ∧
      w.lastStatus = some w.effectiveStatus := by
  have hsome : ((machine .default).run (start shell) markedCommand).isSome = true := by
    decide +kernel
  have hstate : ∀ w ∈ (machine .default).run (start shell) markedCommand,
      w.phase = .running ∧ w.client = some 1 ∧
        statuses 0 w.history = [statusFrame ⟨false, none⟩, statusFrame ⟨true, none⟩] := by
    decide +kernel
  have hfits : ∀ w ∈ (machine .default).run (start shell) markedCommand, ∀ e ∈ w.history,
      e.missesHandshake = false := by
    decide +kernel
  obtain ⟨w, hw⟩ := Option.isSome_iff_exists.mp hsome
  obtain ⟨hphase, hclient, hfirst⟩ := hstate w hw
  have hnever := status_never_stale .default shell markedCommand w hw
    fun c f hmem => Bool.noConfusion (hfits w hw _ hmem)
  exact ⟨w, hw, hclient, hfirst, hnever.1 hphase 1 hclient⟩

end World

end JftermMuxer.Daemon
