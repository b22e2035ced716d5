import JftermMuxer.Daemon.Exit

/-!
# Who is bound

The actor of {lit}`jftermd/src/server.rs` binds a client at the end of its handshake
and lets go of it when a live push fails, when a CLOSE finds the session dead, and
when the task ends.  Nothing else touches the binding.

Main results:

- Theorem {lit}`World.step_binding`: a step tends the bound client, or binds another
  one, or is the end of the task.
- Theorem {lit}`World.onAttach_eq`: what an attach does is its handshake, on a world
  with the same scrollback, lifecycle and queues.
- Theorem {lit}`World.introduced_step`: frames go only to clients that have attached.
-/

namespace JftermMuxer.Daemon

open JftermMuxer.Foundation

namespace Event

/-- Neither an attach nor an offer of a handshake. -/
def Ordinary : Event → Prop
  | .attached _ _ | .sent _ _ .handshake _ => False
  | .sent _ _ .live _ | .delivered _ | .received _ | .drained _ _ | .answered _ | .signalled _
  | .elapsed _ => True

end Event

namespace World

open Event

variable {opts : ServerOpts} {w v u : World}

/-! ## Tending the bound client -/

/-- Events of a move that binds nobody: live frames go to the bound client only, and
it is let go of after such a frame, in any case when the frame does not fit; a closed
queue takes none and stays closed. -/
structure Tending (w v : World) (es : List Event) : Prop where
  history : v.history = es ++ w.history
  ordinary : ∀ e ∈ es, Ordinary e
  addressed : ∀ c f ok, .sent c f .live ok ∈ es → w.client = some c
  client : v.client = w.client ∨ v.client = none
  dropped : ∀ c, w.client = some c → v.client = none → ∃ f ok, .sent c f .live ok ∈ es
  failed : ∀ c f, .sent c f .live false ∈ es → v.client = none
  taken : ∀ c f, .sent c f .live true ∈ es → (w.outQueues c).closed = false
  closed : ∀ c, (w.outQueues c).closed = true → (v.outQueues c).closed = true

/-- A move that binds nobody. -/
def Tended (w v : World) : Prop := ∃ es, Tending w v es

private theorem tended_refl (w : World) : Tended w w := by
  refine ⟨[], rfl, by simp, by simp, Or.inl rfl, ?_, by simp, by simp, fun _ => id⟩
  intro c hsome hnone
  rw [hsome] at hnone
  cases hnone

/-- Moves that tend the client add up. -/
theorem Tended.trans (hwv : Tended w v) (hvu : Tended v u) : Tended w u := by
  obtain ⟨es, hes⟩ := hwv
  obtain ⟨fs, hfs⟩ := hvu
  refine ⟨fs ++ es, ?_, ?_, ?_, ?_, ?_, ?_, ?_, fun c hc => hfs.closed c (hes.closed c hc)⟩
  · rw [hfs.history, hes.history, List.append_assoc]
  · intro e he
    rcases List.mem_append.mp he with he | he
    · exact hfs.ordinary e he
    · exact hes.ordinary e he
  · intro c f ok he
    rcases List.mem_append.mp he with he | he
    · have hbound := hfs.addressed c f ok he
      rcases hes.client with hsame | hnone
      · rw [← hsame]
        exact hbound
      · rw [hnone] at hbound
        cases hbound
    · exact hes.addressed c f ok he
  · rcases hfs.client with hsame | hnone
    · rw [hsame]
      exact hes.client
    · exact Or.inr hnone
  · intro c hsome hnone
    rcases hes.client with hsame | hlost
    · obtain ⟨f, ok, hmem⟩ := hfs.dropped c (hsame.trans hsome) hnone
      exact ⟨f, ok, List.mem_append_left es hmem⟩
    · obtain ⟨f, ok, hmem⟩ := hes.dropped c hsome hlost
      exact ⟨f, ok, List.mem_append_right fs hmem⟩
  · intro c f he
    rcases List.mem_append.mp he with he | he
    · exact hfs.failed c f he
    · have hlost := hes.failed c f he
      rcases hfs.client with hsame | hnone
      · exact hsame.trans hlost
      · exact hnone
  · intro c f he
    rcases List.mem_append.mp he with he | he
    · have hopen := hfs.taken c f he
      cases hclosed : (w.outQueues c).closed with
      | false => rfl
      | true =>
          rw [hes.closed c hclosed] at hopen
          cases hopen
    · exact hes.taken c f he

/-- A move that leaves clients and history alone and reopens no queue. -/
theorem tended_of_eq (hclient : v.client = w.client) (hhistory : v.history = w.history)
    (hclosed : ∀ c, (w.outQueues c).closed = true → (v.outQueues c).closed = true) :
    Tended w v := by
  refine ⟨[], hhistory, by simp, by simp, Or.inl hclient, ?_, by simp, by simp, hclosed⟩
  intro c hsome hnone
  rw [hclient, hsome] at hnone
  cases hnone

/-- A move that adds an event which concerns no client. -/
theorem tended_of_cons {e : Event} (he : Ordinary e) (hunsent : ∀ c f stage ok, e ≠ .sent c f stage ok)
    (hclient : v.client = w.client) (hhistory : v.history = e :: w.history)
    (hclosed : ∀ c, (w.outQueues c).closed = true → (v.outQueues c).closed = true) :
    Tended w v := by
  refine ⟨[e], hhistory, ?_, ?_, Or.inl hclient, ?_, ?_, ?_, hclosed⟩
  · intro e' he'
    rw [List.mem_singleton.mp he']
    exact he
  · intro c f ok hmem
    exact absurd (List.mem_singleton.mp hmem).symm (hunsent c f .live ok)
  · intro c hsome hnone
    rw [hclient, hsome] at hnone
    cases hnone
  · intro c f hmem
    exact absurd (List.mem_singleton.mp hmem).symm (hunsent c f .live false)
  · intro c f hmem
    exact absurd (List.mem_singleton.mp hmem).symm (hunsent c f .live true)

/-- Inner moves leave the client bound as it is. -/
theorem InnerMove.tended (h : InnerMove w v) : Tended w v := by
  apply tended_of_eq h.client h.history
  rw [h.outQueues]
  exact fun _ => id

/-- An offer finds its client's queue open if it succeeds, and reopens none. -/
theorem trySend_closed (opts : ServerOpts) (w : World) (c : ClientId) (f : Frame)
    (stage : Stage) :
    ((w.trySend opts c f stage).1 = true → (w.outQueues c).closed = false) ∧
      ∀ d, (w.outQueues d).closed = true →
        ((w.trySend opts c f stage).2.outQueues d).closed = true := by
  obtain ⟨ok, queues, moves, heq, hserved, htaken, -⟩ := trySend_cases opts w c f stage
  rw [heq]
  refine ⟨fun hok => (htaken hok).1, ?_⟩
  intro d hclosed
  by_cases hd : d ≠ c ∨ ok = false
  · exact (hserved d hd).1 hclosed
  · rw [not_or, not_not, Bool.not_eq_false] at hd
    obtain ⟨rfl, hok⟩ := hd
    rw [(htaken hok).1] at hclosed
    cases hclosed

/-- A push keeps the client or unbinds it after a failed offer. -/
theorem tended_pushOrDrop (opts : ServerOpts) (w : World) (f : Frame) :
    Tended w (w.pushOrDrop opts f) := by
  unfold pushOrDrop
  cases hbound : w.client with
  | none => exact tended_refl w
  | some c =>
      obtain ⟨htaken, hclosed⟩ := trySend_closed opts w c f .live
      obtain ⟨ok, queues, moves, heq, -⟩ := trySend_cases opts w c f .live
      rw [heq] at htaken hclosed
      have htending : ∀ v : World, v.history = .sent c f .live ok :: w.history →
          v.outQueues = queues → v.client = (if ok then some c else none) →
          Tending w v [.sent c f .live ok] := by
        intro v hhistory hqueues hclient
        refine ⟨hhistory, by simp [Ordinary], ?_, ?_, ?_, ?_, ?_, ?_⟩
        · intro d g ok' hmem
          cases List.mem_singleton.mp hmem
          exact hbound
        · rw [hclient]
          cases ok with
          | true => exact Or.inl hbound.symm
          | false => exact Or.inr rfl
        · intro d hd _
          rw [hbound] at hd
          cases hd
          exact ⟨f, ok, List.mem_singleton_self _⟩
        · intro d g hmem
          cases List.mem_singleton.mp hmem
          exact hclient
        · intro d g hmem
          cases List.mem_singleton.mp hmem
          exact htaken rfl
        · rw [hqueues]
          exact hclosed
      simp only [heq]
      cases ok with
      | true => exact ⟨_, htending _ rfl rfl hbound⟩
      | false => exact ⟨_, htending _ rfl rfl rfl⟩

/-- Forwarded output keeps the client or unbinds it after a failed offer. -/
theorem tended_forwardData (opts : ServerOpts) (w : World) (data : List UInt8) :
    Tended w (w.forwardData opts data) := by
  unfold forwardData
  induction frameData data generalizing w with
  | nil => exact tended_refl w
  | cons f fs ih => exact (tended_pushOrDrop opts w f).trans (ih _)

private theorem tended_pushStatus (opts : ServerOpts) (w : World) : Tended w (w.pushStatus opts) := by
  unfold pushStatus
  split
  · exact tended_refl w
  · exact (tended_pushOrDrop opts w _).trans (tended_of_eq rfl rfl fun _ => id)

private theorem tended_refreshStatus (opts : ServerOpts) (w : World) :
    Tended w (w.refreshStatus opts) := by
  rcases refreshStatus_cases opts w with ⟨-, heq⟩ | ⟨-, heq | heq⟩
  · rw [heq]
    exact tended_refl w
  · rw [heq]
    exact (innerMove_poll w).tended.trans (tended_pushStatus opts _)
  · rw [heq]
    exact tended_pushStatus opts w

private theorem tended_onExit (opts : ServerOpts) (w : World) (code : Int) :
    Tended w (w.onExit opts code) := by
  have hpush := tended_pushOrDrop opts w (exitFrame code)
  unfold onExit
  simp only
  split
  · exact hpush.trans (tended_of_eq rfl rfl fun _ => id)
  · exact hpush.trans (tended_of_eq rfl rfl fun _ => id)

private theorem tended_onReadable (opts : ServerOpts) (w : World) : Tended w (w.onReadable opts) := by
  rcases hdrained : w.session.drain w.os with ⟨_ | ⟨data, status, exit⟩, session, os⟩
  · rw [onReadable_error hdrained]
    exact tended_of_eq rfl rfl fun _ => id
  · have hrecord : Tended w (World.record { w with session, os } (.drained data exit)) :=
      tended_of_cons (e := .drained data exit) trivial (by simp) rfl rfl fun _ => id
    have hrefreshed := (hrecord.trans (tended_forwardData opts _ data)).trans
      (tended_refreshStatus opts _)
    rw [onReadable_ok hdrained]
    cases exit with
    | none => exact hrefreshed
    | some code => exact hrefreshed.trans (tended_onExit opts _ code)

/-- The farewell of a CLOSE unbinds the client. -/
theorem tended_farewell (opts : ServerOpts) (w : World) (code : Int) :
    Tended w (w.farewell opts code) := by
  unfold farewell
  cases hclient : w.client with
  | none => exact tended_refl w
  | some c =>
      obtain ⟨htaken, hclosed⟩ :=
        trySend_closed opts { w with client := none } c (exitFrame code) .live
      obtain ⟨ok, queues, moves, heq, -⟩ :=
        trySend_cases opts { w with client := none } c (exitFrame code) .live
      simp only [heq] at htaken hclosed ⊢
      refine ⟨[.sent c (exitFrame code) .live ok], rfl, by simp [Ordinary], ?_, Or.inr rfl, ?_,
        fun _ _ _ => rfl, ?_, hclosed⟩
      · intro d g ok' hmem
        cases List.mem_singleton.mp hmem
        exact hclient
      · intro d hd _
        rw [hclient] at hd
        cases hd
        exact ⟨exitFrame code, ok, List.mem_singleton_self _⟩
      · intro d g hmem
        cases List.mem_singleton.mp hmem
        exact htaken rfl

private theorem tended_hangup (w : World) : Tended w w.hangup := by
  unfold hangup
  split
  · exact tended_of_eq rfl rfl fun _ => id
  · exact tended_of_cons (e := .signalled .sighup) trivial (by simp) rfl rfl fun _ => id

private theorem tended_onClose (opts : ServerOpts) (w : World) (graceMs : UInt32) :
    Tended w (w.onClose opts graceMs) := by
  unfold onClose
  simp only
  split
  · exact (tended_hangup w).trans (tended_of_eq rfl rfl fun _ => id)
  · have hsaid : ∀ (u : World) (code : Int), Tended w u → Tended w (u.farewell opts code).leave :=
      fun u code hu => (hu.trans (tended_farewell opts u code)).trans (tended_of_eq rfl rfl fun _ => id)
    exact hsaid _ _ ((tended_hangup w).trans (tended_of_eq rfl rfl fun _ => id))

private theorem tended_onKill (w : World) : Tended w w.onKill := by
  unfold onKill kill
  simp only
  split
  · exact tended_of_eq rfl rfl fun _ => id
  · exact tended_of_cons (e := .signalled .sigkill) trivial (by simp) rfl rfl fun _ => id

/-- What a step does to the binding: it tends the bound client, or executes an attach,
or ends the task. -/
theorem step_binding {label : Label} (hstep : w.step opts label = some v) :
    Tended w v ∨
      (∃ a req rest, label = .command a ∧ w.phase = .running ∧ w.queue = .attach req :: rest ∧
        v = ((w.answer a).receive (.attach req) rest).onAttach opts req) ∨
      (label = .finish ∧ v = { w with phase := .finished, client := none }) := by
  cases label with
  | asyncFdOk =>
      obtain ⟨-, -, rfl⟩ := asyncFdOk_eq_some hstep
      exact Or.inl (tended_of_eq rfl rfl fun _ => id)
  | asyncFdFailed =>
      obtain ⟨-, -, rfl⟩ := asyncFdFailed_eq_some hstep
      exact Or.inl (tended_of_eq rfl rfl fun _ => id)
  | send cmd =>
      obtain ⟨next, rfl, -⟩ := send_eq_some hstep
      exact Or.inl (tended_of_cons (e := .delivered cmd) trivial (by simp) rfl rfl fun _ => id)
  | dropSenders =>
      cases hstep
      exact Or.inl (tended_of_eq rfl rfl fun _ => id)
  | writer move =>
      cases hstep
      refine Or.inl (tended_of_eq ?_ ?_ fun c => (served_writerMove w move c).1)
      · rw [writerMove_eq]
      · rw [writerMove_eq]
  | elapse ms =>
      cases hstep
      exact Or.inl (tended_of_cons (e := .elapsed ms) trivial (by simp) rfl rfl fun _ => id)
  | command a =>
      obtain ⟨hrun, ⟨-, -, rfl⟩ | ⟨cmd, rest, hqueue, rfl⟩⟩ := command_eq_some hstep
      · exact Or.inl (tended_of_eq rfl rfl fun _ => id)
      · have hreceived : Tended w ((w.answer a).receive cmd rest) :=
          tended_of_cons (e := .received cmd) trivial (by simp) rfl rfl fun _ => id
        cases cmd with
        | input bytes => exact Or.inl (hreceived.trans (tended_of_eq rfl rfl fun _ => id))
        | resize cols rows => exact Or.inl (hreceived.trans (innerMove_resize ..).tended)
        | info =>
            refine Or.inl (hreceived.trans ?_)
            exact tended_of_cons (e := .answered _) trivial (by simp) rfl rfl fun _ => id
        | close graceMs => exact Or.inl (hreceived.trans (tended_onClose opts _ graceMs))
        | attach req => exact Or.inr (Or.inl ⟨a, req, rest, rfl, hrun, hqueue, rfl⟩)
  | readable a =>
      obtain ⟨-, -, rfl⟩ := readable_eq_some hstep
      exact Or.inl ((innerMove_answer w a).tended.trans (tended_onReadable opts _))
  | readableError =>
      obtain ⟨-, -, rfl⟩ := readableError_eq_some hstep
      exact Or.inl (tended_of_eq rfl rfl fun _ => id)
  | grace =>
      obtain ⟨-, -, rfl⟩ := grace_eq_some hstep
      exact Or.inl (tended_of_eq rfl rfl fun _ => id)
  | kill a =>
      obtain ⟨-, -, rfl⟩ := kill_eq_some hstep
      exact Or.inl ((innerMove_answer w a).tended.trans (tended_onKill _))
  | tick a =>
      obtain ⟨-, -, rfl⟩ := tick_eq_some hstep
      have hpolled := (innerMove_answer w a).trans (innerMove_poll _)
      exact Or.inl (hpolled.tended.trans (tended_pushStatus opts _))
  | remove =>
      obtain ⟨-, rfl⟩ := remove_eq_some hstep
      exact Or.inl (tended_of_eq rfl rfl fun _ => id)
  | finish =>
      obtain ⟨-, rfl⟩ := finish_eq_some hstep
      exact Or.inr (Or.inr ⟨rfl, rfl⟩)

/-! ## Attaches -/

/-- An attach is its handshake, on a world that differs from the one before the step in
the window size and the polled status only. -/
structure AttachedVia (opts : ServerOpts) (w : World) (a : Answers) (req : AttachRequest)
    (u v : World) : Prop where
  moves : u.moves = a.moves
  outQueues : u.outQueues = w.outQueues
  before : u.history = .received (.attach req) :: w.history
  lifecycle : u.session.lifecycle = w.session.lifecycle
  engine : u.session.engine = w.session.engine
  history : v.history = (u.handshake opts req).history
  client : v.client = some req.outTx
  session : v.session = u.session
  status : v.effectiveStatus = u.effectiveStatus
  lastStatus : v.lastStatus = some u.effectiveStatus
  queues : v.outQueues = (u.handshake opts req).outQueues
  phase : v.phase = if w.session.isDead then .left else w.phase

/-- An attach happens via the state in which its handshake is offered. -/
theorem onAttach_eq (opts : ServerOpts) (w : World) (a : Answers) (req : AttachRequest)
    (rest : List SessionCommand) :
    ∃ u, AttachedVia opts w a req u (((w.answer a).receive (.attach req) rest).onAttach opts req) := by
  have hbound : ∀ x : World, x.moves = a.moves → x.outQueues = w.outQueues →
      x.history = .received (.attach req) :: w.history → x.session = w.session →
      x.phase = w.phase →
      ∀ v, v = { x.attachClient opts req with
        lastStatus := some (x.attachClient opts req).effectiveStatus } →
      AttachedVia opts w a req (x.resize req.cols req.rows)
        (if v.session.isDead then v.leave else v) := by
    intro x hmoves hqueues hhistory hsession hphase v hv
    have hout := outward_handshake opts (x.resize req.cols req.rows) req
    have hsame : v.session = (x.resize req.cols req.rows).session := by
      rw [hv]
      exact hout.session
    have hstatus : v.effectiveStatus = (x.resize req.cols req.rows).effectiveStatus := by
      rw [hv]
      change ((x.resize req.cols req.rows).handshake opts req).effectiveStatus = _
      rw [hout.same]
      rfl
    have hlast : v.lastStatus = some (x.resize req.cols req.rows).effectiveStatus := by
      rw [← hstatus, hv]
      rfl
    have hlifecycle : (x.resize req.cols req.rows).session.lifecycle = w.session.lifecycle := by
      rw [← hsession]
      exact x.session.lifecycle_resize x.os req.cols req.rows
    have hengine : (x.resize req.cols req.rows).session.engine = w.session.engine := by
      rw [← hsession]
      exact x.session.engine_resize x.os req.cols req.rows
    have hdead : v.session.isDead = w.session.isDead := by
      rw [hsame]
      unfold Session.isDead
      rw [hlifecycle]
    have hleft : v.phase = w.phase := by
      rw [hv, ← hphase]
      exact hout.phase
    rw [hdead]
    by_cases hcase : w.session.isDead = true
    · rw [if_pos hcase]
      exact ⟨hmoves, hqueues, hhistory, hlifecycle, hengine, by rw [hv]; rfl, by rw [hv]; rfl, hsame,
        hstatus, hlast, by rw [hv]; rfl, by rw [if_pos hcase]; rfl⟩
    · rw [if_neg hcase]
      exact ⟨hmoves, hqueues, hhistory, hlifecycle, hengine, by rw [hv]; rfl, by rw [hv]; rfl, hsame,
        hstatus, hlast, by rw [hv]; rfl, by rw [if_neg hcase]; exact hleft⟩
  unfold onAttach bindClient
  simp only
  split
  · exact ⟨_, hbound ((w.answer a).receive (.attach req) rest) rfl rfl rfl rfl rfl _ rfl⟩
  · exact ⟨_, hbound (((w.answer a).receive (.attach req) rest).poll) rfl rfl rfl rfl rfl _ rfl⟩

/-! ## Frames go to attached clients -/

/-- The bound client has attached, and so has everyone who was enqueued a frame. -/
structure Introduced (w : World) : Prop where
  bound : ∀ c, w.client = some c → Attached c w.history
  served : ∀ c, frames c w.history ≠ [] → Attached c w.history

/-- A client that is not addressed is enqueued nothing. -/
theorem frames_eq_nil {c : ClientId} {es : List Event} (h : ∀ f stage ok, .sent c f stage ok ∉ es) :
    frames c es = [] := by
  apply List.eq_nil_iff_forall_not_mem.mpr
  intro f hf
  obtain ⟨stage, hmem⟩ := mem_of_mem_frames hf
  exact h f stage true hmem

/-- A move that binds nobody enqueues frames to the bound client only. -/
theorem Tending.frames {es : List Event} (h : Tending w v es) {c : ClientId}
    (hc : w.client ≠ some c) : frames c v.history = frames c w.history := by
  have hnone : Event.frames c es = [] := by
    apply frames_eq_nil
    intro f stage ok hmem
    cases stage with
    | handshake => exact h.ordinary _ hmem
    | live => exact hc (h.addressed c f ok hmem)
  rw [h.history, frames_append, hnone, List.append_nil]

/-- The handshake speaks to its own client. -/
theorem handshake_addressed (opts : ServerOpts) (w : World) (req : AttachRequest) :
    ∃ es replay, (w.handshake opts req).history = es ++ .attached req.outTx replay :: w.history ∧
      ∀ e ∈ es, ∃ f ok, e = .sent req.outTx f .handshake ok := by
  obtain ⟨exit, es, replay, hhistory, hes, hexit⟩ := handshake_history opts w req
  refine ⟨exit ++ es, replay, ?_, ?_⟩
  · rw [hhistory, List.append_assoc]
  · intro e he
    rcases List.mem_append.mp he with he | he
    · rcases hexit with rfl | ⟨code, ok, -, rfl⟩
      · cases he
      · exact ⟨exitFrame code, ok, List.mem_singleton.mp he⟩
    · obtain ⟨f, ok, -, rfl⟩ := hes e he
      exact ⟨f, ok, rfl⟩

/-- Every step keeps the clients introduced. -/
theorem introduced_step {label : Label} (hw : Introduced w) (hstep : w.step opts label = some v) :
    Introduced v := by
  rcases step_binding hstep with ⟨es, hes⟩ | ⟨a, req, rest, -, -, -, rfl⟩ | ⟨-, rfl⟩
  · have hkept : ∀ c, Attached c w.history → Attached c v.history := by
      intro c hc
      rw [hes.history]
      exact hc.append es
    constructor
    · intro c hc
      rcases hes.client with hsame | hnone
      · exact hkept c (hw.bound c (hsame.symm.trans hc))
      · rw [hnone] at hc
        cases hc
    · intro c hc
      by_cases hbound : w.client = some c
      · exact hkept c (hw.bound c hbound)
      · rw [hes.frames hbound] at hc
        exact hkept c (hw.served c hc)
  · obtain ⟨u, hu⟩ := onAttach_eq opts w a req rest
    obtain ⟨es, replay, hhistory, hes⟩ := handshake_addressed opts u req
    have hnew : Attached req.outTx
        (((w.answer a).receive (.attach req) rest).onAttach opts req).history := by
      rw [hu.history, hhistory]
      exact ⟨replay, List.mem_append_right es List.mem_cons_self⟩
    constructor
    · intro c hc
      rw [hu.client, Option.some.injEq] at hc
      subst hc
      exact hnew
    · intro c hc
      by_cases hreq : req.outTx = c
      · subst hreq
        exact hnew
      · have hnone : frames c es = [] := by
          apply frames_eq_nil
          intro f stage ok hmem
          obtain ⟨g, ok', hsent⟩ := hes _ hmem
          cases hsent
          exact hreq rfl
        have hold : frames c w.history ≠ [] := by
          rw [hu.history, hhistory, frames_append, hnone, List.append_nil] at hc
          change frames c u.history ≠ [] at hc
          rw [hu.before] at hc
          exact hc
        rw [hu.history, hhistory, hu.before]
        exact (((hw.served c hold).cons _).cons _).append es
  · refine ⟨?_, hw.served⟩
    intro c hc
    cases hc

/-- At the start no client is bound. -/
theorem introduced_start (session : Session) : Introduced (start session) := by
  refine ⟨?_, fun c hc => absurd rfl hc⟩
  intro c hc
  cases hc

/-- Nothing was enqueued to a client whose attach is still in the queue. -/
theorem frames_of_pending {req : AttachRequest} {rest : List SessionCommand}
    (hfeed : ∀ c, Feed opts c w) (hintroduced : Introduced w)
    (hqueue : w.queue = .attach req :: rest) : frames req.outTx w.history = [] := by
  have hpending : w.queue.countP (attaches req.outTx) ≠ 0 := by
    rw [hqueue, List.countP_cons, if_pos (by simp [attaches])]
    exact Nat.succ_ne_zero _
  have hnew := ((hfeed req.outTx).pending hpending).2
  by_contra hframes
  exact hnew (hintroduced.served req.outTx hframes)

end World

end JftermMuxer.Daemon
