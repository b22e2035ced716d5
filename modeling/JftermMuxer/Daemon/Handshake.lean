import JftermMuxer.Daemon.Binding

/-!
# The attach handshake and a full queue

{lit}`attach_client` of {lit}`jftermd/src/server.rs` offers a new client the frames
of the replay, a STATUS and, if the session is dead, an EXIT, in one burst, and
then binds the client.  A live push that fails drops the client; the results of
the burst are not looked at.

Main results:

- Theorem {lit}`World.handshake_eq`: the handshake is one burst of offers.
- Theorem {lit}`World.AttachedVia.unbroken_iff`: no offer of a burst fails exactly if
  the queue has room for all of it while its writer moves.
- Theorem {lit}`World.handshakeSafe_iff`: in every run, a client that missed a frame of
  its handshake is never left bound exactly if no handshake ever misses one.
-/

namespace JftermMuxer.Daemon

open JftermMuxer.Foundation

namespace Event

/-- A frame of the client's handshake did not fit into its queue. -/
def Gap (c : ClientId) (h : List Event) : Prop := ∃ f, .sent c f .handshake false ∈ h

/-- A frame was enqueued to a client after one that did not fit. -/
def Resumed (c : ClientId) (h : List Event) : Prop :=
  ∃ newer older f g stage, h = newer ++ .sent c f .handshake false :: older ∧
    .sent c g stage true ∈ newer

/-- A client that goes on behind a gap has one. -/
theorem Resumed.gap {c : ClientId} {h : List Event} (hresumed : Resumed c h) : Gap c h := by
  obtain ⟨newer, older, f, g, stage, rfl, -⟩ := hresumed
  exact ⟨f, List.mem_append_right newer List.mem_cons_self⟩

/-- A later gap is a gap. -/
theorem Gap.append {c : ClientId} {es : List Event} (hgap : Gap c es) (h : List Event) :
    Gap c (es ++ h) := by
  obtain ⟨f, hf⟩ := hgap
  exact ⟨f, List.mem_append_left h hf⟩

/-- A gap stays. -/
theorem Gap.suffix {c : ClientId} {h k : List Event} (hgap : Gap c h) (hk : h <:+ k) : Gap c k := by
  obtain ⟨f, hf⟩ := hgap
  exact ⟨f, hk.subset hf⟩

/-- No handshake has missed a frame. -/
def Unbroken (h : List Event) : Prop := ∀ c, ¬ Gap c h

/-- What is unbroken now was unbroken before. -/
theorem Unbroken.suffix {h k : List Event} (hk : Unbroken k) (hsuffix : h <:+ k) : Unbroken h :=
  fun c hgap => hk c (hgap.suffix hsuffix)

end Event

namespace World

open Event

variable {opts : ServerOpts} {w v : World}

/-! ## The burst -/

/-- The EXIT of a dead session. -/
def exitOf : Lifecycle → List Frame
  | .live => []
  | .dead code => [exitFrame code]

/-- The frames that a handshake offers, in order. -/
def burst (w : World) (req : AttachRequest) : List Frame :=
  frameData (w.session.replayForAttach req.wantChunks).data ++
    statusFrame w.effectiveStatus :: exitOf w.session.lifecycle

/-- The handshake is one burst of offers, and then the binding. -/
theorem handshake_eq (opts : ServerOpts) (w : World) (req : AttachRequest) :
    w.handshake opts req =
      { (w.burst req).foldl (offer opts req.outTx)
          (w.record (.attached req.outTx (w.session.replayForAttach req.wantChunks).data)) with
        client := some req.outTx } := by
  have hframes := Outward.foldl (outward_offer opts req.outTx)
    (frameData (w.session.replayForAttach req.wantChunks).data)
    (w.record (.attached req.outTx (w.session.replayForAttach req.wantChunks).data))
  have hstatus := hframes.effectiveStatus
  have hsession := hframes.session
  unfold burst
  rw [List.foldl_append, List.foldl_cons]
  unfold handshake
  simp only [hstatus]
  have hexit : ∀ u : World, u.session = w.session →
      u.offerExit opts req.outTx =
        (exitOf w.session.lifecycle).foldl (offer opts req.outTx) u := by
    intro u hu
    unfold offerExit
    rw [hu]
    cases w.session.lifecycle with
    | live => rfl
    | dead code => rfl
  rw [hexit _ ((outward_offer opts req.outTx _ _).session.trans hsession)]
  rfl

/-! ## Room in a queue -/

/-- What an offer depends on: the frames a queue holds, and whether it is closed. -/
structure Room where
  held : Nat
  closed : Bool
deriving DecidableEq, Repr

namespace Room

/-- A writer's move, as far as one client's queue is concerned. -/
def serve (c : ClientId) (r : Room) : WriterMove → Room
  | .pop d => if d = c then { r with held := r.held - 1 } else r
  | .close d => if d = c then { r with closed := true } else r

/-- The queue takes so many more frames, with the writers' moves before each. -/
def takes (capacity : Nat) (c : ClientId) : Nat → List (List WriterMove) → Room → Bool
  | 0, _, _ => true
  | n + 1, moves, r =>
      let r := (moves.headD []).foldl (serve c) r
      !r.closed && decide (r.held < capacity) &&
        takes capacity c n moves.tail { r with held := r.held + 1 }

end Room

def room (w : World) (c : ClientId) : Room := ⟨(w.outQueues c).queued.length, (w.outQueues c).closed⟩

private theorem room_writerMove (w : World) (c : ClientId) (m : WriterMove) :
    (w.writerMove m).room c = (w.room c).serve c m := by
  cases m with
  | pop d =>
      by_cases hd : d = c
      · subst hd
        simp [writerMove, setQueue, room, Room.serve]
      · simp [writerMove, setQueue, room, Room.serve, hd, Function.update_of_ne (Ne.symm hd)]
  | close d =>
      by_cases hd : d = c
      · subst hd
        simp [writerMove, setQueue, room, Room.serve]
      · simp [writerMove, setQueue, room, Room.serve, hd, Function.update_of_ne (Ne.symm hd)]

private theorem room_foldl (ms : List WriterMove) (w : World) (c : ClientId) :
    (ms.foldl writerMove w).room c = ms.foldl (Room.serve c) (w.room c) ∧
      (ms.foldl writerMove w).moves = w.moves := by
  induction ms generalizing w with
  | nil => exact ⟨rfl, rfl⟩
  | cons m ms ih =>
      obtain ⟨hroom, hmoves⟩ := ih (w.writerMove m)
      constructor
      · rw [List.foldl_cons, hroom, room_writerMove, List.foldl_cons]
      · rw [List.foldl_cons, hmoves, writerMove_eq]

/-- What an offer of the handshake does, decided by the room it finds. -/
theorem offer_cases (opts : ServerOpts) (w : World) (c : ClientId) (f : Frame) (r : Room)
    (hr : (w.moves.headD []).foldl (Room.serve c) (w.room c) = r) :
    (r.closed = false ∧ r.held < opts.outQueue ∧
        (w.offer opts c f).history = .sent c f .handshake true :: w.history ∧
        (w.offer opts c f).moves = w.moves.tail ∧
        (w.offer opts c f).room c = { r with held := r.held + 1 }) ∨
      ((r.closed = true ∨ opts.outQueue ≤ r.held) ∧
        (w.offer opts c f).history = .sent c f .handshake false :: w.history) := by
  obtain ⟨hroom, hmoves⟩ := room_foldl (w.moves.headD []) { w with moves := w.moves.tail } c
  have hserved : w.interleave.room c = r := hroom.trans hr
  have hhistory : w.interleave.history = w.history := by
    obtain ⟨ok, queues, moves, heq, -⟩ := trySend_cases opts w c f .handshake
    have hsend := congrArg (fun p => p.2.history.tail) heq
    unfold trySend at hsend
    simp only at hsend
    split at hsend
    · exact hsend
    · exact hsend
  have hheld : (w.interleave.outQueues c).queued.length = r.held := by rw [← hserved]; rfl
  have hclosed : (w.interleave.outQueues c).closed = r.closed := by rw [← hserved]; rfl
  unfold offer trySend
  simp only
  split
  · rename_i hfull
    rw [Bool.or_eq_true, decide_eq_true_eq, hclosed, hheld] at hfull
    exact Or.inr ⟨hfull, by rw [record, hhistory]⟩
  · rename_i hfree
    rw [Bool.or_eq_true, decide_eq_true_eq, hclosed, hheld, not_or, Bool.not_eq_true] at hfree
    refine Or.inl ⟨hfree.1, by omega, ?_, hmoves, ?_⟩
    · rw [record, setQueue, hhistory]
    · simp only [room, record, setQueue, Function.update_self, List.length_append,
        List.length_singleton, hheld, hclosed]

/-- What a burst does: all of it is enqueued if the queue has room for it while its
writer moves, and some frame is missed if not. -/
theorem burst_events (opts : ServerOpts) (c : ClientId) (fs : List Frame) (w : World) :
    ∃ es, (fs.foldl (offer opts c) w).history = es ++ w.history ∧
      (∀ e ∈ es, ∃ f ok, e = .sent c f .handshake ok) ∧
      if Room.takes opts.outQueue c fs.length w.moves (w.room c) then
        frames c es = fs ∧ ¬ Gap c es
      else Gap c es := by
  induction fs generalizing w with
  | nil => exact ⟨[], rfl, by simp, rfl, by simp [Gap]⟩
  | cons f fs ih =>
      obtain ⟨es, hes, hsent, hrest⟩ := ih (w.offer opts c f)
      rcases hr : (w.moves.headD []).foldl (Room.serve c) (w.room c) with ⟨held, closed⟩
      rcases offer_cases opts w c f _ hr with
        ⟨hopen, hheld, hhistory, hmoves, hroom⟩ | ⟨hfull, hhistory⟩
      · refine ⟨es ++ [.sent c f .handshake true], ?_, ?_, ?_⟩
        · rw [List.foldl_cons, hes, hhistory, List.append_assoc]
          rfl
        · intro e he
          rcases List.mem_append.mp he with he | he
          · exact hsent e he
          · exact ⟨f, true, List.mem_singleton.mp he⟩
        · have htakes : Room.takes opts.outQueue c (f :: fs).length w.moves (w.room c) =
              Room.takes opts.outQueue c fs.length (w.offer opts c f).moves
                ((w.offer opts c f).room c) := by
            simp only at hopen hheld
            simp only [List.length_cons, Room.takes, hr, hmoves, hroom, hopen,
              decide_eq_true hheld, Bool.not_false, Bool.true_and]
          have hgap : Gap c (es ++ [.sent c f .handshake true]) ↔ Gap c es := by
            simp [Gap]
          rw [htakes, hgap, frames_append]
          split at hrest
          · rename_i hfits
            rw [if_pos hfits]
            refine ⟨?_, hrest.2⟩
            rw [frames_sent_ok, hrest.1]
            rfl
          · rename_i hmisses
            rw [if_neg hmisses]
            exact hrest
      · refine ⟨es ++ [.sent c f .handshake false], ?_, ?_, ?_⟩
        · rw [List.foldl_cons, hes, hhistory, List.append_assoc]
          rfl
        · intro e he
          rcases List.mem_append.mp he with he | he
          · exact hsent e he
          · exact ⟨f, false, List.mem_singleton.mp he⟩
        · have htakes : ¬ Room.takes opts.outQueue c (f :: fs).length w.moves (w.room c) = true := by
            intro htakes
            simp only [List.length_cons, Room.takes, hr, Bool.and_eq_true, Bool.not_eq_true',
              decide_eq_true_eq] at htakes
            rcases hfull with hclosed | hlong
            · rw [htakes.1.1] at hclosed
              cases hclosed
            · exact absurd htakes.1.2 (Nat.not_lt.mpr hlong)
          rw [if_neg htakes]
          exact ⟨f, by simp⟩

/-! ## Attach steps -/

/-- The request of an attach. -/
def request : SessionCommand → Option AttachRequest
  | .attach req => some req
  | .input _ | .resize _ _ | .close _ | .info => none

/-- An attach finds room in its client's queue for the whole burst, with what the
client's writer does meanwhile. -/
@[reducible] def HandshakeFits (opts : ServerOpts) (w : World) : Label → Prop
  | .command a => ∀ cmd ∈ w.queue.head?, ∀ req ∈ request cmd,
      Room.takes opts.outQueue req.outTx (w.burst req).length a.moves (w.room req.outTx) = true
  | .asyncFdOk | .asyncFdFailed | .send _ | .dropSenders | .writer _ | .elapse _ | .readable _
  | .readableError | .grace | .kill _ | .tick _ | .remove | .finish => True

instance decidableHandshakeFits (opts : ServerOpts) (w : World) :
    DecidablePred (w.HandshakeFits opts) :=
  Label.decidable _

section Attach

variable {a : Answers} {req : AttachRequest} {u : World}

/-- The burst is as long when it is offered as when the attach was taken. -/
theorem AttachedVia.length_burst (h : AttachedVia opts w a req u v) :
    (u.burst req).length = (w.burst req).length := by
  unfold burst Session.replayForAttach
  rw [h.engine, h.lifecycle]
  rw [List.length_append, List.length_append, List.length_cons, List.length_cons]

/-- The events of an attach: all of the burst is enqueued, or some frame is missed. -/
theorem AttachedVia.events (h : AttachedVia opts w a req u v) :
    ∃ es replay, u.burst req = frameData replay ++ statusFrame u.effectiveStatus ::
        exitOf w.session.lifecycle ∧
      v.history = es ++ .attached req.outTx replay :: .received (.attach req) :: w.history ∧
      (∀ e ∈ es, ∃ f ok, e = .sent req.outTx f .handshake ok) ∧
      if Room.takes opts.outQueue req.outTx (w.burst req).length a.moves (w.room req.outTx) then
        frames req.outTx es = u.burst req ∧ ¬ Gap req.outTx es
      else Gap req.outTx es := by
  obtain ⟨es, hes, hsent, houtcome⟩ := burst_events opts req.outTx (u.burst req)
    (u.record (.attached req.outTx (u.session.replayForAttach req.wantChunks).data))
  refine ⟨es, (u.session.replayForAttach req.wantChunks).data, ?_, ?_, hsent, ?_⟩
  · unfold burst
    rw [h.lifecycle]
  · rw [h.history, handshake_eq]
    refine Eq.trans hes ?_
    rw [← h.before]
    rfl
  · have hmoves : (u.record (.attached req.outTx
        (u.session.replayForAttach req.wantChunks).data)).moves = a.moves := h.moves
    have hroom : (u.record (.attached req.outTx
        (u.session.replayForAttach req.wantChunks).data)).room req.outTx = w.room req.outTx := by
      unfold room record
      rw [h.outQueues]
    rw [h.length_burst, hmoves, hroom] at houtcome
    exact houtcome

/-- Behind an unbroken history only new events can break. -/
theorem unbroken_append {es h : List Event} (hh : Unbroken h) :
    Unbroken (es ++ h) ↔ Unbroken es := by
  constructor
  · rintro hall c ⟨f, hf⟩
    exact hall c ⟨f, List.mem_append_left h hf⟩
  · rintro hall c ⟨f, hf⟩
    rcases List.mem_append.mp hf with hf | hf
    · exact hall c ⟨f, hf⟩
    · exact hh c ⟨f, hf⟩

/-- An attach leaves no gap exactly if the queue takes the burst. -/
theorem AttachedVia.unbroken_iff (h : AttachedVia opts w a req u v) (hw : Unbroken w.history) :
    Unbroken v.history ↔
      Room.takes opts.outQueue req.outTx (w.burst req).length a.moves (w.room req.outTx) = true := by
  obtain ⟨es, replay, -, hhistory, hsent, houtcome⟩ := h.events
  have hbefore : Unbroken (.attached req.outTx replay :: .received (.attach req) :: w.history) := by
    rintro c ⟨f, hf⟩
    rcases List.mem_cons.mp hf with hf | hf
    · cases hf
    · rcases List.mem_cons.mp hf with hf | hf
      · cases hf
      · exact hw c ⟨f, hf⟩
  rw [hhistory, unbroken_append hbefore]
  split at houtcome
  · rename_i htakes
    refine iff_of_true ?_ htakes
    rintro c ⟨f, hf⟩
    obtain ⟨g, ok, hsame⟩ := hsent _ hf
    cases hsame
    exact houtcome.2 ⟨f, hf⟩
  · rename_i hmisses
    exact iff_of_false (fun hall => hall req.outTx houtcome) hmisses

end Attach

/-- A move that binds nobody leaves no gap. -/
theorem Tended.unbroken (h : Tended w v) (hw : Unbroken w.history) : Unbroken v.history := by
  obtain ⟨es, hes⟩ := h
  rw [hes.history, unbroken_append hw]
  rintro c ⟨f, hf⟩
  exact hes.ordinary _ hf

/-- An attach at the head of the queue, in a step that takes it. -/
theorem attach_of_not_fits {label : Label} (hstep : w.step opts label = some v)
    (hmisses : ¬ w.HandshakeFits opts label) :
    ∃ a req u, AttachedVia opts w a req u v ∧
      ¬ Room.takes opts.outQueue req.outTx (w.burst req).length a.moves (w.room req.outTx) = true := by
  cases label with
  | command a =>
      simp only [HandshakeFits, not_forall] at hmisses
      obtain ⟨cmd, hhead, req, hreq, hfull⟩ := hmisses
      obtain ⟨-, ⟨hempty, -⟩ | ⟨cmd', rest, hqueue, rfl⟩⟩ := command_eq_some hstep
      · rw [hempty] at hhead
        cases hhead
      · rw [hqueue] at hhead
        cases hhead
        cases cmd with
        | attach req' =>
            cases hreq
            obtain ⟨u, hu⟩ := onAttach_eq opts w a req rest
            exact ⟨a, req, u, hu, hfull⟩
        | input _ | resize _ _ | close _ | info => cases hreq
  | asyncFdOk | asyncFdFailed | send _ | dropSenders | writer _ | elapse _ | readable _
  | readableError | grace | kill _ | tick _ | remove | finish => exact absurd trivial hmisses

/-! ## What a bound client has been given -/

/-- The burst without its EXIT came first in what was enqueued to the bound client. -/
def Welcomed (w : World) : Prop :=
  ∀ c, w.client = some c → ∃ replay s, .attached c replay ∈ w.history ∧
    frameData replay ++ [statusFrame s] <+: frames c w.history

/-- After the loop, a client still bound to a dead session has been told. -/
def Departed (w : World) : Prop :=
  w.phase ≠ .running → w.session.isDead = true → ∀ c, w.client = some c → Told c w.history

/-- An attach that leaves no gap gives its client the burst, and nothing before it. -/
theorem AttachedVia.given {a : Answers} {req : AttachRequest} {u : World}
    (h : AttachedVia opts w a req u v) (hnew : frames req.outTx w.history = [])
    (hv : Unbroken v.history) (hw : Unbroken w.history) :
    ∃ replay, .attached req.outTx replay ∈ v.history ∧
      frames req.outTx v.history =
        frameData replay ++ statusFrame u.effectiveStatus :: exitOf w.session.lifecycle := by
  obtain ⟨es, replay, hburst, hhistory, -, houtcome⟩ := h.events
  rw [if_pos ((h.unbroken_iff hw).mp hv)] at houtcome
  refine ⟨replay, ?_, ?_⟩
  · rw [hhistory]
    exact List.mem_append_right es List.mem_cons_self
  · rw [hhistory, frames_append, houtcome.1, hburst]
    change frames req.outTx w.history ++ _ = _
    rw [hnew, List.nil_append]

/-- Every unbroken step keeps the clients welcomed. -/
theorem welcomed_step {label : Label} (hw : Welcomed w) (hfeed : ∀ c, Feed opts c w)
    (hintroduced : Introduced w) (hbefore : Unbroken w.history) (hafter : Unbroken v.history)
    (hstep : w.step opts label = some v) : Welcomed v := by
  intro c hc
  rcases step_binding hstep with ⟨es, hes⟩ | ⟨a, req, rest, -, -, hqueue, rfl⟩ | ⟨-, rfl⟩
  · rcases hes.client with hsame | hnone
    · obtain ⟨replay, s, hmem, hprefix⟩ := hw c (hsame.symm.trans hc)
      refine ⟨replay, s, ?_, ?_⟩
      · rw [hes.history]
        exact List.mem_append_right es hmem
      · rw [hes.history, frames_append]
        exact hprefix.trans (List.prefix_append _ _)
    · rw [hnone] at hc
      cases hc
  · obtain ⟨u, hu⟩ := onAttach_eq opts w a req rest
    rw [hu.client, Option.some.injEq] at hc
    subst hc
    have hnew := frames_of_pending hfeed hintroduced hqueue
    obtain ⟨replay, hmem, hframes⟩ := hu.given hnew hafter hbefore
    refine ⟨replay, u.effectiveStatus, hmem, ?_⟩
    refine ⟨exitOf w.session.lifecycle, ?_⟩
    rw [hframes, List.append_assoc, List.singleton_append]
  · cases hc

private theorem told_of_mem {c : ClientId} {h : List Event} (code : Int)
    (hmem : exitFrame code ∈ frames c h) : Told c h :=
  ⟨exitFrame code, hmem, rfl⟩

private theorem dead_of_isDead {s : Session} (h : s.isDead = true) :
    ∃ code, s.lifecycle = .dead code := by
  unfold Session.isDead at h
  cases hlifecycle : s.lifecycle with
  | live =>
      rw [hlifecycle] at h
      cases h
  | dead code => exact ⟨code, rfl⟩

/-- The readable arm leaves the loop with the bound client told. -/
theorem departed_onReadable (hlive : w.session.isDead = false) (hrun : w.phase = .running) :
    Departed (w.onReadable opts) := by
  have hsame := (w.session.lifecycle_drain w.os).2
  rcases hdrained : w.session.drain w.os with ⟨e | ⟨data, status, exit⟩, session, os⟩
  · rw [hdrained] at hsame
    rw [onReadable_error hdrained]
    intro _ hdead
    have hstill : session.isDead = w.session.isDead := by
      unfold Session.isDead
      rw [hsame (by simp)]
    change session.isDead = true at hdead
    rw [hstill, hlive] at hdead
    cases hdead
  · rw [onReadable_ok hdrained]
    cases exit with
    | none =>
        intro hphase
        have hkept := (phase_refreshStatus opts _).trans
          (outward_forwardData opts (World.record { w with session, os } (.drained data none))
            data).phase
        exact absurd (hkept.trans hrun) hphase
    | some code =>
        -- EXIT is pushed before the loop is left, and who does not take it is dropped.
        intro _ _ c hc
        have hpush := pushOrDrop_cases opts (((World.record { w with session, os }
          (.drained data (some code))).forwardData opts data).refreshStatus opts) (exitFrame code)
        have hend : ∀ x : World, (x.onExit opts code).client = (x.pushOrDrop opts (exitFrame code)).client ∧
            (x.onExit opts code).history = (x.pushOrDrop opts (exitFrame code)).history := by
          intro x
          unfold onExit
          simp only
          split <;> exact ⟨rfl, rfl⟩
        obtain ⟨hclient, hhistory⟩ := hend (((World.record { w with session, os }
          (.drained data (some code))).forwardData opts data).refreshStatus opts)
        change World.client (onExit opts _ code) = some c at hc
        change Told c (World.history (onExit opts _ code))
        rw [hclient] at hc
        rw [hhistory]
        rcases hpush with ⟨hnone, heq⟩ | ⟨d, ok, -, hsent, hbound⟩
        · rw [heq, hnone] at hc
          cases hc
        · rw [hbound] at hc
          cases ok with
          | false => cases hc
          | true =>
              cases hc
              rw [hsent]
              refine told_of_mem code ?_
              rw [frames_sent_ok]
              exact List.mem_append_right _ (List.mem_singleton_self _)

private theorem Tended.told (h : Tended w v) {c : ClientId} (hc : Told c w.history) :
    Told c v.history := by
  obtain ⟨es, hes⟩ := h
  obtain ⟨f, hf, hexit⟩ := hc
  refine ⟨f, ?_, hexit⟩
  rw [hes.history, frames_append]
  exact List.mem_append_left _ hf

/-- A move that keeps session and phase keeps what holds after the loop. -/
theorem Departed.of_tended (hw : Departed w) (h : Tended w v)
    (hsession : v.session = w.session) (hphase : v.phase ≠ .running → w.phase ≠ .running) :
    Departed v := by
  intro hleft hdead c hc
  rw [hsession] at hdead
  obtain ⟨es, hes⟩ := h
  rcases hes.client with hsame | hnone
  · exact Tended.told ⟨es, hes⟩ (hw (hphase hleft) hdead c (hsame.symm.trans hc))
  · rw [hnone] at hc
    cases hc

private theorem departed_of_running (hphase : v.phase = .running) : Departed v :=
  fun hleft => absurd hphase hleft

private theorem departed_leave (hw : Exiting opts w) (hrun : w.phase = .running) :
    Departed w.leave :=
  fun _ hdead c hc => hw.told hdead hrun c hc

/-- An attach that leaves no gap tells its client of a dead session. -/
theorem departed_onAttach {req : AttachRequest} (a : Answers) (rest : List SessionCommand)
    (hnew : frames req.outTx w.history = []) (hbefore : Unbroken w.history)
    (hafter : Unbroken (((w.answer a).receive (.attach req) rest).onAttach opts req).history) :
    Departed (((w.answer a).receive (.attach req) rest).onAttach opts req) := by
  obtain ⟨u, hu⟩ := onAttach_eq opts w a req rest
  intro _ hdead c hc
  rw [hu.client, Option.some.injEq] at hc
  subst hc
  have hold : w.session.isDead = true := by
    rw [hu.session] at hdead
    unfold Session.isDead at hdead ⊢
    rw [hu.lifecycle] at hdead
    exact hdead
  obtain ⟨code, hcode⟩ := dead_of_isDead hold
  obtain ⟨replay, -, hframes⟩ := hu.given hnew hafter hbefore
  apply told_of_mem code
  rw [hframes, hcode]
  simp [exitOf]

private theorem departed_onClose (hrun : w.phase = .running) (graceMs : UInt32) :
    Departed (w.onClose opts graceMs) := by
  obtain ⟨u, hsession, hclient, hphase, -, -, -, hend⟩ := onClose_eq opts w graceMs
  rw [hend]
  cases hlifecycle : w.session.lifecycle with
  | live => exact departed_of_running (hphase.trans hrun)
  | dead code =>
      intro _ _ c hc
      change (u.farewell opts code).client = some c at hc
      have hgone : (u.farewell opts code).client = none := by
        unfold farewell
        cases hbound : u.client with
        | none => exact hbound
        | some d =>
            obtain ⟨ok, queues, moves, heq, -⟩ :=
              trySend_cases opts { u with client := none } d (exitFrame code) .live
            simp only [heq]
      rw [hgone] at hc
      cases hc

/-- Every unbroken step keeps the departed silent. -/
theorem departed_step {label : Label} (hw : Departed w) (hexiting : Exiting opts w)
    (hintroduced : Introduced w) (hbefore : Unbroken w.history) (hafter : Unbroken v.history)
    (hstep : w.step opts label = some v) : Departed v := by
  cases label with
  | asyncFdOk =>
      obtain ⟨-, -, rfl⟩ := asyncFdOk_eq_some hstep
      exact hw.of_tended (tended_of_eq rfl rfl fun _ => id) rfl id
  | asyncFdFailed =>
      obtain ⟨hrun, -, rfl⟩ := asyncFdFailed_eq_some hstep
      exact departed_leave hexiting hrun
  | send cmd =>
      obtain ⟨next, rfl, -⟩ := send_eq_some hstep
      exact hw.of_tended (tended_of_cons (e := .delivered cmd) trivial (by simp) rfl rfl fun _ => id) rfl id
  | dropSenders =>
      cases hstep
      exact hw.of_tended (tended_of_eq rfl rfl fun _ => id) rfl id
  | writer move =>
      cases hstep
      refine hw.of_tended (tended_of_eq ?_ ?_ fun c => (served_writerMove w move c).1) ?_ ?_
      · rw [writerMove_eq]
      · rw [writerMove_eq]
      · rw [writerMove_eq]
      · rw [writerMove_eq]
        exact id
  | elapse ms =>
      cases hstep
      exact hw.of_tended (tended_of_cons (e := .elapsed ms) trivial (by simp) rfl rfl fun _ => id) rfl id
  | command a =>
      obtain ⟨hrun, ⟨-, -, rfl⟩ | ⟨cmd, rest, hqueue, rfl⟩⟩ := command_eq_some hstep
      · exact departed_leave hexiting hrun
      · cases cmd with
        | input bytes => exact departed_of_running hrun
        | resize cols rows => exact departed_of_running hrun
        | info => exact departed_of_running hrun
        | close graceMs =>
            exact departed_onClose (w := (w.answer a).receive (.close graceMs) rest) hrun graceMs
        | attach req =>
            have hnew := frames_of_pending hexiting.feed hintroduced hqueue
            exact departed_onAttach a rest hnew hbefore hafter
  | readable a =>
      obtain ⟨hidle, hlive, rfl⟩ := readable_eq_some hstep
      exact departed_onReadable (w := w.answer a) hlive (idle_iff.mp hidle).1
  | readableError =>
      obtain ⟨hidle, -, rfl⟩ := readableError_eq_some hstep
      exact departed_leave hexiting (idle_iff.mp hidle).1
  | grace =>
      obtain ⟨hidle, -, rfl⟩ := grace_eq_some hstep
      exact departed_leave hexiting (idle_iff.mp hidle).1
  | kill a =>
      obtain ⟨hidle, -, rfl⟩ := kill_eq_some hstep
      apply departed_of_running
      unfold onKill kill
      simp only
      split <;> exact (idle_iff.mp hidle).1
  | tick a =>
      obtain ⟨hidle, -, rfl⟩ := tick_eq_some hstep
      exact departed_of_running ((phase_pushStatus opts _).trans (idle_iff.mp hidle).1)
  | remove =>
      obtain ⟨hleft, rfl⟩ := remove_eq_some hstep
      refine hw.of_tended (tended_of_eq rfl rfl fun _ => id) rfl ?_
      intro _ hrun
      rw [hleft] at hrun
      cases hrun
  | finish =>
      obtain ⟨-, rfl⟩ := finish_eq_some hstep
      intro _ _ c hc
      cases hc

/-! ## Every run -/

/-- Overflow during a handshake detaches: who missed a frame is not bound and is
enqueued nothing more, and who is bound was given the replay, the STATUS and, if the
session is dead, the EXIT. -/
structure HandshakeSafe (w : World) : Prop where
  detached : ∀ c, Gap c w.history → w.client ≠ some c
  silent : ∀ c, ¬ Resumed c w.history
  served : ∀ c, w.client = some c → ∃ replay s, .attached c replay ∈ w.history ∧
    frameData replay ++ [statusFrame s] <+: frames c w.history ∧
    ∀ code, w.session.lifecycle = .dead code → exitFrame code ∈ frames c w.history

/-- What every state of a run has whose handshakes all fit. -/
structure Whole (opts : ServerOpts) (w : World) : Prop where
  unbroken : Unbroken w.history
  exiting : Exiting opts w
  introduced : Introduced w
  welcomed : Welcomed w
  departed : Departed w

/-- A whole state is safe. -/
theorem Whole.safe (hw : Whole opts w) : HandshakeSafe w := by
  refine ⟨fun c hgap => absurd hgap (hw.unbroken c),
    fun c hresumed => hw.unbroken c hresumed.gap, ?_⟩
  intro c hc
  obtain ⟨replay, s, hmem, hprefix⟩ := hw.welcomed c hc
  refine ⟨replay, s, hmem, hprefix, ?_⟩
  intro code hcode
  have hdead : w.session.isDead = true := by
    unfold Session.isDead
    rw [hcode]
  have htold : Told c w.history := by
    by_cases hrun : w.phase = .running
    · exact hw.exiting.told hdead hrun c hc
    · exact hw.departed hrun hdead c hc
  obtain ⟨f, hf, hexit⟩ := htold
  obtain ⟨code', hcode', rfl⟩ := hw.exiting.status c f hf hexit
  rw [hcode, Lifecycle.dead.injEq] at hcode'
  rw [hcode']
  exact hf

/-- The start is whole. -/
theorem whole_start (opts : ServerOpts) (session : Session) : Whole opts (start session) := by
  refine ⟨?_, exiting_start opts session, introduced_start session, ?_, ?_⟩
  · rintro c ⟨f, hf⟩
    cases hf
  · intro c hc
    cases hc
  · exact departed_of_running rfl

/-- A step that fits keeps the state whole. -/
theorem whole_step {label : Label} (hw : Whole opts w) (hstep : w.step opts label = some v)
    (hfits : w.HandshakeFits opts label) : Whole opts v := by
  have hafter : Unbroken v.history := by
    rcases step_binding hstep with htended | ⟨a, req, rest, rfl, -, hqueue, rfl⟩ | ⟨-, rfl⟩
    · exact htended.unbroken hw.unbroken
    · obtain ⟨u, hu⟩ := onAttach_eq opts w a req rest
      apply (hu.unbroken_iff hw.unbroken).mpr
      exact hfits (.attach req) (by rw [hqueue]; rfl) req rfl
    · exact hw.unbroken
  exact ⟨hafter, exiting_step hw.exiting hstep, introduced_step hw.introduced hstep,
    welcomed_step hw.welcomed hw.exiting.feed hw.introduced hw.unbroken hafter hstep,
    departed_step hw.departed hw.exiting hw.introduced hw.unbroken hafter hstep⟩

/-- A handshake that misses a frame binds its client all the same. -/
theorem not_safe_step {label : Label} (hstep : w.step opts label = some v)
    (hmisses : ¬ w.HandshakeFits opts label) : ¬ HandshakeSafe v := by
  obtain ⟨a, req, u, hu, hfull⟩ := attach_of_not_fits hstep hmisses
  obtain ⟨es, replay, -, hhistory, -, houtcome⟩ := hu.events
  rw [if_neg hfull] at houtcome
  intro hsafe
  apply hsafe.detached req.outTx _ hu.client
  rw [hhistory]
  exact houtcome.append _

/-- In every run, overflow during a handshake detaches in every state reached exactly
if every attach finds room for its whole burst. -/
theorem handshakeSafe_iff (opts : ServerOpts) (session : Session) (labels : List Label) (w : World)
    (hrun : (machine opts).run (start session) labels = some w) :
    (machine opts).Always HandshakeSafe (start session) labels ↔
      (machine opts).Along (HandshakeFits opts) (start session) labels :=
  (machine opts).always_iff_along (fun _ hw => Whole.safe hw)
    (fun _ _ _ hw hstep hfits => whole_step hw hstep hfits)
    (fun _ _ _ _ hstep hmisses => not_safe_step hstep hmisses) (whole_start opts session) hrun

/-- Both handshakes fit, and every state is safe. -/
theorem handshakeSafe_takeover :
    ∃ w, (machine .default).run (start shell) takeover = some w ∧
      (machine .default).Always HandshakeSafe (start shell) takeover := by
  have hsome : ((machine .default).run (start shell) takeover).isSome = true := by decide +kernel
  have hfits : (machine .default).Along (HandshakeFits .default) (start shell) takeover := by
    decide +kernel
  obtain ⟨w, hw⟩ := Option.isSome_iff_exists.mp hsome
  exact ⟨w, hw, (handshakeSafe_iff .default shell takeover w hw).mpr hfits⟩

/-- A client attaches with room for one frame, so that its STATUS does not fit; its
writer then takes the replay, and the shell writes more. -/
def attachOverflow : List Label :=
  [.asyncFdOk, .readable { Answers.none with reads := [.ok [104, 105]] }, .send (.attach ⟨0, 80, 24, 0⟩),
    .command .none, .writer (.pop 0), .readable { Answers.none with reads := [.ok [121, 111]] }]

/-- The client stays bound and is enqueued live output, without the STATUS of its
handshake. -/
theorem not_handshakeSafe_attachOverflow :
    ∃ w, (machine ⟨30000, 1⟩).run (start shell) attachOverflow = some w ∧
      w.client = some 0 ∧ frames 0 w.history = [⟨.data, [104, 105]⟩, ⟨.data, [121, 111]⟩] ∧
      Resumed 0 w.history ∧ ¬ HandshakeSafe w := by
  have hsome : ((machine ⟨30000, 1⟩).run (start shell) attachOverflow).isSome = true := by
    decide +kernel
  obtain ⟨w, hw⟩ := Option.isSome_iff_exists.mp hsome
  have hstate : ∀ w ∈ (machine ⟨30000, 1⟩).run (start shell) attachOverflow,
      w.client = some 0 ∧ frames 0 w.history = [⟨.data, [104, 105]⟩, ⟨.data, [121, 111]⟩] ∧
        w.history = w.history.take 2 ++
          .sent 0 (statusFrame ⟨false, none⟩) .handshake false :: w.history.drop 3 ∧
        .sent 0 ⟨.data, [121, 111]⟩ .live true ∈ w.history.take 2 := by
    decide +kernel
  obtain ⟨hclient, hframes, hsplit, hlater⟩ := hstate w hw
  have hresumed : Resumed 0 w.history := ⟨_, _, _, _, _, hsplit, hlater⟩
  exact ⟨w, hw, hclient, hframes, hresumed, fun hsafe => hsafe.silent 0 hresumed⟩

end World

end JftermMuxer.Daemon
