import JftermMuxer.Daemon.Stream

/-!
# The last frame of a client

The actor sends EXIT in three places: when a drain reports that the shell has
exited, at the end of the handshake of a client that attaches to a dead session,
and when a dead session takes a CLOSE.  A client that was told by the drain stays
bound while the dead session is retained, so the third place addresses a client
that has been told already.

Main results:

- Theorem {lit}`World.step_report`: a step tells a client of the exit at most once
  and only as its last frame, except for a CLOSE that a dead session takes with a
  client bound.
- Theorem {lit}`World.exitFinal_iff`: EXIT is final and unique for every client of
  a run iff every such CLOSE finds the client's queue closed or full.
-/

namespace JftermMuxer.Daemon

open JftermMuxer.Foundation

namespace Event

/-- The frames enqueued to a client, oldest first. -/
def frames (c : ClientId) : List Event → List Frame
  | [] => []
  | .sent d f _ true :: older => if d = c then frames c older ++ [f] else frames c older
  | _ :: older => frames c older

/-- Not the enqueueing of an EXIT. -/
def NotExit : Event → Prop
  | .sent _ f _ true => f.ty ≠ .exit
  | _ => True

/-- A frame that is taken is the client's last one. -/
theorem frames_sent_ok (c : ClientId) (f : Frame) (stage : Stage) (h : List Event) :
    frames c (.sent c f stage true :: h) = frames c h ++ [f] := by
  simp [frames]

/-- A frame for somebody else changes nothing. -/
theorem frames_sent_other {c d : ClientId} (hd : d ≠ c) (f : Frame) (stage : Stage) (ok : Bool)
    (h : List Event) : frames c (.sent d f stage ok :: h) = frames c h := by
  cases ok with
  | true => simp [frames, hd]
  | false => rfl

/-- The frames of two histories in a row. -/
theorem frames_append (c : ClientId) (es h : List Event) :
    frames c (es ++ h) = frames c h ++ frames c es := by
  induction es with
  | nil => exact (List.append_nil _).symm
  | cons e es ih =>
      cases e with
      | sent d f stage ok =>
          by_cases hd : d = c
          · subst hd
            cases ok with
            | true =>
                rw [List.cons_append, frames_sent_ok, frames_sent_ok, ih, List.append_assoc]
            | false => exact ih
          · rw [List.cons_append, frames_sent_other hd, frames_sent_other hd, ih]
      | delivered _ | received _ | attached _ _ | drained _ _ | answered _ | signalled _
      | elapsed _ => exact ih

/-- What was enqueued was offered. -/
theorem mem_of_mem_frames {c : ClientId} {f : Frame} {h : List Event} (hf : f ∈ frames c h) :
    ∃ stage, .sent c f stage true ∈ h := by
  induction h with
  | nil => cases hf
  | cons e h ih =>
      have hlater : f ∈ frames c h → ∃ stage, .sent c f stage true ∈ e :: h := by
        intro hf
        obtain ⟨stage, hstage⟩ := ih hf
        exact ⟨stage, List.mem_cons_of_mem e hstage⟩
      cases e with
      | sent d g stage ok =>
          by_cases hd : d = c
          · subst hd
            cases ok with
            | true =>
                rw [frames_sent_ok] at hf
                rcases List.mem_append.mp hf with hf | hf
                · exact hlater hf
                · cases List.mem_singleton.mp hf
                  exact ⟨stage, List.mem_cons_self⟩
            | false => exact hlater hf
          · rw [frames_sent_other hd] at hf
            exact hlater hf
      | delivered _ | received _ | attached _ _ | drained _ _ | answered _ | signalled _
      | elapsed _ => exact hlater hf

/-- Without an offered EXIT none is enqueued. -/
theorem frames_notExit {c : ClientId} {es : List Event} (hes : ∀ e ∈ es, NotExit e) :
    ∀ f ∈ frames c es, f.ty ≠ .exit := by
  intro f hf
  obtain ⟨stage, hmem⟩ := mem_of_mem_frames hf
  exact hes _ hmem

end Event

namespace World

open Event

variable {opts : ServerOpts} {w v : World}

/-! ## What is claimed -/

/-- EXIT is final and unique: each client is enqueued at most one EXIT, nothing
after it, and every EXIT carries the status stored with the dead session. -/
structure ExitFinal (w : World) : Prop where
  unique : ∀ c, (frames c w.history).countP (fun f => f.ty == .exit) ≤ 1
  last : ∀ c earlier f later, frames c w.history = earlier ++ f :: later → f.ty = .exit →
    later = []
  status : ∀ c, ∀ f ∈ frames c w.history, f.ty = .exit →
    ∃ code, w.session.lifecycle = .dead code ∧ f = exitFrame code

/-- A dead session takes a CLOSE with a client bound only when that client's queue
is closed or full by the time the actor addresses it. -/
@[reducible] def Unheard (opts : ServerOpts) (w : World) : Label → Prop
  | .command a => w.session.isDead = true → ∀ cmd ∈ w.queue.head?, cmd.isClose = true →
      ∀ c ∈ w.client, ((w.answer a).interleave.outQueues c).closed = true ∨
        opts.outQueue ≤ ((w.answer a).interleave.outQueues c).queued.length
  | _ => True

instance decidableUnheard (opts : ServerOpts) (w : World) : DecidablePred (w.Unheard opts) :=
  Label.decidable _

/-- An EXIT was enqueued to the client. -/
def Told (c : ClientId) (h : List Event) : Prop := ∃ f ∈ frames c h, f.ty = .exit

/-- What the analysis rests on: an EXIT carries the stored status and went to a
client that had attached, and a client bound to a dead session has been told. -/
structure Exiting (opts : ServerOpts) (w : World) : Prop where
  feed : ∀ c, Feed opts c w
  status : ∀ c, ∀ f ∈ frames c w.history, f.ty = .exit →
    ∃ code, w.session.lifecycle = .dead code ∧ f = exitFrame code
  heard : ∀ c, Told c w.history → Attached c w.history
  told : w.session.isDead = true → w.phase = .running → ∀ c, w.client = some c →
    Told c w.history

/-! ## Frames other than EXIT -/

/-- A move towards the clients that enqueues no EXIT; a bound client may be dropped. -/
structure Chat (w v : World) : Prop where
  session : v.session = w.session
  phase : v.phase = w.phase
  client : ∀ c, v.client = some c → w.client = some c
  events : ∃ es, v.history = es ++ w.history ∧ ∀ e ∈ es, NotExit e

namespace Chat

/-- Saying nothing. -/
theorem refl (w : World) : Chat w w := ⟨rfl, rfl, fun _ => id, [], rfl, by simp⟩

/-- Chats add up. -/
theorem trans {u : World} (huv : Chat u v) (hvw : Chat v w) : Chat u w := by
  constructor
  · exact hvw.session.trans huv.session
  · exact hvw.phase.trans huv.phase
  · exact fun c hc => huv.client c (hvw.client c hc)
  · exact Machine.grows_trans huv.events hvw.events

/-- Chats made one after the other. -/
theorem foldl {α : Type} {f : World → α → World} {xs : List α}
    (hf : ∀ w, ∀ x ∈ xs, Chat w (f w x)) (w : World) : Chat w (xs.foldl f w) := by
  induction xs generalizing w with
  | nil => exact refl w
  | cons x xs ih =>
      have hrest := ih (fun w y hy => hf w y (List.mem_cons_of_mem _ hy)) (f w x)
      exact (hf w x List.mem_cons_self).trans hrest

/-- A chat enqueues no EXIT. -/
theorem frames (h : Chat w v) (c : ClientId) :
    ∃ fs, Event.frames c v.history = Event.frames c w.history ++ fs ∧ ∀ f ∈ fs, f.ty ≠ .exit := by
  obtain ⟨es, hes, hquiet⟩ := h.events
  exact ⟨Event.frames c es, by rw [hes, frames_append], frames_notExit hquiet⟩

/-- A chat keeps the attaches before it. -/
theorem attached (h : Chat w v) {c : ClientId} (hc : Attached c w.history) :
    Attached c v.history := by
  obtain ⟨es, hes, -⟩ := h.events
  rw [hes]
  exact hc.append es

end Chat

private theorem chat_record {e : Event} (he : NotExit e) (w : World) : Chat w (w.record e) :=
  ⟨rfl, rfl, fun _ => id, [e], rfl, by simpa using he⟩

private theorem chat_trySend (opts : ServerOpts) (w : World) (c : ClientId) {f : Frame}
    (hf : f.ty ≠ .exit) (stage : Stage) : Chat w (w.trySend opts c f stage).2 := by
  obtain ⟨ok, queues, moves, heq, -⟩ := trySend_cases opts w c f stage
  rw [heq]
  refine ⟨rfl, rfl, fun _ => id, [.sent c f stage ok], rfl, ?_⟩
  intro e he
  rw [List.mem_singleton.mp he]
  cases ok with
  | true => exact hf
  | false => trivial

private theorem chat_pushOrDrop (opts : ServerOpts) (w : World) {f : Frame} (hf : f.ty ≠ .exit) :
    Chat w (w.pushOrDrop opts f) := by
  unfold pushOrDrop
  cases w.client with
  | none => exact Chat.refl w
  | some tx =>
      have hsend := chat_trySend opts w tx hf .live
      simp only
      rcases hresult : w.trySend opts tx f .live with ⟨_ | _, u⟩
      · rw [hresult] at hsend
        exact ⟨hsend.session, hsend.phase, by simp, hsend.events⟩
      · rw [hresult] at hsend
        exact hsend

private theorem frameData_notExit {data : List UInt8} {f : Frame} (hf : f ∈ frameData data) :
    f.ty ≠ .exit := by
  rw [ty_of_mem_frameData hf]
  exact FrameType.noConfusion

/-- Forwarded output is a chat. -/
theorem chat_forwardData (opts : ServerOpts) (w : World) (data : List UInt8) :
    Chat w (w.forwardData opts data) :=
  Chat.foldl (fun u _ hf => chat_pushOrDrop opts u (frameData_notExit hf)) w

private theorem chat_pushStatus (opts : ServerOpts) (w : World) : Chat w (w.pushStatus opts) := by
  unfold pushStatus
  split
  · exact Chat.refl w
  · have hpush := chat_pushOrDrop opts w (f := statusFrame w.effectiveStatus) (by simp [statusFrame])
    exact ⟨hpush.session, hpush.phase, hpush.client, hpush.events⟩

private theorem chat_poll (w : World) : Chat w w.poll := ⟨rfl, rfl, fun _ => id, [], rfl, by simp⟩

/-- A refreshed STATUS is a chat. -/
theorem chat_refreshStatus (opts : ServerOpts) (w : World) : Chat w (w.refreshStatus opts) := by
  rcases refreshStatus_cases opts w with ⟨-, heq⟩ | ⟨-, heq | heq⟩
  · rw [heq]
    exact Chat.refl w
  · rw [heq]
    exact (chat_poll w).trans (chat_pushStatus opts _)
  · rw [heq]
    exact chat_pushStatus opts w

/-! ## Steps that tell of the exit once -/

/-- What every step but one kind does: a client that has been told, or that another
step told, is enqueued nothing; one that was not told is enqueued frames that end
with the only EXIT, if there is one; and who is bound to a dead session was told by
this step or was bound to it before. -/
structure Report (w v : World) : Prop where
  lifecycle : w.session.isDead = true → v.session.lifecycle = w.session.lifecycle
  frames : ∀ c, ∃ before exit,
    Event.frames c v.history = Event.frames c w.history ++ (before ++ exit) ∧
      (∀ f ∈ before, f.ty ≠ .exit) ∧
      (exit = [] ∨ Attached c v.history ∧
        ∃ code, v.session.lifecycle = .dead code ∧ exit = [exitFrame code]) ∧
      (before ++ exit ≠ [] → w.session.isDead = false ∨ ¬ Attached c w.history)
  attached : ∀ c, Attached c w.history → Attached c v.history
  told : v.session.isDead = true → v.phase = .running → ∀ c, v.client = some c →
    Told c v.history ∨ (w.session.isDead = true ∧ w.phase = .running ∧ w.client = some c)

private theorem isDead_of_lifecycle {s t : Session} (h : s.lifecycle = t.lifecycle) :
    s.isDead = t.isDead := by
  unfold Session.isDead
  rw [h]

/-- A step that enqueues nothing and binds nobody. -/
theorem report_hush (hlifecycle : v.session.lifecycle = w.session.lifecycle)
    (hframes : ∀ c, Event.frames c v.history = Event.frames c w.history)
    (hattached : ∀ c, Attached c w.history → Attached c v.history)
    (hrunning : v.phase = .running → w.phase = .running)
    (hclient : ∀ c, v.client = some c → w.client = some c) : Report w v := by
  have hdead : v.session.isDead = w.session.isDead := isDead_of_lifecycle hlifecycle
  refine ⟨fun _ => hlifecycle, ?_, hattached, ?_⟩
  · intro c
    exact ⟨[], [], by simp [hframes c], by simp, Or.inl rfl, by simp⟩
  · intro hv hrun c hc
    exact Or.inr ⟨hdead ▸ hv, hrunning hrun, hclient c hc⟩

/-- A live session's frames, without an EXIT. -/
theorem report_chat {u : World} (hchat : Chat u v) (hlive : w.session.isDead = false)
    (hhistory : u.history = w.history) (hsession : u.session.lifecycle = w.session.lifecycle) :
    Report w v := by
  refine ⟨fun hdead => ?_, ?_, ?_, ?_⟩
  · rw [hlive] at hdead
    cases hdead
  · intro c
    obtain ⟨fs, hfs, hquiet⟩ := hchat.frames c
    exact ⟨fs, [], by rw [hfs, hhistory, List.append_nil], hquiet, Or.inl rfl, fun _ => Or.inl hlive⟩
  · intro c hc
    exact hchat.attached (by rw [hhistory]; exact hc)
  · intro hv
    have hstill : v.session.isDead = w.session.isDead := by
      rw [hchat.session]
      exact isDead_of_lifecycle hsession
    rw [hstill, hlive] at hv
    cases hv

/-- The event of an EXIT that is pushed to the bound client. -/
theorem pushOrDrop_cases (opts : ServerOpts) (w : World) (f : Frame) :
    (w.client = none ∧ w.pushOrDrop opts f = w) ∨
      ∃ c ok, w.client = some c ∧
        (w.pushOrDrop opts f).history = .sent c f .live ok :: w.history ∧
        (w.pushOrDrop opts f).client = if ok then some c else none := by
  unfold pushOrDrop
  cases hclient : w.client with
  | none => exact Or.inl ⟨rfl, rfl⟩
  | some c =>
      obtain ⟨ok, queues, moves, heq, -⟩ := trySend_cases opts w c f .live
      refine Or.inr ⟨c, ok, rfl, ?_⟩
      simp only [heq]
      cases ok with
      | true => exact ⟨rfl, hclient⟩
      | false => exact ⟨rfl, rfl⟩

/-- A live session's frames, ended by the EXIT of the drain that reaped its shell. -/
theorem report_onExit {u₀ u : World} {code : Int} (hchat : Chat u₀ u)
    (hlive : w.session.isDead = false) (hhistory : u₀.history = w.history)
    (hbound : ∀ c, u₀.client = some c → Attached c w.history)
    (hcode : u₀.session.lifecycle = .dead code) :
    Report w (u.onExit opts code) := by
  have hend : (u.onExit opts code).history = (u.pushOrDrop opts (exitFrame code)).history ∧
      (u.onExit opts code).client = (u.pushOrDrop opts (exitFrame code)).client ∧
      (u.onExit opts code).session = u.session := by
    have hsession := (outward_pushOrDrop opts u (exitFrame code)).session
    unfold onExit
    simp only
    split
    · exact ⟨rfl, rfl, hsession⟩
    · exact ⟨rfl, rfl, hsession⟩
  obtain ⟨hvhistory, hvclient, hvsession⟩ := hend
  have hvcode : (u.onExit opts code).session.lifecycle = .dead code := by
    rw [hvsession, hchat.session, hcode]
  have hgone : w.session.isDead = true →
      (u.onExit opts code).session.lifecycle = w.session.lifecycle := by
    intro hdead
    rw [hlive] at hdead
    cases hdead
  have hattached : ∀ c, Attached c w.history → Attached c u.history := by
    intro c hc
    exact hchat.attached (by rw [hhistory]; exact hc)
  rcases pushOrDrop_cases opts u (exitFrame code) with ⟨hnone, hsame⟩ | ⟨d, ok, hd, hsent, hclient⟩
  · rw [hsame] at hvhistory hvclient
    refine ⟨hgone, ?_, ?_, ?_⟩
    · intro c
      obtain ⟨fs, hfs, hquiet⟩ := hchat.frames c
      exact ⟨fs, [], by rw [hvhistory, hfs, hhistory, List.append_nil], hquiet, Or.inl rfl,
        fun _ => Or.inl hlive⟩
    · rw [hvhistory]
      exact hattached
    · intro _ _ c hc
      rw [hvclient, hnone] at hc
      cases hc
  · rw [hsent] at hvhistory
    have hattachedv : ∀ c, Attached c w.history → Attached c (u.onExit opts code).history := by
      intro c hc
      rw [hvhistory]
      exact (hattached c hc).cons _
    refine ⟨hgone, ?_, hattachedv, ?_⟩
    · intro c
      obtain ⟨fs, hfs, hquiet⟩ := hchat.frames c
      rw [hhistory] at hfs
      by_cases hc : d = c
      · subst hc
        cases ok with
        | true =>
            refine ⟨fs, [exitFrame code], ?_, hquiet, Or.inr ⟨?_, code, hvcode, rfl⟩,
              fun _ => Or.inl hlive⟩
            · rw [hvhistory, frames_sent_ok, hfs, List.append_assoc]
            · exact hattachedv d (hbound d (hchat.client d hd))
        | false =>
            refine ⟨fs, [], ?_, hquiet, Or.inl rfl, fun _ => Or.inl hlive⟩
            rw [hvhistory, List.append_nil]
            exact hfs
      · refine ⟨fs, [], ?_, hquiet, Or.inl rfl, fun _ => Or.inl hlive⟩
        rw [hvhistory, frames_sent_other hc, List.append_nil]
        exact hfs
    · intro _ _ c hc
      rw [hvclient, hclient] at hc
      cases ok with
      | true =>
          cases hc
          refine Or.inl ⟨exitFrame code, ?_, rfl⟩
          rw [hvhistory, frames_sent_ok]
          exact List.mem_append_right _ List.mem_cons_self
      | false => cases hc

/-- A drain reports an exit to the client that is bound, or none. -/
theorem report_onReadable (hlive : w.session.isDead = false)
    (hbound : ∀ c, w.client = some c → Attached c w.history) (a : Answers) :
    Report w ((w.answer a).onReadable opts) := by
  obtain ⟨hexits, hstays⟩ := (w.answer a).session.lifecycle_drain (w.answer a).os
  rcases hdrained : (w.answer a).session.drain (w.answer a).os with
    ⟨_ | ⟨data, status, exit⟩, session, os⟩
  · rw [hdrained] at hstays
    rw [onReadable_error hdrained]
    exact report_hush (hstays (by simp)) (fun _ => rfl) (fun _ => id) (fun h => by cases h)
      (fun _ => id)
  · rw [hdrained] at hexits hstays
    have hchat : ∀ e : Option Int, Chat { w.answer a with session, os }
        (((World.record { w.answer a with session, os } (.drained data e)).forwardData opts
          data).refreshStatus opts) := by
      intro e
      have hrecord := chat_record (e := .drained data e) trivial { w.answer a with session, os }
      exact (hrecord.trans (chat_forwardData opts _ data)).trans (chat_refreshStatus opts _)
    rw [onReadable_ok hdrained]
    cases exit with
    | none => exact report_chat (hchat none) hlive rfl (hstays (by simp))
    | some code => exact report_onExit (hchat (some code)) hlive rfl hbound (hexits _ rfl code rfl).2

/-! ## The handshake -/

private theorem offers_history (opts : ServerOpts) (tx : ClientId) (fs : List Frame) (w : World) :
    ∃ es, (fs.foldl (offer opts tx) w).history = es ++ w.history ∧
      ∀ e ∈ es, ∃ f ∈ fs, ∃ ok, e = .sent tx f .handshake ok := by
  induction fs generalizing w with
  | nil => exact ⟨[], rfl, by simp⟩
  | cons f fs ih =>
      obtain ⟨es, hes, hsent⟩ := ih (w.offer opts tx f)
      obtain ⟨ok, queues, moves, heq, -⟩ := trySend_cases opts w tx f .handshake
      have hoffer : (w.offer opts tx f).history = .sent tx f .handshake ok :: w.history := by
        unfold offer
        rw [heq]
      refine ⟨es ++ [.sent tx f .handshake ok], ?_, ?_⟩
      · rw [List.foldl_cons, hes, hoffer, List.append_assoc]
        rfl
      · intro e he
        rcases List.mem_append.mp he with he | he
        · obtain ⟨g, hg, ok', rfl⟩ := hsent e he
          exact ⟨g, List.mem_cons_of_mem _ hg, ok', rfl⟩
        · exact ⟨f, List.mem_cons_self, ok, List.mem_singleton.mp he⟩

/-- The handshake offers its client frames other than EXIT, and then EXIT if the
session is dead. -/
theorem handshake_history (opts : ServerOpts) (w : World) (req : AttachRequest) :
    ∃ exit es replay,
      (w.handshake opts req).history = exit ++ (es ++ .attached req.outTx replay :: w.history) ∧
        (∀ e ∈ es, ∃ f ok, f.ty ≠ .exit ∧ e = .sent req.outTx f .handshake ok) ∧
        (exit = [] ∨ ∃ code ok, w.session.lifecycle = .dead code ∧
          exit = [.sent req.outTx (exitFrame code) .handshake ok]) := by
  rcases hreplay : w.session.replayForAttach req.wantChunks with ⟨data, status⟩
  -- The frames before EXIT are one list of offers.
  have hoffers : ∃ u st, u = (frameData data ++ [statusFrame st]).foldl (offer opts req.outTx)
      (w.record (.attached req.outTx data)) ∧
      (w.handshake opts req).history = (u.offerExit opts req.outTx).history := by
    refine ⟨_, ((frameData data).foldl (offer opts req.outTx)
      (w.record (.attached req.outTx data))).effectiveStatus, rfl, ?_⟩
    rw [List.foldl_append]
    unfold handshake
    rw [hreplay]
    rfl
  obtain ⟨u, st, hu, hhistory⟩ := hoffers
  obtain ⟨es, hes, hsent⟩ := offers_history opts req.outTx (frameData data ++ [statusFrame st])
    (w.record (.attached req.outTx data))
  have hsession : u.session = w.session := by
    rw [hu]
    exact (Outward.foldl (outward_offer opts req.outTx) _ (w.record _)).session
  have hquiet : ∀ e ∈ es, ∃ f ok, f.ty ≠ .exit ∧ e = .sent req.outTx f .handshake ok := by
    intro e he
    obtain ⟨f, hf, ok, rfl⟩ := hsent e he
    refine ⟨f, ok, ?_, rfl⟩
    rcases List.mem_append.mp hf with hf | hf
    · exact frameData_notExit hf
    · rw [List.mem_singleton.mp hf]
      simp [statusFrame]
  rw [← hu] at hes
  unfold offerExit at hhistory
  rw [hsession] at hhistory
  cases hlifecycle : w.session.lifecycle with
  | live =>
      rw [hlifecycle] at hhistory
      exact ⟨[], es, data, hhistory.trans hes, hquiet, Or.inl rfl⟩
  | dead code =>
      rw [hlifecycle] at hhistory
      obtain ⟨ok, queues, moves, heq, -⟩ := trySend_cases opts u req.outTx (exitFrame code) .handshake
      refine ⟨[.sent req.outTx (exitFrame code) .handshake ok], es, data, ?_, hquiet,
        Or.inr ⟨code, ok, rfl, rfl⟩⟩
      rw [hhistory]
      simp only [offer, heq, hes]
      rfl

private theorem frames_addressed {c d : ClientId} (hd : d ≠ c) {es : List Event}
    (hes : ∀ e ∈ es, ∃ f ok, f.ty ≠ .exit ∧ e = .sent d f .handshake ok) :
    Event.frames c es = [] := by
  induction es with
  | nil => rfl
  | cons e es ih =>
      obtain ⟨f, ok, -, rfl⟩ := hes e List.mem_cons_self
      rw [frames_sent_other hd]
      exact ih fun e he => hes e (List.mem_cons_of_mem _ he)

private theorem notExit_addressed {d : ClientId} {es : List Event}
    (hes : ∀ e ∈ es, ∃ f ok, f.ty ≠ .exit ∧ e = .sent d f .handshake ok) :
    ∀ e ∈ es, NotExit e := by
  intro e he
  obtain ⟨f, ok, hf, rfl⟩ := hes e he
  cases ok with
  | true => exact hf
  | false => trivial

/-- What the handshake enqueues, client by client. -/
theorem handshake_frames (opts : ServerOpts) (w : World) (req : AttachRequest) (c : ClientId) :
    ∃ before exit,
      Event.frames c (w.handshake opts req).history =
        Event.frames c w.history ++ (before ++ exit) ∧
        (∀ f ∈ before, f.ty ≠ .exit) ∧
        (exit = [] ∨ ∃ code, w.session.lifecycle = .dead code ∧ exit = [exitFrame code]) ∧
        (before ++ exit ≠ [] → c = req.outTx) := by
  obtain ⟨exit, es, replay, hhistory, hes, hexit⟩ := handshake_history opts w req
  by_cases hc : req.outTx = c
  · subst hc
    refine ⟨Event.frames req.outTx es, Event.frames req.outTx exit, ?_,
      frames_notExit (notExit_addressed hes), ?_, fun _ => rfl⟩
    · rw [hhistory, frames_append, frames_append, List.append_assoc]
      rfl
    · rcases hexit with rfl | ⟨code, ok, hcode, rfl⟩
      · exact Or.inl rfl
      · cases ok with
        | true => exact Or.inr ⟨code, hcode, frames_sent_ok ..⟩
        | false => exact Or.inl rfl
  · refine ⟨[], [], ?_, by simp, Or.inl rfl, by simp⟩
    have hnone : Event.frames c exit = [] := by
      rcases hexit with rfl | ⟨code, ok, -, rfl⟩
      · rfl
      · rw [frames_sent_other hc]
        rfl
    rw [hhistory, frames_append, frames_append, hnone, frames_addressed hc hes, List.append_assoc]
    rfl

/-- Binding a client is its handshake, on a world with the same history and
lifecycle. -/
theorem bindClient_eq (opts : ServerOpts) (w : World) (req : AttachRequest) :
    ∃ u : World, u.history = w.history ∧ u.session.lifecycle = w.session.lifecycle ∧
      (w.bindClient opts req).history = (u.handshake opts req).history ∧
      (w.bindClient opts req).session = u.session := by
  have hresized : ∀ u : World, (u.resize req.cols req.rows).session.lifecycle =
      u.session.lifecycle := by
    intro u
    exact u.session.lifecycle_resize u.os req.cols req.rows
  unfold bindClient attachClient
  simp only
  split
  · exact ⟨w.resize req.cols req.rows, rfl, hresized w, rfl, (outward_handshake ..).session⟩
  · exact ⟨w.poll.resize req.cols req.rows, rfl, hresized w.poll, rfl,
      (outward_handshake ..).session⟩

/-- An attach tells its client, which nobody has attached before, and ends the actor
of a dead session. -/
theorem report_onAttach {req : AttachRequest} {rest : List SessionCommand}
    (hnew : ¬ Attached req.outTx w.history) (a : Answers) :
    Report w (((w.answer a).receive (.attach req) rest).onAttach opts req) := by
  obtain ⟨u, huhistory, hulifecycle, hhistory, hsession⟩ :=
    bindClient_eq opts ((w.answer a).receive (.attach req) rest) req
  have hleft : ∀ v : World, (if v.session.isDead then v.leave else v).history = v.history ∧
      (if v.session.isDead then v.leave else v).session = v.session ∧
      (v.session.isDead = true → (if v.session.isDead then v.leave else v).phase = .left) := by
    intro v
    split
    · exact ⟨rfl, rfl, fun _ => rfl⟩
    · rename_i hlive
      exact ⟨rfl, rfl, fun hdead => absurd hdead hlive⟩
  obtain ⟨hvhistory, hvsession, hvphase⟩ :=
    hleft (((w.answer a).receive (.attach req) rest).bindClient opts req)
  have hlifecycle : (((w.answer a).receive (.attach req) rest).onAttach opts
      req).session.lifecycle = w.session.lifecycle := by
    change (if _ then _ else _ : World).session.lifecycle = _
    rw [hvsession, hsession, hulifecycle]
    rfl
  have hattached : ∀ c, Attached c w.history → Attached c u.history := by
    intro c hc
    rw [huhistory]
    exact hc.cons _
  have hend : (((w.answer a).receive (.attach req) rest).onAttach opts req).history =
      (u.handshake opts req).history := hvhistory.trans hhistory
  obtain ⟨exit, es, replay, hshake, -, -⟩ := handshake_history opts u req
  refine ⟨fun _ => hlifecycle, ?_, ?_, ?_⟩
  · intro c
    obtain ⟨before, exit, hframes, hbefore, hexit, hself⟩ := handshake_frames opts u req c
    refine ⟨before, exit, ?_, hbefore, ?_, ?_⟩
    · rw [hend, hframes, huhistory]
      rfl
    · rcases hexit with hnone | ⟨code, hcode, hone⟩
      · exact Or.inl hnone
      · refine Or.inr ⟨?_, code, ?_, hone⟩
        · rw [hself (by simp [hone]), hend, hshake]
          exact ⟨replay, by simp⟩
        · rw [hlifecycle]
          exact hulifecycle.symm.trans hcode
    · intro hsome
      rw [hself hsome]
      exact Or.inr hnew
  · intro c hc
    obtain ⟨replay', hmem⟩ := hattached c hc
    rw [hend, hshake]
    exact ⟨replay', by simp [hmem]⟩
  · intro hdead hrun
    change (if _ then _ else _ : World).session.isDead = true at hdead
    rw [hvsession] at hdead
    change (if _ then _ else _ : World).phase = .running at hrun
    rw [hvphase hdead] at hrun
    cases hrun

/-! ## The CLOSE of a dead session -/

/-- A frame is enqueued unless the writers leave the queue closed or full. -/
theorem trySend_fst (opts : ServerOpts) (w : World) (c : ClientId) (f : Frame) (stage : Stage) :
    (w.trySend opts c f stage).1 = false ↔
      (w.interleave.outQueues c).closed = true ∨
        opts.outQueue ≤ (w.interleave.outQueues c).queued.length := by
  unfold trySend
  simp only
  split
  · rename_i hfull
    rw [Bool.or_eq_true, decide_eq_true_eq] at hfull
    exact iff_of_true rfl hfull
  · rename_i hfull
    rw [Bool.or_eq_true, decide_eq_true_eq] at hfull
    exact iff_of_false Bool.noConfusion hfull

/-- The step that tells a client again: a dead session takes a CLOSE with the client
bound.  `ok` says whether the EXIT was enqueued. -/
structure Farewell (w : World) (c : ClientId) (ok : Bool) (v : World) : Prop where
  dead : w.session.isDead = true
  running : w.phase = .running
  bound : w.client = some c
  session : v.session = w.session
  left : v.phase = .left
  attached : ∀ d, Attached d w.history → Attached d v.history
  frames : ∃ code, w.session.lifecycle = .dead code ∧
    Event.frames c v.history =
      Event.frames c w.history ++ (if ok then [exitFrame code] else []) ∧
    ∀ d, d ≠ c → Event.frames d v.history = Event.frames d w.history

private theorem isDead_iff (s : Session) : s.isDead = true ↔ ∃ code, s.lifecycle = .dead code := by
  unfold Session.isDead
  cases s.lifecycle with
  | live => simp
  | dead code => simp

/-- A CLOSE signals the shell and arms its deadline; a dead session's actor takes
its leave. -/
theorem onClose_eq (opts : ServerOpts) (w : World) (graceMs : UInt32) :
    ∃ u : World, u.session = w.session ∧ u.client = w.client ∧ u.phase = w.phase ∧
      u.outQueues = w.outQueues ∧ u.moves = w.moves ∧ u.history = w.hangup.history ∧
      w.onClose opts graceMs =
        match w.session.lifecycle with
        | .live => u
        | .dead code => (u.farewell opts code).leave :=
  ⟨{ w.hangup with
      closing := true
      killDeadline := if 0 < graceMs then some (w.hangup.now + graceMs.toNat)
        else w.hangup.killDeadline }, rfl, rfl, rfl, rfl, rfl, rfl, rfl⟩

/-- Only a live session is sent SIGHUP. -/
theorem hangup_history (w : World) :
    w.hangup.history = if w.session.isDead then w.history else .signalled .sighup :: w.history :=
  rfl

/-- A CLOSE enqueues nothing while the session is live or nobody is bound. -/
theorem report_onClose {graceMs : UInt32} {rest : List SessionCommand} (hrun : w.phase = .running)
    (hquiet : w.session.isDead = true → w.client = none) (a : Answers) :
    Report w (((w.answer a).receive (.close graceMs) rest).onClose opts graceMs) := by
  obtain ⟨u, hsession, hclient, hphase, -, -, hhistory, hend⟩ :=
    onClose_eq opts ((w.answer a).receive (.close graceMs) rest) graceMs
  have hframes : ∀ c, Event.frames c u.history = Event.frames c w.history := by
    intro c
    rw [hhistory, hangup_history]
    split <;> rfl
  have hattached : ∀ c, Attached c w.history → Attached c u.history := by
    rintro c ⟨replay, hmem⟩
    refine ⟨replay, ?_⟩
    rw [hhistory, hangup_history]
    split
    · exact List.mem_cons_of_mem _ hmem
    · exact List.mem_cons_of_mem _ (List.mem_cons_of_mem _ hmem)
  have hhush : ∀ v : World, v.session = u.session → v.history = u.history → v.client = u.client →
      Report w v := by
    intro v hs hh hc
    refine report_hush ?_ ?_ ?_ (fun _ => hrun) ?_
    · rw [hs, hsession]
      rfl
    · rw [hh]
      exact hframes
    · rw [hh]
      exact hattached
    · rw [hc, hclient]
      exact fun _ => id
  rw [hend]
  cases hlifecycle : ((w.answer a).receive (.close graceMs) rest).session.lifecycle with
  | live => exact hhush u rfl rfl rfl
  | dead code =>
      have hnone : u.client = none := by
        rw [hclient]
        exact hquiet ((isDead_iff w.session).mpr ⟨code, hlifecycle⟩)
      have hsilent : u.farewell opts code = u := by
        unfold farewell
        rw [hnone]
      simp only [hsilent]
      exact hhush u.leave rfl rfl rfl

private theorem interleave_congr {u : World} (hqueues : u.outQueues = w.outQueues)
    (hmoves : u.moves = w.moves) : u.interleave.outQueues = w.interleave.outQueues := by
  have hfold : ∀ (ms : List WriterMove) (x y : World), x.outQueues = y.outQueues →
      (ms.foldl writerMove x).outQueues = (ms.foldl writerMove y).outQueues := by
    intro ms
    induction ms with
    | nil => exact fun _ _ h => h
    | cons m ms ih =>
        intro x y hxy
        refine ih _ _ ?_
        cases m with
        | pop d => simp only [writerMove, setQueue, hxy]
        | close d => simp only [writerMove, setQueue, hxy]
  unfold interleave
  rw [hmoves]
  exact hfold _ _ _ hqueues

/-- A CLOSE tells the client of a dead session once more. -/
theorem farewell_onClose {graceMs : UInt32} {rest : List SessionCommand} {c : ClientId}
    (hrun : w.phase = .running) (hdead : w.session.isDead = true) (hclient : w.client = some c)
    (a : Answers) :
    ∃ ok, Farewell w c ok (((w.answer a).receive (.close graceMs) rest).onClose opts graceMs) ∧
      (ok = false ↔ ((w.answer a).interleave.outQueues c).closed = true ∨
        opts.outQueue ≤ ((w.answer a).interleave.outQueues c).queued.length) := by
  obtain ⟨code, hcode⟩ := (isDead_iff w.session).mp hdead
  obtain ⟨u, hsession, hbound, -, hqueues, hmoves, hhistory, hend⟩ :=
    onClose_eq opts ((w.answer a).receive (.close graceMs) rest) graceMs
  have hlifecycle : ((w.answer a).receive (.close graceMs) rest).session.lifecycle =
      .dead code := hcode
  have hstill : ((w.answer a).receive (.close graceMs) rest).session.isDead = true := hdead
  rw [hangup_history, if_pos hstill] at hhistory
  have hstillBound : u.client = some c := hbound.trans hclient
  have htaken : u.farewell opts code =
      (World.trySend opts { u with client := none } c (exitFrame code) .live).2 := by
    unfold farewell
    rw [hstillBound]
  rw [hlifecycle] at hend
  simp only [htaken] at hend
  obtain ⟨ok, queues, moves, heq, -⟩ :=
    trySend_cases opts { u with client := none } c (exitFrame code) .live
  have hok := trySend_fst opts { u with client := none } c (exitFrame code) .live
  have hinterleave : (interleave { u with client := none }).outQueues =
      (w.answer a).interleave.outQueues := interleave_congr hqueues hmoves
  rw [heq, hinterleave] at hok
  refine ⟨ok, ?_, hok⟩
  rw [hend, heq]
  refine ⟨hdead, hrun, hclient, hsession, rfl, ?_, code, hcode, ?_, ?_⟩
  · rintro d ⟨replay, hmem⟩
    refine ⟨replay, List.mem_cons_of_mem _ ?_⟩
    change _ ∈ u.history
    rw [hhistory]
    exact List.mem_cons_of_mem _ hmem
  · change Event.frames c (.sent c (exitFrame code) .live ok :: u.history) = _
    rw [hhistory]
    cases ok with
    | true => exact frames_sent_ok ..
    | false => exact (List.append_nil _).symm
  · intro d hd
    change Event.frames d (.sent c (exitFrame code) .live ok :: u.history) = _
    rw [frames_sent_other (Ne.symm hd), hhistory]
    rfl

/-! ## Every step -/

/-- The command arm: an attach tells a new client, and a CLOSE of a dead session
addresses the client bound to it. -/
theorem command_report {cmd : SessionCommand} {rest : List SessionCommand}
    (hw : Exiting opts w) (hrun : w.phase = .running) (hqueue : w.queue = cmd :: rest)
    (a : Answers) :
    (Report w (onCommand opts ((w.answer a).receive cmd rest) cmd) ∧
        w.Unheard opts (.command a)) ∨
      ∃ c ok, Farewell w c ok (onCommand opts ((w.answer a).receive cmd rest) cmd) ∧
        (ok = false ↔ w.Unheard opts (.command a)) := by
  have hother : cmd.isClose = false → w.Unheard opts (.command a) := by
    intro hcmd _ cmd' hcmd' hclose
    rw [hqueue] at hcmd'
    cases hcmd'
    rw [hcmd] at hclose
    cases hclose
  cases cmd with
  | input bytes =>
      refine Or.inl ⟨?_, hother rfl⟩
      exact report_hush rfl (fun _ => rfl) (fun _ hc => hc.cons _) (fun _ => hrun) (fun _ => id)
  | resize cols rows =>
      refine Or.inl ⟨?_, hother rfl⟩
      exact report_hush (Session.lifecycle_resize ..) (fun _ => rfl) (fun _ hc => hc.cons _)
        (fun _ => hrun) (fun _ => id)
  | info =>
      refine Or.inl ⟨?_, hother rfl⟩
      exact report_hush rfl (fun _ => rfl) (fun _ hc => (hc.cons _).cons _)
        (fun _ => hrun) (fun _ => id)
  | attach req =>
      refine Or.inl ⟨?_, hother rfl⟩
      have hpending : w.queue.countP (attaches req.outTx) ≠ 0 := by
        rw [hqueue, List.countP_cons, if_pos (by simp [attaches])]
        exact Nat.succ_ne_zero _
      exact report_onAttach ((hw.feed req.outTx).pending hpending).2 a
  | close graceMs =>
      by_cases hdead : w.session.isDead = true
      · cases hclient : w.client with
        | none =>
            refine Or.inl ⟨report_onClose hrun (fun _ => hclient) a, ?_⟩
            intro _ _ _ _ c hc
            rw [hclient] at hc
            cases hc
        | some c =>
            obtain ⟨ok, hfarewell, hok⟩ := farewell_onClose hrun hdead hclient a
            refine Or.inr ⟨c, ok, hfarewell, hok.trans ?_⟩
            constructor
            · intro hfull _ _ _ _ d hd
              rw [hclient] at hd
              cases hd
              exact hfull
            · exact fun h => h hdead (.close graceMs) (by rw [hqueue]; rfl) rfl c hclient
      · exact Or.inl ⟨report_onClose hrun (fun h => absurd h hdead) a, fun h => absurd h hdead⟩

/-- A step tells of the exit at most once, or it is the CLOSE of a dead session with
a client bound. -/
theorem step_report {label : Label} (hw : Exiting opts w) (hstep : w.step opts label = some v) :
    (Report w v ∧ w.Unheard opts label) ∨
      ∃ c ok, Farewell w c ok v ∧ (ok = false ↔ w.Unheard opts label) := by
  cases label with
  | asyncFdOk =>
      obtain ⟨-, -, rfl⟩ := asyncFdOk_eq_some hstep
      exact Or.inl ⟨report_hush rfl (fun _ => rfl) (fun _ => id) id (fun _ => id), trivial⟩
  | asyncFdFailed =>
      obtain ⟨hrun, -, rfl⟩ := asyncFdFailed_eq_some hstep
      exact Or.inl ⟨report_hush rfl (fun _ => rfl) (fun _ => id) (fun _ => hrun) (fun _ => id),
        trivial⟩
  | send cmd =>
      obtain ⟨next, rfl, -, -, -⟩ := send_eq_some hstep
      exact Or.inl ⟨report_hush rfl (fun _ => rfl) (fun _ hc => hc.cons _) id (fun _ => id),
        trivial⟩
  | dropSenders =>
      cases hstep
      exact Or.inl ⟨report_hush rfl (fun _ => rfl) (fun _ => id) id (fun _ => id), trivial⟩
  | writer move =>
      cases hstep
      rw [writerMove_eq]
      exact Or.inl ⟨report_hush rfl (fun _ => rfl) (fun _ => id) id (fun _ => id), trivial⟩
  | elapse ms =>
      cases hstep
      exact Or.inl ⟨report_hush rfl (fun _ => rfl) (fun _ hc => hc.cons _) id (fun _ => id),
        trivial⟩
  | command a =>
      obtain ⟨hrun, ⟨hempty, -, rfl⟩ | ⟨cmd, rest, hqueue, rfl⟩⟩ := command_eq_some hstep
      · refine Or.inl ⟨report_hush rfl (fun _ => rfl) (fun _ => id) (fun _ => hrun)
          (fun _ => id), ?_⟩
        intro _ cmd hcmd
        rw [hempty] at hcmd
        cases hcmd
      · exact command_report hw hrun hqueue a
  | readable a =>
      obtain ⟨-, hlive, rfl⟩ := readable_eq_some hstep
      refine Or.inl ⟨report_onReadable hlive ?_ a, trivial⟩
      intro c hc
      exact attached_of_current ((hw.feed c).bound hc).1
  | readableError =>
      obtain ⟨hidle, -, rfl⟩ := readableError_eq_some hstep
      exact Or.inl ⟨report_hush rfl (fun _ => rfl) (fun _ => id)
        (fun _ => (idle_iff.mp hidle).1) (fun _ => id), trivial⟩
  | grace =>
      obtain ⟨hidle, -, rfl⟩ := grace_eq_some hstep
      exact Or.inl ⟨report_hush rfl (fun _ => rfl) (fun _ => id)
        (fun _ => (idle_iff.mp hidle).1) (fun _ => id), trivial⟩
  | kill a =>
      obtain ⟨-, -, rfl⟩ := kill_eq_some hstep
      refine Or.inl ⟨?_, trivial⟩
      unfold onKill kill
      simp only
      split
      · exact report_hush rfl (fun _ => rfl) (fun _ => id) id (fun _ => id)
      · simp only
        exact report_hush rfl (fun _ => rfl) (fun _ hc => hc.cons _) id (fun _ => id)
  | tick a =>
      obtain ⟨-, hlive, rfl⟩ := tick_eq_some hstep
      have hchat := (chat_poll (w.answer a)).trans (chat_pushStatus opts _)
      exact Or.inl ⟨report_chat hchat hlive rfl rfl, trivial⟩
  | remove =>
      obtain ⟨-, rfl⟩ := remove_eq_some hstep
      exact Or.inl ⟨report_hush rfl (fun _ => rfl) (fun _ => id) (fun h => by cases h)
        (fun _ => id), trivial⟩
  | finish =>
      obtain ⟨-, rfl⟩ := finish_eq_some hstep
      exact Or.inl ⟨report_hush rfl (fun _ => rfl) (fun _ => id) (fun h => by cases h)
        (fun _ h => by cases h), trivial⟩

/-! ## Every run -/

/-- At the start nobody was told of an exit. -/
theorem exiting_start (opts : ServerOpts) (session : Session) : Exiting opts (start session) := by
  refine ⟨fun c => feed_start opts c session, ?_, ?_, ?_⟩
  · intro c f hf
    cases hf
  · rintro c ⟨f, hf, -⟩
    cases hf
  · intro _ _ c hc
    cases hc

/-- Every step keeps what was told in agreement with the session. -/
theorem exiting_step {label : Label} (hw : Exiting opts w) (hstep : w.step opts label = some v) :
    Exiting opts v := by
  have hfeed : ∀ c, Feed opts c v := fun c => (kept_feed opts c).step (hw.feed c) hstep
  rcases step_report hw hstep with ⟨hreport, -⟩ | ⟨c, ok, hfarewell, -⟩
  · refine ⟨hfeed, ?_, ?_, ?_⟩
    · intro d f hf hexit
      obtain ⟨before, exit, hframes, hbefore, hlast, -⟩ := hreport.frames d
      rw [hframes, List.mem_append, List.mem_append] at hf
      rcases hf with hf | hf | hf
      · obtain ⟨code, hcode, heq⟩ := hw.status d f hf hexit
        have hdead := (isDead_iff w.session).mpr ⟨code, hcode⟩
        exact ⟨code, (hreport.lifecycle hdead).trans hcode, heq⟩
      · exact absurd hexit (hbefore f hf)
      · rcases hlast with rfl | ⟨-, code, hcode, rfl⟩
        · cases hf
        · exact ⟨code, hcode, List.mem_singleton.mp hf⟩
    · rintro d ⟨f, hf, hexit⟩
      obtain ⟨before, exit, hframes, hbefore, hlast, -⟩ := hreport.frames d
      rw [hframes, List.mem_append, List.mem_append] at hf
      rcases hf with hf | hf | hf
      · exact hreport.attached d (hw.heard d ⟨f, hf, hexit⟩)
      · exact absurd hexit (hbefore f hf)
      · rcases hlast with rfl | ⟨hattached, -⟩
        · cases hf
        · exact hattached
    · intro hdead hrun d hd
      rcases hreport.told hdead hrun d hd with htold | ⟨hwdead, hwrun, hwd⟩
      · exact htold
      · obtain ⟨f, hf, hexit⟩ := hw.told hwdead hwrun d hwd
        obtain ⟨before, exit, hframes, -⟩ := hreport.frames d
        exact ⟨f, by rw [hframes]; exact List.mem_append_left _ hf, hexit⟩
  · obtain ⟨code, hcode, hframes, hothers⟩ := hfarewell.frames
    have htold := hw.told hfarewell.dead hfarewell.running c hfarewell.bound
    refine ⟨hfeed, ?_, ?_, ?_⟩
    · intro d f hf hexit
      rw [hfarewell.session]
      by_cases hd : d = c
      · subst hd
        rw [hframes, List.mem_append] at hf
        rcases hf with hf | hf
        · exact hw.status d f hf hexit
        · cases ok with
          | true => exact ⟨code, hcode, List.mem_singleton.mp hf⟩
          | false => cases hf
      · rw [hothers d hd] at hf
        exact hw.status d f hf hexit
    · rintro d ⟨f, hf, hexit⟩
      refine hfarewell.attached d (hw.heard d ?_)
      by_cases hd : d = c
      · rw [hd]
        exact htold
      · rw [hothers d hd] at hf
        exact ⟨f, hf, hexit⟩
    · intro _ hrun
      rw [hfarewell.left] at hrun
      cases hrun

/-- Nothing was enqueued to a client after its EXIT. -/
def ExitLast (w : World) : Prop :=
  ∀ c earlier f later, frames c w.history = earlier ++ f :: later → f.ty = .exit → later = []

/-- A list in which only the last frame can be an EXIT has at most one. -/
theorem countP_exit_le {fs : List Frame}
    (hlast : ∀ earlier f later, fs = earlier ++ f :: later → f.ty = .exit → later = []) :
    fs.countP (fun f => f.ty == .exit) ≤ 1 := by
  induction fs with
  | nil => exact Nat.zero_le _
  | cons f fs ih =>
      by_cases hf : f.ty = .exit
      · rw [hlast [] f fs rfl hf]
        simp [hf]
      · rw [List.countP_cons_of_neg (by simpa using hf)]
        refine ih ?_
        intro earlier g later heq
        exact hlast (f :: earlier) g later (by rw [heq]; rfl)

/-- The EXITs are final iff each is the last frame of its client. -/
theorem exitFinal_iff_last (hw : Exiting opts w) : w.ExitFinal ↔ w.ExitLast :=
  ⟨fun h => h.last, fun h => ⟨fun c => countP_exit_le (h c), h, hw.status⟩⟩

/-- Frames that follow none but frames other than EXIT. -/
theorem exitLast_append {old before exit earlier later : List Frame} {f : Frame}
    (hold : ∀ g ∈ old, g.ty ≠ .exit) (hbefore : ∀ g ∈ before, g.ty ≠ .exit)
    (hexit : exit.length ≤ 1) (heq : old ++ (before ++ exit) = earlier ++ f :: later)
    (hf : f.ty = .exit) : later = [] := by
  rw [← List.append_assoc] at heq
  have hquiet : ∀ g ∈ old ++ before, g.ty ≠ .exit := by
    intro g hg
    rcases List.mem_append.mp hg with hg | hg
    · exact hold g hg
    · exact hbefore g hg
  rcases List.append_eq_append_iff.mp heq with ⟨mid, -, hmid⟩ | ⟨mid, hmid, -⟩
  · have hlength := congrArg List.length hmid
    rw [List.length_append, List.length_cons] at hlength
    exact List.length_eq_zero_iff.mp (by omega)
  · cases mid with
    | nil =>
        rw [List.append_nil] at hmid
        rw [hmid] at heq
        have hlength := congrArg List.length (List.append_cancel_left heq)
        rw [List.length_cons] at hlength
        exact List.length_eq_zero_iff.mp (by omega)
    | cons g mid =>
        have hhead : f = g := by
          rw [hmid, List.append_assoc] at heq
          exact (List.cons.inj (List.append_cancel_left heq)).1.symm
        have hmem : g ∈ old ++ before := by
          rw [hmid]
          exact List.mem_append_right _ List.mem_cons_self
        exact absurd (hhead ▸ hf) (hquiet g hmem)

/-- A client that was told is enqueued nothing by such a step. -/
theorem Report.exitLast (hreport : Report w v) (hw : Exiting opts w) (hlast : w.ExitLast) :
    v.ExitLast := by
  intro c earlier f later heq hf
  obtain ⟨before, exit, hframes, hbefore, hexit, hsome⟩ := hreport.frames c
  rw [hframes] at heq
  by_cases hnone : before ++ exit = []
  · rw [hnone, List.append_nil] at heq
    exact hlast c earlier f later heq hf
  · have hold : ∀ g ∈ Event.frames c w.history, g.ty ≠ .exit := by
      intro g hg hexit
      rcases hsome hnone with hlive | hnew
      · obtain ⟨code, hcode, -⟩ := hw.status c g hg hexit
        rw [(isDead_iff w.session).mpr ⟨code, hcode⟩] at hlive
        cases hlive
      · exact hnew (hw.heard c ⟨g, hg, hexit⟩)
    refine exitLast_append hold hbefore ?_ heq hf
    rcases hexit with rfl | ⟨-, code, -, rfl⟩
    · exact Nat.zero_le _
    · exact Nat.le_refl _

/-- The CLOSE of a dead session spoils the last frame exactly when it is enqueued. -/
theorem Farewell.exitLast_iff {c : ClientId} {ok : Bool} (hfarewell : Farewell w c ok v)
    (hw : Exiting opts w) (hlast : w.ExitLast) : v.ExitLast ↔ ok = false := by
  obtain ⟨code, -, hframes, hothers⟩ := hfarewell.frames
  cases ok with
  | true =>
      refine iff_of_false ?_ Bool.noConfusion
      intro hafter
      obtain ⟨f, hf, hexit⟩ := hw.told hfarewell.dead hfarewell.running c hfarewell.bound
      obtain ⟨earlier, later, hsplit⟩ := List.append_of_mem hf
      rw [hsplit, if_pos rfl, List.append_assoc] at hframes
      have hnone := hafter c earlier f (later ++ [exitFrame code]) hframes hexit
      cases later with
      | nil => cases hnone
      | cons g later => cases hnone
  | false =>
      refine iff_of_true ?_ rfl
      intro d earlier f later heq hf
      by_cases hd : d = c
      · subst hd
        rw [hframes, if_neg Bool.noConfusion, List.append_nil] at heq
        exact hlast d earlier f later heq hf
      · rw [hothers d hd] at heq
        exact hlast d earlier f later heq hf

/-- Exactly the steps that break the condition spoil a client's last frame. -/
theorem exitLast_step {label : Label} (hw : Exiting opts w) (hlast : w.ExitLast)
    (hstep : w.step opts label = some v) : v.ExitLast ↔ w.Unheard opts label := by
  rcases step_report hw hstep with ⟨hreport, hok⟩ | ⟨c, ok, hfarewell, hok⟩
  · exact iff_of_true (hreport.exitLast hw hlast) hok
  · exact (hfarewell.exitLast_iff hw hlast).trans hok

/-- Frames that followed an EXIT stay. -/
theorem not_exitLast_step {label : Label} (hw : Exiting opts w) (hspoilt : ¬ w.ExitLast)
    (hstep : w.step opts label = some v) : ¬ v.ExitLast := by
  have hgrows : ∀ c, ∃ more, frames c v.history = frames c w.history ++ more := by
    intro d
    rcases step_report hw hstep with ⟨hreport, -⟩ | ⟨c, ok, hfarewell, -⟩
    · obtain ⟨before, exit, hframes, -⟩ := hreport.frames d
      exact ⟨before ++ exit, hframes⟩
    · obtain ⟨code, -, hframes, hothers⟩ := hfarewell.frames
      by_cases hd : d = c
      · subst hd
        exact ⟨_, hframes⟩
      · exact ⟨[], by rw [hothers d hd, List.append_nil]⟩
  intro hafter
  refine hspoilt ?_
  intro c earlier f later heq hf
  obtain ⟨more, hmore⟩ := hgrows c
  rw [heq, List.append_assoc] at hmore
  have hnone := hafter c earlier f (later ++ more) hmore hf
  exact (List.append_eq_nil_iff.mp hnone).1

/-- In every run of a session's actor: each client is enqueued at most one EXIT and
nothing after it, and every EXIT carries the stored status, iff no dead session took
a CLOSE with a client bound whose queue could still take a frame. -/
theorem exitFinal_iff (opts : ServerOpts) (session : Session) (labels : List Label) (w : World)
    (hrun : (machine opts).run (start session) labels = some w) :
    w.ExitFinal ↔ (machine opts).Along (Unheard opts) (start session) labels := by
  have hexiting : Exiting opts w :=
    (machine opts).run_induct (motive := Exiting opts)
      (fun _ _ _ hw hstep => exiting_step hw hstep) (exiting_start opts session) hrun
  rw [exitFinal_iff_last hexiting]
  refine (machine opts).good_iff_along (motive := Exiting opts)
    (fun _ _ _ hw hstep => exiting_step hw hstep)
    (fun _ _ _ hw hlast hstep => exitLast_step hw hlast hstep)
    (fun _ _ _ hw hspoilt hstep => not_exitLast_step hw hspoilt hstep)
    (exiting_start opts session) ?_ hrun
  intro c earlier f later heq
  cases earlier with
  | nil => cases heq
  | cons g earlier => cases heq

/-- A client sees its shell exit and hangs up; only then is the session closed. -/
def closedAfterHangup : List Label :=
  [.asyncFdOk, .send (.attach ⟨0, 80, 24, 0⟩), .command .none,
    .readable { Answers.none with reads := [.ok []], waits := [.ok (.exited 3)] },
    .writer (.close 0), .send (.close 0), .command .none, .remove, .finish]

/-- The client is told once. -/
theorem exitFinal_closedAfterHangup :
    ∃ w, (machine .default).run (start shell) closedAfterHangup = some w ∧
      w.phase = .finished ∧ frames 0 w.history = [statusFrame ⟨false, none⟩, exitFrame 3] ∧
      w.ExitFinal ∧ (machine .default).Along (Unheard .default) (start shell) closedAfterHangup := by
  have hsome : ((machine .default).run (start shell) closedAfterHangup).isSome = true := by
    decide +kernel
  have hend : ∀ w ∈ (machine .default).run (start shell) closedAfterHangup,
      w.phase = .finished ∧
        frames 0 w.history = [statusFrame ⟨false, none⟩, exitFrame 3] := by
    decide +kernel
  have halong : (machine .default).Along (Unheard .default) (start shell) closedAfterHangup := by
    decide +kernel
  obtain ⟨w, hw⟩ := Option.isSome_iff_exists.mp hsome
  obtain ⟨hphase, hframes⟩ := hend w hw
  exact ⟨w, hw, hphase, hframes,
    (exitFinal_iff .default shell closedAfterHangup w hw).mpr halong, halong⟩

/-- A client sees its shell exit and stays; then the session is closed. -/
def closedWhileBound : List Label :=
  [.asyncFdOk, .send (.attach ⟨0, 80, 24, 0⟩), .command .none,
    .readable { Answers.none with reads := [.ok []], waits := [.ok (.exited 3)] },
    .send (.close 0), .command .none]

/-- The client is told twice. -/
theorem exit_told_twice :
    ∃ w, (machine .default).run (start shell) closedWhileBound = some w ∧
      frames 0 w.history = [statusFrame ⟨false, none⟩, exitFrame 3, exitFrame 3] ∧
      ¬ w.ExitFinal := by
  have hsome : ((machine .default).run (start shell) closedWhileBound).isSome = true := by
    decide +kernel
  have hend : ∀ w ∈ (machine .default).run (start shell) closedWhileBound,
      frames 0 w.history = [statusFrame ⟨false, none⟩, exitFrame 3, exitFrame 3] := by
    decide +kernel
  obtain ⟨w, hw⟩ := Option.isSome_iff_exists.mp hsome
  have hframes := hend w hw
  refine ⟨w, hw, hframes, ?_⟩
  intro hfinal
  cases hfinal.last 0 [statusFrame ⟨false, none⟩] (exitFrame 3) [exitFrame 3] hframes rfl

end World

end JftermMuxer.Daemon
