import JftermMuxer.Daemon.Actor

/-!
# What a client's queue receives

For one client the actor's history says what is due to it (the replay taken at
its attach, and the output of every drain until another attach replaces it) and
what was enqueued to it.  A frame that a live push could not enqueue detaches the
client, and a replaced client is never addressed again, so the bytes enqueued
never skip any that are due.

Main results:

- Theorem {lit}`World.kept_feed`: every move of the actor keeps the invariant
  that ties the bound client, its queue and the history together.
- Theorem {lit}`World.client_stream`: in every run the data enqueued to a client
  is a prefix of what is due to it, all of it while nothing failed, and nothing
  follows a failed live push or a replacement.
-/

namespace JftermMuxer.Daemon

open JftermMuxer.Foundation

/-! ## Reading the history -/

namespace Event

/-- The client attached last. -/
def current : List Event → Option ClientId
  | [] => none
  | .attached c _ :: _ => some c
  | _ :: older => current older

/-- The bytes that a frame adds to a client's output. -/
def carried (f : Frame) : List UInt8 := if f.ty = .data then f.payload else []

/-- The concatenated payloads of the data frames enqueued to a client. -/
def enqueued (c : ClientId) : List Event → List UInt8
  | [] => []
  | .sent d f _ true :: older =>
      if d = c then enqueued c older ++ carried f else enqueued c older
  | _ :: older => enqueued c older

/-- The replay taken at a client's attach, followed by the output of every drain
processed until another attach. -/
def owed (c : ClientId) : List Event → List UInt8
  | [] => []
  | .attached d replay :: older => if d = c then replay else owed c older
  | .drained data _ :: older => if current older = some c then owed c older ++ data else owed c older
  | _ :: older => owed c older

/-- A client has been attached. -/
def Attached (c : ClientId) (h : List Event) : Prop := ∃ replay, .attached c replay ∈ h

/-- A frame offered to the client was not enqueued. -/
def Failed (c : ClientId) (h : List Event) : Prop := ∃ f stage, .sent c f stage false ∈ h

/-- An offer that did not get into its queue. -/
def refused : Event → Bool
  | .sent _ _ _ ok => !ok
  | .delivered _ | .received _ | .attached _ _ | .drained _ _ | .answered _ | .signalled _
  | .elapsed _ => false

/-- Where no offer was refused none is found. -/
theorem not_mem_of_refused {h : List Event} (hnone : h.any refused = false) (c : ClientId)
    (f : Frame) (stage : Stage) : .sent c f stage false ∉ h := by
  intro hmem
  exact List.any_eq_false.mp hnone _ hmem rfl

/-- A live push to the client failed, or another attach followed its own. -/
def Retired (c : ClientId) : List Event → Prop
  | [] => False
  | .sent d _ .live false :: older => d = c ∨ Retired c older
  | .attached d _ :: older => (d ≠ c ∧ Attached c older) ∨ Retired c older
  | _ :: older => Retired c older

/-- No frame was enqueued to the client once it was retired. -/
def SilentOnceRetired (c : ClientId) : List Event → Prop
  | [] => True
  | .sent d _ _ true :: older => (d = c → ¬ Retired c older) ∧ SilentOnceRetired c older
  | _ :: older => SilentOnceRetired c older

/-- The client's queue has room for its attach handshake: the frames of the replay
and two more. -/
def Roomy (opts : ServerOpts) (c : ClientId) (h : List Event) : Prop :=
  ∀ replay, .attached c replay ∈ h → (frameData replay).length + 2 ≤ opts.outQueue

/-- An event that says nothing about a client's stream. -/
def Aside (c : ClientId) : Event → Prop
  | .sent d _ _ _ => d ≠ c
  | .attached _ _ | .drained _ _ => False
  | .delivered _ | .received _ | .answered _ | .signalled _ | .elapsed _ => True

/-! Two histories agree about a client's stream. -/

structure Agree (c : ClientId) (h k : List Event) : Prop where
  current : current k = some c ↔ current h = some c
  enqueued : enqueued c k = enqueued c h
  owed : owed c k = owed c h
  attached : ∀ replay, .attached c replay ∈ k ↔ .attached c replay ∈ h
  failed : Failed c k ↔ Failed c h
  retired : Retired c k ↔ Retired c h
  silent : SilentOnceRetired c k ↔ SilentOnceRetired c h

/-- A history agrees with itself. -/
theorem Agree.refl (c : ClientId) (h : List Event) : Agree c h h :=
  ⟨Iff.rfl, rfl, rfl, fun _ => Iff.rfl, Iff.rfl, Iff.rfl, Iff.rfl⟩

/-- Agreement is transitive. -/
theorem Agree.trans {c : ClientId} {h k l : List Event} (hhk : Agree c h k) (hkl : Agree c k l) :
    Agree c h l :=
  ⟨hkl.current.trans hhk.current, hkl.enqueued.trans hhk.enqueued, hkl.owed.trans hhk.owed,
    fun replay => (hkl.attached replay).trans (hhk.attached replay), hkl.failed.trans hhk.failed,
    hkl.retired.trans hhk.retired, hkl.silent.trans hhk.silent⟩

/-- An attach stays in the history. -/
theorem Attached.append {c : ClientId} {h : List Event} (hc : Attached c h) (es : List Event) :
    Attached c (es ++ h) := by
  obtain ⟨replay, hmem⟩ := hc
  exact ⟨replay, List.mem_append_right es hmem⟩

/-- One more event takes no attach away. -/
theorem Attached.cons {c : ClientId} {h : List Event} (hc : Attached c h) (e : Event) :
    Attached c (e :: h) :=
  hc.append [e]

/-- What fits now did fit before. -/
theorem Roomy.of_cons {opts : ServerOpts} {c : ClientId} {e : Event} {h : List Event}
    (hroomy : Roomy opts c (e :: h)) : Roomy opts c h := by
  intro replay hmem
  exact hroomy replay (List.mem_cons_of_mem e hmem)

/-- Histories that agree have the same attaches of the client. -/
theorem Agree.attached_iff {c : ClientId} {h k : List Event} (hagree : Agree c h k) :
    Attached c k ↔ Attached c h :=
  exists_congr hagree.attached

/-- Histories that agree leave the same room. -/
theorem Agree.roomy {opts : ServerOpts} {c : ClientId} {h k : List Event} (hagree : Agree c h k) :
    Roomy opts c k ↔ Roomy opts c h :=
  forall_congr' fun replay => imp_congr_left (hagree.attached replay)

private theorem failed_cons {c : ClientId} {e : Event} {h : List Event}
    (he : ∀ f stage, e ≠ .sent c f stage false) : Failed c (e :: h) ↔ Failed c h := by
  unfold Failed
  refine exists_congr fun f => exists_congr fun stage => ?_
  rw [List.mem_cons]
  exact or_iff_right (Ne.symm (he f stage))

/-- An event aside changes nothing for the client. -/
theorem agree_aside {c : ClientId} {e : Event} (he : Aside c e) (h : List Event) :
    Agree c h (e :: h) := by
  cases e with
  | sent d f stage ok =>
      have hd : d ≠ c := he
      refine ⟨Iff.rfl, ?_, rfl, ?_, failed_cons (by simp [hd]), ?_, ?_⟩
      · cases ok with
        | true => simp [enqueued, hd]
        | false => rfl
      · simp
      · cases stage with
        | handshake => exact Iff.rfl
        | live =>
            cases ok with
            | true => exact Iff.rfl
            | false => simp [Retired, hd]
      · cases ok with
        | true => simp [SilentOnceRetired, hd]
        | false => exact Iff.rfl
  | attached d replay => exact absurd he id
  | drained data exit => exact absurd he id
  | delivered cmd => exact ⟨Iff.rfl, rfl, rfl, by simp, failed_cons (by simp), Iff.rfl, Iff.rfl⟩
  | received cmd => exact ⟨Iff.rfl, rfl, rfl, by simp, failed_cons (by simp), Iff.rfl, Iff.rfl⟩
  | answered info => exact ⟨Iff.rfl, rfl, rfl, by simp, failed_cons (by simp), Iff.rfl, Iff.rfl⟩
  | signalled sig => exact ⟨Iff.rfl, rfl, rfl, by simp, failed_cons (by simp), Iff.rfl, Iff.rfl⟩
  | elapsed ms => exact ⟨Iff.rfl, rfl, rfl, by simp, failed_cons (by simp), Iff.rfl, Iff.rfl⟩

/-- Output drained while another client, or none, is current changes nothing. -/
theorem agree_drained {c : ClientId} {h : List Event} (hc : current h ≠ some c)
    (data : List UInt8) (exit : Option Int) : Agree c h (.drained data exit :: h) :=
  ⟨Iff.rfl, rfl, by simp [owed, hc], by simp, failed_cons (by simp), Iff.rfl, Iff.rfl⟩

/-- An inner event says nothing about a client's stream. -/
theorem aside_of_inner {w : World} {e : Event} (he : World.Inner w e) (c : ClientId) : Aside c e := by
  cases e with
  | answered info => trivial
  | signalled sig => trivial
  | elapsed ms => trivial
  | delivered cmd => exact absurd he id
  | received cmd => exact absurd he id
  | attached d replay => exact absurd he id
  | drained data exit => exact absurd he id
  | sent d f stage ok => exact absurd he id

/-- The current client has attached. -/
theorem attached_of_current {c : ClientId} {h : List Event} (hc : current h = some c) :
    Attached c h := by
  induction h with
  | nil => cases hc
  | cons e h ih =>
      cases e with
      | attached d replay =>
          cases hc
          exact ⟨replay, List.mem_cons_self⟩
      | delivered _ | received _ | drained _ _ | sent _ _ _ _ | answered _ | signalled _
      | elapsed _ =>
          exact (ih hc).cons _

/-! ## One offered frame -/

/-- A frame that is taken ends the client's stream. -/
theorem enqueued_sent (c : ClientId) (f : Frame) (stage : Stage) (h : List Event) :
    enqueued c (.sent c f stage true :: h) = enqueued c h ++ carried f := by
  simp [enqueued]

/-- A frame that is taken retires nobody. -/
theorem retired_sent_ok (c d : ClientId) (f : Frame) (stage : Stage) (h : List Event) :
    Retired c (.sent d f stage true :: h) ↔ Retired c h := by
  cases stage with
  | handshake => exact Iff.rfl
  | live => exact Iff.rfl

/-- A frame that is refused is a failure. -/
theorem failed_sent (c : ClientId) (f : Frame) (stage : Stage) (h : List Event) :
    Failed c (.sent c f stage false :: h) :=
  ⟨f, stage, List.mem_cons_self⟩

/-- A frame that is taken is none. -/
theorem failed_sent_ok (c : ClientId) (f : Frame) (stage : Stage) (h : List Event) :
    Failed c (.sent c f stage true :: h) ↔ Failed c h :=
  failed_cons (by simp)

end Event

namespace World

open Event

variable {opts : ServerOpts} {c : ClientId}

/-! ## The invariant -/

/-- The command attaches this client. -/
def attaches (c : ClientId) : SessionCommand → Bool
  | .attach req => req.outTx == c
  | .input _ | .resize _ _ | .close _ | .info => false

/-- What holds of a client's stream whoever is bound: the client attaches at most
once, what was enqueued to it never skips what is due, and all but `rest` of what
is due was enqueued while nothing failed. -/
structure Flow (opts : ServerOpts) (c : ClientId) (rest : List UInt8) (w : World) : Prop where
  unattached : ¬ Attached c w.history →
    enqueued c w.history = [] ∧ ¬ Failed c w.history ∧ ¬ Retired c w.history ∧
      (w.outQueues c).queued.length = 0
  pending : w.queue.countP (attaches c) ≠ 0 →
    w.queue.countP (attaches c) = 1 ∧ ¬ Attached c w.history
  issued : w.queue.countP (attaches c) ≠ 0 ∨ Attached c w.history → c < w.nextClient
  ordered : Roomy opts c w.history → enqueued c w.history <+: owed c w.history
  whole : ¬ Failed c w.history → enqueued c w.history ++ rest = owed c w.history
  silent : SilentOnceRetired c w.history

/-- What holds of a client's binding: a bound client is the current one and was not
given up, and a current client is given up only after a failure. -/
structure Bound (opts : ServerOpts) (c : ClientId) (w : World) : Prop where
  bound : w.client = some c → current w.history = some c ∧ ¬ Retired c w.history ∧
    (Roomy opts c w.history → Failed c w.history → (w.outQueues c).closed = true)
  followed : w.phase = .running → current w.history = some c →
    w.client = some c ∨ Failed c w.history

/-- The invariant of one client. -/
structure Feed (opts : ServerOpts) (c : ClientId) (w : World) : Prop extends
  Flow opts c [] w, Bound opts c w

/-- A move that the client's stream does not notice, and that leaves at most one
attach of the client to come. -/
theorem Flow.move {rest : List UInt8} {w v : World} (hw : Flow opts c rest w)
    (hagree : Agree c w.history v.history) (hserved : Served (w.outQueues c) (v.outQueues c))
    (hpending : v.queue.countP (attaches c) ≠ 0 →
      v.queue.countP (attaches c) = 1 ∧ ¬ Attached c w.history)
    (hissued : v.queue.countP (attaches c) ≠ 0 ∨ Attached c w.history → c < v.nextClient) :
    Flow opts c rest v := by
  constructor
  · intro hnot
    rw [hagree.attached_iff] at hnot
    obtain ⟨henq, hfail, hret, hlen⟩ := hw.unattached hnot
    refine ⟨hagree.enqueued.trans henq, mt hagree.failed.mp hfail, mt hagree.retired.mp hret, ?_⟩
    have := hserved.2
    omega
  · rw [hagree.attached_iff]
    exact hpending
  · rw [hagree.attached_iff]
    exact hissued
  · rw [hagree.roomy, hagree.enqueued, hagree.owed]
    exact hw.ordered
  · rw [hagree.failed, hagree.enqueued, hagree.owed]
    exact hw.whole
  · exact hagree.silent.mpr hw.silent

/-- A move that the client's stream does not notice. -/
theorem Flow.transport {rest : List UInt8} {w v : World} (hw : Flow opts c rest w)
    (hagree : Agree c w.history v.history)
    (hqueue : v.queue.countP (attaches c) = w.queue.countP (attaches c))
    (hnext : w.nextClient ≤ v.nextClient) (hserved : Served (w.outQueues c) (v.outQueues c)) :
    Flow opts c rest v := by
  refine hw.move hagree hserved ?_ ?_
  · rw [hqueue]
    exact hw.pending
  · rw [hqueue]
    exact fun h => Nat.lt_of_lt_of_le (hw.issued h) hnext

/-- A move that the client's binding does not notice. -/
theorem Bound.transport {w v : World} (hw : Bound opts c w)
    (hagree : Agree c w.history v.history) (hserved : Served (w.outQueues c) (v.outQueues c))
    (hclient : v.client = some c → w.client = some c)
    (hrunning : v.phase = .running → w.phase = .running ∧ (w.client = some c → v.client = some c)) :
    Bound opts c v := by
  constructor
  · intro hv
    obtain ⟨hcur, hret, hclosed⟩ := hw.bound (hclient hv)
    refine ⟨hagree.current.mpr hcur, mt hagree.retired.mp hret, ?_⟩
    intro hroomy hfail
    exact hserved.1 (hclosed (hagree.roomy.mp hroomy) (hagree.failed.mp hfail))
  · intro hphase hcur
    obtain ⟨hwphase, hkeeps⟩ := hrunning hphase
    rcases hw.followed hwphase (hagree.current.mp hcur) with hbound | hfail
    · exact Or.inl (hkeeps hbound)
    · exact Or.inr (hagree.failed.mpr hfail)

/-- The account of a client's stream carries over to a state that agrees. -/
theorem Feed.transport {w v : World} (hw : Feed opts c w)
    (hagree : Agree c w.history v.history)
    (hqueue : v.queue.countP (attaches c) = w.queue.countP (attaches c))
    (hnext : w.nextClient ≤ v.nextClient) (hserved : Served (w.outQueues c) (v.outQueues c))
    (hclient : v.client = some c → w.client = some c)
    (hrunning : v.phase = .running → w.phase = .running ∧ (w.client = some c → v.client = some c)) :
    Feed opts c v :=
  ⟨hw.toFlow.transport hagree hqueue hnext hserved,
    hw.toBound.transport hagree hserved hclient hrunning⟩

/-! ## Frames offered to the client -/

/-- A frame that was enqueued carries the next bytes that are due. -/
theorem Flow.sent_ok {rest : List UInt8} {w v : World} {f : Frame} {stage : Stage}
    (hw : Flow opts c (carried f ++ rest) w) (hattached : Attached c w.history)
    (hret : ¬ Retired c w.history) (hintact : Roomy opts c w.history → ¬ Failed c w.history)
    (hhistory : v.history = .sent c f stage true :: w.history) (hqueue : v.queue = w.queue)
    (hnext : v.nextClient = w.nextClient) : Flow opts c rest v := by
  have hattachedv : Attached c v.history := by
    rw [hhistory]
    exact hattached.cons _
  have hroomy : Roomy opts c v.history → Roomy opts c w.history := by
    intro h
    rw [hhistory] at h
    exact h.of_cons
  have howed : owed c v.history = owed c w.history := by rw [hhistory]; rfl
  have henq : enqueued c v.history = enqueued c w.history ++ carried f := by
    rw [hhistory, enqueued_sent]
  have hfailed : Failed c v.history ↔ Failed c w.history := by rw [hhistory, failed_sent_ok]
  constructor
  · exact fun hnot => absurd hattachedv hnot
  · rw [hqueue]
    exact fun hcount => absurd hattached (hw.pending hcount).2
  · intro _
    rw [hnext]
    exact hw.issued (Or.inr hattached)
  · intro h
    refine ⟨rest, ?_⟩
    rw [henq, howed, List.append_assoc]
    exact hw.whole (hintact (hroomy h))
  · intro hfail
    rw [henq, howed, List.append_assoc]
    exact hw.whole (mt hfailed.mpr hfail)
  · rw [hhistory]
    exact ⟨fun _ => hret, hw.silent⟩

/-- A frame that was not enqueued leaves the stream where it was. -/
theorem Flow.sent_failed {rest after : List UInt8} {w v : World} {f : Frame} {stage : Stage}
    (hw : Flow opts c rest w) (hattached : Attached c w.history)
    (hhistory : v.history = .sent c f stage false :: w.history) (hqueue : v.queue = w.queue)
    (hnext : v.nextClient = w.nextClient) : Flow opts c after v := by
  have hattachedv : Attached c v.history := by
    rw [hhistory]
    exact hattached.cons _
  constructor
  · exact fun hnot => absurd hattachedv hnot
  · rw [hqueue]
    exact fun hcount => absurd hattached (hw.pending hcount).2
  · intro _
    rw [hnext]
    exact hw.issued (Or.inr hattached)
  · intro h
    rw [hhistory] at h ⊢
    exact hw.ordered h.of_cons
  · intro hfail
    rw [hhistory] at hfail
    exact absurd (failed_sent c f stage w.history) hfail
  · rw [hhistory]
    exact hw.silent

/-- Once a frame has failed, nothing is promised about the rest. -/
theorem Flow.of_failed {rest after : List UInt8} {w : World} (hw : Flow opts c rest w)
    (hfail : Failed c w.history) : Flow opts c after w :=
  ⟨hw.unattached, hw.pending, hw.issued, hw.ordered, fun h => absurd hfail h, hw.silent⟩

/-- A frame offered to another client is not noticed. -/
theorem trySend_other (opts : ServerOpts) (w : World) {d : ClientId} (hd : d ≠ c) (f : Frame) (stage : Stage) :
    ∃ ok queues moves,
      w.trySend opts d f stage =
        (ok, { w with
          outQueues := queues, moves := moves, history := .sent d f stage ok :: w.history }) ∧
      Served (w.outQueues c) (queues c) ∧
      Agree c w.history (.sent d f stage ok :: w.history) := by
  obtain ⟨ok, queues, moves, heq, hserved, -, -⟩ := trySend_cases opts w d f stage
  have haside : Aside c (.sent d f stage ok) := hd
  exact ⟨ok, queues, moves, heq, hserved c (Or.inl (Ne.symm hd)), agree_aside haside _⟩

/-! ## Live pushes -/

/-- A push while the client is not bound is not noticed. -/
theorem Feed.push_other {w : World} (hw : Feed opts c w) (hclient : w.client ≠ some c)
    (f : Frame) :
    Feed opts c (w.pushOrDrop opts f) ∧ (w.pushOrDrop opts f).client ≠ some c := by
  unfold pushOrDrop
  cases hbound : w.client with
  | none => exact ⟨hw, by simp [hbound]⟩
  | some d =>
      have hd : d ≠ c := by
        rintro rfl
        exact hclient hbound
      obtain ⟨ok, queues, moves, heq, hserved, hagree⟩ := trySend_other opts w hd f .live
      simp only [heq]
      cases ok with
      | true =>
          refine ⟨hw.transport hagree rfl (Nat.le_refl _) hserved id fun h => ⟨h, id⟩, ?_⟩
          simp [hbound, hd]
      | false =>
          refine ⟨hw.transport hagree rfl (Nat.le_refl _) hserved (by simp) ?_, by simp⟩
          exact fun h => ⟨h, fun hc => absurd hc hclient⟩

/-- The client is being pushed its output: it is bound, or a frame has failed. -/
structure Pushing (opts : ServerOpts) (c : ClientId) (rest : List UInt8) (w : World) : Prop extends
  Flow opts c rest w, Bound opts c w where
  reached : w.client = some c ∨ Failed c w.history

/-- With nothing left to push the account is settled. -/
theorem Pushing.feed {w : World} (hw : Pushing opts c [] w) : Feed opts c w :=
  ⟨hw.toFlow, hw.toBound⟩

/-- One push takes the client further along its stream, or detaches it. -/
theorem Pushing.push {rest : List UInt8} {w : World} {f : Frame}
    (hw : Pushing opts c (carried f ++ rest) w) : Pushing opts c rest (w.pushOrDrop opts f) := by
  by_cases hclient : w.client = some c
  · obtain ⟨hcur, hret, hclosed⟩ := hw.bound hclient
    have hattached := attached_of_current hcur
    obtain ⟨ok, queues, moves, heq, -, hsent, -⟩ := trySend_cases opts w c f .live
    unfold pushOrDrop
    simp only [hclient, heq]
    cases ok with
    | true =>
        have hopen := (hsent rfl).1
        have hintact : Roomy opts c w.history → ¬ Failed c w.history := by
          intro hroomy hfail
          rw [hclosed hroomy hfail] at hopen
          cases hopen
        refine ⟨hw.toFlow.sent_ok hattached hret hintact rfl rfl rfl, ⟨?_, ?_⟩, Or.inl rfl⟩
        · intro _
          refine ⟨hcur, mt (retired_sent_ok ..).mp hret, ?_⟩
          intro hroomy hfail
          refine absurd ((failed_sent_ok ..).mp hfail) (hintact ?_)
          intro replay hmem
          exact hroomy replay (List.mem_cons_of_mem _ hmem)
        · exact fun _ _ => Or.inl rfl
    | false =>
        have hfail := failed_sent c f .live w.history
        refine ⟨hw.toFlow.sent_failed hattached rfl rfl rfl, ⟨?_, ?_⟩, Or.inr hfail⟩
        · intro h
          cases h
        · exact fun _ _ => Or.inr hfail
  · -- The client was detached earlier: the frame goes nowhere or to its successor.
    have hfail : Failed c w.history := hw.reached.resolve_left hclient
    have hfeed : Feed opts c w := ⟨hw.toFlow.of_failed hfail, hw.toBound⟩
    obtain ⟨hafter, -⟩ := hfeed.push_other hclient f
    have hfailed : Failed c (w.pushOrDrop opts f).history := by
      obtain ⟨g, stage, hmem⟩ := hfail
      exact ⟨g, stage, (outward_pushOrDrop opts w f).mem hmem⟩
    exact ⟨hafter.toFlow.of_failed hfailed, hafter.toBound, Or.inr hfailed⟩

/-- Frames are pushed one after the other. -/
theorem Pushing.foldl {frames : List Frame} {rest : List UInt8} {w : World}
    (hw : Pushing opts c ((frames.map carried).flatten ++ rest) w) :
    Pushing opts c rest (frames.foldl (pushOrDrop opts) w) := by
  induction frames generalizing w with
  | nil => exact hw
  | cons f frames ih =>
      rw [List.map_cons, List.flatten_cons, List.append_assoc] at hw
      exact ih hw.push

/-- Data frames carry their payloads. -/
theorem flatten_carried_frameData (data : List UInt8) :
    ((frameData data).map carried).flatten = data := by
  have hmap : (frameData data).map carried = (frameData data).map Frame.payload := by
    apply List.map_congr_left
    intro f hf
    obtain ⟨piece, -, rfl⟩ := List.mem_map.mp hf
    rfl
  rw [hmap, flatten_payload_frameData]

/-- Output is forwarded to the client it is due to. -/
theorem Feed.forward {w : World} (hw : Feed opts c w) (hrun : w.phase = .running)
    (data : List UInt8) (exit : Option Int) :
    Feed opts c ((w.record (.drained data exit)).forwardData opts data) := by
  by_cases hcur : current w.history = some c
  · have howed : owed c (w.record (.drained data exit)).history = owed c w.history ++ data := by
      simp [record, owed, hcur]
    have hfailed : Failed c (w.record (.drained data exit)).history ↔ Failed c w.history := by
      simp [record, Failed]
    have hattached : Attached c (w.record (.drained data exit)).history ↔ Attached c w.history := by
      simp [record, Attached]
    have hroomy : Roomy opts c (w.record (.drained data exit)).history ↔
        Roomy opts c w.history := by
      simp [record, Roomy]
    have hflow : Flow opts c data (w.record (.drained data exit)) := by
      constructor
      · rw [hattached, hfailed]
        exact hw.unattached
      · rw [hattached]
        exact hw.pending
      · rw [hattached]
        exact hw.issued
      · rw [hroomy, howed]
        exact fun h => (hw.ordered h).trans (List.prefix_append _ _)
      · rw [hfailed, howed]
        intro h
        have hwhole := hw.whole h
        rw [List.append_nil] at hwhole
        exact congrArg (· ++ data) hwhole
      · exact hw.silent
    have hbound : Bound opts c (w.record (.drained data exit)) := by
      constructor
      · intro hclient
        rw [hroomy, hfailed]
        exact hw.bound hclient
      · intro hphase _
        rw [hfailed]
        exact hw.followed hphase hcur
    have hpushing : Pushing opts c (((frameData data).map carried).flatten ++ [])
        (w.record (.drained data exit)) := by
      rw [flatten_carried_frameData, List.append_nil]
      refine ⟨hflow, hbound, ?_⟩
      rw [hfailed]
      exact hw.followed hrun hcur
    exact hpushing.foldl.feed
  · have hclient : w.client ≠ some c := fun h => hcur (hw.bound h).1
    have hdrained : Feed opts c (w.record (.drained data exit)) :=
      hw.transport (agree_drained hcur data exit) rfl (Nat.le_refl _) (Served.refl _) id
        fun h => ⟨h, id⟩
    have hloop : ∀ (frames : List Frame) (v : World), Feed opts c v → v.client ≠ some c →
        Feed opts c (frames.foldl (pushOrDrop opts) v) := by
      intro frames
      induction frames with
      | nil => exact fun v hv _ => hv
      | cons f frames ih =>
          intro v hv hother
          obtain ⟨hpushed, hstill⟩ := hv.push_other hother f
          exact ih _ hpushed hstill
    exact hloop (frameData data) _ hdrained hclient

/-- A frame that carries no output is pushed without touching the stream. -/
theorem Feed.push {w : World} (hw : Feed opts c w) {f : Frame} (hf : f.ty ≠ .data) :
    Feed opts c (w.pushOrDrop opts f) := by
  by_cases hclient : w.client = some c
  · have hcarried : carried f = [] := if_neg hf
    have hpushing : Pushing opts c (carried f ++ []) w := by
      rw [hcarried]
      exact ⟨hw.toFlow, hw.toBound, Or.inl hclient⟩
    exact hpushing.push.feed
  · exact (hw.push_other hclient f).1

/-- Nothing is asked of a binding once the client is gone and the loop is left. -/
theorem Bound.of_left {w : World} (hclient : w.client = none) (hphase : w.phase ≠ .running) :
    Bound opts c w := by
  constructor
  · intro h
    rw [hclient] at h
    cases h
  · exact fun h => absurd h hphase

/-- The last EXIT of a session that CLOSE found dead. -/
theorem Feed.farewell {w : World} (hw : Feed opts c w) (code : Int) :
    Feed opts c (w.farewell opts code).leave := by
  unfold World.farewell
  cases hclient : w.client with
  | none =>
      refine hw.transport (Agree.refl ..) rfl (Nat.le_refl _) (Served.refl _) ?_ ?_
      · simp [leave, hclient]
      · simp [leave]
  | some d =>
      have hflow : Flow opts c [] { w with client := none } :=
        hw.toFlow.transport (Agree.refl ..) rfl (Nat.le_refl _) (Served.refl _)
      by_cases hd : d = c
      · subst hd
        obtain ⟨hcur, hret, hclosed⟩ := hw.bound hclient
        have hattached := attached_of_current hcur
        obtain ⟨ok, queues, moves, heq, -, hsent, -⟩ :=
          trySend_cases opts { w with client := none } d (exitFrame code) .live
        simp only [heq]
        refine ⟨?_, Bound.of_left rfl (by simp [leave])⟩
        cases ok with
        | true =>
            have hopen : (w.outQueues d).closed = false := (hsent rfl).1
            have hcarried : Flow opts d (carried (exitFrame code) ++ []) { w with client := none } :=
              hflow
            refine hcarried.sent_ok hattached hret ?_ rfl rfl rfl
            intro hroomy hfail
            rw [hclosed hroomy hfail] at hopen
            cases hopen
        | false => exact hflow.sent_failed hattached rfl rfl rfl
      · obtain ⟨ok, queues, moves, heq, hserved, hagree⟩ :=
          trySend_other opts { w with client := none } hd (exitFrame code) .live
        simp only [heq]
        refine ⟨?_, Bound.of_left rfl (by simp [leave])⟩
        exact hflow.transport hagree rfl (Nat.le_refl _) hserved

/-! ## The handshake -/

/-- The client is being offered its handshake: the frames still to come fit into
its queue unless that was closed. -/
structure Handshaking (opts : ServerOpts) (c : ClientId) (frames : Nat) (rest : List UInt8)
    (w : World) : Prop extends Flow opts c rest w where
  isCurrent : current w.history = some c
  notRetired : ¬ Retired c w.history
  room : Roomy opts c w.history → ¬ Failed c w.history →
    (w.outQueues c).queued.length + frames ≤ opts.outQueue
  shut : Roomy opts c w.history → Failed c w.history → (w.outQueues c).closed = true

/-- One frame of the handshake. -/
theorem Handshaking.offer {frames : Nat} {rest : List UInt8} {w : World} {f : Frame}
    (hw : Handshaking opts c (frames + 1) (carried f ++ rest) w) :
    Handshaking opts c frames rest (w.offer opts c f) := by
  have hattached := attached_of_current hw.isCurrent
  obtain ⟨ok, queues, moves, heq, hserved, hsent, hlost⟩ := trySend_cases opts w c f .handshake
  unfold World.offer
  rw [heq]
  have hroomy : Roomy opts c (.sent c f .handshake ok :: w.history) → Roomy opts c w.history := by
    intro h replay hmem
    exact h replay (List.mem_cons_of_mem _ hmem)
  cases ok with
  | true =>
      obtain ⟨hopen, hlen⟩ := hsent rfl
      have hintact : Roomy opts c w.history → ¬ Failed c w.history := by
        intro h hfail
        rw [hw.shut h hfail] at hopen
        cases hopen
      refine ⟨hw.toFlow.sent_ok hattached hw.notRetired hintact rfl rfl rfl, hw.isCurrent,
        mt (retired_sent_ok ..).mp hw.notRetired, ?_, ?_⟩
      · intro h _
        have := hw.room (hroomy h) (hintact (hroomy h))
        simp only
        omega
      · intro h hfail
        exact absurd ((failed_sent_ok ..).mp hfail) (hintact (hroomy h))
  | false =>
      have hqueue := hserved c (Or.inr rfl)
      refine ⟨hw.toFlow.sent_failed hattached rfl rfl rfl, hw.isCurrent, hw.notRetired, ?_, ?_⟩
      · exact fun _ hfail => absurd (failed_sent ..) hfail
      · intro h _
        by_cases hfail : Failed c w.history
        · exact hqueue.1 (hw.shut (hroomy h) hfail)
        · -- There was room, so the queue was found closed.
          have := hw.room (hroomy h) hfail
          rcases hlost rfl with hclosed | hfull
          · exact hclosed
          · omega

/-- The frames of a handshake are offered one after the other. -/
theorem Handshaking.foldl {frames : List Frame} {more : Nat} {rest : List UInt8} {w : World}
    (hw : Handshaking opts c (frames.length + more) ((frames.map carried).flatten ++ rest) w) :
    Handshaking opts c more rest (frames.foldl (World.offer opts c) w) := by
  induction frames generalizing w with
  | nil =>
      rw [List.length_nil, Nat.zero_add] at hw
      exact hw
  | cons f frames ih =>
      rw [List.map_cons, List.flatten_cons, List.append_assoc, List.length_cons,
        Nat.add_right_comm] at hw
      exact ih hw.offer

/-- The handshake ends with the EXIT, if there is one. -/
theorem Handshaking.offerExit {frames : Nat} {w : World}
    (hw : Handshaking opts c (frames + 1) [] w) :
    ∃ more, Handshaking opts c more [] (w.offerExit opts c) := by
  unfold World.offerExit
  cases w.session.lifecycle with
  | live => exact ⟨frames + 1, hw⟩
  | dead status =>
      have hcarried : Handshaking opts c (frames + 1) (carried (exitFrame status) ++ []) w := hw
      exact ⟨frames, hcarried.offer⟩

/-- The takeover at the end of the handshake. -/
theorem Handshaking.feed {frames : Nat} {w : World} (hw : Handshaking opts c frames [] w) :
    Feed opts c { w with client := some c } := by
  refine ⟨hw.toFlow.transport (Agree.refl ..) rfl (Nat.le_refl _) (Served.refl _), ?_, ?_⟩
  · exact fun _ => ⟨hw.isCurrent, hw.notRetired, hw.shut⟩
  · exact fun _ _ => Or.inl rfl

/-- Before the first frame of its handshake a client has an empty queue, and its
whole replay is due. -/
theorem Flow.handshaking {w v : World} (hw : Flow opts c [] w) (replay : List UInt8)
    (hnot : ¬ Attached c w.history) (hcount : v.queue.countP (attaches c) = 0)
    (hissued : c < v.nextClient) (hserved : Served (w.outQueues c) (v.outQueues c))
    (hagree : Agree c w.history v.history) :
    Handshaking opts c ((frameData replay).length + 2) replay
      (v.record (.attached c replay)) := by
  obtain ⟨henq, hfail, hret, hlen⟩ := hw.unattached hnot
  have hfailed : Failed c (v.record (.attached c replay)).history ↔ Failed c w.history := by
    rw [← hagree.failed]
    simp [record, Failed]
  have henqueued : enqueued c (v.record (.attached c replay)).history = [] :=
    hagree.enqueued.trans henq
  have howed : owed c (v.record (.attached c replay)).history = replay := by
    simp [record, owed]
  have hattached : Attached c (v.record (.attached c replay)).history :=
    ⟨replay, List.mem_cons_self⟩
  refine ⟨⟨?_, ?_, ?_, ?_, ?_, ?_⟩, rfl, ?_, ?_, ?_⟩
  · exact fun h => absurd hattached h
  · exact fun h => absurd hcount h
  · exact fun _ => hissued
  · intro _
    rw [henqueued]
    exact List.nil_prefix
  · intro _
    rw [henqueued, howed]
    rfl
  · exact hagree.silent.mpr hw.silent
  · rintro (⟨hne, -⟩ | hretired)
    · exact hne rfl
    · exact hret (hagree.retired.mp hretired)
  · intro hroomy _
    have := hroomy replay List.mem_cons_self
    have := hserved.2
    change (v.outQueues c).queued.length + _ ≤ _
    omega
  · exact fun _ h => absurd (hfailed.mp h) hfail

/-- The handshake of the client itself: whatever of it arrives is the head of the
replay, and the client ends up bound. -/
theorem Feed.handshake_self {w v : World} {req : AttachRequest} {rest : List SessionCommand}
    (hw : Feed opts req.outTx w) (hqueue : w.queue = .attach req :: rest)
    (hv : InnerMove (w.receive (.attach req) rest) v) :
    Feed opts req.outTx (v.handshake opts req) := by
  have hcount : w.queue.countP (attaches req.outTx) = rest.countP (attaches req.outTx) + 1 := by
    rw [hqueue, List.countP_cons]
    simp [attaches]
  obtain ⟨hone, hnot⟩ := hw.pending (by omega)
  have hagree : Agree req.outTx w.history v.history := by
    have haside : Aside req.outTx (.received (.attach req)) := trivial
    rw [hv.history]
    exact agree_aside haside _
  have hstart : Handshaking opts req.outTx _ _ _ :=
    hw.toFlow.handshaking (v.session.replayForAttach req.wantChunks).data hnot
      (by rw [hv.queue]; change rest.countP _ = 0; omega)
      (by rw [hv.nextClient]; exact hw.issued (Or.inl (by omega)))
      (by rw [hv.outQueues]; exact Served.refl _) hagree
  have hframes : Handshaking opts req.outTx
      ((frameData (v.session.replayForAttach req.wantChunks).data).length + 2)
      (((frameData (v.session.replayForAttach req.wantChunks).data).map carried).flatten ++ [])
      (v.record (.attached req.outTx (v.session.replayForAttach req.wantChunks).data)) := by
    rw [flatten_carried_frameData, List.append_nil]
    exact hstart
  obtain ⟨more, hdone⟩ := Handshaking.offerExit
    (Handshaking.offer (f := statusFrame (World.effectiveStatus _)) hframes.foldl)
  exact hdone.feed

/-- The client is not the current one while another is offered its handshake. -/
def Passed (opts : ServerOpts) (c : ClientId) (w : World) : Prop :=
  Flow opts c [] w ∧ current w.history ≠ some c

/-- An offer to somebody else passes the client by. -/
theorem Passed.offer {w : World} (hw : Passed opts c w) {d : ClientId} (hd : d ≠ c) (f : Frame) :
    Passed opts c (w.offer opts d f) := by
  obtain ⟨ok, queues, moves, heq, hserved, hagree⟩ := trySend_other opts w hd f .handshake
  unfold World.offer
  rw [heq]
  exact ⟨hw.1.transport hagree rfl (Nat.le_refl _) hserved, mt hagree.current.mp hw.2⟩

/-- Offers to somebody else, one after the other, pass the client by. -/
theorem Passed.foldl {d : ClientId} (hd : d ≠ c) (frames : List Frame) {w : World}
    (hw : Passed opts c w) : Passed opts c (frames.foldl (World.offer opts d) w) := by
  induction frames generalizing w with
  | nil => exact hw
  | cons f frames ih => exact ih (hw.offer hd f)

/-- The EXIT of another's handshake passes the client by. -/
theorem Passed.offerExit {w : World} (hw : Passed opts c w) {d : ClientId} (hd : d ≠ c) :
    Passed opts c (w.offerExit opts d) := by
  unfold World.offerExit
  cases w.session.lifecycle with
  | live => exact hw
  | dead status => exact hw.offer hd _

/-- The attach of another client retires this one if it was attached. -/
theorem Flow.passed {w v : World} {d : ClientId} (hw : Flow opts c [] w) (hd : d ≠ c)
    (replay : List UInt8) (hcount : v.queue.countP (attaches c) = w.queue.countP (attaches c))
    (hnext : w.nextClient ≤ v.nextClient) (hserved : Served (w.outQueues c) (v.outQueues c))
    (hagree : Agree c w.history v.history) : Passed opts c (v.record (.attached d replay)) := by
  have hv : Flow opts c [] v := hw.transport hagree hcount hnext hserved
  have hattached : ∀ r, .attached c r ∈ (v.record (.attached d replay)).history ↔
      .attached c r ∈ v.history := by
    intro r
    simp [record, Ne.symm hd]
  have hany : Attached c (v.record (.attached d replay)).history ↔ Attached c v.history :=
    exists_congr hattached
  have hfailed : Failed c (v.record (.attached d replay)).history ↔ Failed c v.history := by
    simp [record, Failed]
  have howed : owed c (v.record (.attached d replay)).history = owed c v.history := by
    simp [record, owed, hd]
  refine ⟨⟨?_, ?_, ?_, ?_, ?_, ?_⟩, ?_⟩
  · rw [hany, hfailed]
    intro hnot
    obtain ⟨henq, hfail, hret, hlen⟩ := hv.unattached hnot
    refine ⟨henq, hfail, ?_, hlen⟩
    rintro (⟨-, hatt⟩ | hretired)
    · exact hnot hatt
    · exact hret hretired
  · rw [hany]
    exact hv.pending
  · rw [hany]
    exact hv.issued
  · rw [howed]
    intro hroomy
    exact hv.ordered fun r hr => hroomy r ((hattached r).mpr hr)
  · rw [hfailed, howed]
    exact hv.whole
  · exact hv.silent
  · simp [record, current, hd]

/-- The handshake of another client. -/
theorem Feed.handshake_other {w v : World} {req : AttachRequest} {rest : List SessionCommand}
    (hw : Feed opts c w) (hne : req.outTx ≠ c) (hqueue : w.queue = .attach req :: rest)
    (hv : InnerMove (w.receive (.attach req) rest) v) :
    Feed opts c (v.handshake opts req) := by
  have hagree : Agree c w.history v.history := by
    have haside : Aside c (.received (.attach req)) := trivial
    rw [hv.history]
    exact agree_aside haside _
  have hcount : v.queue.countP (attaches c) = w.queue.countP (attaches c) := by
    rw [hv.queue, hqueue, List.countP_cons_of_neg (by simp [attaches, hne])]
    rfl
  have hstart : Passed opts c
      (v.record (.attached req.outTx (v.session.replayForAttach req.wantChunks).data)) :=
    hw.toFlow.passed hne _ hcount (by rw [hv.nextClient]; exact Nat.le_refl _)
      (by rw [hv.outQueues]; exact Served.refl _) hagree
  have hframes := hstart.foldl hne (frameData (v.session.replayForAttach req.wantChunks).data)
  have hdone := fun status : Frame => (hframes.offer hne status).offerExit hne
  refine ⟨(hdone _).1.transport (Agree.refl ..) rfl (Nat.le_refl _) (Served.refl _), ?_, ?_⟩
  · intro hclient
    exact absurd (Option.some.inj hclient) hne
  · exact fun _ hcur => absurd hcur (hdone _).2

/-! ## Sends, and the rule -/

/-- A connection's send books a client's only attach. -/
theorem Feed.send {w v : World} {cmd : SessionCommand} (hw : Feed opts c w)
    (hstep : w.send cmd = some v) : Feed opts c v := by
  obtain ⟨next, rfl, -, hnext, hattach⟩ := send_eq_some hstep
  have haside : Aside c (.delivered cmd) := trivial
  have hagree := agree_aside haside w.history
  have hcount : (w.queue ++ [cmd]).countP (attaches c) =
      w.queue.countP (attaches c) + if attaches c cmd then 1 else 0 := by
    rw [List.countP_append, List.countP_singleton]
  refine ⟨?_, hw.toBound.transport hagree (Served.refl _) id fun h => ⟨h, id⟩⟩
  by_cases hcmd : attaches c cmd = true
  · obtain ⟨req, rfl⟩ : ∃ req, cmd = .attach req := by
      cases cmd with
      | attach req => exact ⟨req, rfl⟩
      | input _ | resize _ _ | close _ | info => cases hcmd
    have hreq : req.outTx = c := by simpa [attaches] using hcmd
    obtain ⟨hfresh, rfl⟩ := hattach req rfl
    have hunused : ¬ (w.queue.countP (attaches c) ≠ 0 ∨ Attached c w.history) := by
      intro h
      have hlt := hw.issued h
      rw [← hreq, hfresh] at hlt
      exact Nat.lt_irrefl _ hlt
    rw [not_or, not_not] at hunused
    rw [if_pos hcmd, hunused.1] at hcount
    refine hw.toFlow.move hagree (Served.refl _) (fun _ => ⟨hcount, hunused.2⟩) fun _ => ?_
    rw [← hreq, hfresh]
    exact Nat.lt_succ_self _
  · rw [if_neg hcmd, Nat.add_zero] at hcount
    exact hw.toFlow.transport hagree hcount hnext (Served.refl _)

/-- Every move of the actor keeps the invariant of a client. -/
theorem kept_feed (opts : ServerOpts) (c : ClientId) : Kept opts (Feed opts c) where
  inner {w v} hw hv := by
    have hagree : Agree c w.history v.history := by
      rw [hv.history]
      exact Agree.refl c w.history
    have hserved : Served (w.outQueues c) (v.outQueues c) := by
      rw [hv.outQueues]
      exact Served.refl _
    refine hw.transport hagree (by rw [hv.queue]) (Nat.le_of_eq hv.nextClient.symm) hserved ?_ ?_
    · intro hclient
      exact hv.client.symm.trans hclient
    · intro hrun
      exact ⟨hv.phase.symm.trans hrun, fun hclient => hv.client.trans hclient⟩
  note hw he :=
    hw.transport (agree_aside (aside_of_inner he c) _) rfl (Nat.le_refl _) (Served.refl _) id
      fun h => ⟨h, id⟩
  writer {w m} hw := by
    rw [writerMove_eq]
    exact hw.transport (Agree.refl ..) rfl (Nat.le_refl _) (served_writerMove w m c) id
      fun h => ⟨h, id⟩
  send hw hstep := hw.send hstep
  receive {w cmd rest} hw _ hqueue hcmd _ := by
    have haside : Aside c (.received cmd) := trivial
    have hnot : attaches c cmd = false := by
      cases cmd with
      | attach req => exact absurd rfl (hcmd req)
      | input _ | resize _ _ | close _ | info => rfl
    refine hw.transport (agree_aside haside _) ?_ (Nat.le_refl _) (Served.refl _) id
      fun h => ⟨h, id⟩
    rw [hqueue, List.countP_cons_of_neg (by simp [hnot])]
    rfl
  input {w bytes rest} hw _ hqueue := by
    have haside : Aside c (.received (.input bytes)) := trivial
    refine hw.transport (agree_aside haside _) ?_ (Nat.le_refl _) (Served.refl _) id
      fun h => ⟨h, id⟩
    rw [hqueue, List.countP_cons_of_neg (by simp [attaches])]
    rfl
  attach {w req rest v} hw _ hqueue hv := by
    by_cases hc : req.outTx = c
    · subst hc
      exact hw.handshake_self hqueue hv
    · exact hw.handshake_other hc hqueue hv
  forward data exit hw hrun := hw.forward hrun data exit
  push hw _ hf := hw.push hf
  farewell code hw _ := hw.farewell code
  leave hw _ :=
    hw.transport (Agree.refl ..) rfl (Nat.le_refl _) (Served.refl _) id (by simp [World.leave])
  remove hw _ :=
    hw.transport (Agree.refl ..) rfl (Nat.le_refl _) (Served.refl _) id (by simp)
  finish hw _ :=
    hw.transport (Agree.refl ..) rfl (Nat.le_refl _) (Served.refl _) (by simp) (by simp)

/-- At the start nothing is due to anybody. -/
theorem feed_start (opts : ServerOpts) (c : ClientId) (session : Session) :
    Feed opts c (start session) := by
  constructor
  · constructor <;> simp [start, Attached, Failed, Retired, enqueued, owed, SilentOnceRetired]
  · constructor <;> simp [start, current]

/-- In every run of the actor, for every client whose queue has room for its attach
handshake: the data enqueued to it is a prefix of the replay taken at its attach
followed by the output of every drain until another attach replaces it; it is all
of that while no `try_send` to it has failed; and no frame is enqueued to it after
a failed live push or after another attach. -/
theorem client_stream (opts : ServerOpts) (session : Session) (labels : List Label) (w : World)
    (hrun : (machine opts).run (start session) labels = some w) (c : ClientId)
    (hroomy : Roomy opts c w.history) :
    enqueued c w.history <+: owed c w.history ∧
      (¬ Failed c w.history → enqueued c w.history = owed c w.history) ∧
      SilentOnceRetired c w.history := by
  have hfeed : Feed opts c w := (kept_feed opts c).run (feed_start opts c session) hrun
  refine ⟨hfeed.ordered hroomy, ?_, hfeed.silent⟩
  intro hfail
  have hwhole := hfeed.whole hfail
  rwa [List.append_nil] at hwhole

/-- A shell that has just been spawned. -/
def shell : Session where
  id := "s"
  argv := ["sh"]
  cwd := "/"
  pty := ⟨7⟩
  engine := Core.ReplayEngine.new
  size := winsize 80 24
  createdAt := 0
  lifecycle := .live

/-- A client attaches and sees some output; another takes over and sees more, while
the first one's writer pops a frame and then goes. -/
def takeover : List Label :=
  [.asyncFdOk, .send (.attach ⟨0, 80, 24, 0⟩), .command .none,
    .readable { Answers.none with reads := [.ok [104, 105]] },
    .writer (.pop 0), .send (.attach ⟨0, 80, 24, 1⟩),
    .command { Answers.none with moves := [[.close 0]] },
    .readable { Answers.none with reads := [.ok [121, 111]] }]

/-- Each client has the output of its time, the second one also the replay. -/
theorem client_stream_takeover :
    ∃ w, (machine .default).run (start shell) takeover = some w ∧
      (enqueued 0 w.history = [104, 105] ∧ enqueued 1 w.history = [104, 105, 121, 111]) ∧
      enqueued 1 w.history <+: owed 1 w.history ∧
      (¬ Failed 1 w.history → enqueued 1 w.history = owed 1 w.history) ∧
      SilentOnceRetired 1 w.history := by
  have hsome : ((machine .default).run (start shell) takeover).isSome = true := by decide +kernel
  have hdata : ∀ w ∈ (machine .default).run (start shell) takeover,
      enqueued 0 w.history = [104, 105] ∧ enqueued 1 w.history = [104, 105, 121, 111] := by
    decide +kernel
  have hreplays : ∀ w ∈ (machine .default).run (start shell) takeover, ∀ e ∈ w.history,
      (match e with
        | .attached _ replay => decide ((frameData replay).length + 2 ≤ 1024)
        | _ => true) = true := by
    decide +kernel
  obtain ⟨w, hw⟩ := Option.isSome_iff_exists.mp hsome
  refine ⟨w, hw, hdata w hw, client_stream .default shell takeover w hw 1 ?_⟩
  intro replay hmem
  exact of_decide_eq_true (hreplays w hw _ hmem)

end World

end JftermMuxer.Daemon
