import JftermMuxer.Daemon.Coupling

/-!
# Tearing a connection down

Once the reader or the writer of a connection has ended, {lit}`handle_session` of
{lit}`jftermd/src/server.rs` aborts the other one.

Main results:

- Theorem {lit}`Coupled.teardown_joined`: once {lit}`handle_session` has found the half
  that ended, two steps bring the connection down.
- Theorem {lit}`Coupled.teardown`: a connection of which one half has ended can always be
  brought down by its own tasks.
-/

namespace JftermMuxer.Daemon

open JftermMuxer.Foundation

namespace Coupled

open World Event

variable {opts : ServerOpts} {json : Json} {s t : Coupled}

/-- Only the client's link, its connection's reader and whether its queue is closed have
changed. -/
structure OwnMove (c : ClientId) (k : Nat) (s t : Coupled) : Prop where
  links : ∀ d, d ≠ c → t.links d = s.links d
  conns : ∀ j, j ≠ k → t.typing.conns j = s.typing.conns j
  log : t.typing.log = s.typing.log
  world : t.world = s.world ∨ t.world = s.world.writerMove (.close c)

/-- A connection that does nothing. -/
theorem OwnMove.refl (c : ClientId) (k : Nat) (s : Coupled) : OwnMove c k s s :=
  ⟨fun _ _ => rfl, fun _ _ => rfl, rfl, Or.inl rfl⟩

/-- A connection's own moves add up. -/
theorem OwnMove.trans {c : ClientId} {k : Nat} {s t u : Coupled} (hst : OwnMove c k s t)
    (htu : OwnMove c k t u) : OwnMove c k s u := by
  refine ⟨fun d hd => (htu.links d hd).trans (hst.links d hd),
    fun j hj => (htu.conns j hj).trans (hst.conns j hj), htu.log.trans hst.log, ?_⟩
  rcases htu.world with hsame | hclosed
  · rw [hsame]
    exact hst.world
  · rcases hst.world with hsame | hbefore
    · rw [hsame] at hclosed
      exact Or.inr hclosed
    · refine Or.inr ?_
      rw [hclosed, hbefore]
      simp [writerMove, setQueue, Function.update_idem]

/-- A move that leaves the clients in step is a step. -/
theorem step_of_move {label : CoupledStep} (h : s.Sound) (hmove : s.move opts json label = some t)
    (hsync : ∀ d link, t.links d = some link → link.InStep t.world d) :
    s.step opts json label = some t :=
  Option.filter_eq_some_iff.mpr ⟨hmove, (inStep_iff (held_move h hmove)).mpr hsync⟩

/-- A new link of one client, on the same actor. -/
theorem inStep_setLink {x : Coupled} (h : s.Sound) (hworld : x.world = s.world) {c : ClientId}
    {next : Link} (hlinks : x.links = Function.update s.links c (some next))
    (hnext : next.InStep s.world c) :
    ∀ d link, x.links d = some link → link.InStep x.world d := by
  intro d link hlink
  rw [hworld]
  rw [hlinks] at hlink
  by_cases hd : d = c
  · subst hd
    rw [Function.update_self, Option.some.injEq] at hlink
    exact hlink ▸ hnext
  · rw [Function.update_of_ne hd] at hlink
    exact h.inStep d link hlink

section Teardown

variable (opts json) {c : ClientId} {link : Link}

/-- A writer that has left its loop drops its receiver. -/
theorem close_queue (h : s.Sound) (hlink : s.links c = some link) (hleft : link.left.isSome = true) :
    ∃ steps t, steps.length ≤ 1 ∧ (machine opts json).run s steps = some t ∧ t.Sound ∧
      OwnMove c link.conn s t ∧ t.links = s.links ∧ t.typing.conns = s.typing.conns ∧
      (t.world.outQueues c).closed = true := by
  by_cases hclosed : (s.world.outQueues c).closed = true
  · exact ⟨[], s, Nat.zero_le _, rfl, h, OwnMove.refl .., rfl, rfl, hclosed⟩
  · have hmove : s.move opts json (.world (.writer (.close c)) []) =
        some { s with typing := { s.typing with world := s.world.writerMove (.close c) } } := rfl
    have hstep := step_of_move h hmove ?_
    · refine ⟨[.world (.writer (.close c)) []], _, Nat.le_refl _,
        (machine opts json).run_cons_eq_some.mpr ⟨_, hstep, rfl⟩, sound_step h hstep,
        ⟨fun _ _ => rfl, fun _ _ => rfl, rfl, Or.inr rfl⟩, rfl, rfl, ?_⟩
      change ((s.world.writerMove (.close c)).outQueues c).closed = true
      simp [writerMove, setQueue]
    · intro d other hother
      have hinStep := h.inStep d other hother
      change other.InStep (s.world.writerMove (.close c)) d
      by_cases hd : d = c
      · subst hd
        rw [hlink, Option.some.injEq] at hother
        subst hother
        refine ⟨?_, fun _ => hleft⟩
        rw [hinStep.received]
        simp [taken, writerMove, setQueue]
      · constructor
        · rw [hinStep.received]
          simp [taken, writerMove, setQueue, Function.update_of_ne hd]
        · intro hclosed'
          simp only [writerMove, setQueue, Function.update_of_ne hd] at hclosed'
          exact hinStep.closed hclosed'

/-- A writer that is to be aborted ends, if it has not ended before. -/
theorem abort_writer (h : s.Sound) (hlink : s.links c = some link)
    (hcoupling : link.coupling = .writerAborted) :
    ∃ steps t next, steps.length ≤ 1 ∧ (machine opts json).run s steps = some t ∧ t.Sound ∧
      OwnMove c link.conn s t ∧ t.typing = s.typing ∧ t.links c = some next ∧
      next.left.isSome = true ∧ next.conn = link.conn ∧
      next.writer.written = link.writer.written := by
  have hheld := h.held c link hlink
  cases hleft : link.left with
  | some ending =>
      exact ⟨[], s, link, Nat.zero_le _, rfl, h, OwnMove.refl .., rfl, hlink, by rw [hleft]; rfl,
        rfl, rfl⟩
  | none =>
      have hlive : link.writer.phase ≠ .ended := by
        intro hended
        have hsome := hheld.left.mpr hended
        rw [hleft] at hsome
        cases hsome
      have habort : link.writer.step .abort = some { link.writer with phase := .ended } := by
        unfold Writer.step
        cases hphase : link.writer.phase with
        | receiving => rfl
        | writing rest => rfl
        | ended => exact absurd hphase hlive
      have hmove : s.move opts json (.writer c .abort) = some (s.setLink c
          { link with writer := { link.writer with phase := .ended }, left := some .aborted }) := by
        have hmay : s.may c link .abort = true := beq_iff_eq.mpr hcoupling
        simp only [move, write, hlink, Option.bind_some, hmay, if_true, habort, Option.map_some,
          WriterStep.ending, Option.some_or]
      have hinStep := h.inStep c link hlink
      have hstep := step_of_move h hmove (inStep_setLink h rfl rfl ⟨hinStep.received, fun _ => rfl⟩)
      refine ⟨[.writer c .abort], _, _, Nat.le_refl _,
        (machine opts json).run_cons_eq_some.mpr ⟨_, hstep, rfl⟩, sound_step h hstep, ?_, rfl,
        Function.update_self .., rfl, rfl, rfl⟩
      exact ⟨fun d hd => Function.update_of_ne hd .., fun _ _ => rfl, rfl, Or.inl rfl⟩

/-- A reader that is to be aborted ends. -/
theorem cancel_reader (h : s.Sound) (hlink : s.links c = some link)
    (hcoupling : link.coupling = .readerAborted) :
    ∃ t, s.step opts json (.cancelReader c) = some t ∧ OwnMove c link.conn s t ∧
      t.links = s.links ∧ t.world = s.world ∧ t.typing.readerOver link.conn = true := by
  obtain ⟨conn, hconn, -, hattached⟩ := (h.held c link hlink).serves
  have habort : s.typing.step opts json (.abort link.conn) =
      some (s.typing.setConn link.conn { conn with phase := .ended }) := by
    simp [Typing.step, hconn, hattached]
  have hmove : s.move opts json (.cancelReader c) =
      some { s with typing := s.typing.setConn link.conn { conn with phase := .ended } } := by
    simp [move, hlink, hcoupling, habort]
  refine ⟨_, step_of_move h hmove h.inStep, ⟨fun _ _ => rfl, ?_, rfl, Or.inl rfl⟩, rfl, rfl, ?_⟩
  · exact fun j hj => Function.update_of_ne hj ..
  · change (Function.update s.typing.conns link.conn _ link.conn).any _ = true
    rw [Function.update_self]
    rfl

/-- The two halves of a connection are over: its reader and its writer have ended and
its receiver is dropped, with nothing more written. -/
structure TornDown (s : Coupled) (c : ClientId) (link : Link) (t : Coupled) : Prop where
  readerOver : t.typing.readerOver link.conn = true
  writerOver : ∃ next, t.links c = some next ∧ next.left.isSome = true ∧
    next.writer.written = link.writer.written
  closed : (t.world.outQueues c).closed = true
  own : OwnMove c link.conn s t

/-- Once {lit}`handle_session` has found that one half has ended, two steps are enough. -/
theorem teardown_joined (h : s.Sound) (hlink : s.links c = some link)
    (hjoined : link.coupling ≠ .selecting) :
    ∃ steps t, steps.length ≤ 2 ∧ (machine opts json).run s steps = some t ∧
      TornDown s c link t := by
  have hheld := h.held c link hlink
  cases hcoupling : link.coupling with
  | selecting => exact absurd hcoupling hjoined
  | readerAborted =>
      obtain ⟨t, hstep, hown, hlinks, hworld, hover⟩ :=
        cancel_reader opts json h hlink hcoupling
      have hclosed := hheld.closed hcoupling
      refine ⟨[.cancelReader c], t, by simp, (machine opts json).run_cons_eq_some.mpr ⟨t, hstep, rfl⟩,
        hover, ⟨link, by rw [hlinks]; exact hlink, ?_, rfl⟩, by rw [hworld]; exact hclosed, hown⟩
      exact (h.inStep c link hlink).closed hclosed
  | writerAborted =>
      have hover := hheld.readerOver hcoupling
      obtain ⟨first, u, next, hfirst, hrun, hu, hown, htyping, hnext, hleft, hconn, hwritten⟩ :=
        abort_writer opts json h hlink hcoupling
      obtain ⟨second, t, hsecond, hrest, -, hclose, hlinks, hconns, hclosed⟩ :=
        close_queue opts json hu hnext hleft
      rw [hconn] at hclose
      refine ⟨first ++ second, t, ?_, ?_, ?_, ⟨next, by rw [hlinks]; exact hnext, hleft, hwritten⟩,
        hclosed, hown.trans hclose⟩
      · rw [List.length_append]
        omega
      · rw [Machine.run_append, hrun]
        exact hrest
      · unfold Typing.readerOver
        rw [hconns, htyping]
        exact hover

end Teardown

/-- A connection of which one half has ended can be brought down in three steps of its own
tasks, whatever the others do or leave undone. -/
theorem teardown (opts : ServerOpts) (json : Json) (session : Session) (labels : List CoupledStep)
    (s : Coupled) (hrun : (machine opts json).run (start session) labels = some s) (c : ClientId)
    (link : Link) (hlink : s.links c = some link)
    (hended : link.left.isSome = true ∨ s.typing.readerOver link.conn = true) :
    ∃ steps t, steps.length ≤ 3 ∧ (machine opts json).run s steps = some t ∧
      TornDown s c link t := by
  have h : s.Sound := (machine opts json).run_induct (motive := Sound)
    (fun _ _ _ hs hstep => sound_step hs hstep) (sound_start session) hrun
  by_cases hjoined : link.coupling = .selecting
  · have hinStep := h.inStep c link hlink
    by_cases hover : s.typing.readerOver link.conn = true
    · have hmove : s.move opts json (.joinReader c) =
          some (s.setLink c { link with coupling := .writerAborted }) := by
        simp [move, hlink, hjoined, hover]
      have hstep := step_of_move h hmove
        (inStep_setLink h rfl rfl ⟨hinStep.received, hinStep.closed⟩)
      obtain ⟨steps, t, hlength, hrest, hdown⟩ := teardown_joined opts json
        (sound_step h hstep) (Function.update_self ..) (by simp)
      refine ⟨.joinReader c :: steps, t, Nat.succ_le_succ hlength,
        (machine opts json).run_cons_eq_some.mpr ⟨_, hstep, hrest⟩, hdown.readerOver,
        hdown.writerOver, hdown.closed, OwnMove.trans ?_ hdown.own⟩
      exact ⟨fun d hd => Function.update_of_ne hd .., fun _ _ => rfl, rfl, Or.inl rfl⟩
    · have hleft := hended.resolve_right hover
      obtain ⟨first, u, hfirst, hclose, hu, hown, hlinks, -, hclosed⟩ :=
        close_queue opts json h hlink hleft
      have hlinkU : u.links c = some link := by rw [hlinks]; exact hlink
      have hmove : u.move opts json (.joinWriter c) =
          some (u.setLink c { link with coupling := .readerAborted }) := by
        simp [move, hlinkU, hjoined, hclosed]
      have hstep := step_of_move hu hmove
        (inStep_setLink hu rfl rfl ⟨(hu.inStep c link hlinkU).received, fun _ => hleft⟩)
      have hjoinedLink : (u.setLink c { link with coupling := .readerAborted }).links c =
          some { link with coupling := .readerAborted } := Function.update_self ..
      obtain ⟨t, hcancel, hcancelled, hlinksT, hworld, hoverT⟩ :=
        cancel_reader opts json (sound_step hu hstep) hjoinedLink rfl
      refine ⟨first ++ [.joinWriter c, .cancelReader c], t, ?_, ?_, hoverT,
        ⟨{ link with coupling := .readerAborted }, by rw [hlinksT]; exact hjoinedLink, hleft, rfl⟩,
        ?_, ?_⟩
      · rw [List.length_append]
        simp only [List.length_cons, List.length_nil]
        omega
      · rw [Machine.run_append, hclose]
        exact (machine opts json).run_cons_eq_some.mpr
          ⟨_, hstep, (machine opts json).run_cons_eq_some.mpr ⟨t, hcancel, rfl⟩⟩
      · rw [hworld]
        exact hclosed
      · refine hown.trans (OwnMove.trans ?_ hcancelled)
        exact ⟨fun d hd => Function.update_of_ne hd .., fun _ _ => rfl, rfl, Or.inl rfl⟩
  · obtain ⟨steps, t, hlength, hrest, hdown⟩ :=
      teardown_joined opts json h hlink hjoined
    exact ⟨steps, t, Nat.le_succ_of_le hlength, hrest, hdown⟩

/-- A client types a letter and hangs up while its writer is in the middle of a frame. -/
def hungUp : List CoupledStep :=
  [.world .asyncFdOk [], .reader (.accept 0), .reader (.call 0 true),
    .reader (.read 0 (.ok Typing.attachAndType)), .reader (.call 0 true), .deliver 0,
    .world (.command .none) [],
    .world (.writer (.pop 0)) [(0, .recv (statusFrame ⟨false, none⟩))], .writer 0 (.accept 5),
    .reader (.call 0 true), .deliver 0, .reader (.call 0 true), .reader (.read 0 (.ok []))]

/-- The writer is aborted in the middle of its frame, and the connection is down. -/
theorem teardown_hungUp :
    ∃ s link steps t, (machine .default attachJson).run (start shell) hungUp = some s ∧
      s.links 0 = some link ∧ link.left = none ∧ steps.length ≤ 3 ∧
      (machine .default attachJson).run s steps = some t ∧ TornDown s 0 link t := by
  have hsome : ((machine .default attachJson).run (start shell) hungUp).isSome = true := by
    decide +kernel
  have hend : ∀ s ∈ (machine .default attachJson).run (start shell) hungUp,
      (s.links 0).map Link.left = some none ∧ (s.links 0).map Link.conn = some 0 ∧
        s.typing.readerOver 0 = true := by
    decide +kernel
  obtain ⟨s, hs⟩ := Option.isSome_iff_exists.mp hsome
  obtain ⟨hleft, hconn, hover⟩ := hend s hs
  obtain ⟨link, hlink, hnone⟩ := Option.map_eq_some_iff.mp hleft
  rw [hlink, Option.map_some, Option.some.injEq] at hconn
  obtain ⟨steps, t, hlength, hrest, hdown⟩ := teardown .default attachJson shell hungUp s hs 0
    link hlink (Or.inr (by rw [hconn]; exact hover))
  exact ⟨s, link, steps, t, hs, hlink, hnone, hlength, hrest, hdown⟩

end Coupled

end JftermMuxer.Daemon
