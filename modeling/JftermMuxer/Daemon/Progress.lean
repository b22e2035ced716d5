import JftermMuxer.Core.Progress
import JftermMuxer.Daemon.Attach
import JftermMuxer.Daemon.Offers
import Mathlib.Data.List.Infix

/-!
# The progress of STATUS frames

The percentage goes from the terminal output through the engine to the STATUS frames
of {lit}`jftermd/src/server.rs` unchecked.  Each of them carries what the engine held
after some beginning of the drained output.

Main results:

- Theorem {lit}`World.relayed_step`: every step keeps this.
- Theorem {lit}`progress_in_range_iff`: the progress after any feeds is in range iff
  the last report does not overshoot, and while none overshoots no STATUS frame is
  out of range.
-/

namespace JftermMuxer.Daemon

open JftermMuxer.Core JftermMuxer.Foundation

/-- The terminal output drained so far; the history has its newest event first. -/
def drainedBytes : List Event → List UInt8
  | [] => []
  | .drained data _ :: older => drainedBytes older ++ data
  | .delivered _ :: older | .received _ :: older | .attached _ _ :: older
  | .sent _ _ _ _ :: older | .answered _ :: older | .signalled _ :: older
  | .elapsed _ :: older => drainedBytes older

/-- The output drained in two histories in a row. -/
theorem drainedBytes_append (es h : List Event) :
    drainedBytes (es ++ h) = drainedBytes h ++ drainedBytes es := by
  induction es with
  | nil => exact (List.append_nil _).symm
  | cons e es ih =>
      cases e with
      | drained data exit =>
          rw [List.cons_append, drainedBytes, drainedBytes, ih, List.append_assoc]
      | delivered _ | received _ | attached _ _ | sent _ _ _ _ | answered _ | signalled _
      | elapsed _ => exact ih

/-- Offers drain nothing. -/
theorem drainedBytes_offered {s : Session} {es : List Event} (hes : ∀ e ∈ es, e.Offered s) :
    drainedBytes es = [] := by
  induction es with
  | nil => rfl
  | cons e es ih =>
      have hrest := ih fun x hx => hes x (List.mem_cons_of_mem e hx)
      have hfirst := hes e List.mem_cons_self
      cases e with
      | drained data exit => exact hfirst.elim
      | delivered _ | received _ | attached _ _ | sent _ _ _ _ | answered _ | signalled _
      | elapsed _ => exact hrest

/-- A frame is no STATUS, or one with the progress of an engine fed a beginning of the
given output. -/
def Truthful (output : List UInt8) (f : Frame) : Prop :=
  f.ty = .status → ∃ t feeds, f = statusFrame t ∧ List.flatten feeds <+: output ∧
    t.progress = (ReplayEngine.new.feedAll feeds).status.progress

/-- What was true of some output stays true of more. -/
theorem Truthful.mono {as bs : List UInt8} {f : Frame} (h : Truthful as f) (hbeginning : as <+: bs) :
    Truthful bs f := by
  intro hty
  obtain ⟨t, feeds, hf, hfeeds, hprogress⟩ := h hty
  exact ⟨t, feeds, hf, hfeeds.trans hbeginning, hprogress⟩

/-- What a session offers is truthful about the output its engine was fed. -/
theorem Session.Offers.truthful {s : Session} {f : Frame} (h : s.Offers f)
    {feeds : List (List UInt8)} (hengine : s.engine = ReplayEngine.new.feedAll feeds) :
    Truthful feeds.flatten f := by
  intro hty
  cases h with
  | data hf =>
      rw [ty_of_mem_frameData hf] at hty
      cases hty
  | @status t hprogress =>
      refine ⟨t, feeds, rfl, List.prefix_refl _, ?_⟩
      rw [hprogress, Session.status, hengine]
  | exit hdead => cases hty

namespace World

variable {opts : ServerOpts} {w v : World}

/-- While the loop runs the engine has been fed the drained output, and all STATUS
frames are truthful about it. -/
structure Relayed (w : World) : Prop where
  engine : w.phase = .running → ∃ feeds, w.session.engine = ReplayEngine.new.feedAll feeds ∧
    List.flatten feeds = drainedBytes w.history
  frames : ∀ c f stage ok, .sent c f stage ok ∈ w.history → Truthful (drainedBytes w.history) f

/-- After the loop nothing is offered. -/
theorem quiet_of_left {label : Label} (hleft : w.phase ≠ .running)
    (hstep : w.step opts label = some v) (c : ClientId) (f : Frame) (stage : Stage) (ok : Bool)
    (h : .sent c f stage ok ∈ v.history) : .sent c f stage ok ∈ w.history := by
  cases label with
  | asyncFdOk => exact absurd (asyncFdOk_eq_some hstep).1 hleft
  | asyncFdFailed => exact absurd (asyncFdFailed_eq_some hstep).1 hleft
  | send cmd =>
      obtain ⟨next, rfl, -⟩ := send_eq_some hstep
      rcases List.mem_cons.mp h with heq | h
      · cases heq
      · exact h
  | dropSenders =>
      cases hstep
      exact h
  | writer move =>
      cases hstep
      rw [writerMove_eq] at h
      exact h
  | elapse ms =>
      cases hstep
      rcases List.mem_cons.mp h with heq | h
      · cases heq
      · exact h
  | command a => exact absurd (command_eq_some hstep).1 hleft
  | readable a => exact absurd (idle_iff.mp (readable_eq_some hstep).1).1 hleft
  | readableError => exact absurd (idle_iff.mp (readableError_eq_some hstep).1).1 hleft
  | grace => exact absurd (idle_iff.mp (grace_eq_some hstep).1).1 hleft
  | kill a => exact absurd (idle_iff.mp (kill_eq_some hstep).1).1 hleft
  | tick a => exact absurd (idle_iff.mp (tick_eq_some hstep).1).1 hleft
  | remove =>
      obtain ⟨-, rfl⟩ := remove_eq_some hstep
      exact h
  | finish =>
      obtain ⟨-, rfl⟩ := finish_eq_some hstep
      exact h

/-- Moves that leave the engine alone keep what has been told truthful. -/
theorem Relayed.speaks (hw : Relayed w) (hrun : w.phase = .running) (h : Speaks w v) : Relayed v := by
  obtain ⟨feeds, hengine, hfeeds⟩ := hw.engine hrun
  obtain ⟨es, hes, hoffered⟩ := h.events
  have hdrained : drainedBytes v.history = drainedBytes w.history := by
    rw [hes, drainedBytes_append, drainedBytes_offered hoffered, List.append_nil]
  constructor
  · intro _
    rw [h.engine, hdrained]
    exact ⟨feeds, hengine, hfeeds⟩
  · intro c f stage ok hsent
    rw [hdrained]
    rw [hes] at hsent
    rcases List.mem_append.mp hsent with hsent | hsent
    · have hoffers : w.session.Offers f := hoffered _ hsent
      rw [← hfeeds]
      exact hoffers.truthful hengine
    · exact hw.frames c f stage ok hsent

/-- A drain feeds the engine what it records. -/
theorem relayed_onReadable (hw : Relayed w) (hrun : w.phase = .running) : Relayed (w.onReadable opts) := by
  obtain ⟨feeds, hengine, hfeeds⟩ := hw.engine hrun
  rcases onReadable_speaks opts w with
    ⟨e, session, os, -, heq⟩ | ⟨outcome, session, os, hdrained, hspeaks⟩
  · rw [heq]
    refine ⟨?_, hw.frames⟩
    intro hleft
    cases hleft
  · have hfed : session.engine = ReplayEngine.new.feedAll (feeds ++ [outcome.data]) := by
      rw [Session.engine_drain hdrained, hengine]
      exact (List.foldl_concat ..).symm
    have hrecorded : Relayed (World.record { w with session, os }
        (.drained outcome.data outcome.exit)) := by
      constructor
      · intro _
        refine ⟨feeds ++ [outcome.data], hfed, ?_⟩
        rw [List.flatten_append, List.flatten_singleton, hfeeds]
        rfl
      · intro c f stage ok hsent
        rcases List.mem_cons.mp hsent with heq | hsent
        · cases heq
        · exact (hw.frames c f stage ok hsent).mono (List.prefix_append _ outcome.data)
    exact hrecorded.speaks hrun hspeaks

/-- Every step keeps the engine fed. -/
theorem relayed_step {label : Label} (hw : Relayed w) (hstep : w.step opts label = some v) : Relayed v := by
  by_cases hrun : w.phase = .running
  · rcases step_speaks opts hstep with hspeaks | ⟨a, rfl, rfl⟩
    · exact hw.speaks hrun hspeaks
    · exact relayed_onReadable (hw.speaks hrun (speaks_answer w a)) hrun
  · constructor
    · intro hrunning
      exact absurd (running_of_step hstep hrunning) hrun
    · intro c f stage ok hsent
      obtain ⟨es, hes⟩ := history_step hstep
      have hbefore := hw.frames c f stage ok (quiet_of_left hrun hstep c f stage ok hsent)
      apply hbefore.mono
      rw [← hes, drainedBytes_append]
      exact List.prefix_append _ _

/-- A fresh engine was fed nothing. -/
theorem relayed_start {session : Session} (hfresh : session.engine = ReplayEngine.new) :
    Relayed (start session) := by
  constructor
  · intro _
    exact ⟨[], hfresh, rfl⟩
  · intro c f stage ok hsent
    cases hsent

end World

/-! ## Main result -/

/-- An opened session has a fresh engine. -/
theorem openSession_engine {id : String} {argv : List String} {cwd : String} {cols rows : UInt16}
    {spawned : Except Errno Pty} {nowSecs : Nat} {session : Session}
    (h : Session.openSession id argv cwd cols rows spawned nowSecs = .ok session) :
    session.engine = ReplayEngine.new := by
  unfold Session.openSession at h
  cases spawned with
  | error e => cases h
  | ok pty =>
      cases h
      rfl

/-- After any feeds the progress is in the documented range iff the last progress
report of the stream does not overshoot it; and along a run whose output has no
beginning that ends with such a report, every STATUS frame offered to a client is in
range. -/
theorem progress_in_range_iff (feeds : List (List UInt8)) (opts : ServerOpts) (id : String)
    (argv : List String) (cwd : String) (cols rows : UInt16) (spawned : Except Errno Pty)
    (nowSecs : Nat) (session : Session) (labels : List World.Label) (w : World) :
    (InRange (ReplayEngine.new.feedAll feeds).status.progress ↔ ¬ EndsOver feeds.flatten) ∧
      (Session.openSession id argv cwd cols rows spawned nowSecs = .ok session →
        (World.machine opts).run (World.start session) labels = some w →
        (∀ before, before <+: drainedBytes w.history → ¬ EndsOver before) →
        ∀ c f stage ok, .sent c f stage ok ∈ w.history → f.ty = .status →
          ∃ t, f = statusFrame t ∧ InRange t.progress) := by
  refine ⟨inRange_feeds_iff feeds, ?_⟩
  intro hopen hrun hwithin c f stage ok hsent hty
  have hrelayed : w.Relayed := (World.machine opts).run_induct
    (fun _ _ _ hw hstep => World.relayed_step hw hstep)
    (World.relayed_start (openSession_engine hopen)) hrun
  obtain ⟨t, drained, hf, hbeginning, hprogress⟩ := hrelayed.frames c f stage ok hsent hty
  refine ⟨t, hf, ?_⟩
  rw [hprogress, inRange_feeds_iff]
  exact hwithin _ hbeginning

/-- OSC 9;4 with state 1 and the given value field. -/
def progressOsc (value : List UInt8) : List UInt8 :=
  [0x1B, 0x5D, 0x39, 0x3B, 0x34, 0x3B, 0x31, 0x3B] ++ value ++ [0x07]

/-- A client attaches, and the shell reports a progress value. -/
def progressTold (value : List UInt8) : List World.Label :=
  [.asyncFdOk, .send (.attach ⟨0, 80, 24, 0⟩), .command .none,
    .readable { World.Answers.none with reads := [.ok (progressOsc value)] }]

/-- An attached client is told 42 percent. -/
theorem progress_in_range_forty_two :
    InRange (ReplayEngine.new.feedAll [progressOsc [0x34, 0x32]]).status.progress ∧
      ∃ w, (World.machine .default).run (World.start World.shell) (progressTold [0x34, 0x32]) =
          some w ∧
        .sent 0 (statusFrame ⟨false, some 42⟩) .live true ∈ w.history ∧
        ∃ t, statusFrame ⟨false, some 42⟩ = statusFrame t ∧ InRange t.progress := by
  have hsome : ((World.machine .default).run (World.start World.shell)
      (progressTold [0x34, 0x32])).isSome = true := by
    decide +kernel
  obtain ⟨w, hw⟩ := Option.isSome_iff_exists.mp hsome
  have hstate : ∀ w ∈ (World.machine .default).run (World.start World.shell)
      (progressTold [0x34, 0x32]), .sent 0 (statusFrame ⟨false, some 42⟩) .live true ∈ w.history ∧
        ∀ before ∈ (drainedBytes w.history).inits, ¬ EndsOver before := by
    decide +kernel
  obtain ⟨hsent, hwithin⟩ := hstate w hw
  obtain ⟨hfeeds, hframes⟩ := progress_in_range_iff [progressOsc [0x34, 0x32]] .default "s" ["sh"] "/"
    80 24 (.ok ⟨7⟩) 0 World.shell _ w
  refine ⟨hfeeds.mpr (by decide +kernel), w, hw, hsent, ?_⟩
  have hbeginnings : ∀ before, before <+: drainedBytes w.history → ¬ EndsOver before :=
    fun before hbefore => hwithin before ((List.mem_inits _ _).mpr hbefore)
  exact hframes rfl hw hbeginnings 0 _ .live true hsent rfl

/-- A report of 200 percent is stored and sent. -/
theorem progress_two_hundred :
    ¬ InRange (ReplayEngine.new.feedAll [progressOsc [0x32, 0x30, 0x30]]).status.progress ∧
      ∃ w, (World.machine .default).run (World.start World.shell)
          (progressTold [0x32, 0x30, 0x30]) = some w ∧
        .sent 0 (statusFrame ⟨false, some 200⟩) .live true ∈ w.history := by
  have hsome : ((World.machine .default).run (World.start World.shell)
      (progressTold [0x32, 0x30, 0x30])).isSome = true := by
    decide +kernel
  have hsent : ∀ w ∈ (World.machine .default).run (World.start World.shell)
      (progressTold [0x32, 0x30, 0x30]),
      .sent 0 (statusFrame ⟨false, some 200⟩) .live true ∈ w.history := by
    decide +kernel
  obtain ⟨w, hw⟩ := Option.isSome_iff_exists.mp hsome
  exact ⟨by decide +kernel, w, hw, hsent w hw⟩

end JftermMuxer.Daemon
