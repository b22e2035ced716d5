import JftermMuxer.Core.Reattach
import JftermMuxer.Daemon.Binding
import JftermMuxer.Daemon.Delivery
import JftermMuxer.Daemon.Notices
import JftermMuxer.Daemon.Progress

/-!
# Detaching and attaching again

The engine of a session reads on while nobody is attached.  Whoever attaches, whenever,
is owed what the engine hands out at that moment, and from there on the output itself:
nothing between the two is lost or told twice.  A client that has decoded all of it
tracks what the engine tracks.

Main results:

- Theorem {lit}`World.snapshot_step`: every replay is that of an engine which was fed the
  output drained before the attach, and nobody attaches twice.
- Theorem {lit}`World.snapshot_then_live`: what is due to a client is this replay, followed by
  the output from there on.
- Theorem {lit}`World.client_in_step`: the terminal of a client that has received everything
  agrees with the engine.
- Theorem {lit}`World.client_informed`: such a client knows the session's status and whether
  the shell has exited.
-/

namespace JftermMuxer.Daemon

open JftermMuxer.Core JftermMuxer.Foundation JftermMuxer.Vte

/-- What an engine hands out at an attach. -/
def snapshot (e : ReplayEngine) (wantChunks : Nat) : List UInt8 :=
  if wantChunks = 0 then e.replay else e.replayCapped wantChunks

/-- The engine reads its feeds as one stream. -/
theorem scanner_of_feeds (feeds : List (List UInt8)) :
    (ReplayEngine.new.feedAll feeds).scanner =
      Scanner.feed table (Scanner.new table engineWatermark) feeds.flatten := by
  rw [ReplayEngine.scanner_feedAll, Scanner.feedAll_eq_feed]
  rfl

namespace Event

/-- An event of a list sits in the second part if it does not occur in the first. -/
theorem split_of_not_mem {α : Type} {es h newer older : List α} {e : α}
    (hsplit : es ++ h = newer ++ e :: older) (he : e ∉ es) :
    ∃ later, newer = es ++ later ∧ h = later ++ e :: older := by
  rcases List.append_eq_append_iff.mp hsplit with ⟨later, hnewer, hh⟩ | ⟨rest, hes, hrest⟩
  · exact ⟨later, hnewer, hh⟩
  · cases rest with
    | nil => exact ⟨[], by rw [hes, List.append_nil, List.append_nil], hrest.symm⟩
    | cons x rest =>
        rw [List.cons_append, List.cons.injEq] at hrest
        have hmem : e ∈ es := by
          rw [hes, hrest.1]
          exact List.mem_append_right newer List.mem_cons_self
        exact absurd hmem he

/-- No attach is among the events. -/
def NoAttach (h : List Event) : Prop := ∀ c replay, .attached c replay ∉ h

/-- Without an attach the current client stays. -/
theorem current_append {es : List Event} (hes : NoAttach es) (h : List Event) :
    current (es ++ h) = current h := by
  induction es with
  | nil => rfl
  | cons e es ih =>
      have hrest : NoAttach es := fun c replay hmem => hes c replay (List.mem_cons_of_mem e hmem)
      cases e with
      | attached c replay => exact absurd List.mem_cons_self (hes c replay)
      | delivered _ | received _ | drained _ _ | sent _ _ _ _ | answered _ | signalled _
      | elapsed _ =>
          exact ih hrest

/-- From an attach on, a client is owed the output drained until somebody attaches. -/
theorem owed_append {c : ClientId} (replay : List UInt8) {es : List Event} (hes : NoAttach es)
    (older : List Event) :
    owed c (es ++ .attached c replay :: older) = replay ++ drainedBytes es := by
  induction es with
  | nil => simp [owed, drainedBytes]
  | cons e es ih =>
      have hrest : NoAttach es := fun c replay hmem => hes c replay (List.mem_cons_of_mem e hmem)
      cases e with
      | attached d other => exact absurd List.mem_cons_self (hes d other)
      | drained data exit =>
          have hcurrent : current (es ++ .attached c replay :: older) = some c :=
            current_append hrest _
          simp only [List.cons_append, owed, if_pos hcurrent, ih hrest, drainedBytes,
            List.append_assoc]
      | delivered _ | received _ | sent _ _ _ _ | answered _ | signalled _ | elapsed _ =>
          exact ih hrest

/-- A client that is not current and does not attach is owed nothing more. -/
theorem owed_replaced {c : ClientId} {es h : List Event} (hes : ¬ Attached c es)
    (hcurrent : current h ≠ some c) :
    owed c (es ++ h) = owed c h ∧ current (es ++ h) ≠ some c := by
  induction es with
  | nil => exact ⟨rfl, hcurrent⟩
  | cons e es ih =>
      obtain ⟨howed, hother⟩ := ih fun hattached => hes (hattached.cons e)
      cases e with
      | attached d replay =>
          have hd : d ≠ c := by
            rintro rfl
            exact hes ⟨replay, List.mem_cons_self⟩
          refine ⟨?_, fun h => hd (Option.some.inj h)⟩
          simp only [List.cons_append, owed, if_neg hd]
          exact howed
      | drained data exit =>
          refine ⟨?_, hother⟩
          simp only [List.cons_append, owed, if_neg hother]
          exact howed
      | delivered _ | received _ | sent _ _ _ _ | answered _ | signalled _ | elapsed _ =>
          exact ⟨howed, hother⟩

/-- Events hold no attach, or there is a first one. -/
theorem first_attach (newer : List Event) :
    NoAttach newer ∨ ∃ later d next mid, newer = later ++ .attached d next :: mid ∧
      NoAttach mid := by
  induction newer with
  | nil => exact Or.inl fun c replay hmem => by cases hmem
  | cons e newer ih =>
      rcases ih with hnone | ⟨later, d, next, mid, rfl, hmid⟩
      · cases e with
        | attached d next => exact Or.inr ⟨[], d, next, newer, rfl, hnone⟩
        | delivered _ | received _ | drained _ _ | sent _ _ _ _ | answered _ | signalled _
        | elapsed _ =>
            refine Or.inl fun c replay hmem => ?_
            rcases List.mem_cons.mp hmem with heq | hmem
            · cases heq
            · exact hnone c replay hmem
      · exact Or.inr ⟨e :: later, d, next, mid, rfl, hmid⟩

/-- From its only attach on, a client is owed the output up to the next attach. -/
theorem owed_of_attached {c : ClientId} (replay : List UInt8) (newer older : List Event)
    (honce : ¬ Attached c newer) :
    ∃ live, owed c (newer ++ .attached c replay :: older) = replay ++ live ∧
      drainedBytes older ++ live <+: drainedBytes (newer ++ .attached c replay :: older) ∧
      (current (newer ++ .attached c replay :: older) = some c →
        drainedBytes older ++ live = drainedBytes (newer ++ .attached c replay :: older)) ∧
      ∀ later d next mid, newer = later ++ .attached d next :: mid → NoAttach mid →
        live = drainedBytes mid := by
  have hreplaced : ∀ later d next mid, newer = later ++ .attached d next :: mid → NoAttach mid →
      owed c (newer ++ .attached c replay :: older) = replay ++ drainedBytes mid ∧
        current (newer ++ .attached c replay :: older) ≠ some c := by
    rintro later d next mid rfl hmid
    have hd : d ≠ c := by
      rintro rfl
      exact honce ⟨next, List.mem_append_right later List.mem_cons_self⟩
    have hlater : ¬ Attached c later := fun ⟨again, hmem⟩ =>
      honce ⟨again, List.mem_append_left _ hmem⟩
    have hnext : current (.attached d next :: (mid ++ .attached c replay :: older)) ≠ some c :=
      fun h => hd (Option.some.inj h)
    rw [List.append_assoc, List.cons_append]
    obtain ⟨howed, hother⟩ := owed_replaced hlater hnext
    refine ⟨?_, hother⟩
    rw [howed, owed, if_neg hd, owed_append replay hmid older]
  rcases first_attach newer with hnone | ⟨later, d, next, mid, rfl, hmid⟩
  · have hall : drainedBytes older ++ drainedBytes newer =
        drainedBytes (newer ++ .attached c replay :: older) := by
      rw [drainedBytes_append]
      rfl
    refine ⟨drainedBytes newer, owed_append replay hnone older, ?_, fun _ => hall, ?_⟩
    · rw [hall]
    · rintro later d next mid rfl -
      exact absurd (List.mem_append_right later List.mem_cons_self) (hnone d next)
  · obtain ⟨howed, hother⟩ := hreplaced later d next mid rfl hmid
    refine ⟨drainedBytes mid, howed, ?_, fun h => absurd h hother, ?_⟩
    · refine ⟨drainedBytes later, ?_⟩
      simp only [drainedBytes_append, drainedBytes, List.append_assoc]
    · intro later' d' next' mid' heq hmid'
      have hboth := (hreplaced later' d' next' mid' heq hmid').1
      rw [howed] at hboth
      exact List.append_cancel_left hboth

end Event

namespace World

open Event

variable {opts : ServerOpts} {w v : World}

/-! ## Every replay is a snapshot -/

/-- A replay is what an engine hands out that has been fed the output drained before the
attach. -/
def IsSnapshot (c : ClientId) (replay : List UInt8) (older : List Event) : Prop :=
  ∃ req feeds, older.head? = some (.received (.attach req)) ∧ req.outTx = c ∧
    List.flatten feeds = drainedBytes older ∧
    replay = snapshot (ReplayEngine.new.feedAll feeds) req.wantChunks

/-- Every replay taken so far is a snapshot, and nobody has attached twice. -/
def Snapshots (w : World) : Prop :=
  ∀ newer older c replay, w.history = newer ++ .attached c replay :: older →
    IsSnapshot c replay older ∧ ¬ Attached c older

/-- Events without an attach change nothing. -/
theorem Snapshots.mono (hw : Snapshots w) {es : List Event} (hhistory : v.history = es ++ w.history)
    (hes : NoAttach es) : Snapshots v := by
  intro newer older c replay hsplit
  rw [hhistory] at hsplit
  obtain ⟨later, -, hlater⟩ := split_of_not_mem hsplit (hes c replay)
  exact hw later older c replay hlater

/-- An attach takes a snapshot. -/
theorem snapshot_attach (hw : Snapshots w) (hrelayed : Relayed w) (hfeed : ∀ c, Feed opts c w)
    {a : Answers} {req : AttachRequest} {rest : List SessionCommand} (hrun : w.phase = .running)
    (hqueue : w.queue = .attach req :: rest) :
    Snapshots (((w.answer a).receive (.attach req) rest).onAttach opts req) := by
  obtain ⟨u, hu⟩ := onAttach_eq opts w a req rest
  obtain ⟨es, hhistory, hes⟩ := (outward_handshake opts u req).sends
  obtain ⟨feeds, hengine, hfeeds⟩ := hrelayed.engine hrun
  have hnew : ¬ Attached req.outTx w.history := by
    apply ((hfeed req.outTx).pending _).2
    rw [hqueue, List.countP_cons, if_pos (by simp [attaches])]
    exact Nat.succ_ne_zero _
  intro newer older c replay hsplit
  have hsent : .attached c replay ∉ es := by
    intro hmem
    obtain ⟨d, f, stage, ok, heq⟩ := hes _ hmem
    cases heq
  rw [hu.history, hhistory] at hsplit
  obtain ⟨later, -, hlater⟩ := split_of_not_mem hsplit hsent
  change .attached req.outTx _ :: u.history = _ at hlater
  rw [hu.before] at hlater
  cases later with
  | nil =>
      rw [List.nil_append, List.cons.injEq] at hlater
      obtain ⟨hattached, rfl⟩ := hlater
      cases hattached
      refine ⟨⟨req, feeds, rfl, rfl, hfeeds, ?_⟩, ?_⟩
      · rw [← hengine, ← hu.engine]
        rfl
      · rintro ⟨old, hmem⟩
        rcases List.mem_cons.mp hmem with heq | hmem
        · cases heq
        · exact hnew ⟨old, hmem⟩
  | cons e later =>
      rw [List.cons_append, List.cons.injEq] at hlater
      cases later with
      | nil =>
          rw [List.nil_append, List.cons.injEq] at hlater
          cases hlater.2.1
      | cons e' later =>
          rw [List.cons_append, List.cons.injEq] at hlater
          exact hw later older c replay hlater.2.2

/-- Every step keeps the replays snapshots. -/
theorem snapshot_step {label : Label} (hw : Snapshots w) (hrelayed : Relayed w)
    (hfeed : ∀ c, Feed opts c w) (hstep : w.step opts label = some v) : Snapshots v := by
  rcases step_binding hstep with ⟨es, hes⟩ | ⟨a, req, rest, -, hrun, hqueue, rfl⟩ | ⟨-, rfl⟩
  · refine hw.mono hes.history ?_
    intro c replay hmem
    exact hes.ordinary _ hmem
  · exact snapshot_attach hw hrelayed hfeed hrun hqueue
  · exact hw

/-- In every run the replays are snapshots, and the engine is fed the output. -/
theorem snapshot_run {session : Session} {labels : List Label}
    (hfresh : session.engine = ReplayEngine.new)
    (hrun : (machine opts).run (start session) labels = some w) : Snapshots w ∧ Relayed w := by
  have hall : (∀ c, Feed opts c w) ∧ Relayed w ∧ Snapshots w := by
    refine (machine opts).run_induct
      (motive := fun w => (∀ c, Feed opts c w) ∧ Relayed w ∧ Snapshots w) ?_ ?_ hrun
    · rintro x label y ⟨hfeed, hrelayed, hsnapshots⟩ hstep
      refine ⟨fun c => (kept_feed opts c).step (hfeed c) hstep, relayed_step hrelayed hstep, ?_⟩
      exact snapshot_step hsnapshots hrelayed hfeed hstep
    · refine ⟨fun c => feed_start opts c session, relayed_start hfresh, ?_⟩
      intro newer older c replay hsplit
      have hnil : [] = newer ++ .attached c replay :: older := hsplit
      simp at hnil
  exact ⟨hall.2.2, hall.2.1⟩

/-! ## The snapshot, and then the output -/

/-- In every run around a session that has just been opened, for every attach: the replay
is what the engine hands out after the output drained before, and what is due to the
client is this replay and then the output from there on: all of it while the client is
current, and exactly that drained before the next attach once somebody else is.  If the
replay and the output were cut between two items, the client reads on like the
session. -/
theorem snapshot_then_live (opts : ServerOpts) (session : Session)
    (hfresh : session.engine = ReplayEngine.new) (labels : List Label) (w : World)
    (hrun : (machine opts).run (start session) labels = some w) (newer older : List Event)
    (c : ClientId) (replay : List UInt8)
    (hattached : w.history = newer ++ .attached c replay :: older) :
    IsSnapshot c replay older ∧
      ∃ live, owed c w.history = replay ++ live ∧
        drainedBytes older ++ live <+: drainedBytes w.history ∧
        (current w.history = some c → drainedBytes older ++ live = drainedBytes w.history) ∧
        (∀ later d next mid, newer = later ++ .attached d next :: mid → NoAttach mid →
          live = drainedBytes mid) ∧
        ∀ items later freshWatermark, drainedBytes older = Item.stream items →
          live = Item.stream later →
          ReadsOn (Scanner.feed table (Scanner.new table engineWatermark) (drainedBytes older))
            (Scanner.new table freshWatermark) replay live := by
  obtain ⟨hsnapshots, -⟩ := snapshot_run hfresh hrun
  obtain ⟨hsnapshot, -⟩ := hsnapshots newer older c replay hattached
  have honce : ¬ Attached c newer := by
    rintro ⟨again, hmem⟩
    obtain ⟨front, back, rfl⟩ := List.append_of_mem hmem
    have hagain : w.history = front ++ .attached c again :: (back ++ .attached c replay :: older) := by
      rw [hattached, List.append_assoc, List.cons_append]
    refine (hsnapshots front _ c again hagain).2 ⟨replay, ?_⟩
    exact List.mem_append_right back List.mem_cons_self
  obtain ⟨live, howed, hprefix, hcurrent, hreplaced⟩ := owed_of_attached replay newer older honce
  rw [← hattached] at howed hprefix hcurrent
  refine ⟨hsnapshot, live, howed, hprefix, hcurrent, hreplaced, ?_⟩
  rintro items later freshWatermark hitems rfl
  obtain ⟨req, feeds, -, -, hfeeds, rfl⟩ := hsnapshot
  have hscanner := scanner_of_feeds feeds
  rw [hfeeds, hitems] at hscanner
  rw [hitems]
  unfold snapshot ReplayEngine.replay ReplayEngine.replayCapped
  rw [hscanner]
  split
  · exact reads_on engineWatermark freshWatermark usizeMax items later
  · exact reads_on engineWatermark freshWatermark req.wantChunks items later

/-- A red SGR, and then a client attaches that wants one chunk, sees two letters, and has
its queue emptied. -/
def redAttach : List Label :=
  [.asyncFdOk, .readable { Answers.none with reads := [.ok [0x1B, 0x5B, 0x33, 0x31, 0x6D]] },
    .send (.attach ⟨1, 80, 24, 0⟩), .command .none,
    .readable { Answers.none with reads := [.ok [104, 105]] },
    .writer (.pop 0), .writer (.pop 0), .writer (.pop 0)]

private theorem isParamByte_red : ∀ b ∈ ([0x33, 0x31] : List UInt8), isParamByte b = true :=
  List.all_eq_true.mp rfl

private theorem isFinal_red : isFinal 0x6D = true := rfl

def redItem : Item :=
  .csi none [0x33, 0x31] [] 0x6D no_marker isParamByte_red no_intermediates isFinal_red

def letters : List Item :=
  [.char [104] (.one (by decide)) rfl, .char [105] (.one (by decide)) rfl]

/-- What is known of this run by evaluation. -/
theorem redAttach_runs : ∃ w, (machine .default).run (start shell) redAttach = some w ∧
    w.phase = .running ∧ current w.history = some 0 ∧
    w.history = w.history.take 4 ++
      .attached 0 [0x1B, 0x5B, 0x33, 0x31, 0x6D] :: w.history.drop 5 ∧
    drainedBytes (w.history.drop 5) = Item.stream [redItem] ∧
    drainedBytes w.history = Item.stream ([redItem] ++ letters) := by
  have hsome : ((machine .default).run (start shell) redAttach).isSome = true := by decide +kernel
  have hstate : ∀ w ∈ (machine .default).run (start shell) redAttach,
      w.phase = .running ∧ current w.history = some 0 ∧
      w.history = w.history.take 4 ++
        .attached 0 [0x1B, 0x5B, 0x33, 0x31, 0x6D] :: w.history.drop 5 ∧
      drainedBytes (w.history.drop 5) = [0x1B, 0x5B, 0x33, 0x31, 0x6D] ∧
      drainedBytes w.history = [0x1B, 0x5B, 0x33, 0x31, 0x6D, 104, 105] := by
    decide +kernel
  obtain ⟨w, hw⟩ := Option.isSome_iff_exists.mp hsome
  exact ⟨w, hw, hstate w hw⟩

/-- The replay of {lit}`redAttach` is the SGR, and the letters follow. -/
theorem snapshot_then_live_red :
    ∃ w, (machine .default).run (start shell) redAttach = some w ∧
      IsSnapshot 0 [0x1B, 0x5B, 0x33, 0x31, 0x6D] (w.history.drop 5) ∧
      ∃ live, owed 0 w.history = [0x1B, 0x5B, 0x33, 0x31, 0x6D] ++ live ∧
        drainedBytes (w.history.drop 5) ++ live = drainedBytes w.history := by
  obtain ⟨w, hw, -, hcurrent, hsplit, -⟩ := redAttach_runs
  obtain ⟨hsnapshot, live, howed, -, hall, -, -⟩ :=
    snapshot_then_live .default shell rfl redAttach w hw _ _ 0 _ hsplit
  exact ⟨w, hw, hsnapshot, live, howed, hall hcurrent⟩

/-! ## From the shell to the terminal of a client -/

/-- The terminal of a client: it reads the output of the frames it has decoded. -/
def terminalOf (watermark : Nat) (fs : List Frame) : Scanner State :=
  Scanner.feedAll table (Scanner.new table watermark) (fs.map carried)

/-- The frames are read as one stream. -/
theorem terminalOf_eq (watermark : Nat) (fs : List Frame) :
    terminalOf watermark fs = Scanner.feed table (Scanner.new table watermark) (output fs) :=
  Scanner.feedAll_eq_feed table _ _

/-- No offer to the client has failed, its writer has taken and written all of its queue,
and all of this has arrived. -/
structure CaughtUp (c : ClientId) (w : World) (segments : List (List UInt8)) : Prop where
  intact : ¬ Failed c w.history
  empty : (w.outQueues c).queued = []
  arrived : ∃ steps x, Writer.machine.run Writer.new steps = some x ∧ x.received = w.taken c ∧
    x.phase = .receiving ∧ segments.flatten = x.written

/-- A client that has received everything has decoded all frames enqueued to it. -/
theorem CaughtUp.frames {session : Session} (hlive : session.lifecycle = .live)
    {labels : List Label} (htyped : ∀ label ∈ labels, waitsTyped label.waits = true)
    (hrun : (machine opts).run (start session) labels = some w) {c : ClientId}
    {segments : List (List UInt8)} (h : CaughtUp c w segments) :
    (feedSegments segments).frames = Event.frames c w.history := by
  obtain ⟨steps, x, hwriter, hpopped, hphase, hsegments⟩ := h.arrived
  have hslim : Slim w := slim_run (slim_start hlive) htyped hrun
  have horder : InOrder c w := (kept_inOrder opts c).run List.nil_suffix hrun
  exact decoded_of_empty hslim horder (Writer.sending_run hwriter) hpopped hphase h.empty hsegments

/-- A client that has received everything has all the output that is due to it. -/
theorem CaughtUp.output {session : Session} (hlive : session.lifecycle = .live)
    {labels : List Label} (htyped : ∀ label ∈ labels, waitsTyped label.waits = true)
    (hrun : (machine opts).run (start session) labels = some w) {c : ClientId}
    {segments : List (List UInt8)} (h : CaughtUp c w segments) :
    output (feedSegments segments).frames = owed c w.history := by
  have hfeed : Feed opts c w := (kept_feed opts c).run (feed_start opts c session) hrun
  have hwhole := hfeed.whole h.intact
  rw [List.append_nil] at hwhole
  rw [h.frames hlive htyped hrun, output_frames, hwhole]

/-- In every run around a session that has just been opened: a client that attached between
two items, is current and has received everything has a terminal that agrees with the
engine, in the parser and in all that the engine tracks, and dispatches the output since
its attach as the session does; the number of chunks it asked for does not matter. -/
theorem client_in_step (opts : ServerOpts) (session : Session) (hlive : session.lifecycle = .live)
    (hfresh : session.engine = ReplayEngine.new) (labels : List Label)
    (htyped : ∀ label ∈ labels, waitsTyped label.waits = true) (w : World)
    (hrun : (machine opts).run (start session) labels = some w) (hloop : w.phase = .running)
    (newer older : List Event) (c : ClientId) (replay : List UInt8)
    (hattached : w.history = newer ++ .attached c replay :: older)
    (hcurrent : current w.history = some c) (segments : List (List UInt8))
    (hcaught : CaughtUp c w segments) (items later : List Item)
    (hbefore : drainedBytes older = Item.stream items)
    (hdrained : drainedBytes w.history = Item.stream (items ++ later)) (watermark : Nat) :
    (terminalOf watermark (feedSegments segments).frames).parser =
        w.session.engine.scanner.parser ∧
      SameTracked (terminalOf watermark (feedSegments segments).frames).sink.sticky
        w.session.engine.scanner.sink.sticky ∧
      table.outputs table.init (output (feedSegments segments).frames) =
        table.outputs table.init replay ++ table.outputs table.init (Item.stream later) := by
  obtain ⟨-, hrelayed⟩ := snapshot_run hfresh hrun
  obtain ⟨feeds, hengine, hfeeds⟩ := hrelayed.engine hloop
  have hscanner : w.session.engine.scanner =
      Scanner.feed table (Scanner.new table engineWatermark) (Item.stream (items ++ later)) := by
    rw [hengine, scanner_of_feeds, hfeeds, hdrained]
  obtain ⟨-, live, howed, -, hall, -, hreads⟩ :=
    snapshot_then_live opts session hfresh labels w hrun newer older c replay hattached
  have hlater : live = Item.stream later := by
    have hsplit := hall hcurrent
    rw [hbefore, hdrained, Item.stream_append] at hsplit
    exact List.append_cancel_left hsplit
  have hon := hreads items later watermark hbefore hlater
  rw [hbefore] at hon
  have hsession : Scanner.feed table (Scanner.feed table (Scanner.new table engineWatermark)
      (Item.stream items)) live = w.session.engine.scanner := by
    rw [hscanner, Item.stream_append, Scanner.feed_append, hlater]
  have houtput : output (feedSegments segments).frames = replay ++ live := by
    rw [hcaught.output hlive htyped hrun, howed]
  obtain ⟨-, hparser, hunchanged⟩ := feed_between engineWatermark items later
  have hdispatches := hon.dispatches
  rw [hlater, hparser, hunchanged] at hdispatches
  rw [terminalOf_eq, houtput]
  refine ⟨?_, ?_, ?_⟩
  · rw [hon.parser, hsession]
  · rw [← hsession]
    exact hon.tracked
  · rw [hlater]
    exact hdispatches

/-- The writer of the client of {lit}`redAttach`. -/
def redSends : List WriterStep :=
  [.recv ⟨.data, [0x1B, 0x5B, 0x33, 0x31, 0x6D]⟩, .accept 10, .recv (statusFrame ⟨false, none⟩),
    .accept 38, .recv ⟨.data, [104, 105]⟩, .accept 7]

def redSegments : List (List UInt8) :=
  [framing.wire [⟨.data, [0x1B, 0x5B, 0x33, 0x31, 0x6D]⟩, statusFrame ⟨false, none⟩,
    ⟨.data, [104, 105]⟩]]

/-- The client of {lit}`redAttach` has received everything. -/
theorem redAttach_caughtUp {w : World}
    (hw : (machine .default).run (start shell) redAttach = some w) :
    CaughtUp 0 w redSegments := by
  have hsends : (Writer.machine.run Writer.new redSends).isSome = true := by decide +kernel
  have hempty : ∀ w ∈ (machine .default).run (start shell) redAttach,
      (w.outQueues 0).queued = [] := by
    decide +kernel
  have hwriter : ∀ w ∈ (machine .default).run (start shell) redAttach,
      ∀ x ∈ Writer.machine.run Writer.new redSends, x.received = w.taken 0 ∧
        x.phase = .receiving ∧ redSegments.flatten = x.written := by
    decide +kernel
  have hnone : ∀ w ∈ (machine .default).run (start shell) redAttach,
      w.history.any Event.refused = false := by
    decide +kernel
  obtain ⟨x, hx⟩ := Option.isSome_iff_exists.mp hsends
  refine ⟨?_, hempty w hw, redSends, x, hx, hwriter w hw x hx⟩
  rintro ⟨f, stage, hmem⟩
  exact not_mem_of_refused (hnone w hw) 0 f stage hmem

/-- The terminal of this client shows what the engine tracks. -/
theorem client_in_step_red :
    ∃ w, (machine .default).run (start shell) redAttach = some w ∧
      (terminalOf 64 (feedSegments redSegments).frames).parser = w.session.engine.scanner.parser ∧
      SameTracked (terminalOf 64 (feedSegments redSegments).frames).sink.sticky
        w.session.engine.scanner.sink.sticky ∧
      table.outputs table.init (output (feedSegments redSegments).frames) =
        table.outputs table.init [0x1B, 0x5B, 0x33, 0x31, 0x6D] ++
          table.outputs table.init (Item.stream letters) := by
  obtain ⟨w, hw, hphase, hcurrent, hsplit, hbefore, hdrained⟩ := redAttach_runs
  exact ⟨w, hw, client_in_step .default shell rfl rfl redAttach (by decide +kernel) w hw hphase _ _ 0 _
    hsplit hcurrent redSegments (redAttach_caughtUp hw) [redItem] letters hbefore hdrained 64⟩

/-! ## What a client knows of its session -/

/-- As long as the loop runs, nothing follows an EXIT. -/
theorem exitLast_running {session : Session} {labels : List Label}
    (hrun : (machine opts).run (start session) labels = some w) (hloop : w.phase = .running) :
    Exiting opts w ∧ w.ExitLast := by
  have hboth : Exiting opts w ∧ (w.phase = .running → w.ExitLast) := by
    apply (machine opts).run_induct
      (motive := fun x => Exiting opts x ∧ (x.phase = .running → x.ExitLast)) ?_ ?_ hrun
    · rintro x label y ⟨hx, hlast⟩ hstep
      refine ⟨exiting_step hx hstep, fun hy => ?_⟩
      have hbefore := hlast (running_of_step hstep hy)
      rcases step_report hx hstep with ⟨hreport, -⟩ | ⟨d, ok, hfarewell, -⟩
      · exact hreport.exitLast hx hbefore
      · rw [hfarewell.left] at hy
        cases hy
    · refine ⟨exiting_start opts session, fun _ => ?_⟩
      intro c earlier f later heq
      cases earlier with
      | nil => cases heq
      | cons g earlier => cases heq
  exact ⟨hboth.1, hboth.2 hloop⟩

/-- As long as no handshake misses a frame, the record of the last STATUS is in step. -/
theorem inStep_run {session : Session} {labels : List Label}
    (hrun : (machine opts).run (start session) labels = some w)
    (hhandshakes : ∀ d f, .sent d f .handshake false ∉ w.history) : InStep w := by
  have hinvariant : ((∀ d, Feed opts d w) ∧ Introduced w) ∧ (Unbroken w.history → InStep w) := by
    apply (machine opts).run_induct (motive := fun x =>
      ((∀ d, Feed opts d x) ∧ Introduced x) ∧ (Unbroken x.history → InStep x)) ?_ ?_ hrun
    · rintro x label y ⟨⟨hfeed, hintroduced⟩, hx⟩ hstep
      refine ⟨⟨fun d => (kept_feed opts d).step (hfeed d) hstep,
        introduced_step hintroduced hstep⟩, ?_⟩
      intro hafter
      have hbefore := hafter.suffix (history_step hstep)
      exact noted_step (hx hbefore) hfeed hintroduced hbefore hafter hstep
    · refine ⟨⟨fun d => feed_start opts d session, introduced_start session⟩, fun _ => ?_⟩
      exact ⟨⟨fun _ => List.IsChain.nil, fun _ hbound => by cases hbound⟩,
        fun _ hbound => by cases hbound⟩
  apply hinvariant.2
  rintro d ⟨f, hf⟩
  exact hhandshakes d f hf

/-- A list in which only the last element can satisfy a test, and some element does. -/
theorem getLast?_of_only_last {α : Type} {xs : List α} {p : α → Bool} {x : α} (hx : x ∈ xs)
    (hp : p x = true)
    (hlast : ∀ earlier y later, xs = earlier ++ y :: later → p y = true → later = []) :
    xs.getLast? = some x ∧ xs.countP p = 1 := by
  obtain ⟨earlier, later, rfl⟩ := List.append_of_mem hx
  obtain rfl := hlast earlier x later rfl hp
  refine ⟨List.getLast?_concat, ?_⟩
  have hnone : earlier.countP p = 0 := by
    rw [List.countP_eq_zero]
    intro y hy hpy
    obtain ⟨before, after, rfl⟩ := List.append_of_mem hy
    have hafter := hlast before y (after ++ [x]) (by simp) hpy
    simp at hafter
  rw [List.countP_append, hnone]
  simp [hp]

/-- In every run whose handshakes miss nothing: a client that is bound and has received
everything has decoded all the output due to it, its last STATUS is the session's, and it
has decoded an EXIT, as its last frame, just when the shell has exited, with that status. -/
theorem client_informed (opts : ServerOpts) (session : Session) (hlive : session.lifecycle = .live)
    (labels : List Label) (htyped : ∀ label ∈ labels, waitsTyped label.waits = true) (w : World)
    (hrun : (machine opts).run (start session) labels = some w) (hloop : w.phase = .running)
    (hhandshakes : ∀ d f, .sent d f .handshake false ∉ w.history)
    (c : ClientId) (hbound : w.client = some c) (segments : List (List UInt8))
    (hcaught : CaughtUp c w segments) :
    output (feedSegments segments).frames = owed c w.history ∧
      ((feedSegments segments).frames.filter fun f => f.ty == .status).getLast? =
        some (statusFrame w.effectiveStatus) ∧
      (w.session.lifecycle = .live → ∀ f ∈ (feedSegments segments).frames, f.ty ≠ .exit) ∧
      ∀ code, w.session.lifecycle = .dead code →
        (feedSegments segments).frames.getLast? = some (exitFrame code) ∧
          (feedSegments segments).frames.countP (fun f => f.ty == .exit) = 1 := by
  have houtput := hcaught.output hlive htyped hrun
  have hinStep := inStep_run hrun hhandshakes
  obtain ⟨hexiting, hlast⟩ := exitLast_running hrun hloop
  rw [hcaught.frames hlive htyped hrun] at houtput ⊢
  refine ⟨houtput, ?_, ?_, ?_⟩
  · have hcurrent := hinStep.current hloop (by rw [hbound]; rfl)
    obtain ⟨s, hrecorded, hend⟩ := hinStep.noted.told c hbound
    rw [hcurrent, Option.some.injEq] at hrecorded
    rw [hrecorded]
    exact hend
  · intro halive f hf hty
    obtain ⟨code, hdead, -⟩ := hexiting.status c f hf hty
    rw [halive] at hdead
    cases hdead
  · intro code hdead
    have hisDead : w.session.isDead = true := by
      rw [Session.isDead, hdead]
    obtain ⟨f, hf, hty⟩ := hexiting.told hisDead hloop c hbound
    obtain ⟨status, hstored, rfl⟩ := hexiting.status c f hf hty
    rw [hdead, Lifecycle.dead.injEq] at hstored
    subst hstored
    apply getLast?_of_only_last hf rfl
    intro earlier g later heq hg
    exact hlast c earlier g later heq (by simpa using hg)

/-- The shell prints a word to an attached client and exits. -/
def lastWord : List Label :=
  [.asyncFdOk, .send (.attach ⟨0, 80, 24, 0⟩), .command .none,
    .readable { Answers.none with reads := [.ok [98, 121, 101], .ok []], waits := [.ok (.exited 3)] },
    .writer (.pop 0), .writer (.pop 0), .writer (.pop 0)]

def lastWordSends : List WriterStep :=
  [.recv (statusFrame ⟨false, none⟩), .accept 38, .recv ⟨.data, [98, 121, 101]⟩, .accept 8,
    .recv (exitFrame 3), .accept 17]

def lastWordSegments : List (List UInt8) :=
  [framing.wire [statusFrame ⟨false, none⟩, ⟨.data, [98, 121, 101]⟩, exitFrame 3]]

/-- The client has the word, the last STATUS and the EXIT. -/
theorem client_informed_lastWord :
    ∃ w, (machine .default).run (start shell) lastWord = some w ∧
      output (feedSegments lastWordSegments).frames = owed 0 w.history ∧
      ((feedSegments lastWordSegments).frames.filter fun f => f.ty == .status).getLast? =
        some (statusFrame w.effectiveStatus) ∧
      (feedSegments lastWordSegments).frames.getLast? = some (exitFrame 3) := by
  have hsome : ((machine .default).run (start shell) lastWord).isSome = true := by decide +kernel
  have hsends : (Writer.machine.run Writer.new lastWordSends).isSome = true := by decide +kernel
  have hstate : ∀ w ∈ (machine .default).run (start shell) lastWord,
      w.phase = .running ∧ w.client = some 0 ∧ w.session.lifecycle = .dead 3 ∧
        (w.outQueues 0).queued = [] := by
    decide +kernel
  have hwriter : ∀ w ∈ (machine .default).run (start shell) lastWord,
      ∀ x ∈ Writer.machine.run Writer.new lastWordSends, x.received = w.taken 0 ∧
        x.phase = .receiving ∧ lastWordSegments.flatten = x.written := by
    decide +kernel
  have hnone : ∀ w ∈ (machine .default).run (start shell) lastWord,
      w.history.any Event.refused = false := by
    decide +kernel
  obtain ⟨w, hw⟩ := Option.isSome_iff_exists.mp hsome
  obtain ⟨x, hx⟩ := Option.isSome_iff_exists.mp hsends
  obtain ⟨hphase, hclient, hdead, hempty⟩ := hstate w hw
  have hmissed : ∀ d f stage, .sent d f stage false ∉ w.history := not_mem_of_refused (hnone w hw)
  have hcaught : CaughtUp 0 w lastWordSegments := by
    refine ⟨?_, hempty, lastWordSends, x, hx, hwriter w hw x hx⟩
    rintro ⟨f, stage, hmem⟩
    exact hmissed 0 f stage hmem
  obtain ⟨houtput, hstatus, -, hexit⟩ := client_informed .default shell rfl lastWord
    (by decide +kernel) w hw hphase (fun d f => hmissed d f .handshake) 0 hclient lastWordSegments hcaught
  exact ⟨w, hw, houtput, hstatus, (hexit 3 hdead).1⟩

end World

end JftermMuxer.Daemon
