import JftermMuxer.Vte.Terminal
import JftermMuxer.Core.Seamless

/-!
# The fidelity oracle

{lit}`core/tests/oracle.rs` renders a stream and its replay and compares the
screens.  This file does so for all streams of characters, CR, LF, cursor
positions and erasures.  A clear replaces the drawing history by a fixed base,
which is right when the clear leaves a blank screen with the cursor at home.

Main results:

- Theorem {lit}`render_full_snoc`: what one more stroke does to the rendered
  replay.
- Theorem {lit}`faithful_iff`: from its last clear on, the replay of a drawing is
  faithful exactly when that clear found the cursor at home and, if it erases the
  scrollback only, a blank screen.
-/

namespace JftermMuxer.Core

open Foundation Vte

/-! ## The language -/

/-- The modes of erase in display, 0 to 3. -/
inductive EraseMode where
  | below
  | above
  | all
  | scrollback
deriving DecidableEq, Repr

/-- The digit that selects a mode. -/
def EraseMode.digit : EraseMode → UInt8
  | below => 0x30
  | above => 0x31
  | all => 0x32
  | scrollback => 0x33

/-- The sequences of the drawing language. -/
inductive Stroke where
  | print (byte : UInt8) (low : 0x20 ≤ byte) (high : byte ≤ 0x7E)
  | carriageReturn
  | lineFeed
  | cursorPosition (row column : Nat)
  | eraseInDisplay (mode : EraseMode)

namespace Stroke

private theorem printable_char {byte : UInt8} (low : 0x20 ≤ byte) (high : byte ≤ 0x7E) :
    byte < 0x80 ∧ isControlChar [byte] = false := by
  have hlow : ¬ byte < 0x20 := by grind
  have hdel : byte ≠ 0x7F := by grind
  refine ⟨by grind, ?_⟩
  simp [isControlChar, hlow, hdel]

private theorem listed_mode (mode : EraseMode) : ∀ b ∈ [mode.digit], isParamByte b = true := by
  intro b hb
  rw [List.mem_singleton.mp hb]
  cases mode <;> rfl

private theorem isFinal_cursorPosition : isFinal 0x48 = true := rfl

private theorem isFinal_eraseInDisplay : isFinal 0x4A = true := rfl

/-- A stroke as an item of a well-formed stream. -/
def item : Stroke → Item
  | print byte low high =>
      .char [byte] (.one (printable_char low high).1) (printable_char low high).2
  | carriageReturn => .control 0x0D (by decide) (by decide)
  | lineFeed => .control 0x0A (by decide) (by decide)
  | cursorPosition row column =>
      .csi none (decimal row ++ [0x3B] ++ decimal column) [] 0x48 no_marker
        (fun _ hb => isParamByte_of_mem_pair hb) no_intermediates isFinal_cursorPosition
  | eraseInDisplay mode =>
      .csi none [mode.digit] [] 0x4A no_marker (listed_mode mode) no_intermediates
        isFinal_eraseInDisplay

/-- The bytes of a drawing. -/
def stream (strokes : List Stroke) : List UInt8 := Item.stream (strokes.map item)

/-- The strokes that purge the ring: erasures with mode 2 or 3. -/
def purges : Stroke → Bool
  | eraseInDisplay .all => true
  | eraseInDisplay .scrollback => true
  | _ => false

/-- A stroke is kept unless it purges. -/
theorem verdict_item (x : Stroke) : verdict x.item = if x.purges then .clear else .keep := by
  cases x with
  | print byte low high => rfl
  | carriageReturn => rfl
  | lineFeed => rfl
  | cursorPosition row column => rfl
  | eraseInDisplay mode => cases mode <;> rfl

/-- The item of a stroke has no tail. -/
theorem hasTail_item (x : Stroke) : x.item.hasTail = false := by
  cases x <;> rfl

/-- No stroke is tracked. -/
theorem track_item (s : StickyState) (x : Stroke) : track s x.item.callback = s := by
  cases x with
  | print byte low high => rfl
  | carriageReturn => rfl
  | lineFeed => rfl
  | cursorPosition row column =>
      simp [track, item, Item.callback, csiCallback, Sink.perform, Sink.csiDispatch]
  | eraseInDisplay mode =>
      simp [track, item, Item.callback, csiCallback, Sink.perform, Sink.csiDispatch]

end Stroke

/-- The tracked state stays the initial one. -/
theorem sticky_strokes (strokes : List Stroke) :
    (frontAfter (strokes.map Stroke.item)).sink.sticky = StickyState.new := by
  induction strokes using List.reverseRecOn with
  | nil => rfl
  | append_singleton strokes x ih =>
      obtain ⟨-, hsticky, -⟩ :=
        after_snoc 0 (strokes.map Stroke.item) x.item (atRest_frontAfter _)
      rw [List.map_append, List.map_singleton, hsticky, ih, x.track_item]

/-! ## Rendering the replay -/

/-- The base of a purge shows a blank screen with the cursor at home. -/
theorem render_clearBase :
    Screen.terminal.render (clearBase ++ StickyState.new.buildSerialized) = Screen.blank := by
  rw [Screen.eq_blank_iff]
  exact ⟨⟨rfl, rfl⟩, fun _ _ => rfl⟩

/-- The screen that a purge base and the strokes since then show. -/
def showAfter (s : Screen) (x : Stroke) : Screen :=
  if x.purges then Screen.blank else Screen.terminal.perform s x.item.callback

/-- One more stroke: a purge restarts from a blank screen, any other stroke goes on
drawing. -/
theorem render_full_snoc (watermark : Nat) (strokes : List Stroke) (x : Stroke) :
    Screen.terminal.render (ringAfter watermark ((strokes ++ [x]).map Stroke.item)).full =
      showAfter (Screen.terminal.render (ringAfter watermark (strokes.map Stroke.item)).full) x := by
  have hsticky := sticky_strokes (strokes ++ [x])
  obtain ⟨-, -, hring⟩ :=
    after_snoc watermark (strokes.map Stroke.item) x.item (atRest_frontAfter _)
  rw [List.map_append, List.map_singleton] at hsticky ⊢
  rw [hring, full_itemOps, hsticky, x.verdict_item, showAfter]
  cases hpurges : x.purges with
  | true => exact render_clearBase
  | false =>
      exact Screen.terminal.render_append_item (stateAfter_full watermark _) x.hasTail_item

/-- One more stroke is one more callback. -/
theorem render_stream_strokes (strokes : List Stroke) (x : Stroke) :
    Screen.terminal.render (Stroke.stream (strokes ++ [x])) =
      Screen.terminal.perform (Screen.terminal.render (Stroke.stream strokes)) x.item.callback := by
  rw [Stroke.stream, List.map_append, List.map_singleton]
  exact Screen.terminal.render_stream_snoc _ x.hasTail_item

/-! ## Clears -/

/-- A stroke that, if it purges, leaves the screen as the purge base shows it: mode
2 finds the cursor at home, mode 3 also finds nothing on the screen. -/
def Stroke.Harmless (s : Screen) : Stroke → Prop
  | .eraseInDisplay .all => s.AtHome
  | .eraseInDisplay .scrollback => s.AtHome ∧ s.IsBlank
  | _ => True

/-- A stroke is harmless exactly when the replay goes on showing what the terminal
shows. -/
theorem harmless_iff (s : Screen) (x : Stroke) :
    x.Harmless s ↔ showAfter s x = Screen.terminal.perform s x.item.callback := by
  cases x with
  | eraseInDisplay mode =>
      cases mode with
      | below => exact iff_of_true trivial rfl
      | above => exact iff_of_true trivial rfl
      | all =>
          have herase : Screen.terminal.perform s (Stroke.eraseInDisplay .all).item.callback =
              s.eraseInDisplay 2 := rfl
          rw [herase, eq_comm]
          exact s.erase_all_eq_blank_iff.symm
      | scrollback =>
          have herase : Screen.terminal.perform s
              (Stroke.eraseInDisplay .scrollback).item.callback = s := rfl
          rw [herase, eq_comm]
          exact s.eq_blank_iff.symm
  | _ => exact iff_of_true trivial rfl

/-! ## Main result -/

/-- The full replay of a drawing, fed in any number of calls, shows on a blank
terminal what the drawing itself shows: the same cells and the same cursor.  The
length of a vector is a {lit}`usize`. -/
def Faithful (watermark : Nat) (strokes : List Stroke) : Prop :=
  ∀ feeds : List (List UInt8), feeds.flatten = Stroke.stream strokes →
    let s := Scanner.feedAll table (Scanner.new table watermark) feeds
    s.ring.chunks.length ≤ usizeMax →
      Screen.terminal.render (s.replay usizeMax) = Screen.terminal.render (Stroke.stream strokes)

/-- The replay of strokes is that of the ring they leave. -/
theorem replay_strokes {watermark : Nat} {strokes : List Stroke} {feeds : List (List UInt8)}
    (hfeeds : feeds.flatten = Stroke.stream strokes)
    (hlen : (Scanner.feedAll table (Scanner.new table watermark) feeds).ring.chunks.length ≤
      usizeMax) :
    (Scanner.feedAll table (Scanner.new table watermark) feeds).replay usizeMax =
      (ringAfter watermark (strokes.map Stroke.item)).full := by
  rw [Scanner.replay, ChunkRing.replay_of_length_le _ hlen, Scanner.feedAll_eq_feed, hfeeds]
  exact congrArg ChunkRing.full (feed_between watermark (strokes.map Stroke.item) []).1

/-- The ring after a purge is a single chunk. -/
theorem length_ringAfter_of_purges (watermark : Nat) (strokes : List Stroke) {x : Stroke}
    (h : x.purges = true) :
    (ringAfter watermark ((strokes ++ [x]).map Stroke.item)).chunks.length = 1 := by
  obtain ⟨-, -, hring⟩ :=
    after_snoc watermark (strokes.map Stroke.item) x.item (atRest_frontAfter _)
  rw [List.map_append, List.map_singleton, hring, itemOps, x.verdict_item, h, x.hasTail_item]
  rfl

/-- A drawing whose replay is faithful after a purge: the purge was harmless. -/
theorem harmless_of_faithful {watermark : Nat} {strokes : List Stroke} {x : Stroke}
    (h : Faithful watermark (strokes ++ [x])) :
    x.Harmless (Screen.terminal.render (Stroke.stream strokes)) := by
  cases hpurges : x.purges with
  | false =>
      rw [harmless_iff, showAfter, hpurges]
      rfl
  | true =>
      have hone := length_ringAfter_of_purges watermark strokes hpurges
      have hring : (Scanner.feedAll table (Scanner.new table watermark)
          [Stroke.stream (strokes ++ [x])]).ring =
            ringAfter watermark ((strokes ++ [x]).map Stroke.item) := by
        rw [Scanner.feedAll_eq_feed, List.flatten_singleton]
        exact (feed_between watermark ((strokes ++ [x]).map Stroke.item) []).1
      have hlen : (Scanner.feedAll table (Scanner.new table watermark)
          [Stroke.stream (strokes ++ [x])]).ring.chunks.length ≤ usizeMax := by
        rw [hring, hone]
        decide
      have hrender := h [Stroke.stream (strokes ++ [x])] List.flatten_singleton hlen
      rw [replay_strokes List.flatten_singleton hlen, render_full_snoc, showAfter, hpurges,
        render_stream_strokes] at hrender
      rw [harmless_iff, showAfter, hpurges]
      exact hrender

/-- No stroke of the list purges. -/
def NoClear (strokes : List Stroke) : Prop := ∀ x ∈ strokes, x.purges = false

/-- The last clear of a drawing, if there is one, is harmless where it stands. -/
def LastClearHarmless (strokes : List Stroke) : Prop :=
  ∀ before x after, strokes = before ++ x :: after → NoClear after →
    x.Harmless (Screen.terminal.render (Stroke.stream before))

/-- Behind a harmless last clear the full content of the ring shows what the
drawing shows. -/
theorem render_full_of_lastClear (watermark : Nat) {strokes : List Stroke}
    (h : LastClearHarmless strokes) :
    Screen.terminal.render (ringAfter watermark (strokes.map Stroke.item)).full =
      Screen.terminal.render (Stroke.stream strokes) := by
  induction strokes using List.reverseRecOn with
  | nil => rfl
  | append_singleton strokes x ih =>
      have hlast := (harmless_iff _ x).mp (h strokes x [] rfl (by simp [NoClear]))
      rw [render_full_snoc, render_stream_strokes, ← hlast]
      cases hpurges : x.purges with
      | true =>
          -- a purge forgets what the ring has shown before
          rw [showAfter, showAfter, hpurges]
          rfl
      | false =>
          apply congrArg (showAfter · x)
          apply ih
          intro before y after hsplit hclear
          apply h before y (after ++ [x])
          · rw [hsplit]
            simp
          · intro z hz
            rcases List.mem_append.mp hz with hz | hz
            · exact hclear z hz
            · rw [List.mem_singleton.mp hz, hpurges]

/-- From the last clear of a drawing on, the replay is faithful at every moment
exactly when that clear found the cursor at home and, for mode 3, a blank screen. -/
theorem faithful_iff (watermark : Nat) (strokes : List Stroke) :
    (∀ before after, strokes = before ++ after → NoClear after → Faithful watermark before) ↔
      LastClearHarmless strokes := by
  constructor
  · intro h before x after hsplit hclear
    have hbefore := h (before ++ [x]) after (by rw [hsplit]; simp) hclear
    exact harmless_of_faithful hbefore
  · intro h before after hsplit hclear feeds hfeeds
    dsimp only
    intro hlen
    rw [replay_strokes hfeeds hlen]
    apply render_full_of_lastClear
    intro first x rest hfirst hrest
    apply h first x (rest ++ after)
    · rw [hsplit, hfirst]
      simp
    · intro y hy
      rcases List.mem_append.mp hy with hy | hy
      · exact hrest y hy
      · exact hclear y hy

/-- The letter {lit}`a` and a full clear: the replay takes the cursor home, the
terminal leaves it behind the letter. -/
theorem clear_moves_cursor :
    ¬ ∀ (watermark : Nat) (strokes : List Stroke), Faithful watermark strokes := by
  intro h
  have hrender := h 131072 [.print 0x61 (by decide) (by decide), .eraseInDisplay .all]
    [[0x61, 0x1B, 0x5B, 0x32, 0x4A]] rfl (by decide +kernel)
  have hcolumn := congrArg Screen.column hrender
  exact absurd hcolumn (by decide +kernel)

end JftermMuxer.Core
