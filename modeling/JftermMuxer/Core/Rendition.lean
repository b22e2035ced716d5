import JftermMuxer.Vte.Terminal
import JftermMuxer.Core.Watermark

/-!
# The graphic rendition across a cut

SGR sequences accumulate: each one changes the rendition that the ones before it
have built up.  The tracker remembers the parameters of the last one only, so a
prologue restores the rendition in force exactly when the last sequence, read
after a reset, gives all of it.

Main results:

- Theorem {lit}`sticky_styled`: what the tracker remembers of styled text.
- Theorem {lit}`render_prologue`: the rendition a prologue establishes.
- Theorem {lit}`restores_iff`: every capped replay restores the rendition, at
  every moment of a stream, exactly when the last SGR alone gives the rendition in
  force at every cut.
-/

namespace JftermMuxer.Core

open Foundation Vte

/-! ## Styled text -/

/-- The values of an SGR sequence, as the parser reads them. -/
def sgrValues (params : List UInt8) : List UInt16 :=
  (csiSeq none params []).finish.params.groups.flatten

/-- Characters and SGR sequences without a private byte, intermediates or colons. -/
inductive Styled where
  | text (encoded : List UInt8) (scalar : IsScalar encoded)
      (printable : isControlChar encoded = false)
  | sgr (params : List UInt8) (listed : ∀ b ∈ params, isDigit b = true ∨ b = 0x3B)

namespace Styled

private theorem isParamByte_of_listed {params : List UInt8}
    (listed : ∀ b ∈ params, isDigit b = true ∨ b = 0x3B) : ∀ b ∈ params, isParamByte b = true := by
  intro b hb
  rcases listed b hb with hdigit | hsemicolon
  · simp [isParamByte, hdigit]
  · rw [hsemicolon]
    rfl

private theorem isFinal_sgr : isFinal 0x6D = true := rfl

/-- A piece of styled text as an item of a well-formed stream. -/
def item : Styled → Item
  | text encoded scalar printable => .char encoded scalar printable
  | sgr params listed =>
      .csi none params [] 0x6D no_marker (isParamByte_of_listed listed) no_intermediates isFinal_sgr

/-- The bytes of styled text. -/
def stream (pieces : List Styled) : List UInt8 := Item.stream (pieces.map item)

/-- Every piece is kept. -/
theorem verdict_item (x : Styled) : verdict x.item = .keep := by
  cases x <;> rfl

/-- The item of a piece has no tail. -/
theorem hasTail_item (x : Styled) : x.item.hasTail = false := by
  cases x <;> rfl

/-- The values of the last SGR sequence, none before the first. -/
def lastSgr (pieces : List Styled) : List UInt16 :=
  pieces.foldl
    (fun last x => match x with
      | text _ _ _ => last
      | sgr params _ => sgrValues params)
    []

/-- Text leaves the last SGR. -/
theorem lastSgr_text (pieces : List Styled) {encoded : List UInt8} (scalar : IsScalar encoded)
    (printable : isControlChar encoded = false) :
    lastSgr (pieces ++ [text encoded scalar printable]) = lastSgr pieces := by
  simp [lastSgr]

/-- An SGR is the last one until the next. -/
theorem lastSgr_sgr (pieces : List Styled) {params : List UInt8}
    (listed : ∀ b ∈ params, isDigit b = true ∨ b = 0x3B) :
    lastSgr (pieces ++ [sgr params listed]) = sgrValues params := by
  simp [lastSgr]

end Styled

/-! ## What the tracker remembers -/

/-- The tracker stores a bare reset as no parameters. -/
def storedSgr (values : List UInt16) : List UInt16 :=
  if values = [] ∨ values = [0] then [] else values

/-- On a plain rendition the stored list does what the whole one does. -/
theorem sgr_storedSgr (values : List UInt16) :
    Rendition.default.sgr (storedSgr values) = Rendition.default.sgr values := by
  unfold storedSgr
  split
  · rename_i hreset
    rcases hreset with rfl | rfl
    · rfl
    · rw [Rendition.sgr_nil, Rendition.sgr_reset]
  · rfl

/-- A CSI that ends in an {lit}`m` is tracked unless its private byte is a question
mark. -/
theorem track_sgr (s : StickyState) (groups : List (List UInt16)) {intermediates : List UInt8}
    (h : intermediates.head? ≠ some 0x3F) (ignore : Bool) :
    track s (.csiDispatch groups intermediates ignore 0x6D) = s.setSgr (storedSgr groups.flatten) := by
  have hstep : track s (.csiDispatch groups intermediates ignore 0x6D) =
      if groups.flatten = [] ∨ groups.flatten = [0] then s.setSgr [] else s.setSgr groups.flatten := by
    simp only [track, Sink.perform, Sink.csiDispatch]
    rw [if_neg (by decide), if_neg (by decide), if_pos ⟨trivial, h⟩]
  rw [hstep, storedSgr]
  split
  · rfl
  · rfl

/-- The callback of an SGR sequence. -/
theorem callback_sgr {params : List UInt8} (listed : ∀ b ∈ params, isDigit b = true ∨ b = 0x3B) :
    (Styled.sgr params listed).item.callback =
      .csiDispatch (csiSeq none params []).finish.params.groups []
        (csiSeq none params []).finish.ignoring 0x6D := by
  have hints := intermediates_csiSeq none params
  simp only [Styled.item, Item.callback, csiCallback, hints]
  rfl

/-- After styled text the tracked state is the initial one with the last SGR. -/
theorem sticky_styled (pieces : List Styled) :
    (frontAfter (pieces.map Styled.item)).sink.sticky =
      StickyState.new.setSgr (storedSgr (Styled.lastSgr pieces)) := by
  induction pieces using List.reverseRecOn with
  | nil => rfl
  | append_singleton pieces x ih =>
      obtain ⟨-, hsticky, -⟩ :=
        after_snoc 0 (pieces.map Styled.item) x.item (atRest_frontAfter _)
      rw [List.map_append, List.map_singleton, hsticky, ih]
      cases x with
      | text encoded scalar printable =>
          rw [Styled.lastSgr_text]
          rfl
      | sgr params listed =>
          rw [Styled.lastSgr_sgr, callback_sgr, track_sgr _ _ (by simp)]
          rfl

/-! ## Rendering -/

/-- A prologue of an SGR alone: a reset and the values. -/
theorem prologueCallbacks_setSgr (values : List UInt16) :
    prologueCallbacks (StickyState.new.setSgr values) =
      csiCallback none [0x30] [] 0x6D ::
        if values = [] then [] else [csiCallback none (StickyState.joinParams values) [] 0x6D] := by
  simp [prologueCallbacks, sgrCallbacks, decModeCallbacks, scrollRegionCallbacks, cwdCallbacks,
    titleCallbacks, StickyState.setSgr, StickyState.invalidate, StickyState.new, DecModes.empty]
  rfl

/-- The rendition that the prologue of styled text establishes: the last SGR, read
after a reset. -/
theorem render_prologue (pieces : List Styled) :
    Rendition.terminal.render
        (frontAfter (pieces.map Styled.item)).sink.sticky.buildSerialized =
      Rendition.default.sgr (Styled.lastSgr pieces) := by
  have hrun := run_buildSerialized (plainFront_frontAfter (pieces.map Styled.item)).2
  have hlen := (trackable_frontAfter (pieces.map Styled.item)).sgr_length
  rw [sticky_styled] at hrun hlen ⊢
  rw [Terminal.render, Transducer.outputs, hrun, ← sgr_storedSgr]
  generalize storedSgr (Styled.lastSgr pieces) = values at hlen ⊢
  have hreset : Rendition.terminal.perform Rendition.terminal.cold
      (csiCallback none [0x30] [] 0x6D) = Rendition.default := rfl
  rw [prologueCallbacks_setSgr, Terminal.performAll_cons, hreset]
  by_cases hnil : values = []
  · rw [if_pos hnil, hnil]
    rfl
  · have hflat := flatten_groups_joinParams none hnil hlen
    have hints := intermediates_csiSeq none (StickyState.joinParams values)
    rw [if_neg hnil, Terminal.performAll_cons, Terminal.performAll_nil]
    simp [Rendition.terminal, Rendition.perform, csiCallback, hints, hflat]

/-- One more piece is one more callback. -/
theorem render_stream_styled (pieces : List Styled) (x : Styled) :
    Rendition.terminal.render (Styled.stream (pieces ++ [x])) =
      Rendition.terminal.perform (Rendition.terminal.render (Styled.stream pieces))
        x.item.callback := by
  rw [Styled.stream, List.map_append, List.map_singleton]
  exact Rendition.terminal.render_stream_snoc _ x.hasTail_item

/-! ## Cuts -/

/-- A styled piece is kept as one span. -/
theorem applyAll_itemOps_styled (r : ChunkRing) (x : Styled) (prologue : List UInt8) :
    r.applyAll (itemOps x.item prologue) = r.apply (.keep x.item.bytes prologue) := by
  have hfits : Fits r x.item := by
    intro htail
    rw [x.hasTail_item] at htail
    contradiction
  exact applyAll_itemOps_of_fits hfits x.verdict_item prologue

/-- The ring after one more piece. -/
theorem ringAfter_styled (watermark : Nat) (pieces : List Styled) (x : Styled) :
    ringAfter watermark ((pieces ++ [x]).map Styled.item) =
      (ringAfter watermark (pieces.map Styled.item)).apply (.keep x.item.bytes
        (frontAfter ((pieces ++ [x]).map Styled.item)).sink.sticky.buildSerialized) := by
  obtain ⟨-, -, hring⟩ :=
    after_snoc watermark (pieces.map Styled.item) x.item (atRest_frontAfter _)
  rw [List.map_append, List.map_singleton, hring, applyAll_itemOps_styled]

/-- A piece that arrives after the given ones seals the open chunk. -/
def Seals (watermark : Nat) (before : List Styled) (x : Styled) : Prop :=
  watermark ≤ (Scanner.feed table (Scanner.new table watermark)
    (Styled.stream before)).ring.openChunk.data.length + x.item.bytes.length

/-- At every cut the last SGR, read after a reset, gives the rendition in force. -/
def LastSgrSuffices (watermark : Nat) (pieces : List Styled) : Prop :=
  ∀ before x after, pieces = before ++ x :: after → Seals watermark before x →
    Rendition.default.sgr (Styled.lastSgr (before ++ [x])) =
      Rendition.terminal.render (Styled.stream (before ++ [x]))

private theorem ring_stream_styled (watermark : Nat) (pieces : List Styled) :
    (Scanner.feed table (Scanner.new table watermark) (Styled.stream pieces)).ring =
      ringAfter watermark (pieces.map Styled.item) :=
  (feed_between watermark (pieces.map Styled.item) []).1

private theorem seals_iff (watermark : Nat) (before : List Styled) (x : Styled) :
    Seals watermark before x ↔
      (ringAfter watermark (before.map Styled.item)).watermark ≤
        (ringAfter watermark (before.map Styled.item)).openChunk.data.length +
          x.item.bytes.length := by
  rw [Seals, ring_stream_styled, watermark_ringAfter]

/-- Along a stream whose cuts the last SGR survives, every capped replay renders as
the stream. -/
theorem render_replay_of_lastSgr {watermark : Nat} {pieces : List Styled}
    (h : LastSgrSuffices watermark pieces) (k : Nat) :
    Rendition.terminal.render ((ringAfter watermark (pieces.map Styled.item)).replay k) =
      Rendition.terminal.render (Styled.stream pieces) := by
  induction pieces using List.reverseRecOn generalizing k with
  | nil =>
      change Rendition.terminal.render ((ChunkRing.new watermark).replay k) = _
      rw [ChunkRing.replay_new]
      rfl
  | append_singleton pieces x ih =>
      have hinit : LastSgrSuffices watermark pieces := by
        intro before y after hsplit
        exact h before y (after ++ [x]) (by rw [hsplit]; simp)
      have happend : ∀ k, Rendition.terminal.render
          (((ringAfter watermark (pieces.map Styled.item)).append x.item.bytes).replay k) =
            Rendition.terminal.render (Styled.stream (pieces ++ [x])) := by
        intro k
        have hground := (reads_ringAfter watermark (pieces.map Styled.item) k).state
        rw [ChunkRing.replay_append, Terminal.render_append_item _ hground x.hasTail_item,
          ih hinit, render_stream_styled]
      rw [ringAfter_styled]
      by_cases hseals : Seals watermark pieces x
      · have hprologue := h pieces x [] rfl hseals
        rw [← render_prologue] at hprologue
        rw [ChunkRing.apply_keep_of_le ((seals_iff watermark pieces x).mp hseals)]
        exact ChunkRing.forall_replay_cut
          (P := fun bytes => Rendition.terminal.render bytes = _) happend hprologue k
      · rw [seals_iff] at hseals
        rw [ChunkRing.apply_keep_of_lt (by omega)]
        exact happend k

/-! ## Main result -/

/-- A cold terminal that reads a capped replay of styled text, fed in any number of
calls, ends with the rendition that the text itself leaves. -/
def Restores (watermark : Nat) (pieces : List Styled) : Prop :=
  ∀ (feeds : List (List UInt8)) (wantChunks : Nat), feeds.flatten = Styled.stream pieces →
    Rendition.terminal.render
        ((Scanner.feedAll table (Scanner.new table watermark) feeds).replay wantChunks) =
      Rendition.terminal.render (Styled.stream pieces)

/-- The replay of pieces is that of the ring they leave. -/
theorem replay_styled {watermark : Nat} {pieces : List Styled} {feeds : List (List UInt8)}
    (hfeeds : feeds.flatten = Styled.stream pieces) (wantChunks : Nat) :
    (Scanner.feedAll table (Scanner.new table watermark) feeds).replay wantChunks =
      (ringAfter watermark (pieces.map Styled.item)).replay wantChunks :=
  replay_feedAll hfeeds wantChunks

/-- The chunk that a cut opens is its prologue alone, so the prologue has to give
the rendition in force. -/
theorem lastSgr_of_restores {watermark : Nat} {before : List Styled} {x : Styled}
    (h : Restores watermark (before ++ [x])) (hseals : Seals watermark before x) :
    Rendition.default.sgr (Styled.lastSgr (before ++ [x])) =
      Rendition.terminal.render (Styled.stream (before ++ [x])) := by
  have hlast := h [Styled.stream (before ++ [x])] 1 List.flatten_singleton
  rw [replay_styled List.flatten_singleton, ringAfter_styled,
    ChunkRing.apply_keep_of_le ((seals_iff watermark before x).mp hseals),
    ChunkRing.replay_cut_one _ _ (Nat.le_refl 1), render_prologue] at hlast
  exact hlast

/-- Every capped replay restores the rendition, at every moment of a stream, exactly
when the last SGR alone gives the rendition in force at every cut. -/
theorem restores_iff (watermark : Nat) (pieces : List Styled) :
    (∀ before after, pieces = before ++ after → Restores watermark before) ↔
      LastSgrSuffices watermark pieces := by
  constructor
  · intro h before x after hsplit hseals
    have hbefore := h (before ++ [x]) after (by rw [hsplit]; simp)
    exact lastSgr_of_restores hbefore hseals
  · intro h before after hsplit feeds wantChunks hfeeds
    rw [replay_styled hfeeds]
    apply render_replay_of_lastSgr
    intro first x rest hfirst
    exact h first x (rest ++ after) (by rw [hsplit, hfirst]; simp)

/-- Bold, then red, and a cut after each: the prologue of the last chunk restores
red and loses bold. -/
theorem bold_lost_at_cut :
    ¬ ∀ (watermark : Nat) (pieces : List Styled), Restores watermark pieces := by
  intro h
  have hrender := h 1
    [.sgr [0x31] (by simp [isDigit]), .sgr [0x33, 0x31] (by simp [isDigit])]
    [[0x1B, 0x5B, 0x31, 0x6D, 0x1B, 0x5B, 0x33, 0x31, 0x6D]] 1 rfl
  exact absurd hrender (by decide +kernel)

end JftermMuxer.Core
