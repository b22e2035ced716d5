import JftermMuxer.Core.Seamless
import JftermMuxer.Core.SelfContained

/-!
# Reading on after a replay

A client that attaches between two items reads some replay, of as many chunks as it
asked for, and then what the session produces.  It interprets the live bytes as the
session's own parser does, and afterwards it tracks what the session tracks.

Main results:

- Theorem {lit}`sticky_feed_items`: the tracked state of a scanner after any items is
  the front end's.
- Theorem {lit}`reads_on`: the client's parser, its dispatches and its tracked state
  after the replay and any further items.
-/

namespace JftermMuxer.Core

open Foundation Vte

/-- The tracked state of a scanner, its cache apart, is folded over the dispatches. -/
theorem erase_sticky_of_stable (watermark : Nat) {bs : List UInt8} (h : Stable bs) :
    (Scanner.feed table (Scanner.new table watermark) bs).sink.sticky.erase =
      (table.outputs (.ground []) bs).foldl track StickyState.new := by
  have hfront := congrArg (fun f => f.sink.sticky) (Scanner.front_feed table watermark bs)
  rw [h.1] at hfront
  exact hfront.trans (front_stateAfter (Front.init table) bs).2

/-- The tracked state after a well-formed stream. -/
theorem sticky_feed_items (watermark : Nat) (items : List Item) :
    (Scanner.feed table (Scanner.new table watermark) (Item.stream items)).sink.sticky.erase =
      (frontAfter items).sink.sticky := by
  rw [erase_sticky_of_stable watermark (stable_stream items)]
  exact (front_stateAfter (Front.init table) (Item.stream items)).2.symm

/-- After the front end has read some items, further items change the tracked state by
their dispatches from the ground state. -/
theorem sticky_frontAfter_append (items later : List Item) :
    (frontAfter (items ++ later)).sink.sticky =
      (table.outputs (.ground []) (Item.stream later)).foldl track (frontAfter items).sink.sticky := by
  have hsplit : frontAfter (items ++ later) =
      (Front.machine table).stateAfter (frontAfter items) (Item.stream later) := by
    rw [frontAfter, Item.stream_append, Transducer.stateAfter_append]
    rfl
  rw [hsplit, (front_stateAfter (frontAfter items) (Item.stream later)).2,
    (atRest_frontAfter items).parser]

/-- What a client has of a session: a scanner that is fed the replay of a session's
scanner and then the same live bytes, and a bare parser beside it. -/
structure ReadsOn (session fresh : Scanner State) (replay live : List UInt8) : Prop where
  /-- The parser is ready for the first live byte. -/
  ready : table.stateAfter table.init replay = .ground []
  /-- The live bytes are interpreted as the session interprets them. -/
  dispatches : table.outputs table.init (replay ++ live) = table.outputs table.init replay ++
    table.outputs session.parser (translate session.utf8Remaining live)
  /-- The two end between two items. -/
  parser : (Scanner.feed table fresh (replay ++ live)).parser =
    (Scanner.feed table session live).parser
  /-- The two track the same. -/
  tracked : SameTracked (Scanner.feed table fresh (replay ++ live)).sink.sticky
    (Scanner.feed table session live).sink.sticky

/-- A client that attaches between two items reads on like the session, whatever chunk
its replay starts from. -/
theorem reads_on (watermark freshWatermark wantChunks : Nat) (items later : List Item) :
    let session := Scanner.feed table (Scanner.new table watermark) (Item.stream items)
    ReadsOn session (Scanner.new table freshWatermark) (session.replay wantChunks)
      (Item.stream later) := by
  intro session
  obtain ⟨hring, hparser, hlive⟩ := feed_between watermark items later
  have hreads : ReadsWhole (frontAfter items).sink.sticky (session.replay wantChunks) := by
    change ReadsWhole _ (session.ring.replay wantChunks)
    rw [hring]
    exact reads_ringAfter watermark items wantChunks
  have hready : table.stateAfter (.ground []) (session.replay wantChunks) = .ground [] := hreads.state
  have hstable := hreads.stable.append (stable_stream later)
  have hsession : Scanner.feed table session (Item.stream later) =
      Scanner.feed table (Scanner.new table watermark) (Item.stream (items ++ later)) := by
    rw [Item.stream_append, Scanner.feed_append]
  refine ⟨hready, ?_, ?_, ?_⟩
  · have hoff : table.init = .ground [] := rfl
    rw [Transducer.outputs_append, hoff, hready, hparser, hlive]
  · have hfront := congrArg (fun f => f.parser) (Scanner.front_feed table freshWatermark
      (session.replay wantChunks ++ Item.stream later))
    have hfresh : (Scanner.feed table (Scanner.new table freshWatermark)
        (session.replay wantChunks ++ Item.stream later)).parser = .ground [] := by
      rw [hstable.1] at hfront
      refine hfront.trans ((front_stateAfter (Front.init table) _).1.trans ?_)
      change table.stateAfter (.ground []) _ = _
      rw [Transducer.stateAfter_append, hready]
      exact Item.stateAfter_stream later
    rw [hfresh, hsession]
    exact (feed_between watermark (items ++ later) []).2.1.symm
  · apply sameTracked_of_erase
    rw [hsession, sticky_feed_items, erase_sticky_of_stable _ hstable, Transducer.outputs_append,
      List.foldl_append, hreads.tracked, hready, sticky_frontAfter_append]

end JftermMuxer.Core
