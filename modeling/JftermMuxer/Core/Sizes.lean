import JftermMuxer.Core.Watermark
import JftermMuxer.Foundation.Batches

/-!
# Chunk sizes

{lit}`Scanner::maybe_cut` runs after every append and nowhere else, so the chunks of a
ring are the batches that the kept spans fill one after the other, with the watermark
as the limit.  A purge starts over with an empty batch, and a dropped span reaches
none.

Main results:

- Theorem {lit}`ChunkRing.holds_applyAll`: the chunks hold the batches of the spans
  kept since the last purge.
- Definition {lit}`ChunkRing.Sized`: the sizes of the open chunk, of the sealed chunks
  and of the capped replays.
- Theorem {lit}`chunk_sizes`: every fed scanner keeps them, whatever the parser.
-/

namespace JftermMuxer.Core

open Foundation Vte

/-! ## The spans of a ring -/

/-- The spans kept since the last purge, one operation later. -/
def RingOp.record (spans : List (List UInt8)) : RingOp → List (List UInt8)
  | .keep span _ => spans ++ [span]
  | .purge _ => []

/-- A recorded span was kept by one of the operations. -/
theorem mem_foldl_record {ops : List RingOp} {spans : List (List UInt8)} {span : List UInt8}
    (h : span ∈ ops.foldl RingOp.record spans) :
    span ∈ spans ∨ ∃ prologue, RingOp.keep span prologue ∈ ops := by
  induction ops generalizing spans with
  | nil => exact Or.inl h
  | cons op ops ih =>
      rcases ih h with hrecord | ⟨prologue, hop⟩
      · cases op with
        | keep kept prologue =>
            rcases List.mem_append.mp hrecord with hold | hnew
            · exact Or.inl hold
            · rw [List.mem_singleton.mp hnew]
              exact Or.inr ⟨prologue, List.mem_cons_self⟩
        | purge prologue => exact absurd hrecord List.not_mem_nil
      · exact Or.inr ⟨prologue, List.mem_cons_of_mem _ hop⟩

/-- Spans in batches that the watermark fills. -/
abbrev SpanBatches (watermark : Nat) := Batches (List.length : List UInt8 → Nat) watermark

section Batching

variable {w : Nat}

/-- What an operation of the ring does to the batches. -/
def RingOp.batch (hw : 0 < w) (b : SpanBatches w) : RingOp → SpanBatches w
  | .keep span _ => b.push span
  | .purge _ => Batches.empty hw

/-- The batches after a list of operations. -/
def batched (hw : 0 < w) (ops : List RingOp) : SpanBatches w :=
  ops.foldl (RingOp.batch hw) (Batches.empty hw)

/-- A ring operation adds its span to the items. -/
theorem items_batch (hw : 0 < w) (b : SpanBatches w) (op : RingOp) :
    (op.batch hw b).items = op.record b.items := by
  cases op with
  | keep span prologue => exact b.items_push span
  | purge prologue => rfl

/-- The batches hold the recorded spans. -/
theorem items_batched (hw : 0 < w) (ops : List RingOp) :
    (batched hw ops).items = ops.foldl RingOp.record [] := by
  have hrun : ∀ b : SpanBatches w,
      (ops.foldl (RingOp.batch hw) b).items = ops.foldl RingOp.record b.items := by
    induction ops with
    | nil =>
        intro b
        rfl
    | cons op ops ih =>
        intro b
        rw [List.foldl_cons, List.foldl_cons, ih, items_batch]
  exact hrun (Batches.empty hw)

/-! ## The chunks are the batches -/

namespace ChunkRing

/-- The chunks of a ring hold the batches, in order. -/
structure Holds (r : ChunkRing) (b : SpanBatches w) : Prop where
  watermark_eq : r.watermark = w
  data_eq : r.chunks.map Chunk.data = b.all.map List.flatten

/-- A fresh ring holds an empty batch. -/
theorem holds_new (hw : 0 < w) : (new w).Holds (Batches.empty hw) := ⟨rfl, rfl⟩

/-- A purged ring holds an empty batch. -/
theorem Holds.purge {r : ChunkRing} {b : SpanBatches w} (h : r.Holds b) (hw : 0 < w)
    (prologue : List UInt8) : (r.purge prologue).Holds (Batches.empty hw) :=
  ⟨h.watermark_eq, rfl⟩

/-- Appended bytes go into the open chunk. -/
theorem data_append (r : ChunkRing) (bytes : List UInt8) :
    (r.append bytes).chunks.map Chunk.data =
      r.chunks.dropLast.map Chunk.data ++ [r.openChunk.data ++ bytes] := by
  simp [append]

/-- The sealed chunks hold the full batches and the open chunk the open one. -/
theorem Holds.split {r : ChunkRing} {b : SpanBatches w} (h : r.Holds b) :
    r.chunks.dropLast.map Chunk.data = b.full.map List.flatten ∧
      r.openChunk.data = b.opened.flatten := by
  have hdata := h.data_eq
  rw [← r.dropLast_append_openChunk, Batches.all, List.map_append, List.map_append,
    List.map_singleton, List.map_singleton] at hdata
  obtain ⟨hsealed, hopen⟩ := List.append_inj' hdata rfl
  exact ⟨hsealed, List.singleton_inj.mp hopen⟩

/-- A span that is kept goes to the open batch, and fills it when it fills the
chunk. -/
theorem Holds.keep {r : ChunkRing} {b : SpanBatches w} (h : r.Holds b) (span prologue : List UInt8) :
    (r.apply (.keep span prologue)).Holds (b.push span) := by
  obtain ⟨hsealed, hopen⟩ := h.split
  have hgrown : (r.append span).chunks.map Chunk.data =
      (b.full ++ [b.opened ++ [span]]).map List.flatten := by
    rw [data_append, hsealed, hopen]
    simp
  have htotal : total List.length (b.opened ++ [span]) =
      r.openChunk.data.length + span.length := by
    rw [total_append, total_singleton, total_length, hopen]
  refine ⟨?_, ?_⟩
  · rw [watermark_apply, h.watermark_eq]
  · by_cases hlt : total List.length (b.opened ++ [span]) < w
    · have hbelow : r.openChunk.data.length + span.length < r.watermark := by
        rw [h.watermark_eq, ← htotal]
        exact hlt
      rw [apply_keep_of_lt hbelow, Batches.all_push_of_lt hlt, hgrown]
    · have hreached : r.watermark ≤ r.openChunk.data.length + span.length := by
        rw [h.watermark_eq, ← htotal]
        omega
      rw [apply_keep_of_le hreached, Batches.all_push_of_le (Nat.le_of_not_lt hlt), List.map_append,
        ← hgrown]
      simp [cut, Chunk.new]

/-- A ring operation keeps chunks and batches in step. -/
theorem Holds.apply {r : ChunkRing} {b : SpanBatches w} (h : r.Holds b) (hw : 0 < w)
    (op : RingOp) : (r.apply op).Holds (op.batch hw b) := by
  cases op with
  | keep span prologue => exact h.keep span prologue
  | purge prologue => exact h.purge hw prologue

/-- Along every list of operations the chunks hold the batches. -/
theorem holds_applyAll (hw : 0 < w) (ops : List RingOp) :
    ((new w).applyAll ops).Holds (batched hw ops) := by
  have hrun : ∀ (r : ChunkRing) (b : SpanBatches w), r.Holds b →
      (r.applyAll ops).Holds (ops.foldl (RingOp.batch hw) b) := by
    induction ops with
    | nil =>
        intro r b h
        exact h
    | cons op ops ih =>
        intro r b h
        exact ih _ _ (h.apply hw op)
  exact hrun _ _ (holds_new hw)

/-! ## Sizes -/

/-- The sizes that a watermark gives to the chunks of a ring, and to its capped
replays, in terms of the spans they share. -/
structure Sized (w : Nat) (spans : List (List UInt8)) (r : ChunkRing) : Prop where
  /-- The open chunk has not reached the watermark. -/
  openChunk_lt : r.openChunk.data.length < w
  /-- Every sealed chunk has. -/
  le_of_sealed : ∀ c ∈ r.chunks.dropLast, w ≤ c.data.length
  /-- The chunks share the spans between them, each span whole: a sealed chunk had not
  reached the watermark before its last span, and no chunk exceeds the watermark by its
  last span or more. -/
  shares : ∃ parts : List (List (List UInt8)), parts.flatten = spans ∧
    r.chunks.map Chunk.data = parts.map List.flatten ∧
    (∀ part ∈ parts.dropLast, part.dropLast.flatten.length < w) ∧
    ∀ part ∈ parts, ∀ hne : part ≠ [], part.flatten.length < w + (part.getLast hne).length
  /-- A capped replay carries at least the watermark for each of its sealed chunks. -/
  mul_le_selected : ∀ k, k ≤ r.chunks.length → (k - 1) * w ≤ (dataOf (r.selected k)).length

/-- The open chunk is below the watermark. -/
theorem Holds.openChunk_lt {r : ChunkRing} {b : SpanBatches w} (h : r.Holds b) :
    r.openChunk.data.length < w := by
  have hopened := b.opened_lt
  rw [total_length, ← h.split.2] at hopened
  exact hopened

/-- Every sealed chunk holds a full batch. -/
theorem Holds.le_of_sealed {r : ChunkRing} {b : SpanBatches w} (h : r.Holds b) {c : Chunk}
    (hc : c ∈ r.chunks.dropLast) : w ≤ c.data.length := by
  have hmem : c.data ∈ b.full.map List.flatten := by
    rw [← h.split.1]
    exact List.mem_map_of_mem hc
  obtain ⟨batch, hbatch, hdata⟩ := List.mem_map.mp hmem
  have hreached := (b.filled batch hbatch).le_total
  rw [total_length, hdata] at hreached
  exact hreached

/-- The data of two lists of chunks adds up. -/
theorem length_dataOf_append (cs ds : List Chunk) :
    (dataOf (cs ++ ds)).length = (dataOf cs).length + (dataOf ds).length := by
  simp [dataOf]

/-- A capped replay carries its sealed chunks, each of them full. -/
theorem Holds.mul_le_selected {r : ChunkRing} {b : SpanBatches w} (h : r.Holds b) {k : Nat}
    (hk : k ≤ r.chunks.length) : (k - 1) * w ≤ (dataOf (r.selected k)).length := by
  have hpos := r.length_pos
  have hlen : b.full.length = r.chunks.length - 1 := by
    have hmap := congrArg List.length h.split.1
    rw [List.length_map, List.length_map, List.length_dropLast] at hmap
    omega
  generalize hstart : r.chunks.length - max k 1 = start
  have hdata : dataOf (r.chunks.dropLast.drop start) = (b.full.drop start).flatten.flatten := by
    rw [dataOf, List.map_drop, h.split.1, ← List.map_drop, List.flatten_flatten]
  have hfull : ∀ batch ∈ b.full.drop start, Filled List.length w batch := by
    intro batch hbatch
    exact b.filled batch (List.mem_of_mem_drop hbatch)
  calc
    (k - 1) * w ≤ (b.full.drop start).length * w := by
      apply Nat.mul_le_mul_right
      rw [List.length_drop]
      omega
    _ ≤ total List.length (b.full.drop start).flatten := mul_le_total hfull
    _ = (dataOf (r.chunks.dropLast.drop start)).length := by rw [total_length, hdata]
    _ ≤ (dataOf (r.selected k)).length := by
      rw [selected_eq, hstart, length_dataOf_append]
      omega

/-- Chunks that hold batches have their sizes. -/
theorem Holds.sized {r : ChunkRing} {b : SpanBatches w} (h : r.Holds b) : r.Sized w b.items := by
  refine ⟨h.openChunk_lt, ?_, ⟨b.all, rfl, h.data_eq, ?_, ?_⟩, ?_⟩
  · intro c hc
    exact h.le_of_sealed hc
  · intro part hpart
    rw [Batches.dropLast_all] at hpart
    rw [← total_length]
    exact (b.filled part hpart).total_dropLast_lt
  · intro part hpart hne
    rw [← total_length]
    rcases List.mem_append.mp hpart with hfull | hopen
    · exact (b.filled part hfull).total_lt hne
    · have hlt := b.opened_lt
      rw [← List.mem_singleton.mp hopen] at hlt
      exact Nat.lt_add_right _ hlt
  · intro k hk
    exact h.mul_le_selected hk

end ChunkRing

end Batching

/-! ## Main result -/

section Runs

variable {σ : Type} (T : Transducer σ UInt8 Callback)

/-- The spans that a scanner has appended to its ring since the last purge. -/
def keptSpans (bytes : List UInt8) : List (List UInt8) :=
  ((Front.machine T).outputs (Front.init T) (translate 0 bytes)).foldl RingOp.record []

/-- A span ends with the byte that finished it. -/
theorem span_ne_nil_advance {f : Front σ} {b : UInt8} {span prologue : List UInt8}
    (h : RingOp.keep span prologue ∈ (Front.advance T f b).2) : span ≠ [] := by
  have hspan : span = f.pending ++ [b] := by
    unfold Front.advance at h
    dsimp only at h
    generalize (f.sink.performAll (T.advance f.parser b).2).takeEvent.1 = ev at h
    cases ev with
    | keepByte | keepSeq =>
        have hop := List.mem_singleton.mp h
        exact (RingOp.keep.inj hop).1
    | clearSeq =>
        have hop := List.mem_singleton.mp h
        contradiction
    | none | dropSeq => exact absurd h List.not_mem_nil
  rw [hspan]
  simp

/-- No span that is kept is empty. -/
theorem span_ne_nil_outputs {f : Front σ} {bytes span prologue : List UInt8}
    (h : RingOp.keep span prologue ∈ (Front.machine T).outputs f bytes) : span ≠ [] := by
  induction bytes generalizing f with
  | nil => exact absurd h List.not_mem_nil
  | cons b bytes ih =>
      rw [Transducer.outputs_cons] at h
      rcases List.mem_append.mp h with hstep | hrest
      · exact span_ne_nil_advance T hstep
      · exact ih hrest

/-- No kept span is empty. -/
theorem ne_nil_of_mem_keptSpans {bytes span : List UInt8} (h : span ∈ keptSpans T bytes) :
    span ≠ [] := by
  rcases mem_foldl_record h with hnil | ⟨prologue, hop⟩
  · exact absurd hnil List.not_mem_nil
  · exact span_ne_nil_outputs T hop

/-- Whatever the parser, after every feed call the chunks have the sizes that the
watermark gives them: the open chunk is shorter, a sealed chunk is not, and was before
its last span.  No kept span is empty, so it is clear which is the last. -/
theorem chunk_sizes (w : Nat) (hw : 1 ≤ w) (feeds : List (List UInt8)) :
    (Scanner.feedAll T (Scanner.new T w) feeds).ring.Sized w (keptSpans T feeds.flatten) ∧
      ∀ span ∈ keptSpans T feeds.flatten, span ≠ [] := by
  constructor
  · have hholds := ChunkRing.holds_applyAll hw
      ((Front.machine T).outputs (Front.init T) (translate 0 feeds.flatten))
    rw [Scanner.feedAll_eq_feed, Scanner.ring_feed, keptSpans, ← items_batched hw]
    exact hholds.sized
  · intro span hspan
    exact ne_nil_of_mem_keptSpans T hspan

end Runs

/-- Six letters and a red SGR under a watermark of two: the replay of two chunks out of
four carries at least two bytes. -/
theorem chunk_sizes_letters :
    (2 - 1) * 2 ≤ (ChunkRing.dataOf
      ((Scanner.feedAll table (Scanner.new table 2)
        [[0x61, 0x62, 0x63], [0x64, 0x65, 0x1B, 0x5B], [0x33, 0x31, 0x6D, 0x66]]).ring.selected
          2)).length :=
  (chunk_sizes table 2 (by decide) _).1.mul_le_selected 2 (by decide +kernel)

end JftermMuxer.Core
