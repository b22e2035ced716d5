import JftermMuxer.Core.Ring
import Mathlib.Data.List.Induction
import Mathlib.Data.List.Infix

/-!
# The ring as a log of operations

A ring is what a sequence of appends, cuts and purges makes of a new one.  Read
backwards, the sequence says what every capped replay holds: the walk stops at the
operation that opened the oldest chunk the cap selects.

Main results:

- Theorem {lit}`ChunkRing.run_total`: no append ever finds the chunk list empty.
- Theorem {lit}`ring_refines_log`: every capped replay is the prologue of the
  operation the walk stops at and the bytes appended since.
-/

namespace JftermMuxer.Core

/-- One call of an operation of the ring. -/
inductive LogEntry where
  | append (bytes : List UInt8)
  | cut (prologue : List UInt8)
  | purge (prologue : List UInt8)
deriving DecidableEq, Repr

namespace ChunkRing

/-- Make one call. -/
def perform (r : ChunkRing) : LogEntry → ChunkRing
  | .append bytes => r.append bytes
  | .cut prologue => r.cut prologue
  | .purge prologue => r.purge prologue

/-- The ring after a log. -/
def ofLog (watermark : Nat) (log : List LogEntry) : ChunkRing := log.foldl perform (new watermark)

@[simp] theorem ofLog_nil (watermark : Nat) : ofLog watermark [] = new watermark := rfl

/-- One more entry is performed on the ring. -/
theorem ofLog_snoc (watermark : Nat) (log : List LogEntry) (e : LogEntry) :
    ofLog watermark (log ++ [e]) = (ofLog watermark log).perform e := by
  rw [ofLog, List.foldl_concat]
  rfl

end ChunkRing

/-! ## The open chunk is always there -/

/-- The two fields of a ring, any chunk list allowed; {lit}`open_mut` has no result
when there is no chunk. -/
structure RawRing where
  chunks : List Chunk
  watermark : Nat
deriving DecidableEq, Repr

namespace RawRing

def new (watermark : Nat) : RawRing := ⟨[Chunk.new []], watermark⟩

/-- Replace the last chunk. -/
def openMut (r : RawRing) (write : Chunk → Chunk) : Option RawRing :=
  match r.chunks.getLast? with
  | some c => some { r with chunks := r.chunks.dropLast ++ [write c] }
  | none => none

def perform (r : RawRing) : LogEntry → Option RawRing
  | .append bytes => r.openMut fun c => { c with data := c.data ++ bytes }
  | .cut prologue => some { r with chunks := r.chunks ++ [Chunk.new prologue] }
  | .purge prologue => some { r with chunks := [Chunk.new prologue] }

def run : RawRing → List LogEntry → Option RawRing
  | r, [] => some r
  | r, e :: log => (r.perform e).bind fun r => run r log

end RawRing

namespace ChunkRing

/-- The two fields of a ring that has a chunk. -/
def raw (r : ChunkRing) : RawRing := ⟨r.chunks, r.watermark⟩

/-- The raw ring performs what the ring performs. -/
theorem raw_perform (r : ChunkRing) (e : LogEntry) : r.raw.perform e = some (r.perform e).raw := by
  cases e with
  | append bytes =>
      have hlast : r.raw.chunks.getLast? = some r.openChunk := List.getLast?_eq_some_getLast r.nonempty
      rw [RawRing.perform, RawRing.openMut, hlast]
      rfl
  | cut prologue => rfl
  | purge prologue => rfl

/-- A log never gets stuck on the raw ring. -/
theorem run_total (r : ChunkRing) (log : List LogEntry) :
    r.raw.run log = some (log.foldl perform r).raw := by
  induction log generalizing r with
  | nil => rfl
  | cons e log ih =>
      rw [RawRing.run, raw_perform, Option.bind_some]
      exact ih (r.perform e)

end ChunkRing

/-! ## Walking back -/

/-- Walk back from the end of a log, its last entry first, to the operation that
opened the {lit}`m`-th most recent chunk, a purge or the new ring at the latest: the
prologue it installed and the bytes appended since. -/
def opening : Nat → List LogEntry → List UInt8 × List UInt8
  | _, [] => ([], [])
  | m, .append bytes :: older => ((opening m older).1, (opening m older).2 ++ bytes)
  | m, .cut prologue :: older => if m ≤ 1 then (prologue, []) else opening (m - 1) older
  | _, .purge prologue :: _ => (prologue, [])

/-- One plus the number of cuts since the last purge, or since the ring was new. -/
def chunksOpened : List LogEntry → Nat
  | [] => 1
  | .append _ :: older => chunksOpened older
  | .cut _ :: older => chunksOpened older + 1
  | .purge _ :: _ => 1

/-- There is at least one chunk. -/
theorem chunksOpened_pos (log : List LogEntry) : 1 ≤ chunksOpened log := by
  induction log with
  | nil => exact Nat.le_refl 1
  | cons e older ih =>
      cases e with
      | append bytes => exact ih
      | cut prologue => exact Nat.le_add_left 1 _
      | purge prologue => exact Nat.le_refl 1

/-- The walk goes back no further than the chunks reach. -/
theorem opening_min (log : List LogEntry) (m : Nat) :
    opening (min m (chunksOpened log)) log = opening m log := by
  induction log generalizing m with
  | nil => rfl
  | cons e older ih =>
      cases e with
      | append bytes =>
          rw [opening, opening, chunksOpened, ih]
      | cut prologue =>
          have hpos := chunksOpened_pos older
          rw [opening, opening, chunksOpened]
          by_cases hm : m ≤ 1
          · rw [if_pos hm, if_pos (by omega)]
          · have hpred : min m (chunksOpened older + 1) - 1 = min (m - 1) (chunksOpened older) := by
              omega
            rw [if_neg hm, if_neg (by omega), hpred, ih]
      | purge prologue => rfl

/-- A longer walk passes the bytes of a shorter one. -/
theorem opening_suffix (log : List LogEntry) {i j : Nat} (h : i ≤ j) :
    (opening i log).2 <:+ (opening j log).2 := by
  induction log generalizing i j with
  | nil => exact List.suffix_refl _
  | cons e older ih =>
      cases e with
      | append bytes =>
          obtain ⟨front, hfront⟩ := ih h
          refine ⟨front, ?_⟩
          rw [opening, opening, ← hfront, List.append_assoc]
      | cut prologue =>
          rw [opening, opening]
          by_cases hi : i ≤ 1
          · rw [if_pos hi]
            exact List.nil_suffix
          · rw [if_neg hi, if_neg (by omega)]
            exact ih (by omega)
      | purge prologue => exact List.suffix_refl _

/-! ## Refinement -/

namespace ChunkRing

/-- The ring has as many chunks as the log has opened since its last purge. -/
theorem length_ofLog (watermark : Nat) (log : List LogEntry) :
    (ofLog watermark log).chunks.length = chunksOpened log.reverse := by
  induction log using List.reverseRecOn with
  | nil => rfl
  | append_singleton log e ih =>
      rw [ofLog_snoc, List.reverse_append]
      cases e with
      | append bytes =>
          rw [perform, length_append]
          exact ih
      | cut prologue =>
          rw [perform, cut, List.length_append, ih]
          rfl
      | purge prologue => rfl

/-- The prologue and the data of a capped replay. -/
def replayParts (r : ChunkRing) (wantChunks : Nat) : List UInt8 × List UInt8 :=
  (prologueOf (r.selected wantChunks), dataOf (r.selected wantChunks))

/-- A replay is its prologue and its data. -/
theorem replay_eq_parts (r : ChunkRing) (k : Nat) :
    r.replay k = (r.replayParts k).1 ++ (r.replayParts k).2 := rfl

/-- Appended bytes are at the end of every replay's data. -/
theorem parts_append (r : ChunkRing) (bytes : List UInt8) (k : Nat) :
    (r.append bytes).replayParts k = ((r.replayParts k).1, (r.replayParts k).2 ++ bytes) := by
  unfold replayParts
  rw [selected_append, selected_eq, prologueOf_snoc]
  simp [dataOf]

/-- After a cut, one chunk is the new prologue alone. -/
theorem parts_cut_one (r : ChunkRing) (prologue : List UInt8) {k : Nat} (hk : k ≤ 1) :
    (r.cut prologue).replayParts k = (prologue, []) := by
  rw [replayParts, selected_cut_one r prologue hk]
  rfl

/-- After a cut, one chunk more gives what was given before. -/
theorem parts_cut_succ (r : ChunkRing) (prologue : List UInt8) {k : Nat} (hk : 1 ≤ k) :
    (r.cut prologue).replayParts (k + 1) = r.replayParts k := by
  unfold replayParts
  rw [selected_cut_succ r prologue hk, r.selected_eq k]
  simp [dataOf, Chunk.new, prologueOf, List.head?_append]

/-- After a purge, every replay is the prologue alone. -/
theorem parts_purge (r : ChunkRing) (prologue : List UInt8) (k : Nat) :
    (r.purge prologue).replayParts k = (prologue, []) := by
  rw [replayParts, selected_purge]
  rfl

/-- A fresh ring replays nothing. -/
theorem parts_new (watermark k : Nat) : (new watermark).replayParts k = ([], []) := by
  have hmax : 1 - max k 1 = 0 := by omega
  simp [replayParts, selected, new, hmax, prologueOf, dataOf, Chunk.new]

/-- Every capped replay consists of what the walk back finds. -/
theorem parts_ofLog (watermark : Nat) (log : List LogEntry) {k : Nat} (hk : 1 ≤ k) :
    (ofLog watermark log).replayParts k = opening k log.reverse := by
  induction log using List.reverseRecOn generalizing k with
  | nil => exact parts_new watermark k
  | append_singleton log e ih =>
      rw [ofLog_snoc, List.reverse_append]
      cases e with
      | append bytes =>
          rw [perform, parts_append, ih hk]
          rfl
      | cut prologue =>
          have hwalk : opening k ([LogEntry.cut prologue].reverse ++ log.reverse) =
              if k ≤ 1 then (prologue, []) else opening (k - 1) log.reverse := rfl
          rw [perform, hwalk]
          by_cases hone : k ≤ 1
          · rw [if_pos hone, parts_cut_one _ _ hone]
          · obtain ⟨j, rfl⟩ : ∃ j, k = j + 1 := ⟨k - 1, by omega⟩
            rw [if_neg hone, Nat.add_sub_cancel, parts_cut_succ _ _ (by omega), ih (by omega)]
      | purge prologue =>
          rw [perform, parts_purge]
          rfl

/-- A replay of no chunks is one of one chunk. -/
theorem parts_max (r : ChunkRing) (k : Nat) : r.replayParts (max k 1) = r.replayParts k := by
  have hmax : max (max k 1) 1 = max k 1 := by omega
  rw [replayParts, replayParts, selected, selected, hmax]

end ChunkRing

/-! ## Main result -/

/-- After every sequence of appends, cuts and purges the chunk list is not empty, and
no append found it so; every capped replay is the prologue installed by the operation
that opened the oldest chunk the cap selects, followed by the bytes appended since;
and a smaller cap replays an end of the data of a larger one. -/
theorem ring_refines_log (watermark : Nat) (log : List LogEntry) :
    (RawRing.new watermark).run log = some (ChunkRing.ofLog watermark log).raw ∧
    (ChunkRing.ofLog watermark log).chunks ≠ [] ∧
    (ChunkRing.ofLog watermark log).chunks.length = chunksOpened log.reverse ∧
    (∀ k, (ChunkRing.ofLog watermark log).replayParts k =
      opening (min (max k 1) (chunksOpened log.reverse)) log.reverse) ∧
    (∀ k, (ChunkRing.ofLog watermark log).replay k =
      (opening (min (max k 1) (chunksOpened log.reverse)) log.reverse).1 ++
        (opening (min (max k 1) (chunksOpened log.reverse)) log.reverse).2) ∧
    ∀ j k, j ≤ k → ((ChunkRing.ofLog watermark log).replayParts j).2 <:+
      ((ChunkRing.ofLog watermark log).replayParts k).2 := by
  have hparts : ∀ k, (ChunkRing.ofLog watermark log).replayParts k = opening (max k 1) log.reverse := by
    intro k
    rw [← ChunkRing.parts_max]
    exact ChunkRing.parts_ofLog watermark log (by omega)
  refine ⟨(ChunkRing.new watermark).run_total log, ChunkRing.nonempty _,
    ChunkRing.length_ofLog watermark log, ?_, ?_, ?_⟩
  · intro k
    rw [opening_min, hparts]
  · intro k
    rw [opening_min, ChunkRing.replay_eq_parts, hparts]
  · intro j k hjk
    rw [hparts, hparts]
    exact opening_suffix log.reverse (by omega)

/-- Two chunks, of which a cap of one selects the newer, and a cap of zero too. -/
theorem ring_refines_log_two_chunks :
    ((ChunkRing.ofLog 4 [.append [0x61], .cut [0x70], .append [0x62]]).replayParts 0).2 <:+
      ((ChunkRing.ofLog 4 [.append [0x61], .cut [0x70], .append [0x62]]).replayParts 2).2 :=
  (ring_refines_log 4 _).2.2.2.2.2 0 2 (by decide)

end JftermMuxer.Core
