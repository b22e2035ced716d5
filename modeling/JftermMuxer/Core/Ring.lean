import Mathlib.Data.List.Basic
import Mathlib.Data.List.Flatten

/-!
# The chunk ring

{lit}`core/src/ring.rs`: storage for the replayable output.  A ring is a
non-empty list of chunks, the last one open; every chunk carries the prologue
that re-establishes the sticky state at its start.

Main results:

- Theorems {lit}`ChunkRing.replay_append`, {lit}`ChunkRing.replay_cut_one`,
  {lit}`ChunkRing.replay_cut_succ` and {lit}`ChunkRing.replay_purge`: what every
  operation does to every capped replay.
- Theorem {lit}`ChunkRing.replay_of_length_le`: a cap no smaller than the number
  of chunks replays everything since the last purge, {lit}`ChunkRing.full`.
-/

namespace JftermMuxer.Core

/-- A sealed or open unit of replayable output. -/
structure Chunk where
  prologue : List UInt8
  data : List UInt8
deriving DecidableEq, Repr

/-- A chunk that holds no data yet. -/
def Chunk.new (prologue : List UInt8) : Chunk := ⟨prologue, []⟩

/-- The ring; an open chunk always exists. -/
structure ChunkRing where
  chunks : List Chunk
  watermark : Nat
  nonempty : chunks ≠ []
deriving DecidableEq

namespace ChunkRing

/-- The open chunk. -/
def openChunk (r : ChunkRing) : Chunk := r.chunks.getLast r.nonempty

def new (watermark : Nat) : ChunkRing := ⟨[Chunk.new []], watermark, by simp⟩

/-- Append visual bytes to the open chunk. -/
def append (r : ChunkRing) (bytes : List UInt8) : ChunkRing :=
  { r with
    chunks := r.chunks.dropLast ++ [{ r.openChunk with data := r.openChunk.data ++ bytes }]
    nonempty := by simp }

/-- The open chunk has reached the soft watermark. -/
def shouldCut (r : ChunkRing) : Bool := r.watermark ≤ r.openChunk.data.length

/-- Seal the open chunk and open a new one with the given prologue. -/
def cut (r : ChunkRing) (prologue : List UInt8) : ChunkRing :=
  { r with chunks := r.chunks ++ [Chunk.new prologue], nonempty := by simp }

/-- Drop all history and restart from one chunk with the given prologue. -/
def purge (r : ChunkRing) (clearPrologue : List UInt8) : ChunkRing :=
  { r with chunks := [Chunk.new clearPrologue], nonempty := by simp }

/-- Concatenated data of a list of chunks. -/
def dataOf (chunks : List Chunk) : List UInt8 := (chunks.map Chunk.data).flatten

/-- Prologue of the first chunk of a selection. -/
def prologueOf (chunks : List Chunk) : List UInt8 := (chunks.head?.map Chunk.prologue).getD []

/-- The chunks a cap selects. -/
def selected (r : ChunkRing) (wantChunks : Nat) : List Chunk :=
  r.chunks.drop (r.chunks.length - max wantChunks 1)

/-- Replay the most recent chunks: the first one's prologue, then all data. -/
def replay (r : ChunkRing) (wantChunks : Nat) : List UInt8 :=
  prologueOf (r.selected wantChunks) ++ dataOf (r.selected wantChunks)

/-! ## Effect of the operations on replays -/

@[simp] theorem watermark_append (r : ChunkRing) (bytes : List UInt8) :
    (r.append bytes).watermark = r.watermark := rfl

/-- A ring has a chunk. -/
theorem length_pos (r : ChunkRing) : 0 < r.chunks.length :=
  List.length_pos_iff.mpr r.nonempty

@[simp] theorem length_append (r : ChunkRing) (bytes : List UInt8) :
    (r.append bytes).chunks.length = r.chunks.length := by
  have hpos := r.length_pos
  simp [append]
  omega

/-- The chunks of a ring are the sealed ones followed by the open one. -/
theorem dropLast_append_openChunk (r : ChunkRing) :
    r.chunks.dropLast ++ [r.openChunk] = r.chunks :=
  List.dropLast_append_getLast r.nonempty

/-- Every selection is a list of sealed chunks followed by the open chunk. -/
theorem selected_eq (r : ChunkRing) (wantChunks : Nat) :
    r.selected wantChunks =
      r.chunks.dropLast.drop (r.chunks.length - max wantChunks 1) ++ [r.openChunk] := by
  have hpos := r.length_pos
  have hle : r.chunks.length - max wantChunks 1 ≤ r.chunks.dropLast.length := by
    simp
    omega
  unfold selected
  generalize r.chunks.length - max wantChunks 1 = n at hle
  calc
    r.chunks.drop n = (r.chunks.dropLast ++ [r.openChunk]).drop n := by
      rw [dropLast_append_openChunk]
    _ = r.chunks.dropLast.drop n ++ [r.openChunk] := List.drop_append_of_le_length hle

/-- More data in the last chunk leaves the first prologue. -/
theorem prologueOf_snoc (cs : List Chunk) (c : Chunk) (bytes : List UInt8) :
    prologueOf (cs ++ [{ c with data := bytes }]) = prologueOf (cs ++ [c]) := by
  cases cs <;> rfl

@[simp] theorem openChunk_append (r : ChunkRing) (bytes : List UInt8) :
    (r.append bytes).openChunk = { r.openChunk with data := r.openChunk.data ++ bytes } := by
  simp [openChunk, append]

/-- A replay sees appended bytes in its last chunk. -/
theorem selected_append (r : ChunkRing) (bytes : List UInt8) (k : Nat) :
    (r.append bytes).selected k =
      r.chunks.dropLast.drop (r.chunks.length - max k 1) ++
        [{ r.openChunk with data := r.openChunk.data ++ bytes }] := by
  have hdrop : (r.append bytes).chunks.dropLast = r.chunks.dropLast := by
    simp [append]
  rw [selected_eq, openChunk_append, hdrop, length_append]

/-- After a cut, one chunk is the new one. -/
theorem selected_cut_one (r : ChunkRing) (prologue : List UInt8) {k : Nat} (hk : k ≤ 1) :
    (r.cut prologue).selected k = [Chunk.new prologue] := by
  have hmax : max k 1 = 1 := by omega
  simp [selected, cut, hmax]

/-- After a cut, one chunk more adds the new one to what was selected before. -/
theorem selected_cut_succ (r : ChunkRing) (prologue : List UInt8) {k : Nat} (hk : 1 ≤ k) :
    (r.cut prologue).selected (k + 1) = r.selected k ++ [Chunk.new prologue] := by
  have hpos := r.length_pos
  have hstart : (r.cut prologue).chunks.length - max (k + 1) 1 =
      r.chunks.length - max k 1 := by
    simp [cut]
    omega
  unfold selected
  rw [hstart]
  simp only [cut]
  rw [List.drop_append_of_le_length (by omega)]

/-- After a purge only the new chunk is selected. -/
theorem selected_purge (r : ChunkRing) (prologue : List UInt8) (k : Nat) :
    (r.purge prologue).selected k = [Chunk.new prologue] := by
  have hmax : 1 - max k 1 = 0 := by omega
  simp [selected, purge, hmax]

/-- Appended bytes end up at the end of every replay. -/
theorem replay_append (r : ChunkRing) (bytes : List UInt8) (k : Nat) :
    (r.append bytes).replay k = r.replay k ++ bytes := by
  unfold replay
  rw [selected_append, selected_eq, prologueOf_snoc]
  simp [dataOf]

/-- A cut replayed alone is its prologue. -/
theorem replay_cut_one (r : ChunkRing) (prologue : List UInt8) {k : Nat} (hk : k ≤ 1) :
    (r.cut prologue).replay k = prologue := by
  rw [replay, selected_cut_one r prologue hk]
  exact List.append_nil prologue

/-- Replaying one more chunk after a cut is replaying what was there before. -/
theorem replay_cut_succ (r : ChunkRing) (prologue : List UInt8) {k : Nat} (hk : 1 ≤ k) :
    (r.cut prologue).replay (k + 1) = r.replay k := by
  unfold replay
  rw [selected_cut_succ r prologue hk, r.selected_eq k]
  simp [dataOf, Chunk.new, prologueOf, List.head?_append]

/-- A purge leaves its prologue as every replay. -/
theorem replay_purge (r : ChunkRing) (prologue : List UInt8) (k : Nat) :
    (r.purge prologue).replay k = prologue := by
  rw [replay, selected_purge]
  exact List.append_nil prologue

@[simp] theorem replay_new (watermark k : Nat) : (new watermark).replay k = [] := by
  have hmax : 1 - max k 1 = 0 := by omega
  simp [replay, selected, new, Chunk.new, hmax, prologueOf, dataOf]

/-! ## The full replay -/

/-- Everything since the last purge. -/
def full (r : ChunkRing) : List UInt8 := prologueOf r.chunks ++ dataOf r.chunks

/-- Every cap at or above the number of chunks replays the whole ring; the length
of a vector is a {lit}`usize`, so {lit}`usize::MAX` is such a cap. -/
theorem replay_of_length_le (r : ChunkRing) {k : Nat} (hk : r.chunks.length ≤ k) :
    r.replay k = r.full := by
  have hzero : r.chunks.length - max k 1 = 0 := by omega
  simp [replay, selected, hzero, full]

/-- Appended bytes end the full replay. -/
theorem full_append (r : ChunkRing) (bytes : List UInt8) : (r.append bytes).full = r.full ++ bytes := by
  rw [← replay_of_length_le _ (Nat.le_refl _), replay_append, length_append,
    replay_of_length_le _ (Nat.le_refl _)]

/-- A cut leaves the full replay. -/
theorem full_cut (r : ChunkRing) (prologue : List UInt8) : (r.cut prologue).full = r.full := by
  have hlen : (r.cut prologue).chunks.length = r.chunks.length + 1 := by simp [cut]
  rw [← replay_of_length_le _ (Nat.le_refl _), hlen, replay_cut_succ r prologue r.length_pos,
    replay_of_length_le _ (Nat.le_refl _)]

@[simp] theorem full_purge (r : ChunkRing) (prologue : List UInt8) :
    (r.purge prologue).full = prologue := by
  simp [full, purge, prologueOf, dataOf, Chunk.new]

@[simp] theorem full_new (watermark : Nat) : (new watermark).full = [] := rfl

/-- A property of byte strings that holds of every replay survives a cut when
the new prologue has it too. -/
theorem forall_replay_cut {P : List UInt8 → Prop} {r : ChunkRing} {prologue : List UInt8}
    (hr : ∀ k, P (r.replay k)) (hp : P prologue) (k : Nat) :
    P ((r.cut prologue).replay k) := by
  by_cases hk : k ≤ 1
  · rw [replay_cut_one r prologue hk]
    exact hp
  · obtain ⟨j, rfl⟩ : ∃ j, k = j + 1 := ⟨k - 1, by omega⟩
    rw [replay_cut_succ r prologue (by omega)]
    exact hr j

end ChunkRing

end JftermMuxer.Core
