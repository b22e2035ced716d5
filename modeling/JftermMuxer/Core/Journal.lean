import JftermMuxer.Core.Watermark

/-!
# The journal of a stream

{lit}`Scanner::advance_one` of {lit}`core/src/scanner.rs` closes a span at every byte
that completes a callback, and keeps it, drops it or clears the history.  The journal
lists the closed spans with their verdicts.  It is what the ring abbreviates, for any
bytes, well formed or not, and any parser.

Main results:

- Structure {lit}`Cuts`: a journal cut where the ring opens its chunks.
- Theorem {lit}`chunks_ringOf`: the ring's chunks are those of the cut journal.
- Theorem {lit}`replay_journal`: every replay is the prologue of the moment at which its
  first chunk was opened, followed by the spans kept since.
-/

namespace JftermMuxer.Core

open Foundation Vte

/-- A closed span with its verdict. -/
structure Entry where
  verdict : Verdict
  span : List UInt8
deriving DecidableEq, Repr

/-- The verdict of an event that closes a span. -/
def SegEvent.verdict : SegEvent → Option Verdict
  | .none => Option.none
  | .keepByte | .keepSeq => some .keep
  | .dropSeq => some .drop
  | .clearSeq => some .clear

/-- The bytes of the closed spans. -/
def spans (entries : List Entry) : List UInt8 := (entries.map Entry.span).flatten

/-- The bytes of the kept spans. -/
def keptOf (entries : List Entry) : List UInt8 := keptPart Entry.verdict Entry.span entries

/-- The spans of two journals in a row. -/
theorem spans_append (before after : List Entry) :
    spans (before ++ after) = spans before ++ spans after := by
  simp [spans]

/-- The kept bytes of two journals in a row. -/
theorem keptOf_append (before after : List Entry) :
    keptOf (before ++ after) = keptOf before ++ keptOf after :=
  keptPart_append Entry.verdict Entry.span before after

/-! ## One byte -/

section Parser

variable {σ : Type} (T : Transducer σ UInt8 Callback)

/-- The entry that a byte adds. -/
def entriesOf (f : Front σ) (b : UInt8) : List Entry :=
  ((f.sink.performAll (T.advance f.parser b).2).event.verdict.toList).map
    fun v => ⟨v, f.pending ++ [b]⟩

/-- The front end as a transducer from bytes to entries. -/
def journalist : Transducer (Front σ) UInt8 Entry where
  init := Front.init T
  advance := fun f b => (((Front.machine T).advance f b).1, entriesOf T f b)

/-- The entries of a stream of translated bytes. -/
def entries (bs : List UInt8) : List Entry := (journalist T).outputs (Front.init T) bs

/-- The front end after a stream of translated bytes. -/
def frontOf (bs : List UInt8) : Front σ := (Front.machine T).stateAfter (Front.init T) bs

/-- The ring after a stream of translated bytes. -/
def ringOf (watermark : Nat) (bs : List UInt8) : ChunkRing :=
  (ChunkRing.new watermark).applyAll ((Front.machine T).outputs (Front.init T) bs)

/-- The journal reads on with the front end. -/
theorem stateAfter_journalist (f : Front σ) (bs : List UInt8) :
    (journalist T).stateAfter f bs = (Front.machine T).stateAfter f bs := by
  induction bs generalizing f with
  | nil => rfl
  | cons b bs ih => exact ih _

/-- One more byte appends its entries to the journal. -/
theorem entries_snoc (bs : List UInt8) (b : UInt8) :
    entries T (bs ++ [b]) = entries T bs ++ entriesOf T (frontOf T bs) b := by
  rw [entries, Transducer.outputs_append, stateAfter_journalist, Transducer.outputs_singleton]
  rfl

/-- A byte closes no span, and nothing happens; or it closes the pending one, and the
ring does what the verdict asks for. -/
theorem advance_cases (watermark : Nat) (bs : List UInt8) (b : UInt8) :
    (entries T (bs ++ [b]) = entries T bs ∧
        (frontOf T (bs ++ [b])).pending = (frontOf T bs).pending ++ [b] ∧
        ringOf T watermark (bs ++ [b]) = ringOf T watermark bs) ∨
      ∃ v, entries T (bs ++ [b]) = entries T bs ++ [⟨v, (frontOf T bs).pending ++ [b]⟩] ∧
        (frontOf T (bs ++ [b])).pending = [] ∧
        ringOf T watermark (bs ++ [b]) = (ringOf T watermark bs).applyAll
          (v.ops ((frontOf T bs).pending ++ [b]) (frontOf T (bs ++ [b])).sink.sticky.buildSerialized) := by
  have hfront : frontOf T (bs ++ [b]) = (Front.advance T (frontOf T bs) b).1 := by
    rw [frontOf, Transducer.stateAfter_append, Transducer.stateAfter_singleton]
    rfl
  have hring : ringOf T watermark (bs ++ [b]) =
      (ringOf T watermark bs).applyAll (Front.advance T (frontOf T bs) b).2 := by
    rw [ringOf, Transducer.outputs_append, Transducer.outputs_singleton, ChunkRing.applyAll_append]
    rfl
  obtain ⟨sink, hsink⟩ : ∃ sink, sink =
      (frontOf T bs).sink.performAll (T.advance (frontOf T bs).parser b).2 := ⟨_, rfl⟩
  have hadvance : Front.advance T (frontOf T bs) b =
      ((⟨(T.advance (frontOf T bs).parser b).1, { sink with event := .none },
          (frontOf T bs).pending ++ [b]⟩ : Front σ).closeSpan sink.event,
        (⟨(T.advance (frontOf T bs).parser b).1, { sink with event := .none },
          (frontOf T bs).pending ++ [b]⟩ : Front σ).opOf sink.event) := by
    rw [hsink]
    rfl
  rw [hfront, hring, hadvance, entries_snoc, entriesOf, ← hsink]
  cases sink.event with
  | none => exact Or.inl ⟨List.append_nil _, rfl, rfl⟩
  | keepByte => exact Or.inr ⟨.keep, rfl, rfl, rfl⟩
  | keepSeq => exact Or.inr ⟨.keep, rfl, rfl, rfl⟩
  | dropSeq => exact Or.inr ⟨.drop, rfl, rfl, rfl⟩
  | clearSeq => exact Or.inr ⟨.clear, rfl, rfl, rfl⟩

/-! ## Spans -/

/-- The closed spans and the pending one, in order, are the stream. -/
theorem spans_append_pending (bs : List UInt8) : spans (entries T bs) ++ (frontOf T bs).pending = bs := by
  induction bs using List.reverseRecOn with
  | nil => rfl
  | append_singleton bs b ih =>
      rcases advance_cases T 0 bs b with ⟨hentries, hpending, -⟩ | ⟨v, hentries, hpending, -⟩
      · rw [hentries, hpending, ← List.append_assoc, ih]
      · have hone : spans [⟨v, (frontOf T bs).pending ++ [b]⟩] = (frontOf T bs).pending ++ [b] := by
          simp [spans]
        rw [hentries, hpending, spans_append, hone, List.append_nil, ← List.append_assoc, ih]

/-- No span is empty. -/
theorem span_ne_nil (bs : List UInt8) : ∀ e ∈ entries T bs, e.span ≠ [] := by
  induction bs using List.reverseRecOn with
  | nil => simp [entries]
  | append_singleton bs b ih =>
      rcases advance_cases T 0 bs b with ⟨hentries, -, -⟩ | ⟨v, hentries, -, -⟩
      · rw [hentries]
        exact ih
      · rw [hentries]
        exact List.forall_mem_append.mpr ⟨ih, List.forall_mem_singleton.mpr (by simp)⟩

/-! ## Chunks -/

/-- How a chunk opens that was opened at the end of a journal: with nothing at the
start, and otherwise with the prologue of that moment, behind the clear base if the
last span cleared the history. -/
def openedAfter (before : List Entry) : List UInt8 :=
  match before.getLast? with
  | none => []
  | some e =>
      (if e.verdict = .clear then clearBase else []) ++
        (frontOf T (spans before)).sink.sticky.buildSerialized

end Parser

/-- A part of the journal that fills a chunk: its last entry is kept and brings the
kept bytes to the watermark, which they had not reached before. -/
def Fills (watermark : Nat) (part : List Entry) : Prop :=
  ∃ init e, part = init ++ [e] ∧ e.verdict = .keep ∧
    (keptOf init).length < max watermark 1 ∧ watermark ≤ (keptOf part).length

/-- A journal cut into what the last clear dropped, the parts of the sealed chunks and
the part of the open one. -/
structure Cuts (watermark : Nat) where
  cleared : List Entry
  sealedParts : List (List Entry)
  openPart : List Entry
  cleared_clear : ∀ e ∈ cleared.getLast?, e.verdict = .clear
  sealed_fills : ∀ part ∈ sealedParts, Fills watermark part
  shown_not_clear : ∀ e ∈ sealedParts.flatten ++ openPart, e.verdict ≠ .clear
  open_short : (keptOf openPart).length < max watermark 1

namespace Cuts

variable {watermark : Nat}

/-- The journal that was cut. -/
def journal (c : Cuts watermark) : List Entry :=
  c.cleared ++ c.sealedParts.flatten ++ c.openPart

private theorem no_entry : ∀ e ∈ ([] : List Entry), e.verdict ≠ .clear := by
  simp

private theorem no_part : ∀ part ∈ ([] : List (List Entry)), Fills watermark part := by
  simp

private theorem nothing_kept : (keptOf []).length < max watermark 1 := by
  have hzero : (keptOf []).length = 0 := rfl
  omega

private theorem nothing_cleared : ∀ e ∈ ([] : List Entry).getLast?, e.verdict = .clear := by
  simp

/-- The empty journal. -/
def empty (watermark : Nat) : Cuts watermark where
  cleared := []
  sealedParts := []
  openPart := []
  cleared_clear := nothing_cleared
  sealed_fills := no_part
  shown_not_clear := no_entry
  open_short := nothing_kept

private theorem last_clear {e : Entry} (he : e.verdict = .clear) (before : List Entry) :
    ∀ x ∈ (before ++ [e]).getLast?, x.verdict = .clear := by
  intro x hx
  rw [List.getLast?_concat, Option.mem_some_iff] at hx
  exact hx ▸ he

private theorem fills_openPart (c : Cuts watermark) {e : Entry} (hkeep : e.verdict = .keep)
    (hfull : watermark ≤ (keptOf (c.openPart ++ [e])).length) :
    ∀ part ∈ c.sealedParts ++ [c.openPart ++ [e]], Fills watermark part := by
  have hlast : Fills watermark (c.openPart ++ [e]) :=
    ⟨c.openPart, e, rfl, hkeep, c.open_short, hfull⟩
  exact List.forall_mem_append.mpr ⟨c.sealed_fills, List.forall_mem_singleton.mpr hlast⟩

private theorem shown_snoc (c : Cuts watermark) {e : Entry} (he : ¬e.verdict = .clear) :
    ∀ x ∈ c.sealedParts.flatten ++ (c.openPart ++ [e]), x.verdict ≠ .clear := by
  rw [← List.append_assoc]
  exact List.forall_mem_append.mpr ⟨c.shown_not_clear, List.forall_mem_singleton.mpr he⟩

private theorem shown_sealed (c : Cuts watermark) {e : Entry} (he : ¬e.verdict = .clear) :
    ∀ x ∈ (c.sealedParts ++ [c.openPart ++ [e]]).flatten ++ [], x.verdict ≠ .clear := by
  rw [List.append_nil, List.flatten_append, List.flatten_singleton]
  exact shown_snoc c he

private theorem short_snoc (c : Cuts watermark) {e : Entry} (he : ¬e.verdict = .clear)
    (hfull : ¬(e.verdict = .keep ∧ watermark ≤ (keptOf (c.openPart ++ [e])).length)) :
    (keptOf (c.openPart ++ [e])).length < max watermark 1 := by
  cases hv : e.verdict with
  | clear => exact absurd hv he
  | keep =>
      have hless : ¬watermark ≤ (keptOf (c.openPart ++ [e])).length := fun h => hfull ⟨hv, h⟩
      omega
  | drop =>
      have hnothing : keptOf [e] = [] := by simp [keptOf, keptPart, hv]
      rw [keptOf_append, hnothing, List.append_nil]
      exact c.open_short

/-- One more entry: a clear drops all parts, and an entry that brings the open part to
the watermark seals it. -/
def add (c : Cuts watermark) (e : Entry) : Cuts watermark :=
  if hclear : e.verdict = .clear then
    { empty watermark with
      cleared := c.journal ++ [e]
      cleared_clear := last_clear hclear c.journal }
  else if hfull : e.verdict = .keep ∧ watermark ≤ (keptOf (c.openPart ++ [e])).length then
    { cleared := c.cleared
      sealedParts := c.sealedParts ++ [c.openPart ++ [e]]
      openPart := []
      cleared_clear := c.cleared_clear
      sealed_fills := fills_openPart c hfull.1 hfull.2
      shown_not_clear := shown_sealed c hclear
      open_short := nothing_kept }
  else
    { c with
      openPart := c.openPart ++ [e]
      shown_not_clear := shown_snoc c hclear
      open_short := short_snoc c hclear hfull }

/-- The cuts of a journal. -/
def ofJournal (watermark : Nat) (entries : List Entry) : Cuts watermark :=
  entries.foldl add (empty watermark)

/-- One more entry is added to the cuts. -/
theorem ofJournal_snoc (entries : List Entry) (e : Entry) :
    ofJournal watermark (entries ++ [e]) = (ofJournal watermark entries).add e := by
  rw [ofJournal, List.foldl_append]
  rfl

/-- The cuts keep the whole journal. -/
theorem journal_add (c : Cuts watermark) (e : Entry) : (c.add e).journal = c.journal ++ [e] := by
  unfold add
  split
  · simp [journal, empty]
  · split
    · simp [journal]
    · simp [journal]

/-- Cutting loses no entry. -/
theorem journal_ofJournal (entries : List Entry) :
    (ofJournal watermark entries).journal = entries := by
  induction entries using List.reverseRecOn with
  | nil => rfl
  | append_singleton entries e ih => rw [ofJournal_snoc, journal_add, ih]

/-- The chunks that the parts stand for, the first one opened after {lit}`before`. -/
def chunksFrom {σ : Type} (T : Transducer σ UInt8 Callback) :
    List Entry → List (List Entry) → List Chunk
  | _, [] => []
  | before, part :: parts =>
      ⟨openedAfter T before, keptOf part⟩ :: chunksFrom T (before ++ part) parts

/-- The chunks that a cut journal stands for. -/
def chunks {σ : Type} (T : Transducer σ UInt8 Callback) (c : Cuts watermark) : List Chunk :=
  chunksFrom T c.cleared (c.sealedParts ++ [c.openPart])

/-- What lies before the part that a replay of {lit}`k` chunks begins with. -/
def before (c : Cuts watermark) (k : Nat) : List Entry :=
  c.cleared ++ ((c.sealedParts ++ [c.openPart]).take (c.sealedParts.length + 1 - max k 1)).flatten

/-- What a replay of {lit}`k` chunks goes through. -/
def since (c : Cuts watermark) (k : Nat) : List Entry :=
  ((c.sealedParts ++ [c.openPart]).drop (c.sealedParts.length + 1 - max k 1)).flatten

/-- A replay splits the journal in two. -/
theorem before_append_since (c : Cuts watermark) (k : Nat) :
    c.before k ++ c.since k = c.journal := by
  rw [before, since, journal, List.append_assoc, ← List.flatten_append, List.take_append_drop,
    List.flatten_append, List.flatten_singleton, List.append_assoc]

end Cuts

/-! ## Replays -/

section Parser

variable {σ : Type} (T : Transducer σ UInt8 Callback)

/-- The chunks of further parts are opened behind the earlier ones. -/
theorem Cuts.chunksFrom_append (before : List Entry) (parts more : List (List Entry)) :
    chunksFrom T before (parts ++ more) =
      chunksFrom T before parts ++ chunksFrom T (before ++ parts.flatten) more := by
  induction parts generalizing before with
  | nil => simp [chunksFrom]
  | cons part parts ih => simp [chunksFrom, ih]

/-- The last chunks are those of the last parts. -/
theorem Cuts.chunksFrom_drop (before : List Entry) (parts : List (List Entry)) (n : Nat) :
    (chunksFrom T before parts).drop n =
      chunksFrom T (before ++ (parts.take n).flatten) (parts.drop n) := by
  induction parts generalizing before n with
  | nil => simp [chunksFrom]
  | cons part parts ih =>
      cases n with
      | zero => simp [chunksFrom]
      | succ n => simpa [chunksFrom] using ih (before ++ part) n

/-- Together the chunks hold the kept bytes of the parts. -/
theorem Cuts.dataOf_chunksFrom (before : List Entry) (parts : List (List Entry)) :
    ChunkRing.dataOf (chunksFrom T before parts) = keptOf parts.flatten := by
  induction parts generalizing before with
  | nil => rfl
  | cons part parts ih =>
      rw [List.flatten_cons, keptOf_append, ← ih (before ++ part)]
      rfl

/-- The chunks are those of the sealed parts and of the open one. -/
theorem Cuts.chunks_eq {watermark : Nat} (c : Cuts watermark) :
    c.chunks T = chunksFrom T c.cleared c.sealedParts ++
      [⟨openedAfter T (c.cleared ++ c.sealedParts.flatten), keptOf c.openPart⟩] :=
  chunksFrom_append T c.cleared c.sealedParts [c.openPart]

/-- A dropped span leaves the chunks as they are. -/
theorem Cuts.chunks_add_drop {watermark : Nat} (c : Cuts watermark) {e : Entry}
    (he : e.verdict = .drop) : (c.add e).chunks T = c.chunks T := by
  have hnothing : keptOf [e] = [] := by simp [keptOf, keptPart, he]
  have hadd : (c.add e).chunks T = chunksFrom T c.cleared c.sealedParts ++
      [⟨openedAfter T (c.cleared ++ c.sealedParts.flatten), keptOf (c.openPart ++ [e])⟩] := by
    rw [chunks_eq, add, dif_neg (by simp [he]), dif_neg (by simp [he])]
  rw [hadd, keptOf_append, hnothing, List.append_nil, chunks_eq]

/-- A clear leaves one empty chunk. -/
theorem Cuts.chunks_add_clear {watermark : Nat} (c : Cuts watermark) {e : Entry}
    (he : e.verdict = .clear) :
    (c.add e).chunks T = [Chunk.new (openedAfter T (c.journal ++ [e]))] := by
  rw [chunks_eq, add, dif_pos he]
  simp [empty, chunksFrom, keptOf, Chunk.new]

/-- A kept span is appended to the open chunk, which is cut when it has reached the
watermark. -/
theorem Cuts.chunks_add_keep {watermark : Nat} (c : Cuts watermark) {r : ChunkRing}
    (hr : r.chunks = c.chunks T) (hw : r.watermark = watermark) {e : Entry}
    (he : e.verdict = .keep) :
    (r.apply (.keep e.span (openedAfter T (c.journal ++ [e])))).chunks = (c.add e).chunks T := by
  rw [chunks_eq] at hr
  have hopen : r.openChunk =
      ⟨openedAfter T (c.cleared ++ c.sealedParts.flatten), keptOf c.openPart⟩ := by
    have hlast := r.dropLast_append_openChunk
    rw [hr] at hlast
    exact (List.append_inj_right' hlast rfl) |> List.singleton_inj.mp
  have hkept : keptOf (c.openPart ++ [e]) = keptOf c.openPart ++ e.span := by
    simp [keptOf, keptPart, he]
  have happend : (r.append e.span).chunks = chunksFrom T c.cleared c.sealedParts ++
      [⟨openedAfter T (c.cleared ++ c.sealedParts.flatten), keptOf (c.openPart ++ [e])⟩] := by
    have hlist : (r.append e.span).chunks =
        r.chunks.dropLast ++ [{ r.openChunk with data := r.openChunk.data ++ e.span }] := rfl
    rw [hlist, hopen, hkept, hr, List.dropLast_concat]
  have hcut : (r.append e.span).shouldCut =
      decide (watermark ≤ (keptOf (c.openPart ++ [e])).length) := by
    rw [ChunkRing.shouldCut, ChunkRing.openChunk_append, hopen, hkept, ChunkRing.watermark_append,
      hw]
  rw [ChunkRing.apply, hcut, add, dif_neg (by simp [he])]
  by_cases hfull : watermark ≤ (keptOf (c.openPart ++ [e])).length
  · have hlist : ∀ prologue, ((r.append e.span).cut prologue).chunks =
        (r.append e.span).chunks ++ [Chunk.new prologue] := fun _ => rfl
    rw [if_pos (by simpa using hfull), dif_pos ⟨he, hfull⟩, hlist, happend, chunks_eq]
    simp [chunksFrom_append, chunksFrom, journal, Chunk.new, keptOf]
  · rw [if_neg (by simpa using hfull), dif_neg (by simp [hfull]), happend, chunks_eq]

/-- There is one chunk for each part. -/
theorem Cuts.length_chunksFrom (before : List Entry) (parts : List (List Entry)) :
    (chunksFrom T before parts).length = parts.length := by
  induction parts generalizing before with
  | nil => rfl
  | cons part parts ih => rw [chunksFrom, List.length_cons, ih, List.length_cons]

/-- The first chunk has the prologue of the moment it was opened. -/
theorem Cuts.prologueOf_chunksFrom (before : List Entry) {parts : List (List Entry)}
    (h : parts ≠ []) : ChunkRing.prologueOf (chunksFrom T before parts) = openedAfter T before := by
  cases parts with
  | nil => exact absurd rfl h
  | cons part parts => rfl

/-- The ring's chunks are those of the cut journal. -/
theorem chunks_ringOf (watermark : Nat) (bs : List UInt8) :
    (ringOf T watermark bs).chunks = (Cuts.ofJournal watermark (entries T bs)).chunks T := by
  induction bs using List.reverseRecOn with
  | nil => rfl
  | append_singleton bs b ih =>
      rcases advance_cases T watermark bs b with ⟨hentries, -, hring⟩ | ⟨v, hentries, hpending, hring⟩
      · rw [hentries, hring]
        exact ih
      · have hwatermark : (ringOf T watermark bs).watermark = watermark := by
          rw [ringOf, ChunkRing.watermark_applyAll]
          rfl
        have hclosed : spans (entries T (bs ++ [b])) = bs ++ [b] := by
          have hall := spans_append_pending T (bs ++ [b])
          rwa [hpending, List.append_nil] at hall
        have hopening : openedAfter T (entries T (bs ++ [b])) =
            (if v = .clear then clearBase else []) ++
              (frontOf T (bs ++ [b])).sink.sticky.buildSerialized := by
          rw [openedAfter, hentries, List.getLast?_concat, ← hentries, hclosed]
        have hjournal : (Cuts.ofJournal watermark (entries T bs)).journal = entries T bs :=
          Cuts.journal_ofJournal _
        rw [hring]
        cases v with
        | drop =>
            rw [hentries, Cuts.ofJournal_snoc, Cuts.chunks_add_drop T _ rfl]
            exact ih
        | keep =>
            have hkeep := Cuts.chunks_add_keep T (Cuts.ofJournal watermark (entries T bs)) ih hwatermark
              (e := ⟨.keep, (frontOf T bs).pending ++ [b]⟩) rfl
            rw [hjournal, ← hentries, hopening] at hkeep
            rw [hentries, Cuts.ofJournal_snoc, ← hkeep]
            rfl
        | clear =>
            have hclear := Cuts.chunks_add_clear T (Cuts.ofJournal watermark (entries T bs))
              (e := ⟨.clear, (frontOf T bs).pending ++ [b]⟩) rfl
            rw [hjournal, ← hentries, hopening] at hclear
            rw [hentries, Cuts.ofJournal_snoc, hclear]
            rfl

/-- A replay begins at the opening of the first selected part and goes on with what
was kept since. -/
theorem replay_ringOf (watermark : Nat) (bs : List UInt8) (k : Nat) :
    (ringOf T watermark bs).replay k =
      openedAfter T ((Cuts.ofJournal watermark (entries T bs)).before k) ++
        keptOf ((Cuts.ofJournal watermark (entries T bs)).since k) := by
  have hchunks := chunks_ringOf T watermark bs
  generalize Cuts.ofJournal watermark (entries T bs) = c at hchunks
  have hlength : (ringOf T watermark bs).chunks.length = c.sealedParts.length + 1 := by
    rw [hchunks, Cuts.chunks, Cuts.length_chunksFrom, List.length_append, List.length_singleton]
  have hselected : (ringOf T watermark bs).selected k = Cuts.chunksFrom T (c.before k)
      ((c.sealedParts ++ [c.openPart]).drop (c.sealedParts.length + 1 - max k 1)) := by
    rw [ChunkRing.selected, hlength, hchunks, Cuts.chunks, Cuts.chunksFrom_drop, Cuts.before]
  have hsome : (c.sealedParts ++ [c.openPart]).drop (c.sealedParts.length + 1 - max k 1) ≠ [] := by
    apply List.ne_nil_of_length_pos
    rw [List.length_drop, List.length_append, List.length_singleton]
    omega
  rw [ChunkRing.replay, hselected, Cuts.dataOf_chunksFrom, Cuts.prologueOf_chunksFrom T _ hsome,
    Cuts.since]

/-- The ring abbreviates the journal, whatever the bytes and the parser.  The closed
spans, none of them empty, and the pending one are the translated stream.  A replay of {lit}`k` chunks cuts
the journal at the opening of its first chunk: it is the prologue of that moment
followed by the spans kept since, and no clear lies behind it. -/
theorem replay_journal (watermark : Nat) (feeds : List (List UInt8)) (k : Nat) :
    let stream := translate 0 feeds.flatten
    let cuts := Cuts.ofJournal watermark (entries T stream)
    spans (entries T stream) ++ (frontOf T stream).pending = stream ∧
      (∀ e ∈ entries T stream, e.span ≠ []) ∧
      cuts.before k ++ cuts.since k = entries T stream ∧
      (∀ e ∈ cuts.since k, e.verdict ≠ .clear) ∧
      (Scanner.feedAll T (Scanner.new T watermark) feeds).replay k =
        openedAfter T (cuts.before k) ++ keptOf (cuts.since k) := by
  intro stream cuts
  refine ⟨spans_append_pending T stream, span_ne_nil T stream, ?_, ?_, ?_⟩
  · rw [Cuts.before_append_since]
    exact Cuts.journal_ofJournal _
  · intro e he
    obtain ⟨part, hpart, hmem⟩ := List.mem_flatten.mp he
    have hshown : e ∈ (cuts.sealedParts ++ [cuts.openPart]).flatten :=
      List.mem_flatten.mpr ⟨part, List.mem_of_mem_drop hpart, hmem⟩
    rw [List.flatten_append, List.flatten_singleton] at hshown
    exact cuts.shown_not_clear e hshown
  · rw [Scanner.replay, Scanner.feedAll_eq_feed, Scanner.ring_feed]
    exact replay_ringOf T watermark stream k

end Parser

end JftermMuxer.Core
