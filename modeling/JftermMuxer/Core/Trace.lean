import JftermMuxer.Core.Scanner

/-!
# The scanner as a front end and a ring

The parser, the performer and the pending span never read the ring, and the
ring only ever sees finished spans.  This file splits the scanner accordingly:
a front end that turns bytes into ring operations, and the ring that executes
them.  The cached serialization disappears on the way, since a coherent cache
answers what the fields say.

Main results:

- Theorem {lit}`Scanner.advanceAll_simulates`: one simulation of the whole loop.
- Theorem {lit}`Sink.Tracks.stateAfter`: what the callbacks alone decide follows the
  callbacks of the parser.
- Theorems {lit}`Scanner.ring_feed` and {lit}`Scanner.front_feed`: a fed scanner
  is the front end's run over the translated bytes followed by the ring
  operations it emitted.
-/

namespace JftermMuxer.Core

open Foundation Vte

/-! ## Translation of the C1 string terminator -/

/-- The bytes one raw byte stands for, and the continuation count after it. -/
def translateByte (remaining : Nat) (b : UInt8) : List UInt8 × Nat :=
  if 0 < remaining ∧ isCont b then ([b], remaining - 1)
  else if b = 0x9C then ([0x1B, 0x5C], utf8Announced b)
  else ([b], utf8Announced b)

/-- The bytes handed to the parser. -/
def translate : Nat → List UInt8 → List UInt8
  | _, [] => []
  | remaining, b :: bs =>
      (translateByte remaining b).1 ++ translate (translateByte remaining b).2 bs

/-- The continuation count after a stream. -/
def remainingAfter : Nat → List UInt8 → Nat
  | remaining, [] => remaining
  | remaining, b :: bs => remainingAfter (translateByte remaining b).2 bs

@[simp] theorem translate_nil (remaining : Nat) : translate remaining [] = [] := rfl

/-- Two streams in a row are translated one after the other. -/
theorem translate_append (remaining : Nat) (as bs : List UInt8) :
    translate remaining (as ++ bs) =
      translate remaining as ++ translate (remainingAfter remaining as) bs := by
  induction as generalizing remaining with
  | nil => rfl
  | cons a as ih =>
      simp only [List.cons_append, translate, remainingAfter]
      rw [ih, List.append_assoc]

/-- What a character still waits for after two streams in a row. -/
theorem remainingAfter_append (remaining : Nat) (as bs : List UInt8) :
    remainingAfter remaining (as ++ bs) = remainingAfter (remainingAfter remaining as) bs := by
  induction as generalizing remaining with
  | nil => rfl
  | cons a as ih => exact ih _

/-- Bytes below 0x80 pass unchanged and end any character. -/
theorem translate_ascii (remaining : Nat) {bs : List UInt8} (hbs : ∀ b ∈ bs, b < 0x80)
    (hne : bs ≠ []) : translate remaining bs = bs ∧ remainingAfter remaining bs = 0 := by
  have hbyte : ∀ r b, b < (0x80 : UInt8) → translateByte r b = ([b], 0) := by
    intro r b hb
    have hcont : isCont b = false := by
      unfold isCont
      grind
    have hann : utf8Announced b = 0 := by
      unfold utf8Announced
      grind
    have hst : b ≠ 0x9C := by grind
    simp [translateByte, hcont, hann, hst]
  induction bs generalizing remaining with
  | nil => exact absurd rfl hne
  | cons b bs ih =>
      have hb := hbyte remaining b (hbs b (by simp))
      cases bs with
      | nil => simp [translate, remainingAfter, hb]
      | cons c cs =>
          have hrest := ih 0 (fun x hx => hbs x (List.mem_cons_of_mem b hx)) (by simp)
          simp [translate, remainingAfter, hb] at hrest ⊢
          exact hrest

/-- The translation leaves the stream as it is and ends outside a character. -/
def Stable (bs : List UInt8) : Prop := translate 0 bs = bs ∧ remainingAfter 0 bs = 0

/-- The translation leaves the empty stream alone. -/
theorem stable_nil : Stable [] := ⟨rfl, rfl⟩

/-- The translation leaves two stable streams in a row alone. -/
theorem Stable.append {as bs : List UInt8} (ha : Stable as) (hb : Stable bs) :
    Stable (as ++ bs) := by
  refine ⟨?_, ?_⟩
  · rw [translate_append, ha.1, ha.2, hb.1]
  · rw [remainingAfter_append, ha.2, hb.2]

/-- The translation leaves ASCII alone. -/
theorem stable_ascii {bs : List UInt8} (hbs : ∀ b ∈ bs, b < 0x80) : Stable bs := by
  by_cases hne : bs = []
  · rw [hne]
    exact stable_nil
  · exact translate_ascii 0 hbs hne

private theorem translateByte_cont {n : Nat} {b : UInt8} (hb : isCont b = true) :
    translateByte (n + 1) b = ([b], n) := by
  simp [translateByte, hb]

private theorem translateByte_lead {b : UInt8} (h : 2 ≤ leadWidth b) :
    translateByte 0 b = ([b], leadWidth b - 1) := by
  have hne : b ≠ 0x9C := by
    have hhigh := leadWidth_high h
    grind
  have hann : utf8Announced b = leadWidth b - 1 := by
    unfold leadWidth at h ⊢
    unfold utf8Announced
    grind
  simp [translateByte, hne, hann]

/-- The continuation bytes of a character are never taken for a terminator. -/
theorem stable_scalar {bs : List UInt8} (h : IsScalar bs) : Stable bs := by
  cases h with
  | @one a ha => exact stable_ascii (by simpa using ha)
  | @two a b ha hb =>
      have hcont := secondOk_isCont hb
      have hlead := translateByte_lead (b := a) (by omega)
      rw [ha] at hlead
      simp [Stable, translate, remainingAfter, hlead, translateByte_cont hcont]
  | @three a b c ha hb hc =>
      have hcont := secondOk_isCont hb
      have hlead := translateByte_lead (b := a) (by omega)
      rw [ha] at hlead
      simp [Stable, translate, remainingAfter, hlead, translateByte_cont hcont,
        translateByte_cont hc]
  | @four a b c d ha hb hc hd =>
      have hcont := secondOk_isCont hb
      have hlead := translateByte_lead (b := a) (by omega)
      rw [ha] at hlead
      simp [Stable, translate, remainingAfter, hlead, translateByte_cont hcont,
        translateByte_cont hc, translateByte_cont hd]

/-- The translation leaves well-formed text alone. -/
theorem stable_text {bs : List UInt8} (h : IsText bs) : Stable bs := by
  induction h with
  | nil => exact stable_nil
  | cons hscalar _ ih => exact (stable_scalar hscalar).append ih

/-- The translation takes nothing away. -/
theorem length_translate_le (remaining : Nat) (bs : List UInt8) :
    bs.length ≤ (translate remaining bs).length := by
  induction bs generalizing remaining with
  | nil => simp
  | cons b bs ih =>
      have hrest := ih (translateByte remaining b).2
      have hbyte : 1 ≤ (translateByte remaining b).1.length := by
        unfold translateByte
        split
        · simp
        · split <;> simp
      simp only [translate, List.length_append, List.length_cons]
      omega

/-- A prefix of a stream that passes unchanged passes unchanged. -/
theorem translate_of_append {as bs : List UInt8} (h : translate 0 (as ++ bs) = as ++ bs) :
    translate 0 as = as := by
  rw [translate_append] at h
  have hlen := congrArg List.length h
  have has := length_translate_le 0 as
  have hbs := length_translate_le (remainingAfter 0 as) bs
  simp only [List.length_append] at hlen
  exact (List.append_inj h (by omega)).1

/-! ## Ring operations -/

/-- What a finished span asks of the ring. -/
inductive RingOp where
  | keep (span prologue : List UInt8)
  | purge (prologue : List UInt8)
deriving DecidableEq, Repr

/-- Execute one operation: a kept span is appended, and the chunk is cut with
the given prologue once it has passed the watermark. -/
def ChunkRing.apply (r : ChunkRing) : RingOp → ChunkRing
  | .keep span prologue =>
      if (r.append span).shouldCut then (r.append span).cut prologue else r.append span
  | .purge prologue => r.purge prologue

/-- Execute a list of operations in order. -/
def ChunkRing.applyAll (r : ChunkRing) (ops : List RingOp) : ChunkRing := ops.foldl ChunkRing.apply r

@[simp] theorem ChunkRing.applyAll_nil (r : ChunkRing) : r.applyAll [] = r := rfl

/-- The first operation is applied first. -/
theorem ChunkRing.applyAll_cons (r : ChunkRing) (op : RingOp) (ops : List RingOp) :
    r.applyAll (op :: ops) = (r.apply op).applyAll ops := rfl

/-- Operations are applied one list after the other. -/
theorem ChunkRing.applyAll_append (r : ChunkRing) (as bs : List RingOp) :
    r.applyAll (as ++ bs) = (r.applyAll as).applyAll bs := by
  simp [applyAll, List.foldl_append]

/-- A property of byte strings that every kept span extends and every prologue
has holds of all replays along a list of operations. -/
theorem ChunkRing.forall_replay_apply {P Q : List UInt8 → Prop} {r : ChunkRing} {op : RingOp}
    (hr : ∀ k, P (r.replay k))
    (hkeep : ∀ span prologue, op = .keep span prologue → Q prologue ∧ ∀ x, P x → Q (x ++ span))
    (hpurge : ∀ prologue, op = .purge prologue → Q prologue) (k : Nat) :
    Q ((r.apply op).replay k) := by
  cases op with
  | keep span prologue =>
      obtain ⟨hprologue, hspan⟩ := hkeep span prologue rfl
      have happend : ∀ k, Q ((r.append span).replay k) := by
        intro k
        rw [replay_append]
        exact hspan _ (hr k)
      simp only [apply]
      split
      · exact forall_replay_cut happend hprologue k
      · exact happend k
  | purge prologue =>
      simp only [apply, replay_purge]
      exact hpurge prologue rfl

/-- A kept span ends the full replay. -/
theorem ChunkRing.full_keep (r : ChunkRing) (span prologue : List UInt8) :
    (r.apply (.keep span prologue)).full = r.full ++ span := by
  simp only [apply]
  split
  · rw [full_cut, full_append]
  · exact full_append r span

/-! ## Chunks of whole pieces -/

section Pieces

variable {α : Type} (encode : α → List UInt8)

/-- The chunks of a ring share a list of pieces between them, the bytes of each piece
whole in one chunk. -/
def ChunkRing.Shares (r : ChunkRing) (xs : List α) : Prop :=
  ∃ parts : List (List α), parts.flatten = xs ∧
    r.chunks.map Chunk.data = parts.map fun part => (part.map encode).flatten

variable {encode}

/-- A fresh ring shares no items. -/
theorem ChunkRing.shares_new (watermark : Nat) : (ChunkRing.new watermark).Shares encode [] :=
  ⟨[[]], rfl, rfl⟩

/-- A purged ring shares no items. -/
theorem ChunkRing.shares_purge (r : ChunkRing) (prologue : List UInt8) :
    (r.purge prologue).Shares encode [] :=
  ⟨[[]], rfl, rfl⟩

/-- A cut leaves the items as they are shared. -/
theorem ChunkRing.Shares.cut {r : ChunkRing} {xs : List α} (h : r.Shares encode xs)
    (prologue : List UInt8) : (r.cut prologue).Shares encode xs := by
  obtain ⟨parts, hflat, hdata⟩ := h
  refine ⟨parts ++ [[]], ?_, ?_⟩
  · simpa using hflat
  · simp [ChunkRing.cut, Chunk.new, hdata]

/-- An appended item is one more. -/
theorem ChunkRing.Shares.append {r : ChunkRing} {xs : List α} (h : r.Shares encode xs) (x : α) :
    (r.append (encode x)).Shares encode (xs ++ [x]) := by
  obtain ⟨parts, hflat, hdata⟩ := h
  rw [← r.dropLast_append_openChunk, List.map_append, List.map_singleton] at hdata
  rcases List.eq_nil_or_concat parts with rfl | ⟨parts, last, rfl⟩
  · simp at hdata
  · rw [List.concat_eq_append, List.map_append, List.map_singleton] at hdata
    obtain ⟨hsealed, hopen⟩ := List.append_inj' hdata rfl
    refine ⟨parts ++ [last ++ [x]], ?_, ?_⟩
    · rw [← hflat]
      simp
    · simp only [ChunkRing.append, List.map_append, List.map_singleton, hsealed]
      rw [List.singleton_inj.mp hopen]
      simp

/-- A kept piece stays whole. -/
theorem ChunkRing.Shares.keep {r : ChunkRing} {xs : List α} (h : r.Shares encode xs) (x : α)
    (prologue : List UInt8) : (r.apply (.keep (encode x) prologue)).Shares encode (xs ++ [x]) := by
  simp only [ChunkRing.apply]
  split
  · exact (h.append x).cut prologue
  · exact h.append x

end Pieces

/-! ## The front end -/

/-- The performer without its serialization cache. -/
def Sink.erase (s : Sink) : Sink := { s with sticky := s.sticky.erase }

/-- Everything the scanner holds besides the ring and the byte translation. -/
structure Front (σ : Type) where
  parser : σ
  sink : Sink
  pending : List UInt8

namespace Front

variable {σ : Type} (T : Transducer σ UInt8 Callback)

def init : Front σ := ⟨T.init, Sink.new, []⟩

/-- The ring operation of an event, with the current prologue. -/
def opOf (f : Front σ) : SegEvent → List RingOp
  | .none => []
  | .keepByte | .keepSeq => [.keep f.pending f.sink.sticky.buildSerialized]
  | .dropSeq => []
  | .clearSeq => [.purge (clearBase ++ f.sink.sticky.buildSerialized)]

/-- The span is consumed by every event but {lit}`none`. -/
def closeSpan (f : Front σ) : SegEvent → Front σ
  | .none => f
  | _ => { f with pending := [] }

@[simp] theorem parser_closeSpan (f : Front σ) (ev : SegEvent) :
    (f.closeSpan ev).parser = f.parser := by
  cases ev <;> rfl

@[simp] theorem sink_closeSpan (f : Front σ) (ev : SegEvent) :
    (f.closeSpan ev).sink = f.sink := by
  cases ev <;> rfl

/-- One byte through the parser and the performer. -/
def advance (f : Front σ) (b : UInt8) : Front σ × List RingOp :=
  let step := T.advance f.parser b
  let taken := (f.sink.performAll step.2).takeEvent
  let next : Front σ := ⟨step.1, taken.2, f.pending ++ [b]⟩
  (next.closeSpan taken.1, next.opOf taken.1)

@[simp] theorem parser_advance (f : Front σ) (b : UInt8) :
    (advance T f b).1.parser = (T.advance f.parser b).1 :=
  parser_closeSpan _ _

@[simp] theorem sink_advance (f : Front σ) (b : UInt8) :
    (advance T f b).1.sink =
      { f.sink.performAll (T.advance f.parser b).2 with event := .none } :=
  sink_closeSpan _ _

/-- The front end as a transducer from bytes to ring operations. -/
def machine : Transducer (Front σ) UInt8 RingOp where
  init := init T
  advance := advance T

@[simp] theorem machine_init : (machine T).init = init T := rfl

@[simp] theorem machine_advance (f : Front σ) (b : UInt8) :
    (machine T).advance f b = advance T f b := rfl

/-- The parser runs by itself. -/
theorem parser_stateAfter (f : Front σ) (bs : List UInt8) :
    ((machine T).stateAfter f bs).parser = T.stateAfter f.parser bs := by
  induction bs generalizing f with
  | nil => rfl
  | cons b bs ih =>
      rw [Transducer.stateAfter_cons, Transducer.stateAfter_cons, ih, machine_advance,
        parser_advance]

end Front

/-- A part of the performer's state that every callback updates by itself, and that
the reading of the event leaves alone. -/
structure Sink.Tracks {ρ : Type} (part : Sink → ρ) (update : ρ → Callback → ρ) : Prop where
  perform : ∀ s cb, part (s.perform cb) = update (part s) cb
  event : ∀ s ev, part { s with event := ev } = part s

section Tracks

variable {σ ρ : Type} {part : Sink → ρ} {update : ρ → Callback → ρ}

/-- Callbacks update the part one by one. -/
theorem Sink.Tracks.performAll (h : Sink.Tracks part update) (s : Sink) (cbs : List Callback) :
    part (s.performAll cbs) = cbs.foldl update (part s) := by
  induction cbs generalizing s with
  | nil => rfl
  | cons cb cbs ih =>
      rw [List.foldl_cons, ← h.perform]
      exact ih (s.perform cb)

/-- After a stream such a part is what the callbacks of the parser make of it. -/
theorem Sink.Tracks.stateAfter (h : Sink.Tracks part update) (T : Transducer σ UInt8 Callback)
    (f : Front σ) (bs : List UInt8) :
    part ((Front.machine T).stateAfter f bs).sink =
      (T.outputs f.parser bs).foldl update (part f.sink) := by
  induction bs generalizing f with
  | nil => rfl
  | cons b bs ih =>
      have hstep : part (Front.advance T f b).1.sink =
          (T.advance f.parser b).2.foldl update (part f.sink) := by
        rw [Front.sink_advance, h.event, h.performAll]
      have hrest := ih (Front.advance T f b).1
      rw [Front.parser_advance, hstep] at hrest
      rw [Transducer.stateAfter_cons, Transducer.outputs_cons, List.foldl_append]
      exact hrest

end Tracks

/-! ## Simulation -/

namespace Sink

/-- The serialization cache is coherent. -/
def Coherent (s : Sink) : Prop := s.sticky.Coherent

/-- A fresh sink is coherent. -/
theorem coherent_new : new.Coherent := StickyState.coherent_new

private theorem coherent_foldl_setDecMode {s : StickyState} (h : s.Coherent) (codes : List UInt16)
    (on : Bool) : (codes.foldl (fun st code => st.setDecMode code on) s).Coherent := by
  induction codes generalizing s with
  | nil => exact h
  | cons code codes ih => exact ih (s.coherent_setDecMode code on)

/-- No callback makes the cache stale. -/
theorem coherent_perform {s : Sink} (h : s.Coherent) (cb : Callback) : (s.perform cb).Coherent := by
  cases cb with
  | oscDispatch params bell =>
      unfold Coherent at *
      simp only [perform, oscDispatch, oscClassify]
      repeat' split
      all_goals first
        | exact h
        | exact StickyState.coherent_setTitle _ _
        | exact StickyState.coherent_setCwd _ _
  | csiDispatch params intermediates ignore action =>
      unfold Coherent at *
      simp only [perform, csiDispatch]
      repeat' split
      all_goals first
        | exact h
        | exact StickyState.coherent_setSgr _ _
        | exact StickyState.coherent_setScrollRegion _ _
        | exact coherent_foldl_setDecMode h _ _
  | escDispatch intermediates ignore byte =>
      unfold Coherent at *
      simp only [perform, escDispatch]
      split <;> exact h
  | _ => exact h

/-- Callbacks keep the sink coherent. -/
theorem coherent_performAll {s : Sink} (h : s.Coherent) (cbs : List Callback) :
    (s.performAll cbs).Coherent := by
  induction cbs generalizing s with
  | nil => exact h
  | cons cb cbs ih => exact ih (coherent_perform h cb)

private theorem erase_foldl_setDecMode (s : StickyState) (codes : List UInt16) (on : Bool) :
    (codes.foldl (fun st code => st.setDecMode code on) s).erase =
      (codes.foldl (fun st code => st.setDecMode code on) s.erase).erase := by
  induction codes generalizing s with
  | nil => rfl
  | cons code codes ih =>
      simp only [List.foldl_cons]
      rw [ih (s.setDecMode code on), ih (s.erase.setDecMode code on)]
      congr 2

private theorem erase_foldl_setDecMode_of_erased {s : StickyState} (hs : s.cache = none)
    (codes : List UInt16) (on : Bool) :
    (codes.foldl (fun st code => st.setDecMode code on) s).erase =
      codes.foldl (fun st code => st.setDecMode code on) s := by
  induction codes generalizing s with
  | nil =>
      cases s
      simp_all [StickyState.erase]
  | cons code codes ih =>
      have hnone : (s.setDecMode code on).cache = none := by
        cases on <;> rfl
      exact ih hnone

/-- The performer never looks at the cache. -/
theorem erase_perform (s : Sink) (cb : Callback) : (s.perform cb).erase = s.erase.perform cb := by
  cases cb with
  | oscDispatch params bell =>
      simp only [perform, oscDispatch, oscClassify, erase]
      split
      · split <;> rfl
      · split
        · split <;> rfl
        · split
          · split
            · split <;> rfl
            · rfl
          · split
            · split
              · rfl
              · split <;> rfl
            · split <;> rfl
  | csiDispatch params intermediates ignore action =>
      have hmodes := fun codes on =>
        (erase_foldl_setDecMode s.sticky codes on).trans
          (erase_foldl_setDecMode_of_erased (s := s.sticky.erase) rfl codes on)
      simp only [perform, csiDispatch, erase]
      split
      · rfl
      · split
        · rfl
        · split
          · split <;> rfl
          · split
            · rfl
            · split
              · simp only [hmodes]
              · split <;> rfl
  | escDispatch intermediates ignore byte =>
      simp only [perform, escDispatch, erase]
      split <;> rfl
  | _ => rfl

/-- Callbacks do not look at the cache. -/
theorem erase_performAll (s : Sink) (cbs : List Callback) :
    (s.performAll cbs).erase = s.erase.performAll cbs := by
  induction cbs generalizing s with
  | nil => rfl
  | cons cb cbs ih =>
      have hstep := ih (s.perform cb)
      rw [erase_perform] at hstep
      exact hstep

end Sink

namespace Scanner

variable {σ : Type} (T : Transducer σ UInt8 Callback)

/-- The front end of a scanner. -/
def front (s : Scanner σ) : Front σ := ⟨s.parser, s.sink.erase, s.pending⟩

/-- Process already translated bytes. -/
def advanceAll (s : Scanner σ) (bytes : List UInt8) : Scanner σ := bytes.foldl (advanceOne T) s

/-- Acting on an event is closing the front end's span and executing the ring
operation of the event. -/
theorem settle_simulates {s : Scanner σ} (h : s.sink.Coherent) (ev : SegEvent) :
    (settle s ev).front = s.front.closeSpan ev ∧
      (settle s ev).ring = s.ring.applyAll (s.front.opOf ev) ∧
      (settle s ev).sink.Coherent ∧
      (settle s ev).utf8Remaining = s.utf8Remaining := by
  have hser : s.sink.sticky.serialize.1 = s.sink.sticky.buildSerialized :=
    StickyState.serialize_eq h
  have herase : s.sink.sticky.serialize.2.erase = s.sink.sticky.erase :=
    StickyState.erase_serialize s.sink.sticky
  have hcoh : s.sink.sticky.serialize.2.Coherent := StickyState.coherent_serialize h
  cases ev with
  | none => exact ⟨rfl, rfl, h, rfl⟩
  | dropSeq => exact ⟨rfl, rfl, h, rfl⟩
  | clearSeq =>
      refine ⟨?_, ?_, hcoh, rfl⟩
      · simp only [settle, front, Sink.erase, herase, Front.closeSpan]
      · simp only [settle, hser]
        rfl
  | keepByte | keepSeq =>
      have hop : s.ring.applyAll [.keep s.pending s.sink.sticky.buildSerialized] =
          if (s.ring.append s.pending).shouldCut then
            (s.ring.append s.pending).cut s.sink.sticky.buildSerialized
          else s.ring.append s.pending := rfl
      have hop' : s.front.opOf .keepSeq = [.keep s.pending s.sink.sticky.buildSerialized] := rfl
      change _ ∧ _ = s.ring.applyAll (s.front.opOf .keepSeq) ∧ _
      rw [hop', hop]
      simp only [settle, maybeCut]
      split
      · refine ⟨?_, ?_, hcoh, rfl⟩
        · simp only [front, Sink.erase, herase, Front.closeSpan]
        · simp only [hser]
      · exact ⟨rfl, rfl, h, rfl⟩

/-- One byte of the scanner is one step of its front end, then the ring
operations that step asks for. -/
theorem advanceOne_simulates {s : Scanner σ} (h : s.sink.Coherent) (b : UInt8) :
    (advanceOne T s b).front = (Front.advance T s.front b).1 ∧
      (advanceOne T s b).ring = s.ring.applyAll (Front.advance T s.front b).2 ∧
      (advanceOne T s b).sink.Coherent ∧
      (advanceOne T s b).utf8Remaining = s.utf8Remaining := by
  have hcoh := Sink.coherent_performAll h (T.advance s.parser b).2
  have herase := Sink.erase_performAll s.sink (T.advance s.parser b).2
  have hstep : Front.advance T s.front b =
      (let next : Front σ :=
          ⟨(T.advance s.parser b).1,
            ((s.sink.performAll (T.advance s.parser b).2).takeEvent.2).erase, s.pending ++ [b]⟩
        let ev := (s.sink.performAll (T.advance s.parser b).2).event
        (next.closeSpan ev, next.opOf ev)) := by
    simp only [Front.advance, front, ← herase]
    rfl
  rw [hstep]
  exact settle_simulates (s := { s with
    parser := (T.advance s.parser b).1
    sink := (s.sink.performAll (T.advance s.parser b).2).takeEvent.2
    pending := s.pending ++ [b] }) hcoh _

/-- The scanner does what the front and the ring do. -/
theorem advanceAll_simulates {s : Scanner σ} (h : s.sink.Coherent) (bytes : List UInt8) :
    (advanceAll T s bytes).front = (Front.machine T).stateAfter s.front bytes ∧
      (advanceAll T s bytes).ring =
        s.ring.applyAll ((Front.machine T).outputs s.front bytes) ∧
      (advanceAll T s bytes).sink.Coherent ∧
      (advanceAll T s bytes).utf8Remaining = s.utf8Remaining := by
  induction bytes generalizing s with
  | nil => exact ⟨rfl, rfl, h, rfl⟩
  | cons b bytes ih =>
      obtain ⟨hfront, hring, hcoh, hrem⟩ := advanceOne_simulates T h b
      obtain ⟨ihFront, ihRing, ihCoh, ihRem⟩ := ih hcoh
      rw [hfront] at ihFront ihRing
      rw [hring] at ihRing
      refine ⟨ihFront, ?_, ihCoh, ihRem.trans hrem⟩
      rw [Transducer.outputs_cons, ChunkRing.applyAll_append]
      exact ihRing

/-- A verdict does not look at the count of continuation bytes. -/
theorem settle_setRemaining (s : Scanner σ) (ev : SegEvent) (n : Nat) :
    settle { s with utf8Remaining := n } ev = { settle s ev with utf8Remaining := n } := by
  cases ev with
  | keepByte | keepSeq =>
      simp only [settle, maybeCut]
      split <;> rfl
  | _ => rfl

/-- Processing a byte does not read the continuation count. -/
theorem advanceOne_setRemaining (s : Scanner σ) (b : UInt8) (n : Nat) :
    advanceOne T { s with utf8Remaining := n } b =
      { advanceOne T s b with utf8Remaining := n } :=
  settle_setRemaining
    { s with
      parser := (T.advance s.parser b).1
      sink := (s.sink.performAll (T.advance s.parser b).2).takeEvent.2
      pending := s.pending ++ [b] }
    (s.sink.performAll (T.advance s.parser b).2).takeEvent.1 n

/-- Translated bytes do not look at it either. -/
theorem advanceAll_setRemaining (s : Scanner σ) (bytes : List UInt8) (n : Nat) :
    advanceAll T { s with utf8Remaining := n } bytes =
      { advanceAll T s bytes with utf8Remaining := n } := by
  induction bytes generalizing s with
  | nil => rfl
  | cons b bytes ih =>
      have hstep := advanceOne_setRemaining T s b n
      simp only [advanceAll, List.foldl_cons] at ih ⊢
      rw [hstep, ih]

/-- One raw byte is its translation, processed byte by byte. -/
theorem feedByte_eq (s : Scanner σ) (b : UInt8) :
    feedByte T s b =
      { advanceAll T s (translateByte s.utf8Remaining b).1 with
        utf8Remaining := (translateByte s.utf8Remaining b).2 } := by
  rw [← advanceAll_setRemaining]
  unfold feedByte translateByte
  split
  · rfl
  · dsimp only
    split <;> rfl

/-- Feeding is processing the translated stream. -/
theorem feed_eq (s : Scanner σ) (bytes : List UInt8) :
    feed T s bytes =
      { advanceAll T s (translate s.utf8Remaining bytes) with
        utf8Remaining := remainingAfter s.utf8Remaining bytes } := by
  induction bytes generalizing s with
  | nil => rfl
  | cons b bytes ih =>
      have hstep := ih (feedByte T s b)
      rw [feedByte_eq] at hstep
      simp only [advanceAll_setRemaining] at hstep
      simp only [translate, remainingAfter, advanceAll, List.foldl_append]
      rw [feed, List.foldl_cons, feedByte_eq]
      exact hstep

/-- The front end after a whole stream. -/
theorem front_feed (watermark : Nat) (bytes : List UInt8) :
    (feed T (new T watermark) bytes).front =
      (Front.machine T).stateAfter (Front.init T) (translate 0 bytes) := by
  rw [feed_eq]
  exact (advanceAll_simulates T (s := new T watermark) Sink.coherent_new _).1

/-- The ring after a whole stream: the operations of the front end, executed on
a fresh ring. -/
theorem ring_feed (watermark : Nat) (bytes : List UInt8) :
    (feed T (new T watermark) bytes).ring =
      (ChunkRing.new watermark).applyAll
        ((Front.machine T).outputs (Front.init T) (translate 0 bytes)) := by
  rw [feed_eq]
  exact (advanceAll_simulates T (s := new T watermark) Sink.coherent_new _).2.1

/-- A stream that the translation leaves alone, in any number of feed calls. -/
theorem ring_feedAll {watermark : Nat} {feeds : List (List UInt8)} {bytes : List UInt8}
    (hstable : Stable bytes) (hfeeds : feeds.flatten = bytes) :
    (feedAll T (new T watermark) feeds).ring =
      (ChunkRing.new watermark).applyAll ((Front.machine T).outputs (Front.init T) bytes) := by
  rw [feedAll_eq_feed, hfeeds, ring_feed, hstable.1]

/-- The prologue a fed scanner would cut with. -/
theorem serialize_feed (watermark : Nat) (bytes : List UInt8) :
    (feed T (new T watermark) bytes).sink.sticky.serialize.1 =
      ((Front.machine T).stateAfter (Front.init T) (translate 0 bytes)).sink.sticky.buildSerialized := by
  have hcoh : (feed T (new T watermark) bytes).sink.Coherent := by
    rw [feed_eq]
    exact (advanceAll_simulates T (s := new T watermark) Sink.coherent_new _).2.2.1
  rw [StickyState.serialize_eq hcoh, ← front_feed T watermark bytes]
  rfl

end Scanner

end JftermMuxer.Core
