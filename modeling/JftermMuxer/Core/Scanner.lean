import JftermMuxer.Core.Ring
import JftermMuxer.Core.Sticky
import JftermMuxer.Vte.Table

/-!
# The scanner

{lit}`core/src/status.rs`, {lit}`core/src/scanner.rs` and
{lit}`core/src/engine.rs`: the shell status, the performer that classifies parser
callbacks, and the loop that feeds the parser one byte at a time, buffers the
bytes of the current span and sends each finished span to the ring.  The scanner
is stated over an arbitrary per-byte parser; the daemon uses it with
{lit}`Vte.table`.

Main results:

- Definition {lit}`Sink.perform`: the performer, one function per callback.
- Definition {lit}`Scanner.feed`: the loop, with the translation of a standalone
  C1 string terminator.
- Theorem {lit}`Scanner.feed_append`: feeding in pieces is feeding the
  concatenation.
-/

namespace JftermMuxer.Core

open Foundation Vte

/-! ## Shell status -/

/-- The status handed to the daemon for a STATUS frame. -/
structure StatusSnapshot where
  running : Bool
  progress : Option UInt8
deriving DecidableEq, Repr

/-- Latest semantic shell status, with the latch that records whether the shell
marks its prompts. -/
structure StatusCache where
  running : Bool
  progress : Option UInt8
  sawPromptMarker : Bool
deriving DecidableEq, Repr

namespace StatusCache

def new : StatusCache := ⟨false, none, false⟩

def setRunning (s : StatusCache) (running : Bool) : StatusCache := { s with running := running }

def setProgress (s : StatusCache) (progress : Option UInt8) : StatusCache :=
  { s with progress := progress }

def setPromptMarkerSeen (s : StatusCache) : StatusCache := { s with sawPromptMarker := true }

def snapshot (s : StatusCache) : StatusSnapshot := ⟨s.running, s.progress⟩

end StatusCache

/-! ## The performer -/

/-- What the parser did with the byte just fed. -/
inductive SegEvent where
  | none
  | keepByte
  | keepSeq
  | dropSeq
  | clearSeq
deriving DecidableEq, Repr

/-- The performer's state; the source's scratch vector for SGR parameters holds
no information between callbacks and is left out. -/
structure Sink where
  sticky : StickyState
  status : StatusCache
  event : SegEvent
  stPending : Option SegEvent
deriving DecidableEq

/-- Rust's {lit}`str::parse::<u8>` on the bytes of a field: an optional plus
sign, at least one digit, no value above 255. -/
def parseU8 (text : List UInt8) : Option UInt8 :=
  let digits := match text with
    | 0x2B :: d :: ds => d :: ds
    | _ => text
  if digits = [] ∨ ¬ digits.all isDigit then none
  else
    let value := digits.foldl (fun acc b => acc * 10 + (b.toNat - 48)) 0
    if value ≤ 255 then some (UInt8.ofNat value) else none

/-- First value of a group of the parameter iterator, or 0. -/
def firstValue (group : Option (List UInt16)) : UInt16 := (group.bind List.head?).getD 0

namespace Sink

def new : Sink := ⟨StickyState.new, StatusCache.new, .none, none⟩

def print (s : Sink) : Sink := { s with stPending := none, event := .keepByte }

/-- C0 controls are kept, the bell is dropped. -/
def execute (s : Sink) (byte : UInt8) : Sink :=
  { s with stPending := none, event := if byte = 0x07 then .dropSeq else .keepSeq }

def hook (s : Sink) : Sink := { s with stPending := none, event := .none }

def put (s : Sink) : Sink := { s with stPending := none, event := .none }

def unhook (s : Sink) : Sink := { s with stPending := none, event := .keepSeq }

/-- The OSC arms up to the recording of {lit}`st_pending`.  A field equals one
of the ASCII codes exactly when it is valid UTF-8 and equal as a string. -/
def oscClassify (s : Sink) (params : List (List UInt8)) : Sink :=
  let code := params.head?
  if code = some [0x30] ∨ code = some [0x31] ∨ code = some [0x32] then
    let s := match params[1]? with
      | some text => { s with sticky := s.sticky.setTitle text }
      | none => s
    { s with event := .keepSeq }
  else if code = some [0x37] then
    let s := match params[1]? with
      | some cwd => { s with sticky := s.sticky.setCwd cwd }
      | none => s
    { s with event := .keepSeq }
  else if code = some [0x39] then
    let s :=
      if params[1]? = some [0x34] then
        if params[2]? = some [0x30] then { s with status := s.status.setProgress none }
        else { s with status := s.status.setProgress (params[3]?.bind parseU8) }
      else s
    { s with event := .dropSeq }
  else if code = some [0x31, 0x33, 0x33] then
    let s := { s with status := s.status.setPromptMarkerSeen }
    let marker : Option UInt8 := params[1]?.bind List.head?
    let s :=
      if marker = some 0x43 then { s with status := s.status.setRunning true }
      else if marker = some 0x44 then { s with status := s.status.setRunning false }
      else s
    { s with event := .dropSeq }
  else if code = some [0x35, 0x32] ∨ code = some [0x37, 0x37, 0x37] then
    { s with event := .dropSeq }
  else { s with event := .keepSeq }

def oscDispatch (s : Sink) (params : List (List UInt8)) : Sink :=
  let s := s.oscClassify params
  { s with stPending := some s.event }

def csiDispatch (s : Sink) (params : List (List UInt16)) (intermediates : List UInt8)
    (action : UInt8) : Sink :=
  let s := { s with stPending := none }
  let isPrivate := intermediates.head? = some 0x3F
  if action = 0x6E then { s with event := .dropSeq }
  else if action = 0x63 then { s with event := .dropSeq }
  else if action = 0x6D ∧ ¬ isPrivate then
    let sgr := params.flatten
    let sticky := if sgr = [] ∨ sgr = [0] then s.sticky.setSgr [] else s.sticky.setSgr sgr
    { s with sticky := sticky, event := .keepSeq }
  else if action = 0x72 ∧ ¬ isPrivate then
    let top := firstValue params[0]?
    let bottom := firstValue params[1]?
    let region := if top = 0 ∧ bottom = 0 then none else some (top, bottom)
    { s with sticky := s.sticky.setScrollRegion region, event := .keepSeq }
  else if (action = 0x68 ∨ action = 0x6C) ∧ isPrivate then
    let on := action == 0x68
    let codes := params.filterMap List.head?
    let sticky := codes.foldl (fun st code => st.setDecMode code on) s.sticky
    { s with sticky := sticky, event := .keepSeq }
  else if action = 0x4A then
    let mode := firstValue params[0]?
    { s with event := if mode = 2 ∨ mode = 3 then .clearSeq else .keepSeq }
  else { s with event := .keepSeq }

/-- A backslash right after an OSC takes over that OSC's classification. -/
def escDispatch (s : Sink) (byte : UInt8) : Sink :=
  match byte == 0x5C, s.stPending with
  | true, some ev => { s with stPending := none, event := ev }
  | _, _ =>
      { s with stPending := none, event := if byte = 0x63 then .clearSeq else .keepSeq }

/-- The performer as one function of the callback. -/
def perform (s : Sink) : Callback → Sink
  | .print _ => s.print
  | .execute byte => s.execute byte
  | .hook _ _ _ _ => s.hook
  | .put _ => s.put
  | .unhook => s.unhook
  | .oscDispatch params _ => s.oscDispatch params
  | .csiDispatch params intermediates _ action => s.csiDispatch params intermediates action
  | .escDispatch _ _ byte => s.escDispatch byte

/-- The callbacks of one byte, in order. -/
def performAll (s : Sink) (cbs : List Callback) : Sink := cbs.foldl perform s

/-- Read the event and reset it. -/
def takeEvent (s : Sink) : SegEvent × Sink := (s.event, { s with event := .none })

end Sink

/-- The verdict on a CSI sequence. -/
theorem event_csi (s : Sink) (params : List (List UInt16)) (intermediates : List UInt8)
    (action : UInt8) :
    (s.csiDispatch params intermediates action).event =
      if action = 0x6E ∨ action = 0x63 then .dropSeq
      else if action = 0x4A ∧ (firstValue params[0]? = 2 ∨ firstValue params[0]? = 3) then .clearSeq
      else .keepSeq := by
  by_cases hn : action = 0x6E
  · simp [Sink.csiDispatch, hn]
  by_cases hc : action = 0x63
  · simp [Sink.csiDispatch, hc]
  by_cases hj : action = 0x4A
  · simp [Sink.csiDispatch, hj]
  simp only [Sink.csiDispatch, hn, hc, hj, if_false, false_or, false_and]
  split
  · rfl
  · split
    · rfl
    · split <;> rfl

/-! ## The scanner loop -/

/-- Feeds a raw byte stream into a sanitized, replayable ring. -/
structure Scanner (σ : Type) where
  parser : σ
  sink : Sink
  ring : ChunkRing
  pending : List UInt8
  utf8Remaining : Nat

/-- The fixed base that a screen clear replays from. -/
def clearBase : List UInt8 := [0x1B, 0x5B, 0x32, 0x4A, 0x1B, 0x5B, 0x48]

/-- Continuation bytes announced by a byte outside a character. -/
def utf8Announced (b : UInt8) : Nat :=
  if 0xC2 ≤ b && b ≤ 0xDF then 1
  else if 0xE0 ≤ b && b ≤ 0xEF then 2
  else if 0xF0 ≤ b && b ≤ 0xF4 then 3
  else 0

namespace Scanner

variable {σ : Type} (T : Transducer σ UInt8 Callback)

def new (watermark : Nat) : Scanner σ :=
  ⟨T.init, Sink.new, ChunkRing.new watermark, [], 0⟩

/-- Cut when the open chunk has passed the watermark; a span has just been
completed. -/
def maybeCut (s : Scanner σ) : Scanner σ :=
  if s.ring.shouldCut then
    let prologue := s.sink.sticky.serialize
    { s with sink := { s.sink with sticky := prologue.2 }, ring := s.ring.cut prologue.1 }
  else s

/-- Act on the event of the byte just parsed. -/
def settle (s : Scanner σ) : SegEvent → Scanner σ
  | .none => s
  | .keepByte | .keepSeq =>
      maybeCut { s with pending := [], ring := s.ring.append s.pending }
  | .dropSeq => { s with pending := [] }
  | .clearSeq =>
      let prologue := s.sink.sticky.serialize
      { s with
        pending := []
        sink := { s.sink with sticky := prologue.2 }
        ring := s.ring.purge (clearBase ++ prologue.1) }

/-- Process one pre-expanded byte. -/
def advanceOne (s : Scanner σ) (b : UInt8) : Scanner σ :=
  let step := T.advance s.parser b
  let taken := (s.sink.performAll step.2).takeEvent
  settle { s with parser := step.1, sink := taken.2, pending := s.pending ++ [b] } taken.1

/-- Process one raw byte: a 0x9C outside a multibyte character is the C1 string
terminator and is replaced by its 7-bit form. -/
def feedByte (s : Scanner σ) (b : UInt8) : Scanner σ :=
  if 0 < s.utf8Remaining ∧ isCont b then
    advanceOne T { s with utf8Remaining := s.utf8Remaining - 1 } b
  else
    let s := { s with utf8Remaining := utf8Announced b }
    if b = 0x9C then advanceOne T (advanceOne T s 0x1B) 0x5C else advanceOne T s b

def feed (s : Scanner σ) (bytes : List UInt8) : Scanner σ := bytes.foldl (feedByte T) s

/-- Any number of feed calls. -/
def feedAll (s : Scanner σ) (feeds : List (List UInt8)) : Scanner σ := feeds.foldl (feed T) s

def replay (s : Scanner σ) (wantChunks : Nat) : List UInt8 := s.ring.replay wantChunks

def status (s : Scanner σ) : StatusSnapshot := s.sink.status.snapshot

def sawPromptMarker (s : Scanner σ) : Bool := s.sink.status.sawPromptMarker

/-- Two feeds are one feed of both. -/
theorem feed_append (s : Scanner σ) (as bs : List UInt8) :
    feed T s (as ++ bs) = feed T (feed T s as) bs := by
  simp [feed, List.foldl_append]

/-- The split into feed calls does not matter. -/
theorem feedAll_eq_feed (s : Scanner σ) (feeds : List (List UInt8)) :
    feedAll T s feeds = feed T s feeds.flatten := by
  induction feeds generalizing s with
  | nil => rfl
  | cons bytes feeds ih =>
      rw [List.flatten_cons, feed_append, ← ih]
      rfl

end Scanner

/-! ## The engine -/

/-- Production watermark of an open chunk. -/
def engineWatermark : Nat := 128 * 1024

/-- The largest {lit}`usize`. -/
def usizeMax : Nat := 2 ^ 64 - 1

/-- The I/O-free core of a session. -/
structure ReplayEngine where
  scanner : Scanner State

namespace ReplayEngine

def new : ReplayEngine := ⟨Scanner.new table engineWatermark⟩

def feed (e : ReplayEngine) (bytes : List UInt8) : ReplayEngine :=
  ⟨Scanner.feed table e.scanner bytes⟩

/-- All chunks since the last purge. -/
def replay (e : ReplayEngine) : List UInt8 := e.scanner.replay usizeMax

def replayCapped (e : ReplayEngine) (wantChunks : Nat) : List UInt8 :=
  e.scanner.replay wantChunks

def status (e : ReplayEngine) : StatusSnapshot := e.scanner.status

def hasPromptMarking (e : ReplayEngine) : Bool := e.scanner.sawPromptMarker

end ReplayEngine

end JftermMuxer.Core
