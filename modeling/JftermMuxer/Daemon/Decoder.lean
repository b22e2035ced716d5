import JftermMuxer.Daemon.Protocol
import JftermMuxer.Foundation.Machine

/-!
# The decoder on any byte stream

{lit}`FrameDecoder` of {lit}`jftermd/src/protocol.rs` on streams that need not be
well formed.  What comes out of it depends on the bytes alone, not on the pieces
they arrive in; an error is final; no index of the buffer is ever out of range;
and as long as its callers read only when it has nothing more to give, it holds
less than one frame beyond the last read.

Main results:

- Definition {lit}`parse`: the plain parser of a whole stream.
- Theorem {lit}`decoder_of_bytes`: fed in any segmentation, the decoder delivers
  what the plain parser finds and stops where it stops.
- Theorem {lit}`reading_bounded`: along every run of a reading connection the
  buffer and the consumed bytes in front of it stay bounded.
-/

namespace JftermMuxer.Daemon

open Foundation

/-! ## Single calls -/

namespace FrameDecoder

variable {d d' : FrameDecoder}

/-- A frame that the decoder returns is the next one in its input. -/
theorem decodeFrame_of_some {f : Frame} (h : d.nextFrame = (.ok (some f), d')) :
    decodeFrame d.unread = .frame f d'.unread := by
  obtain ⟨hresult, hunread⟩ := d.nextFrame_refines
  rw [h] at hresult hunread
  have hdecode : framing.decode d.unread = decodeFrame d.unread := rfl
  rw [Framing.pull, hdecode] at hresult hunread
  cases hcase : decodeFrame d.unread with
  | more =>
      rw [hcase] at hresult
      cases hresult
  | malformed e =>
      rw [hcase] at hresult
      cases hresult
  | frame g rest =>
      rw [hcase] at hresult hunread
      cases hresult
      exact congrArg (Decoded.frame f) hunread.symm

/-- Without a frame the input is unfinished and stays. -/
theorem decodeFrame_of_none (h : d.nextFrame = (.ok none, d')) :
    decodeFrame d.unread = .more ∧ d'.unread = d.unread := by
  obtain ⟨hresult, hunread⟩ := d.nextFrame_refines
  rw [h] at hresult hunread
  have hdecode : framing.decode d.unread = decodeFrame d.unread := rfl
  rw [Framing.pull, hdecode] at hresult hunread
  cases hcase : decodeFrame d.unread with
  | more =>
      rw [hcase] at hunread
      exact ⟨rfl, hunread⟩
  | malformed e =>
      rw [hcase] at hresult
      cases hresult
  | frame g rest =>
      rw [hcase] at hresult
      cases hresult

/-- An error means malformed input. -/
theorem decodeFrame_of_error {e : ProtocolError} (h : d.nextFrame = (.error e, d')) :
    decodeFrame d.unread = .malformed e := by
  obtain ⟨hresult, -⟩ := d.nextFrame_refines
  rw [h] at hresult
  have hdecode : framing.decode d.unread = decodeFrame d.unread := rfl
  rw [Framing.pull, hdecode] at hresult
  cases hcase : decodeFrame d.unread with
  | more =>
      rw [hcase] at hresult
      cases hresult
  | malformed e =>
      rw [hcase] at hresult
      cases hresult
      rfl
  | frame g rest =>
      rw [hcase] at hresult
      cases hresult

/-- A frame that comes out has been consumed. -/
theorem length_unread_nextFrame {f : Frame} (h : d.nextFrame = (.ok (some f), d')) :
    d'.unread.length < d.unread.length :=
  framing.length_lt_of_decode encode_ne_nil (decodeFrame_of_some h)

end FrameDecoder

/-! ## Whole streams -/

/-- What a stream is cut into: its frames, the error that stops the parser, if one
does, and the bytes from there on. -/
structure Parsed where
  frames : List Frame
  error : Option ProtocolError
  rest : List UInt8
deriving DecidableEq, Repr

/-- Header, then payload, until bytes are missing or a header is malformed. -/
def parse (bytes : List UInt8) : Parsed :=
  match _hdecode : decodeFrame bytes with
  | .more => ⟨[], none, bytes⟩
  | .malformed e => ⟨[], some e, bytes⟩
  | .frame f rest => ⟨f :: (parse rest).frames, (parse rest).error, (parse rest).rest⟩
termination_by bytes.length
decreasing_by all_goals exact framing.length_lt_of_decode encode_ne_nil _hdecode

/-- Unfinished input is left over. -/
theorem parse_of_more {bytes : List UInt8} (h : decodeFrame bytes = .more) :
    parse bytes = ⟨[], none, bytes⟩ := by
  rw [parse]
  split
  · rfl
  · rename_i hcase
    rw [h] at hcase
    cases hcase
  · rename_i hcase
    rw [h] at hcase
    cases hcase

/-- Malformed input stops the parser. -/
theorem parse_of_malformed {bytes : List UInt8} {e : ProtocolError}
    (h : decodeFrame bytes = .malformed e) : parse bytes = ⟨[], some e, bytes⟩ := by
  rw [parse]
  split
  · rename_i hcase
    rw [h] at hcase
    cases hcase
  · rename_i hcase
    rw [h] at hcase
    cases hcase
    rfl
  · rename_i hcase
    rw [h] at hcase
    cases hcase

/-- A frame is followed by what is parsed behind it. -/
theorem parse_of_frame {bytes rest : List UInt8} {f : Frame}
    (h : decodeFrame bytes = .frame f rest) :
    parse bytes = ⟨f :: (parse rest).frames, (parse rest).error, (parse rest).rest⟩ := by
  rw [parse]
  split
  · rename_i hcase
    rw [h] at hcase
    cases hcase
  · rename_i hcase
    rw [h] at hcase
    cases hcase
  · rename_i hcase
    rw [h] at hcase
    cases hcase
    rfl

/-- Parsing goes on where it stopped: what follows a stream is read together with
the bytes the parser left. -/
theorem parse_append (as bs : List UInt8) :
    parse (as ++ bs) =
      ⟨(parse as).frames ++ (parse ((parse as).rest ++ bs)).frames,
        (parse ((parse as).rest ++ bs)).error, (parse ((parse as).rest ++ bs)).rest⟩ := by
  induction as using parse.induct with
  | case1 as hmore => rw [parse_of_more hmore, List.nil_append]
  | case2 as e hmalformed => rw [parse_of_malformed hmalformed, List.nil_append]
  | case3 as f rest hframe ih =>
      rw [parse_of_frame (decodeFrame_append_frame hframe bs), parse_of_frame hframe, ih,
        List.cons_append]

/-! ## The decoder, segment by segment -/

/-- What came out of the decoder, the error of its last call, and the decoder. -/
structure Drained where
  frames : List Frame
  error : Option ProtocolError
  decoder : FrameDecoder

namespace FrameDecoder

/-- Call {lit}`next_frame` until it finds nothing complete or fails. -/
def drain (d : FrameDecoder) : Drained :=
  match _hnext : d.nextFrame with
  | (.ok none, d') => ⟨[], none, d'⟩
  | (.error e, d') => ⟨[], some e, d'⟩
  | (.ok (some f), d') => ⟨f :: d'.drain.frames, d'.drain.error, d'.drain.decoder⟩
termination_by d.unread.length
decreasing_by all_goals exact length_unread_nextFrame _hnext

/-- An error consumes nothing. -/
theorem nextFrame_of_error {d d' : FrameDecoder} {e : ProtocolError}
    (h : d.nextFrame = (.error e, d')) : d' = d := by
  unfold nextFrame at h
  dsimp only at h
  repeat' split at h
  all_goals cases h
  all_goals rfl

/-- Nothing is consumed while bytes are missing. -/
theorem nextFrame_of_none {d d' : FrameDecoder} (h : d.nextFrame = (.ok none, d')) : d' = d := by
  unfold nextFrame at h
  dsimp only at h
  repeat' split at h
  all_goals cases h
  all_goals rfl

private theorem drain_of_none {d d' : FrameDecoder} (h : d.nextFrame = (.ok none, d')) :
    d.drain = ⟨[], none, d'⟩ := by
  rw [drain]
  split
  · rename_i hcase
    rw [h] at hcase
    cases hcase
    rfl
  · rename_i hcase
    rw [h] at hcase
    cases hcase
  · rename_i hcase
    rw [h] at hcase
    cases hcase

private theorem drain_of_error {d d' : FrameDecoder} {e : ProtocolError}
    (h : d.nextFrame = (.error e, d')) : d.drain = ⟨[], some e, d'⟩ := by
  rw [drain]
  split
  · rename_i hcase
    rw [h] at hcase
    cases hcase
  · rename_i hcase
    rw [h] at hcase
    cases hcase
    rfl
  · rename_i hcase
    rw [h] at hcase
    cases hcase

private theorem drain_of_some {d d' : FrameDecoder} {f : Frame}
    (h : d.nextFrame = (.ok (some f), d')) :
    d.drain = ⟨f :: d'.drain.frames, d'.drain.error, d'.drain.decoder⟩ := by
  rw [drain]
  split
  · rename_i hcase
    rw [h] at hcase
    cases hcase
  · rename_i hcase
    rw [h] at hcase
    cases hcase
  · rename_i hcase
    rw [h] at hcase
    cases hcase
    rfl

/-- Draining the decoder is parsing its unread bytes. -/
theorem drain_eq (d : FrameDecoder) :
    d.drain.frames = (parse d.unread).frames ∧ d.drain.error = (parse d.unread).error ∧
      d.drain.decoder.unread = (parse d.unread).rest := by
  induction d using drain.induct with
  | case1 d d' hnext =>
      obtain ⟨hmore, hunread⟩ := decodeFrame_of_none hnext
      rw [drain_of_none hnext, parse_of_more hmore]
      exact ⟨rfl, rfl, hunread⟩
  | case2 d e d' hnext =>
      rw [drain_of_error hnext, parse_of_malformed (decodeFrame_of_error hnext),
        nextFrame_of_error hnext]
      exact ⟨rfl, rfl, rfl⟩
  | case3 d f d' hnext ih =>
      obtain ⟨hframes, herror, hrest⟩ := ih
      rw [drain_of_some hnext, parse_of_frame (decodeFrame_of_some hnext)]
      exact ⟨congrArg (f :: ·) hframes, herror, hrest⟩

end FrameDecoder

/-- Push one segment and drain, as a reader does after each read. -/
def pushSegment (sofar : Drained) (segment : List UInt8) : Drained :=
  let step := (sofar.decoder.push segment).drain
  ⟨sofar.frames ++ step.frames, step.error, step.decoder⟩

/-- A whole stream in segments, from a new decoder. -/
def feedSegments (segments : List (List UInt8)) : Drained :=
  segments.foldl pushSegment ⟨[], none, FrameDecoder.new⟩

/-- The decoder stands where the parser of the bytes stands. -/
structure Drained.Agrees (sofar : Drained) (bytes : List UInt8) : Prop where
  frames : sofar.frames = (parse bytes).frames
  error : sofar.error = (parse bytes).error
  rest : sofar.decoder.unread = (parse bytes).rest

private theorem agrees_pushSegment {sofar : Drained} {bytes : List UInt8} (h : sofar.Agrees bytes)
    (segment : List UInt8) : (pushSegment sofar segment).Agrees (bytes ++ segment) := by
  obtain ⟨hframes, herror, hrest⟩ := (sofar.decoder.push segment).drain_eq
  rw [FrameDecoder.unread_push, h.rest] at hframes herror hrest
  constructor
  · rw [parse_append, ← hframes, ← h.frames]
    rfl
  · rw [parse_append, ← herror]
    rfl
  · rw [parse_append, ← hrest]
    rfl

/-- However it is cut, the decoder reads the input as the parser does. -/
theorem agrees_feedSegments (segments : List (List UInt8)) :
    (feedSegments segments).Agrees segments.flatten := by
  induction segments using List.reverseRecOn with
  | nil =>
      have hparse : parse [] = ⟨[], none, []⟩ := parse_of_more rfl
      constructor
      · rw [List.flatten_nil, hparse]
        rfl
      · rw [List.flatten_nil, hparse]
        rfl
      · rw [List.flatten_nil, hparse]
        rfl
  | append_singleton segments segment ih =>
      have hstep : feedSegments (segments ++ [segment]) = pushSegment (feedSegments segments) segment :=
        List.foldl_concat ..
      rw [hstep, List.flatten_append, List.flatten_singleton]
      exact agrees_pushSegment ih segment

/-! ## Errors are final -/

namespace FrameDecoder

/-- Once a call fails, every later call fails the same way, whatever is pushed. -/
theorem run_of_malformed {d : FrameDecoder} {e : ProtocolError}
    (h : decodeFrame d.unread = .malformed e) (ops : List (StreamOp UInt8)) :
    ∀ result ∈ (d.run ops).1, result = .error e := by
  induction ops generalizing d with
  | nil =>
      intro result hresult
      exact absurd hresult (by simp [run])
  | cons op ops ih =>
      cases op with
      | push bytes =>
          apply ih
          rw [unread_push]
          exact decodeFrame_append_malformed h bytes
      | pull =>
          obtain ⟨hfirst, hunread⟩ := d.nextFrame_refines
          have hdecode : framing.decode d.unread = .malformed e := h
          rw [Framing.pull, hdecode] at hfirst hunread
          intro result hresult
          simp only [run, List.mem_cons] at hresult
          rcases hresult with rfl | hresult
          · exact hfirst
          · exact ih (hunread ▸ h) result hresult

end FrameDecoder

/-! ## Indices -/

/-- The slice {lit}`[start..stop]`; out of range there is none. -/
def slice (bytes : List UInt8) (start stop : Nat) : Option (List UInt8) :=
  if start ≤ stop ∧ stop ≤ bytes.length then some ((bytes.drop start).take (stop - start)) else none

/-- The decoder's two fields, any cursor allowed: what the code computes, with no
result where a slice, an index or a drain would be out of range. -/
structure RawDecoder where
  buf : List UInt8
  pos : Nat
deriving DecidableEq, Repr

namespace RawDecoder

def new : RawDecoder := ⟨[], 0⟩

/-- Drain {lit}`..pos` unless the cursor is at the front. -/
def compact (d : RawDecoder) : Option RawDecoder :=
  if d.pos = 0 then some d
  else if d.pos ≤ d.buf.length then some ⟨d.buf.drop d.pos, 0⟩
  else none

def push (d : RawDecoder) (bytes : List UInt8) : Option RawDecoder :=
  d.compact.map fun d => ⟨d.buf ++ bytes, d.pos⟩

/-- Move the cursor, compacting past the threshold. -/
def consume (d : RawDecoder) (total : Nat) : Option RawDecoder :=
  let moved : RawDecoder := ⟨d.buf, d.pos + total⟩
  if compactThreshold ≤ moved.pos then moved.compact else some moved

/-- {lit}`next_frame` once the header has been read. -/
def nextFrameOf (d : RawDecoder) (avail : List UInt8) (tyByte : UInt8) (len : Nat) :
    Option (Except ProtocolError (Option Frame) × RawDecoder) :=
  if maxFrameLen < len then some (.error (.frameTooLarge len), d)
  else
    match FrameType.tryFrom tyByte with
    | .error b => some (.error (.unknownType b), d)
    | .ok ty =>
        let total := 5 + len
        if avail.length < total then some (.ok none, d)
        else
          (slice avail 5 total).bind fun payload =>
            (d.consume total).map fun d => (.ok (some ⟨ty, payload⟩), d)

def nextFrame (d : RawDecoder) : Option (Except ProtocolError (Option Frame) × RawDecoder) :=
  (slice d.buf d.pos d.buf.length).bind fun avail =>
    if avail.length < 5 then some (.ok none, d)
    else
      avail[0]?.bind fun tyByte => avail[1]?.bind fun b₁ => avail[2]?.bind fun b₂ =>
        avail[3]?.bind fun b₃ => avail[4]?.bind fun b₄ =>
          d.nextFrameOf avail tyByte (fromBeBytes b₁ b₂ b₃ b₄)

/-- A sequence of pushes and calls of {lit}`next_frame`. -/
def run : RawDecoder → List (StreamOp UInt8) →
    Option (List (Except ProtocolError (Option Frame)) × RawDecoder)
  | d, [] => some ([], d)
  | d, .push bytes :: ops => (d.push bytes).bind fun d => run d ops
  | d, .pull :: ops =>
      d.nextFrame.bind fun step => (run step.2 ops).map fun rest => (step.1 :: rest.1, rest.2)

end RawDecoder

namespace FrameDecoder

/-- The two fields of a decoder whose cursor is in range. -/
def raw (d : FrameDecoder) : RawDecoder := ⟨d.buf, d.pos⟩

/-- Compacting stays inside the buffer. -/
theorem raw_compact (d : FrameDecoder) : d.raw.compact = some d.compact.raw := by
  have hle : d.raw.pos ≤ d.raw.buf.length := d.pos_le
  by_cases hpos : d.pos = 0
  · have hraw : d.raw.pos = 0 := hpos
    rw [RawDecoder.compact, compact, if_pos hraw, if_pos hpos]
  · have hraw : d.raw.pos ≠ 0 := hpos
    rw [RawDecoder.compact, compact, if_neg hraw, if_pos hle, if_neg hpos]
    rfl

/-- Pushing stays inside the buffer. -/
theorem raw_push (d : FrameDecoder) (bytes : List UInt8) :
    d.raw.push bytes = some (d.push bytes).raw := by
  rw [RawDecoder.push, raw_compact]
  rfl

/-- Consuming what is there stays inside the buffer. -/
theorem raw_consume (d : FrameDecoder) (total : Nat) (h : total ≤ d.unread.length) :
    d.raw.consume total = some (d.consume total h).raw := by
  unfold RawDecoder.consume consume
  dsimp only
  by_cases hthreshold : compactThreshold ≤ d.pos + total
  · have hthreshold' : compactThreshold ≤ d.raw.pos + total := hthreshold
    rw [if_pos hthreshold, if_pos hthreshold', ← raw_compact]
    rfl
  · have hthreshold' : ¬ compactThreshold ≤ d.raw.pos + total := hthreshold
    rw [if_neg hthreshold, if_neg hthreshold']
    rfl

private theorem slice_unread (d : FrameDecoder) :
    slice d.raw.buf d.raw.pos d.raw.buf.length = some d.unread := by
  have hle : d.raw.pos ≤ d.raw.buf.length := d.pos_le
  rw [slice, if_pos ⟨hle, Nat.le_refl _⟩, ← List.length_drop, List.take_length]
  rfl

private theorem header_of_lt {avail : List UInt8} (h : avail.length < 5) : header avail = none := by
  unfold header
  split
  · simp only [List.length_cons] at h
    omega
  · rfl

private theorem header_of_le {avail : List UInt8} (h : ¬ avail.length < 5) :
    ∃ tyByte b₁ b₂ b₃ b₄ len, avail[0]? = some tyByte ∧ avail[1]? = some b₁ ∧
      avail[2]? = some b₂ ∧ avail[3]? = some b₃ ∧ avail[4]? = some b₄ ∧
      fromBeBytes b₁ b₂ b₃ b₄ = len ∧ header avail = some (tyByte, len) := by
  match avail with
  | [] => exact absurd (by simp) h
  | [_] => exact absurd (by simp) h
  | [_, _] => exact absurd (by simp) h
  | [_, _, _] => exact absurd (by simp) h
  | [_, _, _, _] => exact absurd (by simp) h
  | tyByte :: b₁ :: b₂ :: b₃ :: b₄ :: _ =>
      exact ⟨tyByte, b₁, b₂, b₃, b₄, _, rfl, rfl, rfl, rfl, rfl, rfl, rfl⟩

private theorem raw_nextFrameOf (d : FrameDecoder) {tyByte : UInt8} {len : Nat}
    (hheader : header d.unread = some (tyByte, len)) :
    d.raw.nextFrameOf d.unread tyByte len = some (d.nextFrame.1, d.nextFrame.2.raw) := by
  unfold RawDecoder.nextFrameOf nextFrame
  rw [hheader]
  by_cases hcap : maxFrameLen < len
  · simp only [if_pos hcap]
  simp only [if_neg hcap]
  cases FrameType.tryFrom tyByte with
  | error b => rfl
  | ok ty =>
      by_cases htotal : 5 + len ≤ d.unread.length
      · have hslice : slice d.unread 5 (5 + len) = some ((d.unread.drop 5).take len) := by
          rw [slice, if_pos ⟨by omega, htotal⟩, Nat.add_sub_cancel_left]
        have hlong : ¬ d.unread.length < 5 + len := by omega
        simp only [if_neg hlong, dif_pos htotal, hslice, d.raw_consume _ htotal, Option.bind_some,
          Option.map_some]
      · have hmissing : d.unread.length < 5 + len := by omega
        simp only [if_pos hmissing, dif_neg htotal]

/-- No index of {lit}`next_frame` is out of range. -/
theorem raw_nextFrame (d : FrameDecoder) :
    d.raw.nextFrame = some (d.nextFrame.1, d.nextFrame.2.raw) := by
  rw [RawDecoder.nextFrame, slice_unread, Option.bind_some]
  by_cases hshort : d.unread.length < 5
  · rw [if_pos hshort, nextFrame, header_of_lt hshort]
  · obtain ⟨tyByte, b₁, b₂, b₃, b₄, len, h₀, h₁, h₂, h₃, h₄, hlen, hheader⟩ :=
      header_of_le hshort
    rw [if_neg hshort, h₀, Option.bind_some, h₁, Option.bind_some, h₂, Option.bind_some, h₃,
      Option.bind_some, h₄, Option.bind_some, hlen]
    exact d.raw_nextFrameOf hheader

/-- All operations in a row stay inside the buffer. -/
theorem raw_run (d : FrameDecoder) (ops : List (StreamOp UInt8)) :
    d.raw.run ops = some ((d.run ops).1, (d.run ops).2.raw) := by
  induction ops generalizing d with
  | nil => rfl
  | cons op ops ih =>
      cases op with
      | push bytes =>
          rw [RawDecoder.run, raw_push, Option.bind_some]
          exact ih (d.push bytes)
      | pull =>
          rw [RawDecoder.run, raw_nextFrame, Option.bind_some, ih]
          rfl

end FrameDecoder

/-! ## Bounded memory -/

/-- The most one read of a connection brings. -/
def readSize : Nat := 65536

/-- Where a reader of a connection stands: it asks the decoder for frames, has been
told that bytes are missing, or has given the connection up. -/
inductive ReadPhase where
  | asking
  | settled
  | abandoned
deriving DecidableEq, Repr

structure Reading where
  decoder : FrameDecoder
  phase : ReadPhase

/-- Call {lit}`next_frame`, or read and push. -/
inductive ReadStep where
  | call
  | read (bytes : List UInt8)

/-- A connection under {lit}`read_one_frame` or {lit}`reader_task`: it reads only
when the last call found nothing complete, and an error ends it. -/
def reading : Machine Reading ReadStep where
  step := fun s a =>
    match s.phase, a with
    | .asking, .call =>
        match s.decoder.nextFrame with
        | (.ok (some _), d) => some ⟨d, .asking⟩
        | (.ok none, d) => some ⟨d, .settled⟩
        | (.error _, d) => some ⟨d, .abandoned⟩
    | .settled, .read bytes =>
        if bytes.length ≤ readSize then some ⟨s.decoder.push bytes, .asking⟩ else none
    | _, _ => none

section Calls

variable {d d' : FrameDecoder}

/-- After a frame the loop asks again. -/
theorem reading_of_some {f : Frame} (h : d.nextFrame = (.ok (some f), d')) :
    reading.step ⟨d, .asking⟩ .call = some ⟨d', .asking⟩ := by
  simp only [reading, h]

/-- Without a frame the loop reads on. -/
theorem reading_of_none (h : d.nextFrame = (.ok none, d')) :
    reading.step ⟨d, .asking⟩ .call = some ⟨d', .settled⟩ := by
  simp only [reading, h]

/-- After an error the loop gives up. -/
theorem reading_of_error {e : ProtocolError} (h : d.nextFrame = (.error e, d')) :
    reading.step ⟨d, .asking⟩ .call = some ⟨d', .abandoned⟩ := by
  simp only [reading, h]

/-- A read is pushed, and the loop asks again. -/
theorem reading_read (d : FrameDecoder) {bytes : List UInt8} (h : bytes.length ≤ readSize) :
    reading.step ⟨d, .settled⟩ (.read bytes) = some ⟨d.push bytes, .asking⟩ :=
  if_pos h

end Calls

/-- The buffer holds no more than an incomplete frame and one read, and little that
has been consumed; a decoder that asks for more holds an incomplete frame only. -/
structure Reading.Bounded (s : Reading) : Prop where
  buf : s.decoder.buf.length ≤ maxFrameLen + 4 + readSize
  pos : s.decoder.pos < compactThreshold
  incomplete : s.phase = .settled → s.decoder.unread.length ≤ maxFrameLen + 4

namespace FrameDecoder

variable {d : FrameDecoder}

/-- A compacted buffer begins with the unread bytes. -/
theorem pos_compact (d : FrameDecoder) : d.compact.pos = 0 := by
  unfold compact
  split
  · assumption
  · rfl

/-- A compacted buffer holds the unread bytes only. -/
theorem length_buf_compact (d : FrameDecoder) : d.compact.buf.length = d.unread.length := by
  rw [← d.unread_compact, unread, pos_compact, List.drop_zero]

/-- Missing bytes are those of one frame under the cap. -/
theorem length_unread_of_more {bytes : List UInt8} (h : decodeFrame bytes = .more) :
    bytes.length ≤ maxFrameLen + 4 := by
  by_cases hshort : bytes.length < 5
  · omega
  · obtain ⟨tyByte, -, -, -, -, len, -, -, -, -, -, -, hheader⟩ := header_of_le hshort
    simp only [decodeFrame, hheader] at h
    by_cases hcap : maxFrameLen < len
    · rw [if_pos hcap] at h
      cases h
    rw [if_neg hcap] at h
    cases hty : FrameType.tryFrom tyByte with
    | error b =>
        rw [hty] at h
        cases h
    | ok ty =>
        rw [hty] at h
        by_cases htotal : 5 + len ≤ bytes.length
        · simp only [if_pos htotal] at h
          cases h
        · omega

/-- Consuming a frame keeps the cursor below the threshold and the buffer no
longer. -/
theorem consume_bounds (d : FrameDecoder) (total : Nat) (h : total ≤ d.unread.length) :
    (d.consume total h).pos < compactThreshold ∧ (d.consume total h).buf.length ≤ d.buf.length := by
  unfold consume
  dsimp only
  split
  · rw [pos_compact, length_buf_compact]
    refine ⟨by decide, ?_⟩
    rw [unread, List.length_drop]
    exact Nat.sub_le _ _
  · rename_i hlt
    exact ⟨Nat.lt_of_not_le hlt, Nat.le_refl _⟩

/-- A call that returns a frame keeps the bounds. -/
theorem bounds_of_some {d' : FrameDecoder} {f : Frame} (h : d.nextFrame = (.ok (some f), d')) :
    d'.pos < compactThreshold ∧ d'.buf.length ≤ d.buf.length := by
  unfold nextFrame at h
  dsimp only at h
  repeat' split at h
  all_goals cases h
  exact d.consume_bounds _ _

end FrameDecoder

private theorem bounded_call {s t : Reading} (h : s.Bounded) (hphase : s.phase = .asking)
    (hstep : reading.step s .call = some t) : t.Bounded := by
  obtain ⟨decoder, phase⟩ := s
  subst hphase
  rcases hnext : decoder.nextFrame with ⟨e | _ | f, d⟩
  · rw [reading_of_error hnext] at hstep
    cases hstep
    rw [FrameDecoder.nextFrame_of_error hnext]
    exact ⟨h.buf, h.pos, fun hsettled => by cases hsettled⟩
  · rw [reading_of_none hnext] at hstep
    cases hstep
    obtain ⟨hmore, -⟩ := FrameDecoder.decodeFrame_of_none hnext
    rw [FrameDecoder.nextFrame_of_none hnext]
    exact ⟨h.buf, h.pos, fun _ => FrameDecoder.length_unread_of_more hmore⟩
  · rw [reading_of_some hnext] at hstep
    cases hstep
    obtain ⟨hpos, hbuf⟩ := FrameDecoder.bounds_of_some hnext
    exact ⟨Nat.le_trans hbuf h.buf, hpos, fun hsettled => by cases hsettled⟩

private theorem bounded_read {s t : Reading} {bytes : List UInt8} (h : s.Bounded)
    (hphase : s.phase = .settled) (hstep : reading.step s (.read bytes) = some t) : t.Bounded := by
  simp only [reading, hphase] at hstep
  split at hstep
  · rename_i hsize
    cases hstep
    have hincomplete := h.incomplete hphase
    constructor
    · rw [FrameDecoder.push, List.length_append, FrameDecoder.length_buf_compact]
      omega
    · rw [FrameDecoder.push, FrameDecoder.pos_compact]
      decide
    · intro hsettled
      cases hsettled
  · cases hstep

/-- Every step keeps the bounds. -/
theorem bounded_step {s t : Reading} {a : ReadStep} (h : s.Bounded)
    (hstep : reading.step s a = some t) : t.Bounded := by
  cases hphase : s.phase with
  | asking =>
      cases a with
      | call => exact bounded_call h hphase hstep
      | read bytes =>
          simp only [reading, hphase] at hstep
          cases hstep
  | settled =>
      cases a with
      | call =>
          simp only [reading, hphase] at hstep
          cases hstep
      | read bytes => exact bounded_read h hphase hstep
  | abandoned =>
      simp only [reading, hphase] at hstep
      cases hstep

/-! ## Main results -/

/-- The decoder is a function of the bytes: fed in segments it delivers the frames
of the whole stream and stops at the same boundary with the same error, so the
segmentation does not matter; an error consumes nothing and comes back from every
later call; and no slice, index or drain is ever out of range. -/
theorem decoder_of_bytes :
    (∀ segments : List (List UInt8), (feedSegments segments).Agrees segments.flatten) ∧
    (∀ segments segments' : List (List UInt8), segments.flatten = segments'.flatten →
      (feedSegments segments).frames = (feedSegments segments').frames ∧
        (feedSegments segments).error = (feedSegments segments').error ∧
        (feedSegments segments).decoder.unread = (feedSegments segments').decoder.unread) ∧
    (∀ (d d' : FrameDecoder) (e : ProtocolError), d.nextFrame = (.error e, d') →
      d' = d ∧ ∀ ops : List (StreamOp UInt8), ∀ result ∈ (d'.run ops).1, result = .error e) ∧
    ∀ ops : List (StreamOp UInt8), ∃ raw,
      RawDecoder.new.run ops = some ((FrameDecoder.new.run ops).1, raw) ∧
        raw = (FrameDecoder.new.run ops).2.raw ∧ raw.pos ≤ raw.buf.length := by
  refine ⟨agrees_feedSegments, ?_, ?_, ?_⟩
  · intro segments segments' hflatten
    have hfirst := agrees_feedSegments segments
    have hsecond := agrees_feedSegments segments'
    rw [← hflatten] at hsecond
    exact ⟨hfirst.frames.trans hsecond.frames.symm, hfirst.error.trans hsecond.error.symm,
      hfirst.rest.trans hsecond.rest.symm⟩
  · intro d d' e hnext
    have hmalformed := FrameDecoder.decodeFrame_of_error hnext
    have hsame := FrameDecoder.nextFrame_of_error hnext
    subst hsame
    exact ⟨rfl, FrameDecoder.run_of_malformed hmalformed⟩
  · intro ops
    exact ⟨_, FrameDecoder.new.raw_run ops, rfl, (FrameDecoder.new.run ops).2.pos_le⟩

private theorem nextFrame_unknown :
    (FrameDecoder.new.push [99, 0, 0, 0, 0]).nextFrame =
      (.error (.unknownType 99), FrameDecoder.new.push [99, 0, 0, 0, 0]) := by
  have hheader : header (FrameDecoder.new.push [99, 0, 0, 0, 0]).unread = some (99, 0) := by decide
  have hcap : ¬ maxFrameLen < 0 := Nat.not_lt_zero _
  have hty : FrameType.tryFrom 99 = .error 99 := by decide
  simp only [FrameDecoder.nextFrame, hheader, if_neg hcap, hty]

/-- An INPUT frame and an unknown type, whole and cut inside both headers. -/
theorem decoder_of_bytes_malformed :
    ((feedSegments [[6, 0, 0, 0, 1, 0x78, 99, 0, 0, 0, 0]]).frames =
        (feedSegments [[6, 0], [0, 0, 1, 0x78, 99, 0, 0], [0, 0]]).frames ∧
      (feedSegments [[6, 0, 0, 0, 1, 0x78, 99, 0, 0, 0, 0]]).error =
        (feedSegments [[6, 0], [0, 0, 1, 0x78, 99, 0, 0], [0, 0]]).error ∧
      (feedSegments [[6, 0, 0, 0, 1, 0x78, 99, 0, 0, 0, 0]]).decoder.unread =
        (feedSegments [[6, 0], [0, 0, 1, 0x78, 99, 0, 0], [0, 0]]).decoder.unread) ∧
    ∀ ops : List (StreamOp UInt8),
      ∀ result ∈ ((FrameDecoder.new.push [99, 0, 0, 0, 0]).run ops).1,
        result = .error (.unknownType 99) :=
  ⟨decoder_of_bytes.2.1 _ _ (by decide), (decoder_of_bytes.2.2.1 _ _ _ nextFrame_unknown).2⟩

/-- However a hostile peer chooses and cuts its bytes, the buffer of a connection
never holds more than an incomplete frame under the cap and one read, and the
consumed bytes it retains stay below the threshold. -/
theorem reading_bounded {steps : List ReadStep} {s : Reading}
    (h : reading.run ⟨FrameDecoder.new, .asking⟩ steps = some s) :
    s.decoder.buf.length ≤ maxFrameLen + 4 + 65536 ∧ s.decoder.pos < compactThreshold := by
  have hstart : (⟨FrameDecoder.new, .asking⟩ : Reading).Bounded := by
    refine ⟨Nat.zero_le _, by decide, ?_⟩
    intro hsettled
    cases hsettled
  have hbounded : s.Bounded :=
    reading.run_induct (fun _ _ _ hs hstep => bounded_step hs hstep) hstart h
  exact ⟨hbounded.buf, hbounded.pos⟩

/-- One frame read in two pieces. -/
theorem reading_bounded_input :
    (reading.run ⟨FrameDecoder.new, .asking⟩
        [.call, .read [6, 0, 0], .call, .read [0, 1, 0x78], .call]).isSome = true ∧
      ∀ s ∈ reading.run ⟨FrameDecoder.new, .asking⟩
        [.call, .read [6, 0, 0], .call, .read [0, 1, 0x78], .call],
        s.decoder.buf.length ≤ maxFrameLen + 4 + 65536 ∧ s.decoder.pos < compactThreshold :=
  ⟨by decide +kernel, fun _ hrun => reading_bounded hrun⟩

end JftermMuxer.Daemon
