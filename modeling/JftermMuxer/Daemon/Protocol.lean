import JftermMuxer.Foundation.Framing

/-!
# The wire protocol

{lit}`jftermd/src/protocol.rs`: frames {lit}`[type][len: u32 big-endian][value]`,
the decoder that accumulates bytes off a socket behind a read cursor, and the
split of raw output into data frames.

Main results:

- Definition {lit}`framing`: the frame layout as a framing of byte streams.
- Theorem {lit}`FrameDecoder.nextFrame_refines`: the decoder with its cursor and
  its compactions does what the framing's pull does to the unread bytes.
- Theorem {lit}`codec_inverse`: encoding and decoding are inverse both ways.
-/

namespace JftermMuxer.Daemon

open Foundation

/-! ## Frames -/

/-- Hard cap on a single frame's value length. -/
def maxFrameLen : Nat := 16 * 1024 * 1024

inductive FrameType where
  | hello
  | helloOk
  | list
  | sessions
  | attachOrOpen
  | input
  | resize
  | close
  | data
  | status
  | exit
deriving DecidableEq, Repr

namespace FrameType

/-- The type byte on the wire. -/
def toByte : FrameType → UInt8
  | hello => 1
  | helloOk => 2
  | list => 3
  | sessions => 4
  | attachOrOpen => 5
  | input => 6
  | resize => 7
  | close => 8
  | data => 9
  | status => 10
  | exit => 11

/-- The type of a byte, or the unrecognized byte. -/
def tryFrom (b : UInt8) : Except UInt8 FrameType :=
  if b = 1 then .ok hello
  else if b = 2 then .ok helloOk
  else if b = 3 then .ok list
  else if b = 4 then .ok sessions
  else if b = 5 then .ok attachOrOpen
  else if b = 6 then .ok input
  else if b = 7 then .ok resize
  else if b = 8 then .ok close
  else if b = 9 then .ok data
  else if b = 10 then .ok status
  else if b = 11 then .ok exit
  else .error b

@[simp] theorem tryFrom_toByte (ty : FrameType) : tryFrom ty.toByte = .ok ty := by
  cases ty <;> rfl

private theorem ok_of_ite {b k : UInt8} {t ty : FrameType} {rest : Except UInt8 FrameType}
    (h : (if b = k then .ok t else rest) = .ok ty) : b = k ∧ t = ty ∨ rest = .ok ty := by
  by_cases hb : b = k
  · rw [if_pos hb] at h
    exact Or.inl ⟨hb, Except.ok.inj h⟩
  · rw [if_neg hb] at h
    exact Or.inr h

/-- A byte that is a frame type is the byte of that type. -/
theorem toByte_of_tryFrom {b : UInt8} {ty : FrameType} (h : tryFrom b = .ok ty) :
    ty.toByte = b := by
  unfold tryFrom at h
  repeat
    obtain ⟨rfl, rfl⟩ | h := ok_of_ite h
    · rfl
  contradiction

end FrameType

/-- One frame: a type and its raw value bytes. -/
structure Frame where
  ty : FrameType
  payload : List UInt8
deriving DecidableEq, Repr

/-- The four big-endian bytes of a {lit}`u32`. -/
def toBeBytes (n : Nat) : List UInt8 :=
  [UInt8.ofNat (n / 2 ^ 24), UInt8.ofNat (n / 2 ^ 16), UInt8.ofNat (n / 2 ^ 8), UInt8.ofNat n]

/-- The {lit}`u32` of four big-endian bytes. -/
def fromBeBytes (a b c d : UInt8) : Nat :=
  a.toNat * 2 ^ 24 + b.toNat * 2 ^ 16 + c.toNat * 2 ^ 8 + d.toNat

/-- Serialize to the wire; the length is cast to 32 bits. -/
def Frame.encode (f : Frame) : List UInt8 :=
  f.ty.toByte :: toBeBytes (f.payload.length % 2 ^ 32) ++ f.payload

/-- A number of 32 bits is read back from its bytes. -/
theorem fromBeBytes_toBeBytes {n : Nat} (hn : n < 2 ^ 32) :
    fromBeBytes (UInt8.ofNat (n / 2 ^ 24)) (UInt8.ofNat (n / 2 ^ 16)) (UInt8.ofNat (n / 2 ^ 8))
      (UInt8.ofNat n) = n := by
  simp only [fromBeBytes, UInt8.toNat_ofNat']
  omega

/-- Four bytes are those of the number they stand for. -/
theorem toBeBytes_fromBeBytes (a b c d : UInt8) : toBeBytes (fromBeBytes a b c d) = [a, b, c, d] := by
  have ha := a.toNat_lt
  have hb := b.toNat_lt
  have hc := c.toNat_lt
  have hd := d.toNat_lt
  simp only [toBeBytes, fromBeBytes, List.cons.injEq, and_true, ← UInt8.toNat_inj,
    UInt8.toNat_ofNat']
  omega

/-- Four bytes stand for a number of 32 bits. -/
theorem fromBeBytes_lt (a b c d : UInt8) : fromBeBytes a b c d < 2 ^ 32 := by
  have ha := a.toNat_lt
  have hb := b.toNat_lt
  have hc := c.toNat_lt
  have hd := d.toNat_lt
  simp only [fromBeBytes]
  omega

/-! ## The decoder -/

/-- Errors from decoding a frame stream. -/
inductive ProtocolError where
  | unknownType (b : UInt8)
  | frameTooLarge (len : Nat)
deriving DecidableEq, Repr

/-- Compact the read buffer once the cursor passes this threshold. -/
def compactThreshold : Nat := 64 * 1024

/-- The type byte and the declared length, once five bytes are there. -/
def header (avail : List UInt8) : Option (UInt8 × Nat) :=
  match avail with
  | tyByte :: b₁ :: b₂ :: b₃ :: b₄ :: _ => some (tyByte, fromBeBytes b₁ b₂ b₃ b₄)
  | _ => none

/-- Bytes off a socket, with the offset of the first unconsumed one. -/
structure FrameDecoder where
  buf : List UInt8
  pos : Nat
  pos_le : pos ≤ buf.length

namespace FrameDecoder

def new : FrameDecoder := ⟨[], 0, by simp⟩

/-- Drop consumed bytes from the front and reset the cursor. -/
def compact (d : FrameDecoder) : FrameDecoder :=
  if d.pos = 0 then d else ⟨d.buf.drop d.pos, 0, by simp⟩

/-- Append freshly read bytes. -/
def push (d : FrameDecoder) (bytes : List UInt8) : FrameDecoder :=
  ⟨d.compact.buf ++ bytes, d.compact.pos, by
    have hle := d.compact.pos_le
    rw [List.length_append]
    omega⟩

/-- The bytes at and after the cursor. -/
def unread (d : FrameDecoder) : List UInt8 := d.buf.drop d.pos

/-- Move the cursor over a frame, compacting past the threshold. -/
def consume (d : FrameDecoder) (total : Nat) (h : total ≤ d.unread.length) : FrameDecoder :=
  let moved : FrameDecoder := ⟨d.buf, d.pos + total, by
    have hle := d.pos_le
    rw [unread, List.length_drop] at h
    omega⟩
  if compactThreshold ≤ d.pos + total then moved.compact else moved

/-- Pop the next complete frame, or {lit}`none` if more bytes are needed; an
oversized length or an unknown type is an error and leaves the buffer alone. -/
def nextFrame (d : FrameDecoder) : Except ProtocolError (Option Frame) × FrameDecoder :=
  match header d.unread with
  | none => (.ok none, d)
  | some (tyByte, len) =>
      if maxFrameLen < len then (.error (.frameTooLarge len), d)
      else
        match FrameType.tryFrom tyByte with
        | .error b => (.error (.unknownType b), d)
        | .ok ty =>
            let total := 5 + len
            if h : total ≤ d.unread.length then
              let payload := (d.unread.drop 5).take len
              (.ok (some ⟨ty, payload⟩), d.consume total h)
            else (.ok none, d)

@[simp] theorem unread_new : new.unread = [] := rfl

/-- Compacting loses no unread byte. -/
theorem unread_compact (d : FrameDecoder) : d.compact.unread = d.unread := by
  unfold compact
  split
  · rfl
  · simp [unread]

/-- Pushed bytes are unread. -/
theorem unread_push (d : FrameDecoder) (bytes : List UInt8) :
    (d.push bytes).unread = d.unread ++ bytes := by
  have hle := d.compact.pos_le
  rw [← unread_compact d]
  simp only [unread, push]
  rw [List.drop_append_of_le_length hle]

/-- Consumed bytes are no longer unread. -/
theorem unread_consume (d : FrameDecoder) (total : Nat) (h : total ≤ d.unread.length) :
    (d.consume total h).unread = d.unread.drop total := by
  have hmoved : ∀ hle, (⟨d.buf, d.pos + total, hle⟩ : FrameDecoder).unread = d.unread.drop total := by
    intro hle
    simp [unread, List.drop_drop]
  unfold consume
  dsimp only
  split
  · rw [unread_compact, hmoved]
  · exact hmoved _

end FrameDecoder

/-! ## The layout as a framing -/

/-- What the front of a byte stream is, without buffer or cursor. -/
def decodeFrame (bytes : List UInt8) : Decoded Frame ProtocolError UInt8 :=
  match header bytes with
  | none => .more
  | some (tyByte, len) =>
      if maxFrameLen < len then .malformed (.frameTooLarge len)
      else
        match FrameType.tryFrom tyByte with
        | .error b => .malformed (.unknownType b)
        | .ok ty =>
            if 5 + len ≤ bytes.length then
              .frame ⟨ty, (bytes.drop 5).take len⟩ (bytes.drop (5 + len))
            else .more

/-- The header of a frame that fits under the cap. -/
theorem encode_eq {f : Frame} (h : f.payload.length ≤ maxFrameLen) :
    ∃ b₁ b₂ b₃ b₄, f.encode = f.ty.toByte :: b₁ :: b₂ :: b₃ :: b₄ :: f.payload ∧
      fromBeBytes b₁ b₂ b₃ b₄ = f.payload.length := by
  have hlt : f.payload.length < 2 ^ 32 := by
    unfold maxFrameLen at h
    omega
  refine ⟨_, _, _, _, ?_, fromBeBytes_toBeBytes hlt⟩
  rw [Frame.encode, Nat.mod_eq_of_lt hlt]
  rfl

/-- A complete header and enough value bytes make a frame. -/
theorem decodeFrame_of_header {bytes : List UInt8} {ty : FrameType} {len : Nat}
    (hheader : header bytes = some (ty.toByte, len)) (hcap : ¬ maxFrameLen < len) :
    decodeFrame bytes =
      if 5 + len ≤ bytes.length then
        .frame ⟨ty, (bytes.drop 5).take len⟩ (bytes.drop (5 + len))
      else .more := by
  simp only [decodeFrame, hheader, if_neg hcap, FrameType.tryFrom_toByte]

/-- An encoded frame is read back, whatever follows it. -/
theorem decodeFrame_encode {f : Frame} (h : f.payload.length ≤ maxFrameLen) (rest : List UInt8) :
    decodeFrame (f.encode ++ rest) = .frame f rest := by
  obtain ⟨b₁, b₂, b₃, b₄, hencode, hlen⟩ := encode_eq h
  have hheader : header (f.encode ++ rest) = some (f.ty.toByte, f.payload.length) := by
    rw [hencode, ← hlen]
    rfl
  have hdrop : (f.encode ++ rest).drop 5 = f.payload ++ rest := by
    rw [hencode]
    rfl
  have hlength : 5 + f.payload.length ≤ (f.encode ++ rest).length := by
    rw [hencode]
    simp only [List.cons_append, List.length_cons, List.length_append]
    omega
  rw [decodeFrame_of_header hheader (by omega), if_pos hlength, ← List.drop_drop, hdrop]
  simp

/-- A proper beginning of a frame is unfinished. -/
theorem decodeFrame_proper {f : Frame} (h : f.payload.length ≤ maxFrameLen) {p r : List UInt8}
    (hsplit : f.encode = p ++ r) (hr : r ≠ []) : decodeFrame p = .more := by
  obtain ⟨b₁, b₂, b₃, b₄, hencode, hlen⟩ := encode_eq h
  have hpos := List.length_pos_iff.mpr hr
  have hlength : p.length + r.length = 5 + f.payload.length := by
    rw [← List.length_append, ← hsplit, hencode]
    simp only [List.length_cons]
    omega
  rw [hencode] at hsplit
  match p, hsplit with
  | [], _ => rfl
  | [_], _ => rfl
  | [_, _], _ => rfl
  | [_, _, _], _ => rfl
  | [_, _, _, _], _ => rfl
  | x₀ :: x₁ :: x₂ :: x₃ :: x₄ :: value, hsplit =>
      simp only [List.cons_append, List.cons.injEq] at hsplit
      obtain ⟨rfl, rfl, rfl, rfl, rfl, -⟩ := hsplit
      have hheader : header (f.ty.toByte :: b₁ :: b₂ :: b₃ :: b₄ :: value) =
          some (f.ty.toByte, f.payload.length) := by
        rw [← hlen]
        rfl
      rw [decodeFrame_of_header hheader (by omega), if_neg (by omega)]

private theorem encode_of_header {bytes : List UInt8} {ty : FrameType} {tyByte : UInt8} {len : Nat}
    (hheader : header bytes = some (tyByte, len)) (hty : FrameType.tryFrom tyByte = .ok ty)
    (hlen : 5 + len ≤ bytes.length) :
    bytes = (⟨ty, (bytes.drop 5).take len⟩ : Frame).encode ++ bytes.drop (5 + len) := by
  unfold header at hheader
  split at hheader
  · rename_i b₀ b₁ b₂ b₃ b₄ value
    obtain ⟨rfl, hvalue⟩ := Prod.mk.inj (Option.some.inj hheader)
    have hbytes : toBeBytes len = [b₁, b₂, b₃, b₄] := by
      rw [← hvalue, toBeBytes_fromBeBytes]
    have hlt : len < 2 ^ 32 := by
      rw [← hvalue]
      exact fromBeBytes_lt b₁ b₂ b₃ b₄
    have htake : (value.take len).length % 2 ^ 32 = len := by
      simp only [List.length_cons] at hlen
      rw [List.length_take, Nat.min_eq_left (by omega), Nat.mod_eq_of_lt hlt]
    rw [← List.drop_drop]
    simp only [List.drop_succ_cons, List.drop_zero, Frame.encode, htake, hbytes,
      FrameType.toByte_of_tryFrom hty, List.cons_append, List.nil_append, List.take_append_drop]
  · contradiction

/-- What a decoded frame says about the bytes: a whole header within the cap, a known
type, and enough value bytes. -/
theorem decodeFrame_inv {bytes : List UInt8} {f : Frame} {rest : List UInt8}
    (h : decodeFrame bytes = .frame f rest) :
    ∃ tyByte len, header bytes = some (tyByte, len) ∧ FrameType.tryFrom tyByte = .ok f.ty ∧
      len ≤ maxFrameLen ∧ 5 + len ≤ bytes.length ∧ f.payload = (bytes.drop 5).take len ∧
      rest = bytes.drop (5 + len) := by
  unfold decodeFrame at h
  cases hheader : header bytes with
  | none =>
      simp only [hheader] at h
      exact absurd h (by simp)
  | some head =>
      obtain ⟨tyByte, len⟩ := head
      simp only [hheader] at h
      by_cases hcap : maxFrameLen < len
      · rw [if_pos hcap] at h
        exact absurd h (by simp)
      rw [if_neg hcap] at h
      cases hty : FrameType.tryFrom tyByte with
      | error b =>
          simp only [hty] at h
          exact absurd h (by simp)
      | ok ty =>
          simp only [hty] at h
          by_cases hlen : 5 + len ≤ bytes.length
          · rw [if_pos hlen] at h
            obtain ⟨rfl, rfl⟩ := Decoded.frame.inj h
            exact ⟨tyByte, len, rfl, hty, Nat.le_of_not_lt hcap, hlen, rfl, rfl⟩
          · rw [if_neg hlen] at h
            exact absurd h (by simp)

/-- A decoded frame stood at the front of the input. -/
theorem encode_decodeFrame {bytes : List UInt8} {f : Frame} {rest : List UInt8}
    (h : decodeFrame bytes = .frame f rest) : bytes = f.encode ++ rest := by
  obtain ⟨tyByte, len, hheader, hty, -, hlen, hpayload, hrest⟩ := decodeFrame_inv h
  have hencode := encode_of_header hheader hty hlen
  rw [← hpayload, ← hrest] at hencode
  exact hencode

/-- The frame layout is a framing of byte streams for frames under the cap. -/
def framing : Framing Frame ProtocolError UInt8 where
  encode := Frame.encode
  decode := decodeFrame
  Valid := fun f => f.payload.length ≤ maxFrameLen
  decode_nil := rfl
  decode_encode := fun _ hf rest => decodeFrame_encode hf rest
  decode_proper := fun _ hf _ _ hsplit hr => decodeFrame_proper hf hsplit hr
  encode_decode := fun _ _ _ h => encode_decodeFrame h

/-! ## What more bytes change -/

/-- A header is read the same with more behind it. -/
theorem header_append {bytes : List UInt8} {head : UInt8 × Nat} (h : header bytes = some head)
    (more : List UInt8) : header (bytes ++ more) = some head := by
  unfold header at h
  split at h
  · exact h
  · contradiction

/-- A malformed header stays malformed, whatever follows. -/
theorem decodeFrame_append_malformed {bytes : List UInt8} {e : ProtocolError}
    (h : decodeFrame bytes = .malformed e) (more : List UInt8) :
    decodeFrame (bytes ++ more) = .malformed e := by
  cases hheader : header bytes with
  | none =>
      simp only [decodeFrame, hheader] at h
      exact absurd h (by simp)
  | some head =>
      obtain ⟨tyByte, len⟩ := head
      simp only [decodeFrame, hheader] at h
      simp only [decodeFrame, header_append hheader more]
      by_cases hcap : maxFrameLen < len
      · rw [if_pos hcap] at h ⊢
        exact h
      rw [if_neg hcap] at h ⊢
      cases hty : FrameType.tryFrom tyByte with
      | error b =>
          simp only [hty] at h
          exact h
      | ok ty =>
          simp only [hty] at h
          split at h
          · exact absurd h (by simp)
          · exact absurd h (by simp)

/-- A complete frame stays the first one, whatever follows. -/
theorem decodeFrame_append_frame {bytes rest : List UInt8} {f : Frame}
    (h : decodeFrame bytes = .frame f rest) (more : List UInt8) :
    decodeFrame (bytes ++ more) = .frame f (rest ++ more) := by
  have hbytes := encode_decodeFrame h
  have hvalid : f.payload.length ≤ maxFrameLen := by
    obtain ⟨tyByte, len, -, -, hcap, -, hpayload, -⟩ := decodeFrame_inv h
    rw [hpayload, List.length_take]
    omega
  rw [hbytes, List.append_assoc]
  exact decodeFrame_encode hvalid (rest ++ more)

/-- An encoded frame is not empty. -/
theorem encode_ne_nil (f : Frame) : f.encode ≠ [] := by simp [Frame.encode]

/-! ## Refinement -/

namespace FrameDecoder

/-- The decoder pulls what the framing pulls from the unread bytes. -/
theorem nextFrame_refines (d : FrameDecoder) :
    d.nextFrame.1 = (framing.pull d.unread).1 ∧ d.nextFrame.2.unread = (framing.pull d.unread).2 := by
  have hdecode : framing.decode d.unread = decodeFrame d.unread := rfl
  rw [Framing.pull, hdecode]
  unfold nextFrame decodeFrame
  cases header d.unread with
  | none => exact ⟨rfl, rfl⟩
  | some head =>
      obtain ⟨tyByte, len⟩ := head
      dsimp only
      by_cases hcap : maxFrameLen < len
      · rw [if_pos hcap, if_pos hcap]
        exact ⟨rfl, rfl⟩
      rw [if_neg hcap, if_neg hcap]
      cases FrameType.tryFrom tyByte with
      | error b => exact ⟨rfl, rfl⟩
      | ok ty =>
          by_cases hlen : 5 + len ≤ d.unread.length
          · simp only [dif_pos hlen, if_pos hlen]
            exact ⟨trivial, unread_consume d _ hlen⟩
          · simp only [dif_neg hlen, if_neg hlen]
            exact ⟨trivial, trivial⟩

/-- A sequence of pushes and calls of {lit}`next_frame`. -/
def run : FrameDecoder → List (StreamOp UInt8) →
    List (Except ProtocolError (Option Frame)) × FrameDecoder
  | d, [] => ([], d)
  | d, .push bytes :: ops => run (d.push bytes) ops
  | d, .pull :: ops =>
      let rest := run d.nextFrame.2 ops
      (d.nextFrame.1 :: rest.1, rest.2)

/-- The decoder answers like the framing over its unread bytes. -/
theorem run_refines (d : FrameDecoder) (ops : List (StreamOp UInt8)) :
    (d.run ops).1 = (framing.run d.unread ops).1 ∧
      (d.run ops).2.unread = (framing.run d.unread ops).2 := by
  induction ops generalizing d with
  | nil => exact ⟨rfl, rfl⟩
  | cons op ops ih =>
      cases op with
      | push bytes =>
          have hstep := ih (d.push bytes)
          rw [unread_push] at hstep
          exact hstep
      | pull =>
          obtain ⟨hresult, hunread⟩ := d.nextFrame_refines
          obtain ⟨hresults, hleft⟩ := ih d.nextFrame.2
          rw [hunread] at hresults hleft
          simp only [run, Framing.run]
          exact ⟨by rw [hresult, hresults], hleft⟩

end FrameDecoder

/-! ## Data frames -/

/-- Consecutive pieces of at most the given size, as {lit}`slice::chunks`. -/
def chunks (size : Nat) (bytes : List UInt8) : List (List UInt8) :=
  if _hdone : bytes = [] ∨ size = 0 then []
  else bytes.take size :: chunks size (bytes.drop size)
termination_by bytes.length
decreasing_by
  have hpos : 0 < bytes.length := List.length_pos_iff.mpr (fun hnil => _hdone (Or.inl hnil))
  have hsize : size ≠ 0 := fun hzero => _hdone (Or.inr hzero)
  simp only [List.length_drop]
  omega

/-- Split raw output into data frames under the cap. -/
def frameData (bytes : List UInt8) : List Frame :=
  (chunks maxFrameLen bytes).map fun c => ⟨.data, c⟩

/-- Chunks are within their size. -/
theorem length_le_of_mem_chunks {size : Nat} {bytes c : List UInt8} (h : c ∈ chunks size bytes) :
    c.length ≤ size := by
  induction bytes using chunks.induct size with
  | case1 bytes hdone =>
      rw [chunks, dif_pos hdone] at h
      contradiction
  | case2 bytes hmore ih =>
      rw [chunks, dif_neg hmore] at h
      rcases List.mem_cons.mp h with rfl | h
      · rw [List.length_take]
        omega
      · exact ih h

/-- Chunks in a row are the bytes they were cut from. -/
theorem flatten_chunks {size : Nat} (hsize : size ≠ 0) (bytes : List UInt8) :
    (chunks size bytes).flatten = bytes := by
  induction bytes using chunks.induct size with
  | case1 bytes hdone =>
      rcases hdone with rfl | hzero
      · rw [chunks, dif_pos (Or.inl rfl)]
        rfl
      · contradiction
  | case2 bytes hmore ih =>
      rw [chunks, dif_neg hmore, List.flatten_cons, ih, List.take_append_drop]

/-- DATA frames are within the cap. -/
theorem length_payload_frameData {bytes : List UInt8} {f : Frame} (h : f ∈ frameData bytes) :
    f.payload.length ≤ maxFrameLen := by
  obtain ⟨c, hc, rfl⟩ := List.mem_map.mp h
  exact length_le_of_mem_chunks hc

/-- Frames that carry output are of type DATA. -/
theorem ty_of_mem_frameData {bytes : List UInt8} {f : Frame} (h : f ∈ frameData bytes) :
    f.ty = .data := by
  obtain ⟨c, -, rfl⟩ := List.mem_map.mp h
  rfl

/-- The data payloads concatenate to the bytes that were split. -/
theorem flatten_payload_frameData (bytes : List UInt8) :
    ((frameData bytes).map Frame.payload).flatten = bytes := by
  have hmap : (frameData bytes).map Frame.payload = chunks maxFrameLen bytes := by
    simp [frameData, Function.comp_def]
  rw [hmap]
  exact flatten_chunks (by decide) bytes

/-! ## Main result -/

/-- The decoder, asked and fed in the given order, delivers the frames: no call
fails, what has come out is a beginning of the list, as many further calls as
frames are missing bring exactly the missing ones, and the call after that finds
nothing left over. -/
def Delivers (ops : List (StreamOp UInt8)) (frames : List Frame) : Prop :=
  let sofar := FrameDecoder.new.run ops
  (∀ result ∈ sofar.1, ∃ f, result = .ok f) ∧
    ∃ missing, frames = yielded sofar.1 ++ missing ∧
      let drained := sofar.2.run (List.replicate missing.length .pull)
      drained.1 = (missing.map fun f => .ok (some f)) ∧
        drained.2.unread = [] ∧ drained.2.nextFrame.1 = .ok none

private theorem delivers_of_valid {frames : List Frame}
    (hvalid : ∀ f ∈ frames, f.payload.length ≤ maxFrameLen) {ops : List (StreamOp UInt8)}
    (hops : StreamOp.pushed ops = (frames.map Frame.encode).flatten) : Delivers ops frames := by
  obtain ⟨hresults, hunread⟩ := FrameDecoder.new.run_refines ops
  rw [FrameDecoder.unread_new] at hresults hunread
  have hpushed : [] ++ StreamOp.pushed ops = framing.wire frames := hops
  obtain ⟨hok, missing, hframes, hwire⟩ := framing.run_wire hvalid hpushed
  rw [← hresults] at hok hframes
  rw [← hunread] at hwire
  refine ⟨hok, missing, hframes, ?_⟩
  have hmissing : ∀ f ∈ missing, f.payload.length ≤ maxFrameLen := by
    intro f hf
    apply hvalid
    rw [hframes]
    exact List.mem_append_right _ hf
  have hdrain := framing.run_replicate_pull hmissing
  obtain ⟨hresults', hunread'⟩ :=
    (FrameDecoder.new.run ops).2.run_refines (List.replicate missing.length .pull)
  rw [hwire, hdrain] at hresults' hunread'
  refine ⟨hresults', hunread', ?_⟩
  rw [(FrameDecoder.nextFrame_refines _).1, hunread']
  rfl

/-- Encoding and decoding are inverse both ways: frames under the cap, the frames
of any raw output among them, are delivered through every cutting of their
encodings and every interleaving of calls; and through every byte stream the
frames that come out encode exactly the consumed bytes. -/
theorem codec_inverse :
    (∀ frames : List Frame, (∀ f ∈ frames, f.payload.length ≤ maxFrameLen) →
      ∀ ops : List (StreamOp UInt8), StreamOp.pushed ops = (frames.map Frame.encode).flatten →
        Delivers ops frames) ∧
    (∀ (bytes : List UInt8) (ops : List (StreamOp UInt8)),
      StreamOp.pushed ops = ((frameData bytes).map Frame.encode).flatten →
        Delivers ops (frameData bytes) ∧
          ((frameData bytes).map Frame.payload).flatten = bytes) ∧
    ∀ ops : List (StreamOp UInt8),
      StreamOp.pushed ops =
        ((yielded (FrameDecoder.new.run ops).1).map Frame.encode).flatten ++
          (FrameDecoder.new.run ops).2.unread := by
  refine ⟨fun frames hvalid ops hops => delivers_of_valid hvalid hops, ?_, ?_⟩
  · intro bytes ops hops
    exact ⟨delivers_of_valid (fun f hf => length_payload_frameData hf) hops,
      flatten_payload_frameData bytes⟩
  · intro ops
    obtain ⟨hresults, hunread⟩ := FrameDecoder.new.run_refines ops
    rw [hresults, hunread]
    exact framing.run_consumed [] ops

/-- Two frames, cut inside the first header, with a call before the second
piece. -/
theorem codec_inverse_two_frames :
    Delivers [.push [10, 0, 0], .pull, .push [0, 1, 0x78, 11, 0, 0, 0, 1, 0x79], .pull]
        [⟨.status, [0x78]⟩, ⟨.exit, [0x79]⟩] ∧
      StreamOp.pushed [.push [9, 0, 0], .pull] =
        ((yielded (FrameDecoder.new.run [.push [9, 0, 0], .pull]).1).map Frame.encode).flatten ++
          (FrameDecoder.new.run [.push [9, 0, 0], .pull]).2.unread :=
  ⟨codec_inverse.1 _ (by decide) _ (by decide), codec_inverse.2.2 _⟩

end JftermMuxer.Daemon
