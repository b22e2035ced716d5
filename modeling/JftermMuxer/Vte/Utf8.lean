import Mathlib.Data.List.Basic

/-!
# UTF-8 as the ground state reads it

The ground state of the parser buffers the bytes of an unfinished character and
asks after each byte whether the buffer is complete, can still grow, or is
malformed, with the byte ranges of {lit}`str::from_utf8`.

Main results:

- Definition {lit}`IsScalar`: the encodings of one character, stated without the
  machine.
- Theorem {lit}`IsScalar.lead_cont`: every encoding is a lead byte followed by
  exactly the continuation bytes its lead announces.
-/

namespace JftermMuxer.Vte

/-- Continuation bytes. -/
def isCont (b : UInt8) : Bool := 0x80 ≤ b && b ≤ 0xBF

/-- Number of bytes of the character a first byte announces; 0 when no
character starts with it. -/
def leadWidth (b : UInt8) : Nat :=
  if b < 0x80 then 1
  else if 0xC2 ≤ b && b ≤ 0xDF then 2
  else if 0xE0 ≤ b && b ≤ 0xEF then 3
  else if 0xF0 ≤ b && b ≤ 0xF4 then 4
  else 0

/-- The second bytes a lead admits: overlong forms, surrogates and values past
U+10FFFF are excluded here. -/
def secondOk (lead b : UInt8) : Bool :=
  if lead = 0xE0 then 0xA0 ≤ b && b ≤ 0xBF
  else if lead = 0xED then 0x80 ≤ b && b ≤ 0x9F
  else if lead = 0xF0 then 0x90 ≤ b && b ≤ 0xBF
  else if lead = 0xF4 then 0x80 ≤ b && b ≤ 0x8F
  else isCont b

/-- The byte can extend the unfinished character in the buffer. -/
def contOk (buffer : List UInt8) (b : UInt8) : Bool :=
  match buffer with
  | [lead] => secondOk lead b
  | _ => isCont b

/-- Number of bytes the buffered character will have. -/
def bufferWidth (buffer : List UInt8) : Nat :=
  match buffer with
  | [] => 0
  | lead :: _ => leadWidth lead

/-- The replacement character U+FFFD. -/
def replacement : Char := Char.ofNat 0xFFFD

/-- The character encoded by a complete buffer. -/
def decodeChar : List UInt8 → Char
  | [a] => Char.ofNat a.toNat
  | [a, b] => Char.ofNat (a.toNat % 0x20 * 0x40 + b.toNat % 0x40)
  | [a, b, c] => Char.ofNat (a.toNat % 0x10 * 0x1000 + b.toNat % 0x40 * 0x40 + c.toNat % 0x40)
  | [a, b, c, d] =>
      Char.ofNat (a.toNat % 0x08 * 0x40000 + b.toNat % 0x40 * 0x1000 + c.toNat % 0x40 * 0x40 +
        d.toNat % 0x40)
  | _ => replacement

/-- The UTF-8 encodings of one scalar value. -/
inductive IsScalar : List UInt8 → Prop where
  | one {a : UInt8} : a < 0x80 → IsScalar [a]
  | two {a b : UInt8} : leadWidth a = 2 → secondOk a b → IsScalar [a, b]
  | three {a b c : UInt8} : leadWidth a = 3 → secondOk a b → isCont c → IsScalar [a, b, c]
  | four {a b c d : UInt8} : leadWidth a = 4 → secondOk a b → isCont c → isCont d →
      IsScalar [a, b, c, d]

/-- Concatenations of encoded characters: valid UTF-8 text. -/
inductive IsText : List UInt8 → Prop where
  | nil : IsText []
  | cons {c rest : List UInt8} : IsScalar c → IsText rest → IsText (c ++ rest)

/-- A valid second byte is a continuation byte. -/
theorem secondOk_isCont {lead b : UInt8} (h : secondOk lead b = true) : isCont b = true := by
  unfold secondOk isCont at *
  grind

/-- A lead of two or more bytes is not ASCII. -/
theorem leadWidth_high {b : UInt8} (h : 2 ≤ leadWidth b) : 0xC2 ≤ b ∧ b ≤ 0xF4 := by
  unfold leadWidth at h
  grind

/-- Continuation bytes lie between {lit}`80` and {lit}`BF`. -/
theorem isCont_high {b : UInt8} (h : isCont b = true) : 0x80 ≤ b ∧ b ≤ 0xBF := by
  simpa [isCont] using h

/-- Every encoding is a lead byte with the continuation bytes it announces. -/
theorem IsScalar.lead_cont {bs : List UInt8} (h : IsScalar bs) :
    ∃ lead tail, bs = lead :: tail ∧ bs.length = leadWidth lead ∧ ∀ b ∈ tail, isCont b = true := by
  cases h with
  | @one a ha => exact ⟨a, [], rfl, by simp [leadWidth, ha], by simp⟩
  | @two a b ha hb => exact ⟨a, [b], rfl, by simp [ha], by simpa using secondOk_isCont hb⟩
  | @three a b c ha hb hc =>
      exact ⟨a, [b, c], rfl, by simp [ha], by simpa [hc] using secondOk_isCont hb⟩
  | @four a b c d ha hb hc hd =>
      exact ⟨a, [b, c, d], rfl, by simp [ha], by simpa [hc, hd] using secondOk_isCont hb⟩

end JftermMuxer.Vte
