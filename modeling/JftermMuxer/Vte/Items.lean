import JftermMuxer.Vte.Sequences

/-!
# Well-formed streams

A well-formed stream is a concatenation of complete items: characters, controls,
escape sequences, CSI sequences, OSC strings and DCS strings.  An item carries
the proofs of its own well-formedness, so that a list of items is a well-formed
stream by construction.

Main results:

- Definition {lit}`Item`: the grammar, with {lit}`Item.bytes` as its concrete
  syntax.
- Theorem {lit}`Item.run_body`: up to its closing byte an item makes only quiet
  callbacks, and the closing byte makes exactly {lit}`Item.callback`.
- Theorem {lit}`Item.run_bytes`: a parser reads an item from ground to ground.
- Theorem {lit}`ControlString.run_body`: SOS, PM and APC strings make no callback up
  to the backslash of their ST.
-/

namespace JftermMuxer.Vte

open Foundation

/-! ## The grammar -/

/-- Encodings of the control characters: C0, DEL and C1. -/
def isControlChar : List UInt8 → Bool
  | [a] => a < 0x20 || a == 0x7F
  | [a, b] => a == 0xC2 && b ≤ 0x9F
  | _ => false

/-- The two ways to end an OSC string. -/
inductive Terminator where
  | bel
  | st
deriving DecidableEq, Repr

def Terminator.bytes : Terminator → List UInt8
  | .bel => [0x07]
  | .st => [0x1B, 0x5C]

/-- The final byte of an escape sequence: no backslash, no {lit}`c` after
intermediates, and no introducer of another kind of sequence without them. -/
def isEscItem (intermediates : List UInt8) (final : UInt8) : Bool :=
  0x30 ≤ final && final ≤ 0x7E && final != 0x5C &&
    (if intermediates = [] then isEscFinal final else final != 0x63)

/-- The bytes of an absent private marker, for items without one. -/
theorem no_marker : ∀ m ∈ (none : Option UInt8), isPrivate m = true := by simp

/-- The bytes of an empty list of intermediates. -/
theorem no_intermediates : ∀ b ∈ ([] : List UInt8), isIntermediate b = true := by simp

/-- A complete item of a terminal stream. -/
inductive Item where
  | char (encoded : List UInt8) (scalar : IsScalar encoded)
      (printable : isControlChar encoded = false)
  | control (byte : UInt8) (c0 : byte < 0x20) (notEsc : byte ≠ 0x1B)
  | esc (intermediates : List UInt8) (final : UInt8)
      (collected : ∀ b ∈ intermediates, isIntermediate b = true)
      (ends : isEscItem intermediates final = true)
  | csi (marker : Option UInt8) (params intermediates : List UInt8) (final : UInt8)
      (marked : ∀ m ∈ marker, isPrivate m = true)
      (listed : ∀ b ∈ params, isParamByte b = true)
      (collected : ∀ b ∈ intermediates, isIntermediate b = true)
      (ends : isFinal final = true)
  | osc (payload : List UInt8) (terminator : Terminator) (text : IsText payload)
      (plain : ∀ b ∈ payload, 0x20 ≤ b ∧ b ≠ 0x7F)
  | dcs (params : List UInt8) (final : UInt8) (payload : List UInt8)
      (listed : ∀ b ∈ params, isDigit b = true ∨ b = 0x3B)
      (ends : isFinal final = true)
      (plain : ∀ b ∈ payload, 0x20 ≤ b ∧ b ≤ 0x7E)

namespace Item

/-- The bytes of an item. -/
def bytes : Item → List UInt8
  | char encoded _ _ => encoded
  | control byte _ _ => [byte]
  | esc intermediates final _ _ => [0x1B] ++ intermediates ++ [final]
  | csi marker params intermediates final _ _ _ _ =>
      [0x1B, 0x5B] ++ (marker.toList ++ params ++ intermediates) ++ [final]
  | osc payload terminator _ _ => [0x1B, 0x5D] ++ payload ++ terminator.bytes
  | dcs params final payload _ _ _ =>
      [0x1B, 0x50] ++ (params ++ [final] ++ payload) ++ [0x1B, 0x5C]

/-- The bytes of a list of items: a well-formed stream. -/
def stream (items : List Item) : List UInt8 := (items.map bytes).flatten

@[simp] theorem stream_nil : stream [] = [] := rfl

@[simp] theorem stream_cons (i : Item) (items : List Item) :
    stream (i :: items) = i.bytes ++ stream items := rfl

@[simp] theorem stream_append (as bs : List Item) : stream (as ++ bs) = stream as ++ stream bs := by
  simp [stream]

/-! ## Body, closing byte and tail -/

/-- The bytes before the one that decides the item. -/
def body : Item → List UInt8
  | char encoded _ _ => encoded.dropLast
  | control _ _ _ => []
  | esc intermediates _ _ _ => [0x1B] ++ intermediates
  | csi marker params intermediates _ _ _ _ _ =>
      [0x1B, 0x5B] ++ (marker.toList ++ params ++ intermediates)
  | osc payload _ _ _ => [0x1B, 0x5D] ++ payload
  | dcs params final payload _ _ _ => [0x1B, 0x50] ++ (params ++ [final] ++ payload)

/-- The byte at which the parser makes the item's callback. -/
def closing : Item → UInt8
  | char encoded _ _ => encoded.getLastD 0
  | control byte _ _ => byte
  | esc _ final _ _ => final
  | csi _ _ _ final _ _ _ _ => final
  | osc _ .bel _ _ => 0x07
  | osc _ .st _ _ => 0x1B
  | dcs _ _ _ _ _ _ => 0x1B

/-- The item ends in an ST, whose backslash follows the closing byte. -/
def hasTail : Item → Bool
  | osc _ .st _ _ => true
  | dcs _ _ _ _ _ _ => true
  | _ => false

/-- What follows the closing byte. -/
def tail (i : Item) : List UInt8 := if i.hasTail then [0x5C] else []

/-- The callback of the closing byte. -/
def callback : Item → Callback
  | char encoded _ _ => .print (decodeChar encoded)
  | control byte _ _ => .execute byte
  | esc intermediates final _ _ =>
      .escDispatch (intermediates.foldl Seq.collect Seq.reset).intermediates
        (intermediates.foldl Seq.collect Seq.reset).ignoring final
  | csi marker params intermediates final _ _ _ _ => csiCallback marker params intermediates final
  | osc payload terminator _ _ => .oscDispatch (oscFields payload) (terminator == .bel)
  | dcs _ _ _ _ _ _ => .unhook

/-- The callbacks after the closing byte. -/
def tailCallbacks (i : Item) : List Callback :=
  if i.hasTail then [.escDispatch [] false 0x5C] else []

/-- The parser state right after the closing byte. -/
def closed (i : Item) : State := if i.hasTail then .escape else .ground []

private theorem scalar_ne_nil {bs : List UInt8} (h : IsScalar bs) : bs ≠ [] := by
  obtain ⟨lead, tail, rfl, -, -⟩ := h.lead_cont
  simp

/-- An item is its body, its closing byte and its tail. -/
theorem bytes_eq (i : Item) : i.bytes = i.body ++ [i.closing] ++ i.tail := by
  cases i with
  | char encoded scalar printable =>
      have hlast := List.dropLast_append_getLast (scalar_ne_nil scalar)
      simp only [bytes, body, closing, tail, hasTail]
      rw [List.getLastD_eq_getLast?, List.getLast?_eq_some_getLast (scalar_ne_nil scalar)]
      simpa using hlast.symm
  | osc payload terminator text plain =>
      cases terminator <;> simp [bytes, body, closing, tail, hasTail, Terminator.bytes]
  | _ => simp [bytes, body, closing, tail, hasTail]

/-- An item with a tail is decided at the ESC of its ST. -/
theorem closing_of_hasTail {i : Item} (h : i.hasTail = true) : i.closing = 0x1B := by
  cases i with
  | osc payload terminator text plain =>
      cases terminator with
      | bel => contradiction
      | st => rfl
  | dcs params final payload listed ends plain => rfl
  | _ => contradiction

/-! ## Running the parser over an item -/

/-- The parser decides an item at its closing byte. -/
theorem run_body (i : Item) :
    ∃ q quiet, table.run (.ground []) i.body = (q, quiet) ∧ (∀ cb ∈ quiet, isQuiet cb = true) ∧
      advance q i.closing = (i.closed, [i.callback]) := by
  cases i with
  | char encoded scalar printable =>
      have hprint : ∀ a, encoded = [a] → 0x20 ≤ a := by
        rintro a rfl
        simp only [isControlChar, Bool.or_eq_false_iff, decide_eq_false_iff_not] at printable
        grind
      obtain ⟨init, last, rfl, hrun, hlast⟩ := run_scalar scalar hprint
      refine ⟨.ground init, [], ?_, by simp, ?_⟩
      · simpa [body] using hrun
      · simpa [closing, closed, hasTail, callback] using hlast
  | control byte c0 notEsc =>
      refine ⟨.ground [], [], rfl, by simp, ?_⟩
      simp [closing, advance, advanceGround, advanceGroundFresh, notEsc, c0, closed, hasTail,
        callback]
  | esc intermediates final collected ends =>
      obtain ⟨q, hrun, hopen, hnil⟩ := run_escape_body collected
      simp only [isEscItem, Bool.and_eq_true, decide_eq_true_eq] at ends
      refine ⟨q, [], hrun, by simp, hopen.advance_final ends.1.1.1 ends.1.1.2 ?_⟩
      intro hq
      have hends := ends.2
      rw [if_pos (hnil hq)] at hends
      exact hends
  | csi marker params intermediates final marked listed collected ends =>
      obtain ⟨q, hrun, hopen⟩ := run_csi_body marker marked listed collected
      exact ⟨q, [], hrun, by simp, hopen.advance_final ends⟩
  | osc payload terminator text plain =>
      refine ⟨_, [], run_osc_body (fun b hb => (plain b hb).1), by simp, ?_⟩
      cases terminator <;> rfl
  | dcs params final payload listed ends plain =>
      have hparams : ∀ b ∈ params, isParamByte b = true := by
        intro b hb
        rcases listed b hb with hd | rfl
        · simp [isParamByte, hd]
        · rfl
      refine ⟨_, _, run_dcs_body ends hparams plain, ?_, rfl⟩
      intro cb hcb
      simp only [hook, List.cons_append, List.nil_append, List.mem_cons, List.mem_map] at hcb
      rcases hcb with rfl | ⟨b, -, rfl⟩
      · rfl
      · rfl

/-- The backslash of an item's ST, when it has one. -/
theorem run_tail (i : Item) : table.run i.closed i.tail = (.ground [], i.tailCallbacks) := by
  unfold closed tail tailCallbacks
  split <;> rfl

/-- A parser reads a whole item from ground to ground. -/
theorem run_bytes (i : Item) :
    ∃ quiet, (∀ cb ∈ quiet, isQuiet cb = true) ∧
      table.run (.ground []) i.bytes =
        (.ground [], quiet ++ [i.callback] ++ i.tailCallbacks) := by
  obtain ⟨q, quiet, hbody, hquiet, hclosing⟩ := i.run_body
  refine ⟨quiet, hquiet, ?_⟩
  rw [bytes_eq, Transducer.run_append, Transducer.run_append, hbody, Transducer.run_cons,
    table_advance, hclosing, Transducer.run_nil, run_tail]
  rfl

/-- A well-formed stream is read from ground to ground. -/
theorem stateAfter_stream (items : List Item) :
    table.stateAfter (.ground []) (stream items) = .ground [] := by
  induction items with
  | nil => rfl
  | cons i items ih =>
      obtain ⟨quiet, -, hrun⟩ := i.run_bytes
      have hstate : table.stateAfter (.ground []) i.bytes = .ground [] := by
        rw [Transducer.stateAfter, hrun]
      rw [stream_cons, Transducer.stateAfter_append, hstate, ih]

end Item

/-! ## SOS, PM and APC strings -/

inductive StringKind where
  | sos
  | pm
  | apc
deriving DecidableEq, Repr

/-- The byte that introduces the string, after an ESC. -/
def StringKind.byte : StringKind → UInt8
  | .sos => 0x58
  | .pm => 0x5E
  | .apc => 0x5F

/-- A string of printable ASCII that the parser skips, ended by an ST. -/
structure ControlString where
  kind : StringKind
  payload : List UInt8
  plain : ∀ b ∈ payload, 0x20 ≤ b ∧ b ≤ 0x7E

namespace ControlString

/-- The string up to the backslash of its ST. -/
def body (s : ControlString) : List UInt8 := [0x1B, s.kind.byte] ++ s.payload ++ [0x1B]

def bytes (s : ControlString) : List UInt8 := s.body ++ [0x5C]

private theorem run_skipped {payload : List UInt8} (h : ∀ b ∈ payload, 0x20 ≤ b ∧ b ≤ 0x7E) :
    table.run .sosPmApcString payload = (.sosPmApcString, []) := by
  induction payload with
  | nil => rfl
  | cons b payload ih =>
      have hb := h b (by simp)
      have hcan : isCancel b = false := by
        unfold isCancel
        grind
      have hesc : b ≠ 0x1B := by grind
      have hstep : anywhere .sosPmApcString b = (.sosPmApcString, []) := by
        simp [anywhere, hcan, hesc]
      rw [Transducer.run_cons, table_advance, advance, hstep]
      rw [ih (fun x hx => h x (List.mem_cons_of_mem b hx))]
      rfl

/-- Nothing is reported before the backslash. -/
theorem run_body (s : ControlString) : table.run (.ground []) s.body = (.escape, []) := by
  have hintro : table.run (.ground []) [0x1B, s.kind.byte] = (.sosPmApcString, []) := by
    cases s.kind <;> rfl
  rw [body, Transducer.run_append, Transducer.run_append, hintro, run_skipped s.plain]
  rfl

end ControlString

end JftermMuxer.Vte
