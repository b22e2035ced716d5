import JftermMuxer.Foundation.Transducer
import JftermMuxer.Vte.Params
import JftermMuxer.Vte.Utf8

/-!
# The state table of the terminal parser

The parser the scanner is built on is the third-party vte 0.15; this file
states its published state table, fed one byte at a time, as a transducer from
bytes to callbacks.  Every state carries exactly the data that can still be
read: the buffers that vte resets on ESC, on the CSI or DCS introducer and on
the OSC introducer are absent from the states before them, so two parsers in
equal states are interchangeable.

Main results:

- Definition {lit}`table`: the transducer itself, one {lit}`advance…` function
  per state.
- Theorem {lit}`advance_esc`: from every state an ESC byte leads to the escape
  state.
- Definitions {lit}`CsiStep` and {lit}`DcsStep`: all that a byte can do inside a
  control sequence and in the introducer of a device control string.
-/

namespace JftermMuxer.Vte

open Foundation

/-! ## Byte classes -/

/-- C0 controls that are executed without leaving a sequence: all but CAN, SUB
and ESC. -/
def isC0 (b : UInt8) : Bool := b ≤ 0x17 || b == 0x19 || (0x1C ≤ b && b ≤ 0x1F)

/-- CAN and SUB, which abort any sequence. -/
def isCancel (b : UInt8) : Bool := b == 0x18 || b == 0x1A

/-- Intermediate bytes. -/
def isIntermediate (b : UInt8) : Bool := 0x20 ≤ b && b ≤ 0x2F

/-- Decimal digits. -/
def isDigit (b : UInt8) : Bool := 0x30 ≤ b && b ≤ 0x39

/-- Private parameter markers. -/
def isPrivate (b : UInt8) : Bool := 0x3C ≤ b && b ≤ 0x3F

/-- Final bytes of a CSI or DCS introducer. -/
def isFinal (b : UInt8) : Bool := 0x40 ≤ b && b ≤ 0x7E

/-! ## States -/

/-- What an escape, CSI or DCS introducer has collected. -/
structure Seq where
  intermediates : List UInt8
  ignoring : Bool
  params : Params
  param : UInt16
deriving DecidableEq, Repr

/-- The cleared record that follows an ESC or an introducer. -/
def Seq.reset : Seq := ⟨[], false, Params.empty, 0⟩

/-- What an OSC string has collected: the finished fields and the bytes since
the last separator. -/
structure Osc where
  fields : List (List UInt8)
  current : List UInt8
deriving DecidableEq, Repr

/-- Parser states with their live data. -/
inductive State where
  | ground (buffer : List UInt8)
  | escape
  | escapeIntermediate (seq : Seq)
  | csiEntry
  | csiParam (seq : Seq)
  | csiIntermediate (seq : Seq)
  | csiIgnore
  | dcsEntry
  | dcsParam (seq : Seq)
  | dcsIntermediate (seq : Seq)
  | dcsIgnore
  | dcsPassthrough
  | oscString (osc : Osc)
  | sosPmApcString
deriving DecidableEq, Repr

/-! ## Actions -/

namespace Seq

/-- Store one intermediate, or mark the sequence ignored past the limit. -/
def collect (s : Seq) (b : UInt8) : Seq :=
  if s.intermediates.length = maxIntermediates then { s with ignoring := true }
  else { s with intermediates := s.intermediates ++ [b] }

/-- Finish a subparameter at a colon. -/
def subparam (s : Seq) : Seq :=
  if s.params.isFull then { s with ignoring := true }
  else { s with params := s.params.extend s.param, param := 0 }

/-- Finish a parameter at a semicolon. -/
def nextParam (s : Seq) : Seq :=
  if s.params.isFull then { s with ignoring := true }
  else { s with params := s.params.push s.param, param := 0 }

/-- One more digit of a parameter, saturating at the 16-bit maximum. -/
def digit (s : Seq) (b : UInt8) : Seq :=
  if s.params.isFull then { s with ignoring := true }
  else { s with param := UInt16.ofNat (min 65535 (s.param.toNat * 10 + (b.toNat - 48))) }

/-- Finish the last parameter before a dispatch. -/
def finish (s : Seq) : Seq :=
  if s.params.isFull then { s with ignoring := true }
  else { s with params := s.params.push s.param }

end Seq

namespace Osc

/-- A fresh OSC string. -/
def reset : Osc := ⟨[], []⟩

/-- A field separator; separators past the field limit are dropped. -/
def putParam (o : Osc) : Osc :=
  if o.fields.length = maxOscParams then o else ⟨o.fields ++ [o.current], []⟩

/-- One payload byte. -/
def put (o : Osc) (b : UInt8) : Osc := { o with current := o.current ++ [b] }

/-- The fields handed to the performer at the end of the string. -/
def dispatched (o : Osc) : List (List UInt8) := o.putParam.fields

end Osc

/-! ## Transitions -/

/-- Transitions shared by most states: CAN and SUB abort, ESC restarts, and any
other byte is swallowed. -/
def anywhere (s : State) (b : UInt8) : State × List Callback :=
  if isCancel b then (.ground [], [.execute b])
  else if b = 0x1B then (.escape, [])
  else (s, [])

/-- Ground state with an empty character buffer. -/
def advanceGroundFresh (b : UInt8) : State × List Callback :=
  if b = 0x1B then (.escape, [])
  else if b < 0x20 then (.ground [], [.execute b])
  else if b < 0x80 then (.ground [], [.print (decodeChar [b])])
  else if 2 ≤ leadWidth b then (.ground [b], [])
  else if b ≤ 0x9F then (.ground [], [.execute b])
  else (.ground [], [.print replacement])

/-- Ground state: a byte that cannot extend the buffered character first prints
the replacement character and is then read afresh. -/
def advanceGround (buffer : List UInt8) (b : UInt8) : State × List Callback :=
  if buffer = [] then advanceGroundFresh b
  else if contOk buffer b then
    if buffer.length + 1 = bufferWidth buffer then
      (.ground [], [.print (decodeChar (buffer ++ [b]))])
    else (.ground (buffer ++ [b]), [])
  else
    let fresh := advanceGroundFresh b
    (fresh.1, .print replacement :: fresh.2)

def advanceEscape (b : UInt8) : State × List Callback :=
  if isC0 b then (.escape, [.execute b])
  else if isIntermediate b then (.escapeIntermediate (Seq.reset.collect b), [])
  else if b = 0x50 then (.dcsEntry, [])
  else if b = 0x5B then (.csiEntry, [])
  else if b = 0x5D then (.oscString Osc.reset, [])
  else if b = 0x58 || b = 0x5E || b = 0x5F then (.sosPmApcString, [])
  else if 0x30 ≤ b && b ≤ 0x7E then
    (.ground [], [.escDispatch [] false b])
  else if isCancel b then (.ground [], [.execute b])
  else (.escape, [])

def advanceEscapeIntermediate (s : Seq) (b : UInt8) : State × List Callback :=
  if isC0 b then (.escapeIntermediate s, [.execute b])
  else if isIntermediate b then (.escapeIntermediate (s.collect b), [])
  else if 0x30 ≤ b && b ≤ 0x7E then
    (.ground [], [.escDispatch s.intermediates s.ignoring b])
  else anywhere (.escapeIntermediate s) b

/-- Dispatch a CSI sequence and return to ground. -/
def csiDispatch (s : Seq) (b : UInt8) : State × List Callback :=
  let t := s.finish
  (.ground [], [.csiDispatch t.params.groups t.intermediates t.ignoring b])

def advanceCsiEntry (b : UInt8) : State × List Callback :=
  if isC0 b then (.csiEntry, [.execute b])
  else if isIntermediate b then (.csiIntermediate (Seq.reset.collect b), [])
  else if isDigit b then (.csiParam (Seq.reset.digit b), [])
  else if b = 0x3A then (.csiParam Seq.reset.subparam, [])
  else if b = 0x3B then (.csiParam Seq.reset.nextParam, [])
  else if isPrivate b then (.csiParam (Seq.reset.collect b), [])
  else if isFinal b then csiDispatch Seq.reset b
  else anywhere .csiEntry b

def advanceCsiParam (s : Seq) (b : UInt8) : State × List Callback :=
  if isC0 b then (.csiParam s, [.execute b])
  else if isIntermediate b then (.csiIntermediate (s.collect b), [])
  else if isDigit b then (.csiParam (s.digit b), [])
  else if b = 0x3A then (.csiParam s.subparam, [])
  else if b = 0x3B then (.csiParam s.nextParam, [])
  else if isPrivate b then (.csiIgnore, [])
  else if isFinal b then csiDispatch s b
  else anywhere (.csiParam s) b

def advanceCsiIntermediate (s : Seq) (b : UInt8) : State × List Callback :=
  if isC0 b then (.csiIntermediate s, [.execute b])
  else if isIntermediate b then (.csiIntermediate (s.collect b), [])
  else if 0x30 ≤ b && b ≤ 0x3F then (.csiIgnore, [])
  else if isFinal b then csiDispatch s b
  else anywhere (.csiIntermediate s) b

def advanceCsiIgnore (b : UInt8) : State × List Callback :=
  if isC0 b then (.csiIgnore, [.execute b])
  else if isFinal b then (.ground [], [])
  else anywhere .csiIgnore b

/-- Announce a DCS string and pass its body through. -/
def hook (s : Seq) (b : UInt8) : State × List Callback :=
  let t := s.finish
  (.dcsPassthrough, [.hook t.params.groups t.intermediates t.ignoring b])

def advanceDcsEntry (b : UInt8) : State × List Callback :=
  if isC0 b then (.dcsEntry, [])
  else if isIntermediate b then (.dcsIntermediate (Seq.reset.collect b), [])
  else if isDigit b then (.dcsParam (Seq.reset.digit b), [])
  else if b = 0x3A then (.dcsParam Seq.reset.subparam, [])
  else if b = 0x3B then (.dcsParam Seq.reset.nextParam, [])
  else if isPrivate b then (.dcsParam (Seq.reset.collect b), [])
  else if isFinal b then hook Seq.reset b
  else anywhere .dcsEntry b

def advanceDcsParam (s : Seq) (b : UInt8) : State × List Callback :=
  if isC0 b then (.dcsParam s, [])
  else if isIntermediate b then (.dcsIntermediate (s.collect b), [])
  else if isDigit b then (.dcsParam (s.digit b), [])
  else if b = 0x3A then (.dcsParam s.subparam, [])
  else if b = 0x3B then (.dcsParam s.nextParam, [])
  else if isPrivate b then (.dcsIgnore, [])
  else if isFinal b then hook s b
  else anywhere (.dcsParam s) b

def advanceDcsIntermediate (s : Seq) (b : UInt8) : State × List Callback :=
  if isC0 b then (.dcsIntermediate s, [])
  else if isIntermediate b then (.dcsIntermediate (s.collect b), [])
  else if 0x30 ≤ b && b ≤ 0x3F then (.dcsIgnore, [])
  else if isFinal b then hook s b
  else anywhere (.dcsIntermediate s) b

def advanceDcsPassthrough (b : UInt8) : State × List Callback :=
  if isC0 b || (0x20 ≤ b && b ≤ 0x7E) then (.dcsPassthrough, [.put b])
  else if isCancel b then (.ground [], [.unhook, .execute b])
  else if b = 0x1B then (.escape, [.unhook])
  else if b = 0x9C then (.ground [], [.unhook])
  else (.dcsPassthrough, [])

/-- An OSC string is dispatched on BEL, on CAN and SUB (which are then
executed), and on the ESC that begins its terminator. -/
def advanceOscString (o : Osc) (b : UInt8) : State × List Callback :=
  if b = 0x07 then (.ground [], [.oscDispatch o.dispatched true])
  else if isC0 b then (.oscString o, [])
  else if isCancel b then (.ground [], [.oscDispatch o.dispatched false, .execute b])
  else if b = 0x1B then (.escape, [.oscDispatch o.dispatched false])
  else if b = 0x3B then (.oscString o.putParam, [])
  else (.oscString (o.put b), [])

/-- One byte from any state. -/
def advance : State → UInt8 → State × List Callback
  | .ground buffer, b => advanceGround buffer b
  | .escape, b => advanceEscape b
  | .escapeIntermediate s, b => advanceEscapeIntermediate s b
  | .csiEntry, b => advanceCsiEntry b
  | .csiParam s, b => advanceCsiParam s b
  | .csiIntermediate s, b => advanceCsiIntermediate s b
  | .csiIgnore, b => advanceCsiIgnore b
  | .dcsEntry, b => advanceDcsEntry b
  | .dcsParam s, b => advanceDcsParam s b
  | .dcsIntermediate s, b => advanceDcsIntermediate s b
  | .dcsIgnore, b => anywhere .dcsIgnore b
  | .dcsPassthrough, b => advanceDcsPassthrough b
  | .oscString o, b => advanceOscString o b
  | .sosPmApcString, b => anywhere .sosPmApcString b

/-- The parser as a transducer, started in the ground state. -/
def table : Transducer State UInt8 Callback where
  init := .ground []
  advance := advance

/-- An ESC byte begins a new sequence wherever it arrives. -/
theorem advance_esc (s : State) : (advance s 0x1B).1 = .escape := by
  cases s with
  | ground buffer =>
      cases buffer with
      | nil => rfl
      | cons lead rest =>
          have hcont : contOk (lead :: rest) 0x1B = false := by
            cases rest with
            | nil => unfold contOk secondOk isCont; grind
            | cons => rfl
          simp [advance, advanceGround, hcont, advanceGroundFresh]
  | _ => rfl

@[simp] theorem table_init : table.init = .ground [] := rfl

@[simp] theorem table_advance (s : State) (b : UInt8) : table.advance s b = advance s b := rfl

/-! ## What a byte does inside a sequence -/

/-- What a byte does inside a CSI sequence: it is collected or swallowed, it is
executed in place, it ends the sequence, or it does what it does anywhere. -/
inductive CsiStep (b : UInt8) : State × List Callback → Prop where
  | collect (s : State) (hs : ∀ o, s ≠ .oscString o) : CsiStep b (s, [])
  | execute (s : State) (hs : ∀ o, s ≠ .oscString o) (hc0 : isC0 b = true) :
      CsiStep b (s, [.execute b])
  | dispatch (seq : Seq) : CsiStep b (csiDispatch seq b)
  | leave (s : State) (hs : ∀ o, s ≠ .oscString o) : CsiStep b (anywhere s b)

/-- At its beginning a CSI sequence makes one of the steps above. -/
theorem csiStep_entry (b : UInt8) : CsiStep b (advanceCsiEntry b) := by
  unfold advanceCsiEntry
  split
  · rename_i hc0
    exact .execute _ nofun hc0
  · repeat' split
    all_goals first
      | exact .collect _ nofun
      | exact .dispatch _
      | exact .leave _ nofun

/-- The same holds among its parameters. -/
theorem csiStep_param (s : Seq) (b : UInt8) : CsiStep b (advanceCsiParam s b) := by
  unfold advanceCsiParam
  split
  · rename_i hc0
    exact .execute _ nofun hc0
  · repeat' split
    all_goals first
      | exact .collect _ nofun
      | exact .dispatch _
      | exact .leave _ nofun

/-- The same holds among its intermediates. -/
theorem csiStep_intermediate (s : Seq) (b : UInt8) : CsiStep b (advanceCsiIntermediate s b) := by
  unfold advanceCsiIntermediate
  split
  · rename_i hc0
    exact .execute _ nofun hc0
  · repeat' split
    all_goals first
      | exact .collect _ nofun
      | exact .dispatch _
      | exact .leave _ nofun

/-- The same holds while it is ignored. -/
theorem csiStep_ignore (b : UInt8) : CsiStep b (advanceCsiIgnore b) := by
  unfold advanceCsiIgnore
  split
  · rename_i hc0
    exact .execute _ nofun hc0
  · split
    · exact .collect _ nofun
    · exact .leave _ nofun

/-- What a byte does in the introducer of a DCS string: it is collected or
swallowed, it announces the body, or it does what it does anywhere. -/
inductive DcsStep (b : UInt8) : State × List Callback → Prop where
  | collect (s : State) (hs : ∀ o, s ≠ .oscString o) : DcsStep b (s, [])
  | announce (seq : Seq) : DcsStep b (hook seq b)
  | leave (s : State) (hs : ∀ o, s ≠ .oscString o) : DcsStep b (anywhere s b)

/-- At its beginning a DCS string makes one of the steps above. -/
theorem dcsStep_entry (b : UInt8) : DcsStep b (advanceDcsEntry b) := by
  unfold advanceDcsEntry
  repeat' split
  all_goals first
    | exact .collect _ nofun
    | exact .announce _
    | exact .leave _ nofun

/-- The same holds among its parameters. -/
theorem dcsStep_param (s : Seq) (b : UInt8) : DcsStep b (advanceDcsParam s b) := by
  unfold advanceDcsParam
  repeat' split
  all_goals first
    | exact .collect _ nofun
    | exact .announce _
    | exact .leave _ nofun

/-- The same holds among its intermediates. -/
theorem dcsStep_intermediate (s : Seq) (b : UInt8) : DcsStep b (advanceDcsIntermediate s b) := by
  unfold advanceDcsIntermediate
  repeat' split
  all_goals first
    | exact .collect _ nofun
    | exact .announce _
    | exact .leave _ nofun

end JftermMuxer.Vte
