import JftermMuxer.Core.Replay
import JftermMuxer.Core.Sanitization

/-!
# Preservation of kept actions

Sanitization must not cost anything else: the replay should make every callback
the session made, the dropped ones aside.  The scanner drops spans, not
callbacks, so a dropped span must not hold bytes of a sequence that goes on
after it, and a verdict must speak for all callbacks of its span.

Main results:

- Definition {lit}`sanitizer`: the callbacks a replay owes, as a transducer from
  callbacks to callbacks.
- Definition {lit}`Intact`: the streams whose kept spans are all read in step,
  and whose verdicts speak for all callbacks of their spans.
- Theorem {lit}`replay_preserves_of_intact`: the replay of an intact stream
  without a clear makes exactly the sanitized callbacks.
- Theorem {lit}`replay_loses_rendition`: the ESC that ends a clipboard write is
  dropped with it, and the rendition it begins is replayed as text.
-/

namespace JftermMuxer.Core

open Foundation Vte

/-! ## Sanitized callbacks -/

/-- Callbacks that purge the history: an erasure of the screen or the
scrollback, and the full reset. -/
def isClearClass : Callback → Bool
  | .csiDispatch params _ _ action =>
      action == 0x4A && (firstValue params[0]? == 2 || firstValue params[0]? == 3)
  | .escDispatch intermediates _ byte => intermediates == [] && byte == 0x63
  | _ => false

/-- The backslash of a string terminator. -/
def isTerminator : Callback → Bool
  | .escDispatch intermediates _ byte => intermediates == [] && byte == 0x5C
  | _ => false

/-- The callback reports a dropped OSC string whose terminator is still to
come. -/
def owesTerminator : Callback → Bool
  | .oscDispatch params bell => isDropCode params.head? && !bell
  | _ => false

/-- Removes the dropped callbacks, and the string terminator right after a
dropped OSC string that a bell did not end. -/
def sanitizer : Transducer Bool Callback Callback where
  init := false
  advance owed cb :=
    (owesTerminator cb, if isDropClass cb || (owed && isTerminator cb) then [] else [cb])

@[simp] theorem sanitizer_advance (owed : Bool) (cb : Callback) :
    sanitizer.advance owed cb =
      (owesTerminator cb, if isDropClass cb || (owed && isTerminator cb) then [] else [cb]) :=
  rfl

/-- A callback of neither class passes, whatever came before it. -/
theorem outputs_kept (owed : Bool) {cb : Callback} (hdrop : isDropClass cb = false)
    (hterm : isTerminator cb = false) (cbs : List Callback) :
    sanitizer.outputs owed (cb :: cbs) = cb :: sanitizer.outputs (owesTerminator cb) cbs := by
  simp [Transducer.outputs_cons, hdrop, hterm]

/-- A dropped callback never passes. -/
theorem outputs_dropped (owed : Bool) {cb : Callback} (hdrop : isDropClass cb = true)
    (cbs : List Callback) :
    sanitizer.outputs owed (cb :: cbs) = sanitizer.outputs (owesTerminator cb) cbs := by
  simp [Transducer.outputs_cons, hdrop]

/-! ## Marked runs -/

/-- A front end with the marks of its past: every callback received so far, the
parser state in which the current span began and the one in which the last kept
span ended. -/
structure Trail where
  front : Front State
  callbacks : List Callback
  spanStart : State
  keptEnd : State

namespace Trail

def init : Trail := ⟨Front.init table, [], table.init, table.init⟩

/-- The verdict on the span when the byte is read. -/
def event (t : Trail) (b : UInt8) : SegEvent :=
  (t.front.sink.performAll (advance t.front.parser b).2).event

/-- The terminator of a dropped OSC string is the next thing to come. -/
def owed (t : Trail) : Bool := sanitizer.stateAfter false t.callbacks

/-- The pending bytes read the same from the end of the kept ones as they did
from the beginning of their own span. -/
def InStep (t : Trail) : Prop :=
  table.run t.keptEnd t.front.pending = table.run t.spanStart t.front.pending

instance (t : Trail) : Decidable t.InStep := inferInstanceAs (Decidable (_ = _))

/-- One byte: a span that ends moves the first mark, and the second one too when
the span is kept. -/
def advance (t : Trail) (b : UInt8) : Trail × List RingOp :=
  let step := Front.advance table t.front b
  let callbacks := t.callbacks ++ (Vte.advance t.front.parser b).2
  let parser := step.1.parser
  match t.event b with
  | .none => (⟨step.1, callbacks, t.spanStart, t.keptEnd⟩, step.2)
  | .keepByte | .keepSeq => (⟨step.1, callbacks, parser, parser⟩, step.2)
  | .dropSeq => (⟨step.1, callbacks, parser, t.keptEnd⟩, step.2)
  | .clearSeq => (⟨step.1, callbacks, parser, table.init⟩, step.2)

/-- The marked front end as a transducer from bytes to ring operations. -/
def machine : Transducer Trail UInt8 RingOp where
  init := init
  advance := advance

@[simp] theorem machine_init : machine.init = init := rfl

@[simp] theorem machine_advance (t : Trail) (b : UInt8) : machine.advance t b = advance t b := rfl

/-- The marks do not disturb the front end. -/
theorem advance_front (t : Trail) (b : UInt8) :
    (advance t b).1.front = (Front.advance table t.front b).1 ∧
      (advance t b).2 = (Front.advance table t.front b).2 ∧
      (advance t b).1.callbacks = t.callbacks ++ (Vte.advance t.front.parser b).2 := by
  unfold advance
  cases t.event b <;> exact ⟨rfl, rfl, rfl⟩

/-- The front end before the verdict on the byte is carried out. -/
def next (t : Trail) (b : UInt8) : Front State :=
  ⟨(Vte.advance t.front.parser b).1,
    { t.front.sink.performAll (Vte.advance t.front.parser b).2 with event := .none },
    t.front.pending ++ [b]⟩

/-- The callbacks received once the byte is read. -/
def received (t : Trail) (b : UInt8) : List Callback :=
  t.callbacks ++ (Vte.advance t.front.parser b).2

/-- A byte closes the span on the verdict that it brings. -/
theorem front_advance_next (t : Trail) (b : UInt8) :
    Front.advance table t.front b =
      ((t.next b).closeSpan (t.event b), (t.next b).opOf (t.event b)) :=
  rfl

/-- A byte without a verdict moves no mark. -/
theorem advance_silent {t : Trail} {b : UInt8} (h : t.event b = .none) :
    advance t b = (⟨t.next b, t.received b, t.spanStart, t.keptEnd⟩, []) := by
  simp only [advance, front_advance_next, h]
  rfl

/-- A kept span moves both marks. -/
theorem advance_keep {t : Trail} {b : UInt8} (h : t.event b = .keepByte ∨ t.event b = .keepSeq) :
    advance t b =
      (⟨{ t.next b with pending := [] }, t.received b, (t.next b).parser, (t.next b).parser⟩,
        [.keep (t.next b).pending (t.next b).sink.sticky.buildSerialized]) := by
  rcases h with h | h
  · simp only [advance, front_advance_next, h]
    rfl
  · simp only [advance, front_advance_next, h]
    rfl

/-- A dropped span moves the first mark alone. -/
theorem advance_drop {t : Trail} {b : UInt8} (h : t.event b = .dropSeq) :
    advance t b =
      (⟨{ t.next b with pending := [] }, t.received b, (t.next b).parser, t.keptEnd⟩, []) := by
  simp only [advance, front_advance_next, h]
  rfl

/-- A marked run is the run of its front end, and records the callbacks of its
parser. -/
theorem run_front (t : Trail) (bs : List UInt8) :
    (machine.stateAfter t bs).front = (Front.machine table).stateAfter t.front bs ∧
      machine.outputs t bs = (Front.machine table).outputs t.front bs ∧
      (machine.stateAfter t bs).callbacks = t.callbacks ++ table.outputs t.front.parser bs := by
  induction bs generalizing t with
  | nil => simp
  | cons b bs ih =>
      obtain ⟨hfront, hops, hcallbacks⟩ := advance_front t b
      obtain ⟨ihFront, ihOps, ihCallbacks⟩ := ih (advance t b).1
      rw [hfront] at ihFront ihOps ihCallbacks
      rw [Front.parser_advance, table_advance, hcallbacks, List.append_assoc] at ihCallbacks
      refine ⟨ihFront, ?_, ihCallbacks⟩
      rw [Transducer.outputs_cons, Transducer.outputs_cons, machine_advance, ihOps, hops]
      rfl

/-! ## Intact streams -/

/-- The verdict that the byte brings down does not speak for all callbacks of
its span:

* CAN or SUB ends a dropped OSC string, and its execution overwrites the
  verdict;
* a bell cuts a multibyte character short, and the replacement character falls
  with it;
* a backslash inherits the verdict of a dropped OSC string that it does not
  terminate;
* an escape sequence with intermediates is taken for a full reset. -/
def mislabels (t : Trail) (b : UInt8) : Bool :=
  match t.front.parser with
  | .oscString o => isCancel b && isDropCode o.dispatched.head?
  | .ground buffer => buffer != [] && b == 0x07
  | .escape => b == 0x5C && t.front.sink.stPending == some .dropSeq && !t.owed
  | .escapeIntermediate _ =>
      b == 0x63 || (b == 0x5C && t.front.sink.stPending == some .dropSeq)
  | _ => false

/-- The step does no harm: its verdict is right, and a span it keeps is in step
with the bytes kept before. -/
def Sound (t : Trail) (b : UInt8) : Prop :=
  t.mislabels b = false ∧ (t.event b = .keepByte ∨ t.event b = .keepSeq → t.InStep)

instance (t : Trail) (b : UInt8) : Decidable (t.Sound b) := inferInstanceAs (Decidable (_ ∧ _))

end Trail

/-- Every step of the stream is sound, and it does not end inside the body of a
DCS string. -/
def Intact (stream : List UInt8) : Prop :=
  Trail.machine.Along Trail.Sound Trail.init (translate 0 stream) ∧
    table.stateAfter table.init (translate 0 stream) ≠ .dcsPassthrough

instance (stream : List UInt8) : Decidable (Intact stream) := inferInstanceAs (Decidable (_ ∧ _))

/-! ## Verdicts and sanitized callbacks -/

/-- How a right verdict stands to the callbacks of its byte: a kept span keeps
them all, a dropped one makes dropped callbacks only, and a byte that closes no
span makes none outside the body of a DCS string. -/
inductive Accounts (owed : Bool) (s : State) (cbs : List Callback) : SegEvent → Prop where
  | silent (hcbs : cbs = []) : Accounts owed s cbs .none
  | body (hkept : sanitizer.outputs owed cbs = cbs) (hstate : s = .dcsPassthrough) :
      Accounts owed s cbs .none
  | keep {ev} (hev : ev = .keepByte ∨ ev = .keepSeq) (hkept : sanitizer.outputs owed cbs = cbs) :
      Accounts owed s cbs ev
  | drop (hdropped : sanitizer.outputs owed cbs = []) : Accounts owed s cbs .dropSeq

/-- The account of a callback list from a given performer. -/
abbrev AccountsFrom (sink : Sink) (owed : Bool) (step : State × List Callback) : Prop :=
  Accounts owed step.1 step.2 (sink.performAll step.2).event

section Steps

variable {sink : Sink} (owed : Bool)

private theorem accounts_nil (hev : sink.event = .none) (s : State) :
    AccountsFrom sink owed (s, []) := by
  change Accounts owed s [] sink.event
  rw [hev]
  exact .silent rfl

private theorem accounts_print (s : State) (c : Char) : AccountsFrom sink owed (s, [.print c]) :=
  .keep (Or.inl rfl) (outputs_kept owed rfl rfl [])

private theorem accounts_execute (s : State) (b : UInt8) :
    AccountsFrom sink owed (s, [.execute b]) := by
  change Accounts owed s _ (if b = 0x07 then .dropSeq else .keepSeq)
  split
  · rename_i hb
    exact .drop (outputs_dropped owed (by simp [isDropClass, hb]) [])
  · rename_i hb
    exact .keep (Or.inr rfl) (outputs_kept owed (by simp [isDropClass, hb]) rfl [])

/-- A byte other than a bell is executed after a callback that passes. -/
theorem accounts_then_execute (s : State) {cb : Callback} {b : UInt8}
    (hdrop : isDropClass cb = false) (hterm : isTerminator cb = false) (hb : b ≠ 0x07) :
    AccountsFrom sink owed (s, [cb, .execute b]) := by
  change Accounts owed s _ (if b = 0x07 then .dropSeq else .keepSeq)
  rw [if_neg hb]
  refine .keep (Or.inr rfl) ?_
  rw [outputs_kept owed hdrop hterm, outputs_kept _ (by simp [isDropClass, hb]) rfl]
  rfl

private theorem accounts_anywhere (hev : sink.event = .none) (s : State) (b : UInt8) :
    AccountsFrom sink owed (anywhere s b) := by
  unfold anywhere
  split
  · exact accounts_execute owed _ b
  · split
    · exact accounts_nil owed hev _
    · exact accounts_nil owed hev _

private theorem accounts_csi (s : Seq) (b : UInt8)
    (hclear : ∀ cb ∈ (csiDispatch s b).2, isClearClass cb = false) :
    AccountsFrom sink owed (csiDispatch s b) := by
  have hnot := hclear _ (List.mem_singleton_self _)
  change Accounts owed _ _ (sink.csiDispatch _ _ _).event
  rw [event_csi]
  split
  · rename_i hdrop
    refine .drop (outputs_dropped owed ?_ [])
    rcases hdrop with rfl | rfl <;> rfl
  · rename_i hkeep
    rw [not_or] at hkeep
    split
    · rename_i hpurge
      obtain ⟨rfl, hmode⟩ := hpurge
      rcases hmode with hmode | hmode <;> simp [isClearClass, hmode] at hnot
    · exact .keep (Or.inr rfl) (outputs_kept owed (by simp [isDropClass, hkeep]) rfl [])

private theorem accounts_hook (s : Seq) (b : UInt8) : AccountsFrom sink owed (hook s b) :=
  .body (outputs_kept owed rfl rfl []) rfl

private theorem accounts_csiStep (hev : sink.event = .none) {b : UInt8}
    {step : State × List Callback} (h : CsiStep b step)
    (hclear : ∀ cb ∈ step.2, isClearClass cb = false) : AccountsFrom sink owed step := by
  cases h with
  | collect s hs => exact accounts_nil owed hev s
  | execute s hs hc0 => exact accounts_execute owed s b
  | dispatch seq => exact accounts_csi owed seq b hclear
  | leave s hs => exact accounts_anywhere owed hev s b

private theorem accounts_dcsStep (hev : sink.event = .none) {b : UInt8}
    {step : State × List Callback} (h : DcsStep b step) : AccountsFrom sink owed step := by
  cases h with
  | collect s hs => exact accounts_nil owed hev s
  | announce seq => exact accounts_hook owed seq b
  | leave s hs => exact accounts_anywhere owed hev s b

private theorem accounts_groundFresh (hev : sink.event = .none) (b : UInt8) :
    AccountsFrom sink owed (advanceGroundFresh b) := by
  unfold advanceGroundFresh
  split
  · exact accounts_nil owed hev _
  · split
    · exact accounts_execute owed _ b
    · split
      · exact accounts_print owed _ _
      · split
        · exact accounts_nil owed hev _
        · split
          · exact accounts_execute owed _ b
          · exact accounts_print owed _ _

/-- A short character is replaced before the byte itself is read, and only a
bell makes its verdict fall on both. -/
theorem accounts_replaced {b : UInt8} (hbell : b ≠ 0x07) :
    AccountsFrom sink owed
      ((advanceGroundFresh b).1, .print replacement :: (advanceGroundFresh b).2) := by
  unfold advanceGroundFresh
  split
  · exact accounts_print owed _ _
  · split
    · exact accounts_then_execute owed _ rfl rfl hbell
    · split
      · exact .keep (Or.inl rfl) (by rw [outputs_kept owed rfl rfl, outputs_kept _ rfl rfl]; rfl)
      · split
        · exact accounts_print owed _ _
        · split
          · exact accounts_then_execute owed _ rfl rfl hbell
          · exact .keep (Or.inl rfl) (by rw [outputs_kept owed rfl rfl, outputs_kept _ rfl rfl]; rfl)

private theorem accounts_ground (hev : sink.event = .none) (buffer : List UInt8) {b : UInt8}
    (hok : (buffer != [] && b == 0x07) = false) : AccountsFrom sink owed (advanceGround buffer b) := by
  unfold advanceGround
  split
  · exact accounts_groundFresh owed hev b
  · rename_i hne
    split
    · split
      · exact accounts_print owed _ _
      · exact accounts_nil owed hev _
    · have hbell : b ≠ 0x07 := by
        rintro rfl
        simp [hne] at hok
      exact accounts_replaced owed hbell

/-- An escape sequence is accounted for when a backslash that inherits a dropped
OSC string's verdict is that string's terminator. -/
theorem accounts_esc (hst : StPendingOk sink.stPending)
    (howed : owed = true → sink.stPending = some .dropSeq) {intermediates : List UInt8}
    (ignore : Bool) {b : UInt8} (hreset : b ≠ 0x63)
    (hterm : b = 0x5C → sink.stPending = some .dropSeq → owed = true ∧ intermediates = []) :
    AccountsFrom sink owed (.ground [], [.escDispatch intermediates ignore b]) := by
  change Accounts owed _ _ (sink.escDispatch b).event
  by_cases hb : b = 0x5C
  · subst hb
    have hfree : sink.stPending ≠ some .dropSeq →
        sanitizer.outputs owed [.escDispatch intermediates ignore 0x5C] =
          [.escDispatch intermediates ignore 0x5C] := by
      intro hne
      have hfalse : owed = false := by
        cases owed with
        | false => rfl
        | true => exact absurd (howed rfl) hne
      simp [hfalse, isDropClass]
    rcases hst with hnone | hkeep | hdrop
    · have hev : (sink.escDispatch 0x5C).event = .keepSeq := by simp [Sink.escDispatch, hnone]
      rw [hev]
      exact .keep (Or.inr rfl) (hfree (by simp [hnone]))
    · have hev : (sink.escDispatch 0x5C).event = .keepSeq := by simp [Sink.escDispatch, hkeep]
      rw [hev]
      exact .keep (Or.inr rfl) (hfree (by simp [hkeep]))
    · have hev : (sink.escDispatch 0x5C).event = .dropSeq := by simp [Sink.escDispatch, hdrop]
      obtain ⟨rfl, rfl⟩ := hterm rfl hdrop
      rw [hev]
      exact .drop rfl
  · have hev : (sink.escDispatch b).event = .keepSeq := by
      simp [Sink.escDispatch, hb, hreset]
    rw [hev]
    exact .keep (Or.inr rfl) (outputs_kept owed rfl (by simp [isTerminator, hb]) [])

private theorem accounts_escape (hev : sink.event = .none) (hst : StPendingOk sink.stPending)
    (howed : owed = true → sink.stPending = some .dropSeq) {b : UInt8}
    (hclear : ∀ cb ∈ (advanceEscape b).2, isClearClass cb = false)
    (hterm : b = 0x5C → sink.stPending = some .dropSeq → owed = true) :
    AccountsFrom sink owed (advanceEscape b) := by
  unfold advanceEscape at hclear ⊢
  split
  · exact accounts_execute owed _ b
  · split
    · exact accounts_nil owed hev _
    · split
      · exact accounts_nil owed hev _
      · split
        · exact accounts_nil owed hev _
        · split
          · exact accounts_nil owed hev _
          · split
            · exact accounts_nil owed hev _
            · split
              · refine accounts_esc owed hst howed false ?_ fun hb hdrop => ⟨hterm hb hdrop, rfl⟩
                rintro rfl
                simp [isC0, isIntermediate, isClearClass] at hclear
              · split
                · exact accounts_execute owed _ b
                · exact accounts_nil owed hev _

private theorem accounts_dcsPassthrough (hev : sink.event = .none) (b : UInt8) :
    AccountsFrom sink owed (advanceDcsPassthrough b) := by
  unfold advanceDcsPassthrough
  split
  · exact .body (outputs_kept owed rfl rfl []) rfl
  · split
    · rename_i hcan
      have hb : b ≠ 0x07 := by
        rintro rfl
        simp [isCancel] at hcan
      exact accounts_then_execute owed _ rfl rfl hb
    · split
      · exact .keep (Or.inr rfl) (outputs_kept owed rfl rfl [])
      · split
        · exact .keep (Or.inr rfl) (outputs_kept owed rfl rfl [])
        · exact accounts_nil owed hev _

/-- An OSC string that is dispatched alone has the verdict of its code. -/
theorem accounts_osc (s : State) (o : Osc) (bell : Bool) :
    AccountsFrom sink owed (s, [.oscDispatch o.dispatched bell]) := by
  change Accounts owed s _ (sink.oscDispatch o.dispatched).event
  rw [(event_oscDispatch sink o.dispatched).1]
  split
  · rename_i hcode
    refine .drop (outputs_dropped owed ?_ [])
    exact hcode
  · rename_i hcode
    exact .keep (Or.inr rfl) (outputs_kept owed (by simpa [isDropClass] using hcode) rfl [])

private theorem accounts_oscString (hev : sink.event = .none) (o : Osc) {b : UInt8}
    (hok : (isCancel b && isDropCode o.dispatched.head?) = false) :
    AccountsFrom sink owed (advanceOscString o b) := by
  unfold advanceOscString
  split
  · exact accounts_osc owed _ o true
  · rename_i hb
    split
    · exact accounts_nil owed hev _
    · split
      · rename_i hcan
        have hcode : isDropCode o.dispatched.head? = false := by simpa [hcan] using hok
        exact accounts_then_execute owed _ hcode rfl hb
      · split
        · exact accounts_osc owed _ o false
        · split
          · exact accounts_nil owed hev _
          · exact accounts_nil owed hev _

end Steps

/-- A byte whose verdict is right, and which completes no clear, accounts for its
callbacks. -/
theorem accounts_advance {t : Trail} {b : UInt8} (hev : t.front.sink.event = .none)
    (hst : StPendingOk t.front.sink.stPending)
    (howed : t.owed = true → t.front.sink.stPending = some .dropSeq)
    (hclear : ∀ cb ∈ (advance t.front.parser b).2, isClearClass cb = false)
    (hok : t.mislabels b = false) :
    AccountsFrom t.front.sink t.owed (advance t.front.parser b) := by
  unfold Trail.mislabels at hok
  cases hparser : t.front.parser with
  | ground buffer =>
      rw [hparser] at hok
      exact accounts_ground t.owed hev buffer hok
  | escape =>
      rw [hparser] at hok hclear
      refine accounts_escape t.owed hev hst howed hclear ?_
      intro hb hdrop
      simpa [hb, hdrop] using hok
  | escapeIntermediate seq =>
      rw [hparser] at hok
      simp only [advance, advanceEscapeIntermediate]
      split
      · exact accounts_execute t.owed _ b
      · split
        · exact accounts_nil t.owed hev _
        · split
          · refine accounts_esc t.owed hst howed _ ?_ ?_
            · rintro rfl
              simp at hok
            · intro hb hdrop
              simp [hb, hdrop] at hok
          · exact accounts_anywhere t.owed hev _ b
  | csiEntry =>
      rw [hparser] at hclear
      exact accounts_csiStep t.owed hev (csiStep_entry b) hclear
  | csiParam seq =>
      rw [hparser] at hclear
      exact accounts_csiStep t.owed hev (csiStep_param seq b) hclear
  | csiIntermediate seq =>
      rw [hparser] at hclear
      exact accounts_csiStep t.owed hev (csiStep_intermediate seq b) hclear
  | csiIgnore =>
      rw [hparser] at hclear
      exact accounts_csiStep t.owed hev (csiStep_ignore b) hclear
  | dcsEntry => exact accounts_dcsStep t.owed hev (dcsStep_entry b)
  | dcsParam seq => exact accounts_dcsStep t.owed hev (dcsStep_param seq b)
  | dcsIntermediate seq => exact accounts_dcsStep t.owed hev (dcsStep_intermediate seq b)
  | dcsIgnore => exact accounts_anywhere t.owed hev _ b
  | dcsPassthrough => exact accounts_dcsPassthrough t.owed hev b
  | oscString o =>
      rw [hparser] at hok
      exact accounts_oscString t.owed hev o hok
  | sosPmApcString => exact accounts_anywhere t.owed hev _ b

/-- Inside the body of a DCS string no span is dropped, and a byte that closes
no span stays there. -/
theorem passthrough_advance {sink : Sink} (hev : sink.event = .none) (b : UInt8) :
    let step := advance .dcsPassthrough b
    ((sink.performAll step.2).event = .none → step.1 = .dcsPassthrough) ∧
      (sink.performAll step.2).event ≠ .dropSeq := by
  simp only [advance, advanceDcsPassthrough]
  split
  · exact ⟨fun _ => rfl, by simp [Sink.performAll, Sink.perform, Sink.put]⟩
  · split
    · rename_i hcan
      have hb : b ≠ 0x07 := by
        rintro rfl
        simp [isCancel] at hcan
      simp [Sink.performAll, Sink.perform, Sink.execute, Sink.unhook, hb]
    · split
      · simp [Sink.performAll, Sink.perform, Sink.unhook]
      · split
        · simp [Sink.performAll, Sink.perform, Sink.unhook]
        · exact ⟨fun _ => rfl, by simp [Sink.performAll, hev]⟩

/-- A terminator is owed only by a dropped OSC string. -/
theorem owed_performAll {sink : Sink} {owed : Bool} (cbs : List Callback)
    (howed : owed = true → sink.stPending = some .dropSeq)
    (h : sanitizer.stateAfter owed cbs = true) :
    (sink.performAll cbs).stPending = some .dropSeq := by
  induction cbs generalizing sink owed with
  | nil => exact howed h
  | cons cb cbs ih =>
      refine ih (fun hnext => ?_) h
      cases cb with
      | oscDispatch params bell =>
          obtain ⟨hosc, hst⟩ := event_oscDispatch sink params
          have hcode : isDropCode params.head? = true := by
            simp [owesTerminator] at hnext
            exact hnext.1
          rw [hosc, if_pos hcode] at hst
          exact hst
      | _ => exact absurd hnext (by simp [owesTerminator])

/-! ## The invariant -/

/-- How a run whose steps are all sound stands to its ring: a cold parser ends
the replay where the last kept span ended, and has made the sanitized callbacks
of the run but for those of the current span. -/
structure Preserved (t : Trail) (r : ChunkRing) : Prop where
  event : t.front.sink.event = .none
  stPending : StPendingOk t.front.sink.stPending
  owed : t.owed = true → t.front.sink.stPending = some .dropSeq
  span : table.stateAfter t.spanStart t.front.pending = t.front.parser
  body : table.outputs t.spanStart t.front.pending = [] ∨ t.front.parser = .dcsPassthrough
  state : table.stateAfter table.init r.full = t.keptEnd
  callbacks : table.outputs table.init r.full ++ table.outputs t.spanStart t.front.pending =
    sanitizer.outputs false t.callbacks

/-- Nothing has been lost at the start. -/
theorem preserved_init (watermark : Nat) : Preserved Trail.init (ChunkRing.new watermark) where
  event := rfl
  stPending := Or.inl rfl
  owed := by simp [Trail.owed, Trail.init]
  span := rfl
  body := Or.inl rfl
  state := rfl
  callbacks := rfl

/-- The sanitized callbacks once the byte is read. -/
theorem outputs_received {t : Trail} {r : ChunkRing} (h : Preserved t r) (b : UInt8) :
    sanitizer.outputs false (t.received b) =
      table.outputs table.init r.full ++ table.outputs t.spanStart t.front.pending ++
        sanitizer.outputs t.owed (advance t.front.parser b).2 := by
  rw [Trail.received, Transducer.outputs_append, h.callbacks]
  rfl

/-- The current span with the byte at its end. -/
theorem run_span {t : Trail} {r : ChunkRing} (h : Preserved t r) (b : UInt8) :
    table.stateAfter t.spanStart (t.next b).pending = (t.next b).parser ∧
      table.outputs t.spanStart (t.next b).pending =
        table.outputs t.spanStart t.front.pending ++ (advance t.front.parser b).2 := by
  simp only [Trail.next]
  rw [Transducer.stateAfter_append, Transducer.outputs_append, h.span]
  simp

/-- A byte that closes no span. -/
theorem preserved_silent {t : Trail} {r : ChunkRing} {b : UInt8} (h : Preserved t r)
    (hst : StPendingOk (t.next b).sink.stPending)
    (howed : sanitizer.stateAfter false (t.received b) = true →
      (t.next b).sink.stPending = some .dropSeq)
    (hkept : sanitizer.outputs t.owed (advance t.front.parser b).2 = (advance t.front.parser b).2)
    (hbody : (advance t.front.parser b).2 = [] ∧ t.event b = .none ∨
      (t.next b).parser = .dcsPassthrough) :
    Preserved ⟨t.next b, t.received b, t.spanStart, t.keptEnd⟩ r := by
  obtain ⟨hspan, houts⟩ := run_span h b
  refine ⟨rfl, hst, howed, hspan, ?_, h.state, ?_⟩
  · rcases hbody with ⟨hcbs, hevent⟩ | hdcs
    · rcases h.body with hnil | hdcs
      · exact Or.inl (by rw [houts, hnil, hcbs]; rfl)
      · have hstay := (passthrough_advance h.event b).1
        rw [← hdcs] at hstay
        exact Or.inr ((hstay hevent).trans hdcs)
    · exact Or.inr hdcs
  · rw [houts, outputs_received h, hkept, List.append_assoc]

/-- A byte that keeps its span, read in step. -/
theorem preserved_keep {t : Trail} {r : ChunkRing} {b : UInt8} (h : Preserved t r)
    (hst : StPendingOk (t.next b).sink.stPending)
    (howed : sanitizer.stateAfter false (t.received b) = true →
      (t.next b).sink.stPending = some .dropSeq)
    (hkept : sanitizer.outputs t.owed (advance t.front.parser b).2 = (advance t.front.parser b).2)
    (hinstep : t.InStep) (prologue : List UInt8) :
    Preserved ⟨{ t.next b with pending := [] }, t.received b, (t.next b).parser,
        (t.next b).parser⟩ (r.apply (.keep (t.next b).pending prologue)) := by
  obtain ⟨hspan, houts⟩ := run_span h b
  have hcold : table.run t.keptEnd (t.next b).pending = table.run t.spanStart (t.next b).pending :=
    table.run_append_congr hinstep [b]
  have hcoldState : table.stateAfter t.keptEnd (t.next b).pending = (t.next b).parser :=
    (congrArg Prod.fst hcold).trans hspan
  have hcoldOuts : table.outputs t.keptEnd (t.next b).pending =
      table.outputs t.spanStart (t.next b).pending := congrArg Prod.snd hcold
  refine ⟨rfl, hst, howed, rfl, Or.inl rfl, ?_, ?_⟩
  · rw [ChunkRing.full_keep, Transducer.stateAfter_append, h.state, hcoldState]
  · rw [ChunkRing.full_keep, Transducer.outputs_append, h.state, hcoldOuts, houts,
      outputs_received h, hkept, Transducer.outputs_nil, List.append_nil, List.append_assoc]

/-- A byte that drops its span. -/
theorem preserved_drop {t : Trail} {r : ChunkRing} {b : UInt8} (h : Preserved t r)
    (hst : StPendingOk (t.next b).sink.stPending)
    (howed : sanitizer.stateAfter false (t.received b) = true →
      (t.next b).sink.stPending = some .dropSeq)
    (hdropped : sanitizer.outputs t.owed (advance t.front.parser b).2 = [])
    (hevent : t.event b = .dropSeq) :
    Preserved ⟨{ t.next b with pending := [] }, t.received b, (t.next b).parser, t.keptEnd⟩ r := by
  have hnil : table.outputs t.spanStart t.front.pending = [] := by
    rcases h.body with hnil | hdcs
    · exact hnil
    · have hnodrop := (passthrough_advance h.event b).2
      rw [← hdcs] at hnodrop
      exact absurd hevent hnodrop
  refine ⟨rfl, hst, howed, rfl, Or.inl rfl, h.state, ?_⟩
  rw [outputs_received h, hnil, hdropped, List.append_nil, Transducer.outputs_nil]

/-- A sound step that completes no clear keeps the invariant. -/
theorem preserved_step {t : Trail} {r : ChunkRing} {b : UInt8} (h : Preserved t r)
    (hclear : ∀ cb ∈ (advance t.front.parser b).2, isClearClass cb = false) (hok : t.Sound b) :
    Preserved (Trail.advance t b).1 (r.applyAll (Trail.advance t b).2) := by
  obtain ⟨hlabel, hstep⟩ := hok
  have haccounts : Accounts t.owed (t.next b).parser (advance t.front.parser b).2 (t.event b) :=
    accounts_advance h.event h.stPending h.owed hclear hlabel
  have hst : StPendingOk (t.next b).sink.stPending :=
    stPendingOk_performAll h.stPending (advance t.front.parser b).2
  have howed : sanitizer.stateAfter false (t.received b) = true →
      (t.next b).sink.stPending = some .dropSeq := by
    rw [Trail.received, Transducer.stateAfter_append]
    exact owed_performAll _ h.owed
  generalize hevent : t.event b = ev at haccounts
  cases haccounts with
  | silent hcbs =>
      rw [Trail.advance_silent hevent]
      exact preserved_silent h hst howed (by rw [hcbs]; rfl) (Or.inl ⟨hcbs, hevent⟩)
  | body hkept hdcs =>
      rw [Trail.advance_silent hevent]
      exact preserved_silent h hst howed hkept (Or.inr hdcs)
  | keep hev hkept =>
      have hkeep : t.event b = .keepByte ∨ t.event b = .keepSeq := by
        rwa [hevent]
      rw [Trail.advance_keep hkeep]
      exact preserved_keep h hst howed hkept (hstep hkeep) _
  | drop hdropped =>
      rw [Trail.advance_drop hevent]
      exact preserved_drop h hst howed hdropped hevent

/-- A run whose steps are all sound and complete no clear keeps the
invariant. -/
theorem preserved_run (watermark : Nat) {bs : List UInt8}
    (hclear : ∀ cb ∈ table.outputs table.init bs, isClearClass cb = false)
    (h : Trail.machine.Along Trail.Sound Trail.init bs) :
    Preserved (Trail.machine.stateAfter Trail.init bs)
      ((ChunkRing.new watermark).applyAll (Trail.machine.outputs Trail.init bs)) := by
  have hrun := Transducer.along_induct Trail.machine ChunkRing.applyAll
    (motive := fun t r => (∀ cb ∈ t.callbacks, isClearClass cb = false) → Preserved t r)
    ChunkRing.applyAll_nil ChunkRing.applyAll_append ?_ (fun _ => preserved_init watermark) h
  · apply hrun
    rw [(Trail.run_front Trail.init bs).2.2]
    exact hclear
  · intro t r b ht hok hall
    rw [Trail.machine_advance] at hall ⊢
    rw [(Trail.advance_front t b).2.2] at hall
    have hbefore := ht fun cb hcb => hall cb (List.mem_append_left _ hcb)
    exact preserved_step hbefore (fun cb hcb => hall cb (List.mem_append_right _ hcb)) hok

/-! ## Main results -/

/-- For every stream, in any number of feed calls and for every watermark: when
no callback is a clear and every step is sound, a cold parser makes over the
full replay exactly the session's callbacks without the dropped ones. -/
theorem replay_preserves_of_intact (watermark wantChunks : Nat) (feeds : List (List UInt8))
    (hcap : (Scanner.feedAll table (Scanner.new table watermark) feeds).ring.chunks.length ≤
      wantChunks)
    (hclear : ∀ cb ∈ table.outputs table.init (translate 0 feeds.flatten),
      isClearClass cb = false)
    (h : Intact feeds.flatten) :
    table.outputs table.init
        ((Scanner.feedAll table (Scanner.new table watermark) feeds).replay wantChunks) =
      sanitizer.outputs false (table.outputs table.init (translate 0 feeds.flatten)) := by
  obtain ⟨hsound, hbody⟩ := h
  have hrun := preserved_run watermark hclear hsound
  obtain ⟨hfront, hops, hcallbacks⟩ := Trail.run_front Trail.init (translate 0 feeds.flatten)
  have hopen := hrun.body
  have hmade := hrun.callbacks
  rw [hfront, (front_stateAfter _ _).1] at hopen
  rw [hops, hcallbacks] at hmade
  rw [Scanner.feedAll_eq_feed] at hcap ⊢
  rw [Scanner.replay, ChunkRing.replay_of_length_le _ hcap, Scanner.ring_feed]
  have hnil := hopen.resolve_right hbody
  rw [hfront, hnil, List.append_nil] at hmade
  exact hmade

/-- A bell, a clipboard write ended by ST, a rendition with a line feed inside
and a status query between two characters, cut into several chunks: every step
is sound, and nothing but the dropped callbacks is missing. -/
theorem replay_preserves_line_feed :
    table.outputs table.init ((Scanner.feedAll table (Scanner.new table 2)
        [[0x41, 0x07, 0x1B, 0x5D, 0x35, 0x32, 0x3B, 0x63, 0x1B],
          [0x5C, 0x1B, 0x5B, 0x0A, 0x33, 0x31, 0x6D, 0x1B, 0x5B, 0x36, 0x6E, 0x42]]).replay 8) =
      sanitizer.outputs false (table.outputs table.init (translate 0
        [0x41, 0x07, 0x1B, 0x5D, 0x35, 0x32, 0x3B, 0x63, 0x1B, 0x5C, 0x1B, 0x5B, 0x0A, 0x33, 0x31,
          0x6D, 0x1B, 0x5B, 0x36, 0x6E, 0x42])) :=
  replay_preserves_of_intact 2 8
    [[0x41, 0x07, 0x1B, 0x5D, 0x35, 0x32, 0x3B, 0x63, 0x1B],
      [0x5C, 0x1B, 0x5B, 0x0A, 0x33, 0x31, 0x6D, 0x1B, 0x5B, 0x36, 0x6E, 0x42]]
    (by decide +kernel) (by decide +kernel) (by decide +kernel)

/-- The ESC that ends a clipboard write also begins a rendition: it is dropped
with the clipboard write, and the rest of the rendition is printed. -/
theorem replay_loses_rendition :
    ¬ ∀ (watermark wantChunks : Nat) (feeds : List (List UInt8)),
      (Scanner.feedAll table (Scanner.new table watermark) feeds).ring.chunks.length ≤
        wantChunks →
      (∀ cb ∈ table.outputs table.init (translate 0 feeds.flatten), isClearClass cb = false) →
      table.outputs table.init
          ((Scanner.feedAll table (Scanner.new table watermark) feeds).replay wantChunks) =
        sanitizer.outputs false (table.outputs table.init (translate 0 feeds.flatten)) := by
  intro h
  have hloss := h 131072 1
    [[0x1B, 0x5D, 0x35, 0x32, 0x3B, 0x63, 0x3B, 0x78, 0x1B, 0x5B, 0x33, 0x31, 0x6D]]
    (by decide +kernel) (by decide +kernel)
  exact absurd hloss (by decide +kernel)

end JftermMuxer.Core
