import JftermMuxer.Vte.Items
import Mathlib.Data.List.TakeWhile

/-!
# Window title and working directory

A terminal that takes its title from OSC 0 and OSC 2 and its working directory from
OSC 7 reads the whole payload of such a string: everything after the first semicolon
is text.  The fields of the parser do not keep the payload, so the terminal here
reads bytes: it runs the parser and collects the payload beside it.

Main results:

- Definition {lit}`labels`: title and directory of a cold terminal after a stream.
- Theorem {lit}`labels_append_item`: a terminal at rest takes the payload of an item.
- Theorem {lit}`second_oscFields`: the second field of a payload is its text up to the
  next semicolon.
-/

namespace JftermMuxer.Vte

open Foundation

/-! ## Reading payloads -/

def State.isOsc : State → Bool
  | .oscString _ => true
  | .ground _ | .escape | .escapeIntermediate _ | .csiEntry | .csiParam _ | .csiIntermediate _
  | .csiIgnore | .dcsEntry | .dcsParam _ | .dcsIntermediate _ | .dcsIgnore | .dcsPassthrough
  | .sosPmApcString => false

def Callback.isOsc : Callback → Bool
  | .oscDispatch _ _ => true
  | .print _ | .execute _ | .hook _ _ _ _ | .put _ | .unhook | .csiDispatch _ _ _ _
  | .escDispatch _ _ _ => false

/-- The parser, and what it has read of the OSC string it is in. -/
@[ext] structure OscReader where
  parser : State
  payload : List UInt8

/-- Reads bytes and reports the payload of every OSC string at its end; controls
inside a string do not belong to it. -/
def oscReader : Transducer OscReader UInt8 (List UInt8) where
  init := ⟨.ground [], []⟩
  advance := fun r b =>
    let step := advance r.parser b
    (⟨step.1,
        if r.parser.isOsc && step.1.isOsc then
          if isC0 b then r.payload else r.payload ++ [b]
        else []⟩,
      if step.2.any Callback.isOsc then [r.payload] else [])

/-- The reader of strings runs the parser beside it. -/
theorem parser_oscReader (r : OscReader) (w : List UInt8) :
    (oscReader.stateAfter r w).parser = table.stateAfter r.parser w := by
  induction w generalizing r with
  | nil => rfl
  | cons b w ih => exact ih _

/-- Outside of OSC strings nothing is held. -/
theorem payload_oscReader {r : OscReader} (h : r.parser.isOsc = false → r.payload = [])
    (w : List UInt8) :
    (oscReader.stateAfter r w).parser.isOsc = false → (oscReader.stateAfter r w).payload = [] := by
  apply oscReader.run_induct (motive := fun r => r.parser.isOsc = false → r.payload = []) _ h
  intro s b _ hout
  have hleft : (advance s.parser b).1.isOsc = false := hout
  simp [oscReader, hleft]

/-- A word that dispatches no OSC string reports nothing. -/
theorem oscReader_outputs (r : OscReader) {w : List UInt8}
    (h : ∀ cb ∈ table.outputs r.parser w, cb.isOsc = false) : oscReader.outputs r w = [] := by
  induction w generalizing r with
  | nil => rfl
  | cons b w ih =>
      rw [Transducer.outputs_cons] at h
      have hfirst : (advance r.parser b).2.any Callback.isOsc = false := by
        rw [List.any_eq_false]
        intro cb hcb
        rw [h cb (List.mem_append_left _ hcb)]
        exact Bool.false_ne_true
      have hstep : (oscReader.advance r b).2 = [] := by
        simp only [oscReader, hfirst]
        rfl
      rw [Transducer.outputs_cons, hstep, List.nil_append]
      exact ih (oscReader.advance r b).1 fun cb hcb => h cb (List.mem_append_right _ hcb)

/-- A run of the parser without an OSC string. -/
theorem oscReader_run {p q : State} {w : List UInt8} {cbs : List Callback}
    (hrun : table.run p w = (q, cbs)) (hcbs : ∀ cb ∈ cbs, cb.isOsc = false) (hq : q.isOsc = false) :
    oscReader.run ⟨p, []⟩ w = (⟨q, []⟩, []) := by
  have hparser : (oscReader.stateAfter ⟨p, []⟩ w).parser = q := by
    rw [parser_oscReader, Transducer.stateAfter, hrun]
  have hpayload := payload_oscReader (r := ⟨p, []⟩) (fun _ => rfl) w
  rw [hparser] at hpayload
  have hout := oscReader_outputs ⟨p, []⟩ (w := w) (by rw [Transducer.outputs, hrun]; exact hcbs)
  have hstate : oscReader.stateAfter ⟨p, []⟩ w = ⟨q, []⟩ := by
    ext1
    · exact hparser
    · exact hpayload hq
  exact Prod.ext hstate hout

/-- An OSC string up to its end is collected. -/
theorem oscReader_osc {payload : List UInt8} (h : ∀ b ∈ payload, 0x20 ≤ b) :
    ∃ o, oscReader.run oscReader.init ([0x1B, 0x5D] ++ payload) = (⟨.oscString o, payload⟩, []) := by
  have hcollect : ∀ (o : Osc) (read : List UInt8), ∃ o',
      oscReader.run ⟨.oscString o, read⟩ payload = (⟨.oscString o', read ++ payload⟩, []) := by
    intro o read
    induction payload generalizing o read with
    | nil => exact ⟨o, by simp⟩
    | cons b payload ih =>
        have hb : ∀ x ∈ [b], 0x20 ≤ x := by simpa using h b List.mem_cons_self
        have hstep := run_oscString o hb
        rw [Transducer.run_cons, table_advance, Transducer.run_nil] at hstep
        obtain ⟨hfeed, hquiet⟩ := Prod.mk.inj hstep
        have hstate : (advance (.oscString o) b).1 = .oscString (o.feed b) := hfeed
        have hnone : (advance (.oscString o) b).2 = [] := by simpa using hquiet
        have hc0 : isC0 b = false := by
          have hb := h b (by simp)
          unfold isC0
          grind
        have hadvance : oscReader.advance ⟨.oscString o, read⟩ b =
            (⟨.oscString (o.feed b), read ++ [b]⟩, []) := by
          simp only [oscReader, hstate, hnone, hc0]
          rfl
        obtain ⟨o', hrun⟩ := ih (fun x hx => h x (List.mem_cons_of_mem b hx)) (o.feed b) (read ++ [b])
        refine ⟨o', ?_⟩
        rw [Transducer.run_cons, hadvance, hrun]
        simp
  obtain ⟨o, hrun⟩ := hcollect Osc.reset []
  have hintro : oscReader.run oscReader.init [0x1B, 0x5D] = (⟨.oscString Osc.reset, []⟩, []) := rfl
  refine ⟨o, ?_⟩
  rw [Transducer.run_append, hintro, hrun]
  rfl

/-- A string that a BEL ends is read whole. -/
theorem oscReader_bel {payload : List UInt8} (h : ∀ b ∈ payload, 0x20 ≤ b) :
    oscReader.run oscReader.init ([0x1B, 0x5D] ++ payload ++ [0x07]) =
      (oscReader.init, [payload]) := by
  obtain ⟨o, hrun⟩ := oscReader_osc h
  rw [Transducer.run_append, hrun]
  rfl

/-- The payload of an item, when it is an OSC string. -/
def Item.payloads : Item → List (List UInt8)
  | .osc payload _ _ _ => [payload]
  | .char _ _ _ | .control _ _ _ | .esc _ _ _ _ | .csi _ _ _ _ _ _ _ _ | .dcs _ _ _ _ _ _ => []

/-- The reader reports an item at its closing byte. -/
theorem oscReader_closing (i : Item) :
    oscReader.run oscReader.init (i.body ++ [i.closing]) = (⟨i.closed, []⟩, i.payloads) := by
  have hquiet : ∀ cb, isQuiet cb = true → cb.isOsc = false := by
    intro cb h
    cases cb with
    | hook _ _ _ _ | put _ => rfl
    | print _ | execute _ | unhook | oscDispatch _ _ | csiDispatch _ _ _ _ | escDispatch _ _ _ =>
        cases h
  have hclosed : i.closed.isOsc = false := by
    unfold Item.closed
    split
    · rfl
    · rfl
  have hother : i.callback.isOsc = false → i.payloads = [] →
      oscReader.run oscReader.init (i.body ++ [i.closing]) = (⟨i.closed, []⟩, i.payloads) := by
    intro hcallback hpayloads
    obtain ⟨q, quiet, hbody, hall, hclosing⟩ := i.run_body
    have hrun : table.run (.ground []) (i.body ++ [i.closing]) = (i.closed, quiet ++ [i.callback]) := by
      rw [Transducer.run_append, hbody, Transducer.run_cons, table_advance, hclosing]
      rfl
    rw [hpayloads]
    refine oscReader_run hrun ?_ hclosed
    intro cb hcb
    rcases List.mem_append.mp hcb with hcb | hcb
    · exact hquiet cb (hall cb hcb)
    · rw [List.mem_singleton.mp hcb]
      exact hcallback
  cases i with
  | osc payload terminator text plain =>
      cases terminator with
      | bel => exact oscReader_bel fun b hb => (plain b hb).1
      | st =>
          obtain ⟨o, hbody⟩ := oscReader_osc fun b hb => (plain b hb).1
          rw [Item.body, Transducer.run_append, hbody]
          rfl
  | char _ _ _ | control _ _ _ | esc _ _ _ _ | csi _ _ _ _ _ _ _ _ | dcs _ _ _ _ _ _ =>
      exact hother rfl rfl

/-- The backslash of an ST reports nothing. -/
theorem oscReader_tail (i : Item) :
    oscReader.run ⟨i.closed, []⟩ i.tail = (oscReader.init, []) := by
  refine oscReader_run i.run_tail ?_ rfl
  intro cb hcb
  unfold Item.tailCallbacks at hcb
  split at hcb
  · rw [List.mem_singleton.mp hcb]
    rfl
  · cases hcb

/-- The reader crosses an item from rest to rest. -/
theorem oscReader_item (i : Item) :
    oscReader.run oscReader.init i.bytes = (oscReader.init, i.payloads) := by
  rw [i.bytes_eq, Transducer.run_append, oscReader_closing, oscReader_tail, List.append_nil]

/-- Of a stream the reader finds the strings of its items. -/
theorem oscReader_stream (items : List Item) :
    oscReader.run oscReader.init (Item.stream items) =
      (oscReader.init, (items.map Item.payloads).flatten) := by
  induction items with
  | nil => rfl
  | cons i items ih =>
      rw [Item.stream_cons, Transducer.run_append, oscReader_item, ih]
      rfl

/-! ## The text of a payload -/

/-- Everything after the first semicolon of a payload. -/
def oscText (payload : List UInt8) : Option (List UInt8) := (payload.dropWhile (· ≠ 0x3B)).tail?

/-- The parser hands the text over up to its next semicolon. -/
theorem second_oscFields (payload : List UInt8) :
    (oscFields payload)[1]? = (oscText payload).map fun text => text.takeWhile (· ≠ 0x3B) := by
  have hsplit := List.takeWhile_append_dropWhile (p := (· ≠ 0x3B)) (l := payload)
  have hcode : 0x3B ∉ payload.takeWhile (· ≠ 0x3B) := by
    intro hmem
    simpa using List.mem_takeWhile_imp hmem
  have hfields : oscFields payload =
      ((payload.dropWhile (· ≠ 0x3B)).foldl Osc.feed ⟨[], payload.takeWhile (· ≠ 0x3B)⟩).dispatched := by
    have hfirst := foldl_feed_plain Osc.reset hcode
    rw [oscFields]
    nth_rewrite 1 [← hsplit]
    rw [List.foldl_append, hfirst]
    rfl
  rw [hfields, oscText]
  cases hrest : payload.dropWhile (· ≠ 0x3B) with
  | nil => rfl
  | cons b text =>
      have hb : b = 0x3B := by
        have hhead := List.head?_dropWhile_not (· ≠ 0x3B) payload
        rw [hrest] at hhead
        simpa using hhead
      have hfeed : (⟨[], payload.takeWhile (· ≠ 0x3B)⟩ : Osc).feed b =
          ⟨[payload.takeWhile (· ≠ 0x3B)], []⟩ := by
        rw [hb]
        rfl
      rw [List.foldl_cons, hfeed]
      have hroom : [payload.takeWhile (· ≠ 0x3B)].length < maxOscParams := by
        rw [List.length_singleton]
        decide
      exact open_dispatched_foldl _ hroom [] text

/-! ## Title and directory -/

/-- What the terminal shows as its title and knows as its directory. -/
@[ext] structure Labels where
  title : Option (List UInt8)
  cwd : Option (List UInt8)
deriving DecidableEq

namespace Labels

/-- A cold terminal has neither. -/
def cold : Labels := ⟨none, none⟩

/-- OSC 0 and OSC 2 set the title, OSC 7 sets the directory. -/
def set (l : Labels) (payload : List UInt8) : Labels :=
  let code := payload.takeWhile (· ≠ 0x3B)
  match oscText payload with
  | none => l
  | some text =>
      if code = [0x30] ∨ code = [0x32] then { l with title := some text }
      else if code = [0x37] then { l with cwd := some text }
      else l

end Labels

/-- Title and directory of a cold terminal after it has read some bytes. -/
def labels (bytes : List UInt8) : Labels :=
  (oscReader.outputs oscReader.init bytes).foldl Labels.set Labels.cold

/-- Further bytes set what they carry. -/
theorem labels_append {bytes more : List UInt8} {r s : OscReader} {payloads : List (List UInt8)}
    (hbytes : oscReader.stateAfter oscReader.init bytes = r)
    (hmore : oscReader.run r more = (s, payloads)) :
    oscReader.stateAfter oscReader.init (bytes ++ more) = s ∧
      labels (bytes ++ more) = payloads.foldl Labels.set (labels bytes) := by
  constructor
  · rw [Transducer.stateAfter_append, hbytes, Transducer.stateAfter, hmore]
  · have hout : oscReader.outputs r more = payloads := by rw [Transducer.outputs, hmore]
    rw [labels, Transducer.outputs_append, hbytes, List.foldl_append, hout]
    rfl

/-- A reader at rest takes the payload of an item. -/
theorem labels_append_item (items : List Item) (i : Item) :
    labels (Item.stream (items ++ [i])) =
      i.payloads.foldl Labels.set (labels (Item.stream items)) := by
  have hrest : oscReader.stateAfter oscReader.init (Item.stream items) = oscReader.init := by
    rw [Transducer.stateAfter, oscReader_stream]
  rw [Item.stream_append, Item.stream_cons, Item.stream_nil, List.append_nil]
  exact (labels_append hrest (oscReader_item i)).2

end JftermMuxer.Vte
