import JftermMuxer.Core.Plain
import JftermMuxer.Core.Trace

/-!
# Sanitization of replays

What a cold parser can observe of a replay.  The scanner drops bells, clipboard
writes, notifications, prompt markers and terminal queries; this file states
which callbacks those are, which bytes make the scanner close a span in the
middle of a sequence, and that a stream free of such bytes never leaks a dropped
sequence into any replay.

Main results:

- Definition {lit}`breaksSpan`: the bytes, relative to the parser state, at
  which the verdict on a sequence comes apart from its bytes.
- Theorem {lit}`replay_sanitized_of_unbroken`: along every run without such a
  byte, no replay makes a dropped callback.
- Theorem {lit}`replay_leaks_clipboard`: a cancelled clipboard write leaks.
-/

namespace JftermMuxer.Core

open Foundation Vte

/-! ## Dropped callbacks -/

/-- The OSC codes the scanner drops: 9, 52, 133 and 777. -/
def dropCodes : List (List UInt8) :=
  [[0x39], [0x35, 0x32], [0x31, 0x33, 0x33], [0x37, 0x37, 0x37]]

/-- The first field of an OSC string is a code that the scanner drops. -/
def isDropCode (code : Option (List UInt8)) : Bool := code.any dropCodes.contains

/-- A dropped code is one of the four. -/
theorem isDropCode_eq (code : Option (List UInt8)) :
    isDropCode code = (code == some [0x39] || code == some [0x35, 0x32] ||
      code == some [0x31, 0x33, 0x33] || code == some [0x37, 0x37, 0x37]) := by
  rw [Bool.eq_iff_iff]
  cases code with
  | none => simp [isDropCode]
  | some c => simp [isDropCode, dropCodes, or_assoc]

/-- Callbacks that must not reach a replaying client. -/
def isDropClass : Callback → Bool
  | .execute byte => byte == 0x07
  | .oscDispatch params _ => isDropCode params.head?
  | .csiDispatch _ _ _ action => action == 0x6E || action == 0x63
  | _ => false

/-- A quiet callback is nothing to drop. -/
theorem not_dropClass_of_quiet {cb : Callback} (h : isQuiet cb = true) : isDropClass cb = false := by
  cases cb <;> simp_all [isQuiet, isDropClass]

/-! ## Interchangeable parser states -/

/-- States in which only ESC, BEL and other controls matter to the dropped
callbacks: every other byte is printed, collected or swallowed. -/
def isInert : State → Bool
  | .ground _ => true
  | .csiIgnore => true
  | .escapeIntermediate _ => true
  | _ => false

private theorem inert_advanceGroundFresh (b : UInt8) :
    (b ≠ 0x1B → isInert (advanceGroundFresh b).1 = true) ∧
      (advanceGroundFresh b).2.any isDropClass = (b == 0x07) := by
  unfold advanceGroundFresh
  split
  · subst_vars
    exact ⟨fun h => absurd rfl h, rfl⟩
  · split
    · simp [isInert, isDropClass]
    · split
      · simp [isInert, isDropClass]
        grind
      · split
        · simp [isInert]
          grind
        · split
          · simp [isInert, isDropClass]
          · simp [isInert, isDropClass]
            grind

/-- A byte other than ESC keeps an inert state inert, and makes a dropped
callback exactly when it is BEL. -/
theorem inert_advance {s : State} (h : isInert s = true) (b : UInt8) :
    (b ≠ 0x1B → isInert (advance s b).1 = true) ∧
      (advance s b).2.any isDropClass = (b == 0x07) := by
  cases s with
  | ground buffer =>
      have hfresh := inert_advanceGroundFresh b
      simp only [advance, advanceGround]
      split
      · exact hfresh
      · split
        · rename_i hok
          have hcont : b ≠ 0x07 := by
            rintro rfl
            unfold contOk at hok
            split at hok
            · have := secondOk_isCont hok
              simp [isCont] at this
            · simp [isCont] at hok
          split <;> simp [isInert, isDropClass, hcont]
        · simpa [isDropClass] using hfresh
  | escapeIntermediate seq =>
      simp only [advance, advanceEscapeIntermediate, anywhere, isC0, isIntermediate, isCancel]
      grind [isInert, isDropClass]
  | csiIgnore =>
      simp only [advance, advanceCsiIgnore, anywhere, isC0, isFinal, isCancel]
      grind [isInert, isDropClass]
  | _ => simp [isInert] at h

/-- Two parsers that differ only by an inert state. -/
def Interchangeable (q s : State) : Prop := q = s ∨ (isInert q = true ∧ isInert s = true)

/-- Interchangeable states stay so, and what they dispatch is dropped alike. -/
theorem interchangeable_advance {q s : State} (h : Interchangeable q s) (b : UInt8) :
    Interchangeable (advance q b).1 (advance s b).1 ∧
      (advance q b).2.any isDropClass = (advance s b).2.any isDropClass := by
  rcases h with rfl | ⟨hq, hs⟩
  · exact ⟨Or.inl rfl, rfl⟩
  · obtain ⟨hqInert, hqDrop⟩ := inert_advance hq b
    obtain ⟨hsInert, hsDrop⟩ := inert_advance hs b
    refine ⟨?_, hqDrop.trans hsDrop.symm⟩
    by_cases hb : b = 0x1B
    · subst hb
      exact Or.inl ((advance_esc q).trans (advance_esc s).symm)
    · exact Or.inr ⟨hqInert hb, hsInert hb⟩

/-- Interchangeable parsers stay so along any word and make dropped callbacks
together. -/
theorem interchangeable_run {q s : State} (h : Interchangeable q s) (bs : List UInt8) :
    Interchangeable (table.stateAfter q bs) (table.stateAfter s bs) ∧
      (table.outputs q bs).any isDropClass = (table.outputs s bs).any isDropClass := by
  induction bs generalizing q s with
  | nil => exact ⟨h, rfl⟩
  | cons b bs ih =>
      obtain ⟨hnext, hdrop⟩ := interchangeable_advance h b
      obtain ⟨hstate, hout⟩ := ih hnext
      refine ⟨hstate, ?_⟩
      simp only [Transducer.outputs_cons, List.any_append, table_advance] at hout ⊢
      rw [hdrop, hout]

/-! ## Verdicts of single callbacks -/

/-- The verdict on an OSC string depends on its code alone. -/
theorem event_oscDispatch (s : Sink) (params : List (List UInt8)) :
    (s.oscDispatch params).event = (if isDropCode params.head? then .dropSeq else .keepSeq) ∧
      (s.oscDispatch params).stPending = some (s.oscDispatch params).event := by
  refine ⟨?_, rfl⟩
  simp only [Sink.oscDispatch, Sink.oscClassify, isDropCode_eq]
  split
  · rename_i h
    rcases h with h | h | h <;> simp [h]
  · split
    · rename_i h
      simp [h]
    · split
      · rename_i h
        simp [h]
      · split
        · rename_i h
          simp [h]
        · split
          · rename_i h
            rcases h with h | h <;> simp [h]
          · rename_i h1 h2 h3 h4 h5
            simp only [not_or] at h5
            simp [h3, h4, h5.1, h5.2]

/-- A CSI is dropped exactly when its callback is in the dropped class. -/
theorem event_csiDispatch (s : Sink) (params : List (List UInt16)) (intermediates : List UInt8)
    (ignore : Bool) (action : UInt8) :
    ((s.csiDispatch params intermediates action).event = .dropSeq ∨
      isDropClass (.csiDispatch params intermediates ignore action) = false ∧
        ((s.csiDispatch params intermediates action).event = .keepSeq ∨
          (s.csiDispatch params intermediates action).event = .clearSeq)) ∧
      (s.csiDispatch params intermediates action).stPending = none := by
  refine ⟨?_, ?_⟩
  · rw [event_csi]
    split
    · exact Or.inl rfl
    · rename_i hkeep
      rw [not_or] at hkeep
      refine Or.inr ⟨by simp [isDropClass, hkeep], ?_⟩
      split
      · exact Or.inr rfl
      · exact Or.inl rfl
  · simp only [Sink.csiDispatch]
    repeat' split
    all_goals rfl

/-- The classification an ST may inherit: none, or that of a kept or a dropped
OSC string. -/
def StPendingOk (p : Option SegEvent) : Prop := p = none ∨ p = some .keepSeq ∨ p = some .dropSeq

/-- An escape sequence brings a verdict and pays the pending ST. -/
theorem event_escDispatch {s : Sink} (h : StPendingOk s.stPending) (byte : UInt8) :
    ((s.escDispatch byte).event = .keepSeq ∨ (s.escDispatch byte).event = .dropSeq ∨
      (s.escDispatch byte).event = .clearSeq) ∧
      (s.escDispatch byte).stPending = none := by
  unfold Sink.escDispatch
  split
  · rename_i ev _ hpending
    rw [hpending] at h
    rcases h with h | h | h
    · contradiction
    · exact ⟨Or.inl (Option.some.inj h), rfl⟩
    · exact ⟨Or.inr (Or.inl (Option.some.inj h)), rfl⟩
  · refine ⟨?_, rfl⟩
    dsimp only
    split
    · exact Or.inr (Or.inr rfl)
    · exact Or.inl rfl

/-- A callback keeps the pending verdict one that keeps or drops. -/
theorem stPendingOk_perform {s : Sink} (h : StPendingOk s.stPending) (cb : Callback) :
    StPendingOk (s.perform cb).stPending := by
  cases cb with
  | oscDispatch params bell =>
      obtain ⟨hev, hst⟩ := event_oscDispatch s params
      simp only [Sink.perform]
      rw [hst, hev]
      split
      · exact Or.inr (Or.inr rfl)
      · exact Or.inr (Or.inl rfl)
  | csiDispatch params intermediates ignore action =>
      exact Or.inl (event_csiDispatch s params intermediates ignore action).2
  | escDispatch intermediates ignore byte => exact Or.inl (event_escDispatch h byte).2
  | _ => exact Or.inl rfl

/-- Callbacks keep the pending verdict one that keeps or drops. -/
theorem stPendingOk_performAll {s : Sink} (h : StPendingOk s.stPending) (cbs : List Callback) :
    StPendingOk (s.performAll cbs).stPending := by
  induction cbs generalizing s with
  | nil => exact h
  | cons cb cbs ih => exact ih (stPendingOk_perform h cb)

/-! ## Verdicts of whole steps -/

/-- The byte separates a verdict from the bytes it is about:

* CAN or SUB ends a dropped OSC string, and its execution overwrites the
  verdict;
* the ESC that ended an OSC or DCS string was not the start of an ST;
* a control is executed inside an escape or CSI sequence, which closes the span
  while the sequence goes on;
* an ESC cuts a multibyte character short, and the replacement character closes
  the span after the ESC. -/
def breaksSpan (f : Front State) (b : UInt8) : Bool :=
  match f.parser with
  | .oscString o => isCancel b && isDropCode o.dispatched.head?
  | .escape => if f.pending = [] then b != 0x5C else isC0 b
  | .csiEntry => isC0 b
  | .csiParam _ => isC0 b
  | .csiIntermediate _ => isC0 b
  | .ground buffer => buffer != [] && b == 0x1B
  | _ => false

/-- What a step that does not break a span can do, by verdict: the parser state
it ends in and the callbacks it made. -/
inductive Settles (s : State) (cbs : List Callback) : SegEvent → Option SegEvent → Prop where
  | quiet {p} (hquiet : ∀ cb ∈ cbs, isQuiet cb = true) : Settles s cbs .none p
  | keep {ev p} (hev : ev = .keepByte ∨ ev = .keepSeq) (hclean : cbs.any isDropClass = false)
      (hstate : isInert s = true) : Settles s cbs ev p
  | keepString {p} (hclean : cbs.any isDropClass = false) (hstate : s = .escape)
      (hpending : p ≠ some .dropSeq) : Settles s cbs .keepSeq p
  | drop {p} (hstate : isInert s = true) : Settles s cbs .dropSeq p
  | dropString (hstate : s = .escape) : Settles s cbs .dropSeq (some .dropSeq)
  | clear {p} (hstate : isInert s = true) : Settles s cbs .clearSeq p

/-- The verdict of a callback list from a given performer. -/
abbrev SettlesFrom (sink : Sink) (step : State × List Callback) : Prop :=
  Settles step.1 step.2 (sink.performAll step.2).event (sink.performAll step.2).stPending

variable {sink : Sink}

private theorem settles_nil (hev : sink.event = .none) (s : State) : SettlesFrom sink (s, []) := by
  change Settles s [] sink.event sink.stPending
  rw [hev]
  exact .quiet (by simp)

private theorem settles_execute {s : State} (hs : isInert s = true) (b : UInt8) :
    SettlesFrom sink (s, [.execute b]) := by
  change Settles s _ (if b = 0x07 then .dropSeq else .keepSeq) none
  split
  · exact .drop hs
  · rename_i hb
    exact .keep (Or.inr rfl) (by simp [isDropClass, hb]) hs

private theorem settles_anywhere (hev : sink.event = .none) (s : State) (b : UInt8) :
    SettlesFrom sink (anywhere s b) := by
  unfold anywhere
  split
  · exact settles_execute rfl b
  · split
    · exact settles_nil hev _
    · exact settles_nil hev _

private theorem settles_csi (s : Seq) (b : UInt8) : SettlesFrom sink (csiDispatch s b) := by
  unfold csiDispatch
  obtain ⟨hcases, -⟩ := event_csiDispatch sink s.finish.params.groups s.finish.intermediates
    s.finish.ignoring b
  change Settles _ _ (sink.csiDispatch _ _ _).event (sink.csiDispatch _ _ _).stPending
  rcases hcases with hdrop | ⟨hclean, hkeep | hclear⟩
  · rw [hdrop]
    exact .drop rfl
  · rw [hkeep]
    exact .keep (Or.inr rfl) (by simpa using hclean) rfl
  · rw [hclear]
    exact .clear rfl

private theorem settles_esc (hst : StPendingOk sink.stPending) (intermediates : List UInt8)
    (ignore : Bool) (b : UInt8) :
    SettlesFrom sink (.ground [], [.escDispatch intermediates ignore b]) := by
  obtain ⟨hcases, -⟩ := event_escDispatch hst b
  change Settles _ _ (sink.escDispatch b).event (sink.escDispatch b).stPending
  rcases hcases with hkeep | hdrop | hclear
  · rw [hkeep]
    exact .keep (Or.inr rfl) rfl rfl
  · rw [hdrop]
    exact .drop rfl
  · rw [hclear]
    exact .clear rfl

private theorem settles_hook (s : Seq) (b : UInt8) : SettlesFrom sink (hook s b) :=
  .quiet (by simp [hook, isQuiet])

private theorem settles_csiStep (hev : sink.event = .none) {b : UInt8} (hc0 : isC0 b = false)
    {step : State × List Callback} (h : CsiStep b step) : SettlesFrom sink step := by
  cases h with
  | collect s hs => exact settles_nil hev s
  | execute s hs hexec =>
      rw [hc0] at hexec
      contradiction
  | dispatch seq => exact settles_csi seq b
  | leave s hs => exact settles_anywhere hev s b

private theorem settles_dcsStep (hev : sink.event = .none) {b : UInt8}
    {step : State × List Callback} (h : DcsStep b step) : SettlesFrom sink step := by
  cases h with
  | collect s hs => exact settles_nil hev s
  | announce seq => exact settles_hook seq b
  | leave s hs => exact settles_anywhere hev s b

private theorem settles_groundFresh (hev : sink.event = .none) (b : UInt8) :
    SettlesFrom sink (advanceGroundFresh b) := by
  unfold advanceGroundFresh
  split
  · exact settles_nil hev _
  · split
    · exact settles_execute rfl b
    · split
      · exact .keep (Or.inl rfl) rfl rfl
      · split
        · exact settles_nil hev _
        · split
          · exact settles_execute rfl b
          · exact .keep (Or.inl rfl) rfl rfl

/-- After a replacement character the verdict of the byte itself stands, and a
byte that makes no callback leaves the span closed as text. -/
theorem settles_replaced {b : UInt8} (hesc : b ≠ 0x1B) :
    SettlesFrom sink ((advanceGroundFresh b).1, .print replacement :: (advanceGroundFresh b).2) := by
  unfold advanceGroundFresh
  rw [if_neg hesc]
  split
  · rename_i hlow
    change Settles _ _ (if b = 0x07 then .dropSeq else .keepSeq) none
    split
    · exact .drop rfl
    · rename_i hb
      exact .keep (Or.inr rfl) (by simp [isDropClass, hb]) rfl
  · split
    · exact .keep (Or.inl rfl) rfl rfl
    · split
      · exact .keep (Or.inl rfl) rfl rfl
      · split
        · rename_i hlow _ _ _
          have hb : b ≠ 0x07 := by
            rintro rfl
            exact hlow (by decide)
          change Settles _ _ (if b = 0x07 then .dropSeq else .keepSeq) none
          rw [if_neg hb]
          exact .keep (Or.inr rfl) (by simp [isDropClass, hb]) rfl
        · exact .keep (Or.inl rfl) rfl rfl

private theorem settles_ground (hev : sink.event = .none) (buffer : List UInt8) {b : UInt8}
    (hok : (buffer != [] && b == 0x1B) = false) : SettlesFrom sink (advanceGround buffer b) := by
  unfold advanceGround
  split
  · exact settles_groundFresh hev b
  · rename_i hne
    split
    · split
      · exact .keep (Or.inl rfl) rfl rfl
      · exact settles_nil hev _
    · have hesc : b ≠ 0x1B := by
        rintro rfl
        simp [hne] at hok
      exact settles_replaced hesc

private theorem settles_escape (hev : sink.event = .none) (hst : StPendingOk sink.stPending)
    {b : UInt8} (hok : isC0 b = false) : SettlesFrom sink (advanceEscape b) := by
  unfold advanceEscape
  rw [if_neg (by simp [hok])]
  split
  · exact settles_nil hev _
  · split
    · exact settles_nil hev _
    · split
      · exact settles_nil hev _
      · split
        · exact settles_nil hev _
        · split
          · exact settles_nil hev _
          · split
            · exact settles_esc hst _ _ b
            · split
              · exact settles_execute rfl b
              · exact settles_nil hev _

private theorem settles_dcsPassthrough (hev : sink.event = .none) (b : UInt8) :
    SettlesFrom sink (advanceDcsPassthrough b) := by
  unfold advanceDcsPassthrough
  split
  · exact .quiet (by simp [isQuiet])
  · split
    · rename_i hcan
      have hb : b ≠ 0x07 := by
        rintro rfl
        simp [isCancel] at hcan
      change Settles _ _ (if b = 0x07 then .dropSeq else .keepSeq) none
      rw [if_neg hb]
      exact .keep (Or.inr rfl) (by simp [isDropClass, hb]) rfl
    · split
      · exact .keepString rfl rfl (by simp [Sink.performAll, Sink.perform, Sink.unhook])
      · split
        · exact .keep (Or.inr rfl) rfl rfl
        · exact settles_nil hev _

private theorem settles_oscString (hev : sink.event = .none) (o : Osc) {b : UInt8}
    (hok : (isCancel b && isDropCode o.dispatched.head?) = false) :
    SettlesFrom sink (advanceOscString o b) := by
  obtain ⟨hosc, hst⟩ := event_oscDispatch sink o.dispatched
  unfold advanceOscString
  split
  · change Settles _ _ (sink.oscDispatch _).event (sink.oscDispatch _).stPending
    rw [hosc]
    split
    · exact .drop rfl
    · rename_i hcode
      exact .keep (Or.inr rfl) (by simpa [isDropClass] using hcode) rfl
  · split
    · exact settles_nil hev _
    · split
      · rename_i hcan
        have hcode : isDropCode o.dispatched.head? = false := by
          simpa [hcan] using hok
        have hb : b ≠ 0x07 := by
          rintro rfl
          simp [isCancel] at hcan
        change Settles _ _ (if b = 0x07 then .dropSeq else .keepSeq) none
        rw [if_neg hb]
        exact .keep (Or.inr rfl) (by simp [isDropClass, hb, hcode]) rfl
      · split
        · change Settles _ _ (sink.oscDispatch _).event (sink.oscDispatch _).stPending
          rw [hst, hosc]
          split
          · exact .dropString rfl
          · rename_i hcode
            exact .keepString (by simpa [isDropClass] using hcode) rfl (by simp)
        · split
          · exact settles_nil hev _
          · exact settles_nil hev _

/-- Every step that does not break a span settles. -/
theorem settles_advance {f : Front State} {b : UInt8} (hev : f.sink.event = .none)
    (hst : StPendingOk f.sink.stPending) (hok : breaksSpan f b = false) :
    SettlesFrom f.sink (advance f.parser b) := by
  rcases f with ⟨parser, sink, pending⟩
  dsimp only at hev hst
  cases parser with
  | ground buffer => exact settles_ground hev buffer hok
  | escape =>
      have hc0 : isC0 b = false := by
        simp only [breaksSpan] at hok
        split at hok
        · have hb : b = 0x5C := by simpa using hok
          subst hb
          rfl
        · exact hok
      exact settles_escape hev hst hc0
  | escapeIntermediate seq =>
      simp only [advance, advanceEscapeIntermediate]
      split
      · exact settles_execute rfl b
      · split
        · exact settles_nil hev _
        · split
          · exact settles_esc hst _ _ b
          · exact settles_anywhere hev _ b
  | csiEntry => exact settles_csiStep hev hok (csiStep_entry b)
  | csiParam seq => exact settles_csiStep hev hok (csiStep_param seq b)
  | csiIntermediate seq => exact settles_csiStep hev hok (csiStep_intermediate seq b)
  | csiIgnore =>
      simp only [advance, advanceCsiIgnore]
      split
      · exact settles_execute rfl b
      · split
        · exact settles_nil hev _
        · exact settles_anywhere hev _ b
  | dcsEntry => exact settles_dcsStep hev (dcsStep_entry b)
  | dcsParam seq => exact settles_dcsStep hev (dcsStep_param seq b)
  | dcsIntermediate seq => exact settles_dcsStep hev (dcsStep_intermediate seq b)
  | dcsIgnore => exact settles_anywhere hev _ b
  | dcsPassthrough => exact settles_dcsPassthrough hev b
  | oscString o => exact settles_oscString hev o hok
  | sosPmApcString => exact settles_anywhere hev _ b

/-! ## Clean prologues -/

/-- A prologue makes no dropped callback. -/
theorem prologueCallbacks_clean (s : StickyState) :
    (prologueCallbacks s).any isDropClass = false := by
  have hosc : ∀ code text, code ≠ (0x39 : UInt8) → code ≠ 0x3B →
      isDropClass (.oscDispatch (oscFields ([code, 0x3B] ++ text)) true) = false := by
    intro code text hnine hsep
    simp only [isDropClass, head_oscFields]
    simp [isDropCode_eq, hnine, hsep]
  have hsgr : (sgrCallbacks s).any isDropClass = false := by
    unfold sgrCallbacks
    split <;> rfl
  have hmodes : (decModeCallbacks s).any isDropClass = false := by
    simp [decModeCallbacks, csiCallback, isDropClass]
  have hregion : (scrollRegionCallbacks s).any isDropClass = false := by
    unfold scrollRegionCallbacks
    split <;> rfl
  have hcwd : (cwdCallbacks s).any isDropClass = false := by
    unfold cwdCallbacks
    split
    · rfl
    · simpa using hosc 0x37 _ (by decide) (by decide)
  have htitle : (titleCallbacks s).any isDropClass = false := by
    unfold titleCallbacks
    split
    · rfl
    · simpa using hosc 0x32 _ (by decide) (by decide)
  simp only [prologueCallbacks, List.any_append, hsgr, hmodes, hregion, hcwd, htitle]
  rfl

/-- A cold parser reads the byte string without a dropped callback and ends in
a good state. -/
def Ready (good : State → Prop) (bs : List UInt8) : Prop :=
  good (table.stateAfter table.init bs) ∧ (table.outputs table.init bs).any isDropClass = false

/-- The condition on the end may be weakened. -/
theorem Ready.mono {good good' : State → Prop} {bs : List UInt8} (h : Ready good bs)
    (himp : ∀ q, good q → good' q) : Ready good' bs :=
  ⟨himp _ h.1, h.2⟩

/-- A plain prologue is ready to be replayed. -/
theorem ready_prologue {s : StickyState} (h : PlainSticky s) :
    Ready (isInert · = true) s.buildSerialized := by
  have hrun := run_buildSerialized h
  refine ⟨?_, ?_⟩
  · rw [Transducer.stateAfter, table_init, hrun]
    rfl
  · rw [Transducer.outputs, table_init, hrun]
    exact prologueCallbacks_clean s

/-- The clear base and a plain prologue are ready to be replayed. -/
theorem ready_clear {s : StickyState} (h : PlainSticky s) :
    Ready (isInert · = true) (clearBase ++ s.buildSerialized) := by
  have hbase : table.run (.ground []) clearBase =
      (.ground [], [.csiDispatch [[2]] [] false 0x4A, .csiDispatch [[0]] [] false 0x48]) := rfl
  have hrun := run_ground_append hbase (run_buildSerialized h)
  refine ⟨?_, ?_⟩
  · rw [Transducer.stateAfter, table_init, hrun]
    rfl
  · rw [Transducer.outputs, table_init, hrun, List.any_append, prologueCallbacks_clean]
    rfl

/-! ## The invariant -/

/-- How the replays stand to the parser: either every replay leads a cold parser
to a state from which the pending span takes it along with the session's own
parser, or the ESC of a string terminator has just closed a span and only its
backslash is owed. -/
inductive Attached (f : Front State) (r : ChunkRing) : Prop where
  | whole (s₀ : State) (hinert : isInert s₀ = true)
      (hstate : table.stateAfter s₀ f.pending = f.parser)
      (hquiet : ∀ cb ∈ table.outputs s₀ f.pending, isQuiet cb = true)
      (hready : ∀ k, Ready (isInert · = true) (r.replay k))
  | terminator (hstate : f.parser = .escape) (hpending : f.pending = [])
      (hready : ∀ k, Ready (fun q => isInert q = true ∨ q = .escape) (r.replay k))
      (hdropped : f.sink.stPending = some .dropSeq →
        ∀ k, Ready (isInert · = true) (r.replay k))

/-- The invariant of runs that break no span. -/
structure Sanitized (f : Front State) (r : ChunkRing) : Prop where
  event : f.sink.event = .none
  stPending : StPendingOk f.sink.stPending
  plain : PlainFront f
  attached : Attached f r

/-- A fresh ring has nothing to leak. -/
theorem sanitized_init (watermark : Nat) :
    Sanitized (Front.init table) (ChunkRing.new watermark) where
  event := rfl
  stPending := Or.inl rfl
  plain := plainFront_init
  attached := by
    refine .whole (.ground []) rfl rfl (by simp [Front.init]) ?_
    intro k
    rw [ChunkRing.replay_new]
    exact ⟨rfl, rfl⟩

/-- Appending a span: a cold parser in an inert state follows the session's own
parser through it. -/
theorem ready_append {s₀ : State} (hinert : isInert s₀ = true) {span x : List UInt8}
    (hclean : (table.outputs s₀ span).any isDropClass = false)
    (hx : Ready (isInert · = true) x) :
    Ready (fun q => Interchangeable q (table.stateAfter s₀ span)) (x ++ span) := by
  obtain ⟨hstate, hout⟩ := interchangeable_run (Or.inr ⟨hx.1, hinert⟩) span
  refine ⟨?_, ?_⟩
  · rw [Transducer.stateAfter_append]
    exact hstate
  · rw [Transducer.outputs_append, List.any_append, hx.2, hout, hclean]
    rfl

/-- The front end's step, with its event named. -/
theorem front_advance_eq {σ : Type} (T : Transducer σ UInt8 Callback) (f : Front σ) (b : UInt8) :
    Front.advance T f b =
      (let next : Front σ :=
          ⟨(T.advance f.parser b).1,
            { f.sink.performAll (T.advance f.parser b).2 with event := .none }, f.pending ++ [b]⟩
        let ev := (f.sink.performAll (T.advance f.parser b).2).event
        (next.closeSpan ev, next.opOf ev)) :=
  rfl

/-- A kept span that ends in an inert state leaves the front end attached. -/
theorem attached_keep (next : Front State) {r : ChunkRing} {s₀ : State}
    (hinert : isInert s₀ = true) (hsticky : PlainSticky next.sink.sticky)
    (hstate : table.stateAfter s₀ next.pending = next.parser)
    (hclean : (table.outputs s₀ next.pending).any isDropClass = false)
    (hready : ∀ k, Ready (isInert · = true) (r.replay k)) (hnext : isInert next.parser = true) :
    Attached { next with pending := [] }
      (r.apply (.keep next.pending next.sink.sticky.buildSerialized)) := by
  refine .whole next.parser hnext rfl (by simp) (fun k => ?_)
  refine ChunkRing.forall_replay_apply (P := Ready (isInert · = true)) hready ?_ (by simp) k
  intro span prologue heq
  cases heq
  refine ⟨ready_prologue hsticky, fun x hx => ?_⟩
  refine (ready_append hinert hclean hx).mono ?_
  intro q hq
  rw [hstate] at hq
  rcases hq with rfl | ⟨hq, -⟩
  · exact hnext
  · exact hq

/-- A kept span that ends on the ESC of a string terminator leaves its
backslash owed. -/
theorem attached_keepString (next : Front State) {r : ChunkRing} {s₀ : State}
    (hinert : isInert s₀ = true) (hsticky : PlainSticky next.sink.sticky)
    (hstate : table.stateAfter s₀ next.pending = next.parser)
    (hclean : (table.outputs s₀ next.pending).any isDropClass = false)
    (hready : ∀ k, Ready (isInert · = true) (r.replay k)) (hnext : next.parser = .escape)
    (hpending : next.sink.stPending ≠ some .dropSeq) :
    Attached { next with pending := [] }
      (r.apply (.keep next.pending next.sink.sticky.buildSerialized)) := by
  refine .terminator hnext rfl (fun k => ?_) (fun hdrop => absurd hdrop hpending)
  refine ChunkRing.forall_replay_apply (P := Ready (isInert · = true)) hready ?_ (by simp) k
  intro span prologue heq
  cases heq
  refine ⟨(ready_prologue hsticky).mono (fun q hq => Or.inl hq), fun x hx => ?_⟩
  refine (ready_append hinert hclean hx).mono ?_
  intro q hq
  rw [hstate, hnext] at hq
  rcases hq with rfl | ⟨hq, -⟩
  · exact Or.inr rfl
  · exact Or.inl hq

/-- Closing a span by its verdict leaves the front end attached. -/
theorem attached_of_settles {q s₀ : State} {cbs : List Callback} {sink : Sink}
    {pending : List UInt8} {r : ChunkRing} (hsettles : Settles q cbs sink.event sink.stPending)
    (hinert : isInert s₀ = true) (hsticky : PlainSticky sink.sticky)
    (hstate : table.stateAfter s₀ pending = q)
    (hquiet : (∀ cb ∈ cbs, isQuiet cb = true) →
      ∀ cb ∈ table.outputs s₀ pending, isQuiet cb = true)
    (hspan : cbs.any isDropClass = false →
      (table.outputs s₀ pending).any isDropClass = false)
    (hready : ∀ k, Ready (isInert · = true) (r.replay k)) :
    Attached ((⟨q, { sink with event := .none }, pending⟩ : Front State).closeSpan sink.event)
      (r.applyAll ((⟨q, { sink with event := .none }, pending⟩ : Front State).opOf sink.event)) := by
  rcases sink with ⟨sticky, status, event, stPending⟩
  dsimp only at hsettles hsticky ⊢
  cases hsettles with
  | quiet hcbs => exact .whole s₀ hinert hstate (hquiet hcbs) hready
  | keep hev hclean hnext =>
      have hkeep := attached_keep ⟨q, ⟨sticky, status, .none, stPending⟩, pending⟩
        hinert hsticky hstate (hspan hclean) hready hnext
      rcases hev with rfl | rfl
      · exact hkeep
      · exact hkeep
  | keepString hclean hescape hpending =>
      exact attached_keepString ⟨q, ⟨sticky, status, .none, stPending⟩, pending⟩
        hinert hsticky hstate (hspan hclean) hready hescape hpending
  | drop hnext => exact .whole q hnext rfl (by simp [Front.closeSpan]) hready
  | dropString hescape =>
      refine .terminator hescape rfl ?_ (fun _ => hready)
      exact fun k => (hready k).mono (fun q hq => Or.inl hq)
  | clear hnext =>
      refine .whole q hnext rfl (by simp [Front.closeSpan]) ?_
      intro k
      change Ready _ ((r.purge _).replay k)
      rw [ChunkRing.replay_purge]
      exact ready_clear hsticky

/-- One step from the whole-span case. -/
theorem attached_step_whole {f : Front State} {r : ChunkRing} {b : UInt8}
    (h : Sanitized f r) (hok : breaksSpan f b = false) {s₀ : State} (hinert : isInert s₀ = true)
    (hstate : table.stateAfter s₀ f.pending = f.parser)
    (hquiet : ∀ cb ∈ table.outputs s₀ f.pending, isQuiet cb = true)
    (hready : ∀ k, Ready (isInert · = true) (r.replay k))
    (hsticky : PlainSticky (f.sink.performAll (advance f.parser b).2).sticky) :
    Attached (Front.advance table f b).1 (r.applyAll (Front.advance table f b).2) := by
  have hnext : table.stateAfter s₀ (f.pending ++ [b]) = (advance f.parser b).1 := by
    rw [Transducer.stateAfter_append, hstate]
    rfl
  have houts : table.outputs s₀ (f.pending ++ [b]) =
      table.outputs s₀ f.pending ++ (advance f.parser b).2 := by
    rw [Transducer.outputs_append, hstate, Transducer.outputs_singleton]
    rfl
  rw [front_advance_eq]
  refine attached_of_settles (settles_advance h.event h.stPending hok) hinert hsticky hnext
    ?_ ?_ hready
  · intro hcbs cb hcb
    rw [houts] at hcb
    rcases List.mem_append.mp hcb with hcb | hcb
    · exact hquiet cb hcb
    · exact hcbs cb hcb
  · intro hcbs
    rw [houts, List.any_append, hcbs, Bool.or_false, List.any_eq_false]
    intro cb hcb
    simp [not_dropClass_of_quiet (hquiet cb hcb)]

/-- The backslash a string terminator owes. -/
theorem attached_step_terminator {f : Front State} {r : ChunkRing}
    (h : Sanitized f r) (hstate : f.parser = .escape) (hpending : f.pending = [])
    (hready : ∀ k, Ready (fun q => isInert q = true ∨ q = .escape) (r.replay k))
    (hdropped : f.sink.stPending = some .dropSeq → ∀ k, Ready (isInert · = true) (r.replay k)) :
    Attached (Front.advance table f 0x5C).1 (r.applyAll (Front.advance table f 0x5C).2) := by
  have hst := h.stPending
  have hsticky := h.plain.2
  rcases f with ⟨parser, ⟨sticky, status, event, stPending⟩, pending⟩
  dsimp only at hstate hpending hst hsticky hdropped
  subst hstate hpending
  have hkept : ∀ x, Ready (fun q => isInert q = true ∨ q = .escape) x →
      Ready (isInert · = true) (x ++ [0x5C]) := by
    intro x hx
    rw [Ready, Transducer.stateAfter_append, Transducer.outputs_append, List.any_append, hx.2,
      Transducer.stateAfter_singleton, Transducer.outputs_singleton]
    rcases hx.1 with hq | hq
    · obtain ⟨hnext, hdrop⟩ := inert_advance hq 0x5C
      exact ⟨hnext (by decide), hdrop⟩
    · rw [hq]
      exact ⟨rfl, rfl⟩
  have hkeep : ∀ k, Ready (isInert · = true)
      ((r.apply (.keep [0x5C] sticky.buildSerialized)).replay k) := by
    refine ChunkRing.forall_replay_apply hready ?_ (by simp)
    intro span prologue heq
    cases heq
    exact ⟨ready_prologue hsticky, hkept⟩
  rcases hst with rfl | rfl | rfl
  · exact .whole (.ground []) rfl rfl (by simp [Front.advance, Front.closeSpan, Sink.takeEvent,
      Sink.performAll, advance, advanceEscape, isC0, isIntermediate, Sink.perform,
      Sink.escDispatch]) hkeep
  · exact .whole (.ground []) rfl rfl (by simp [Front.advance, Front.closeSpan, Sink.takeEvent,
      Sink.performAll, advance, advanceEscape, isC0, isIntermediate, Sink.perform,
      Sink.escDispatch]) hkeep
  · exact .whole (.ground []) rfl rfl (by simp [Front.advance, Front.closeSpan, Sink.takeEvent,
      Sink.performAll, advance, advanceEscape, isC0, isIntermediate, Sink.perform,
      Sink.escDispatch]) (hdropped rfl)

/-- A step that breaks no span keeps the invariant. -/
theorem sanitized_step {f : Front State} {r : ChunkRing} {b : UInt8} (h : Sanitized f r)
    (hok : breaksSpan f b = false) :
    Sanitized (Front.advance table f b).1 (r.applyAll (Front.advance table f b).2) := by
  obtain ⟨-, hfields⟩ := plain_advance h.plain.1 b
  have hsticky := plainSticky_performAll h.plain.2 hfields
  have hst := stPendingOk_performAll h.stPending (advance f.parser b).2
  refine ⟨?_, ?_, plainFront_advance h.plain b, ?_⟩
  · rw [Front.sink_advance]
  · rw [Front.sink_advance]
    exact hst
  · cases h.attached with
    | whole s₀ hinert hstate hquiet hready =>
        exact attached_step_whole h hok hinert hstate hquiet hready hsticky
    | terminator hstate hpending hready hdropped =>
        have hb : b = 0x5C := by
          simpa [breaksSpan, hstate, hpending] using hok
        subst hb
        exact attached_step_terminator h hstate hpending hready hdropped

/-! ## Main results -/

/-- No byte of the stream separates a verdict from its bytes. -/
def Unbroken (stream : List UInt8) : Prop :=
  (Front.machine table).Along (fun f b => breaksSpan f b = false) (Front.init table)
    (translate 0 stream)

instance (stream : List UInt8) : Decidable (Unbroken stream) :=
  inferInstanceAs (Decidable ((Front.machine table).Along _ _ _))

/-- Along every run that breaks no span, in any number of feed calls and for
every watermark and cap, a cold parser sees no dropped callback in the replay. -/
theorem replay_sanitized_of_unbroken (watermark wantChunks : Nat) (feeds : List (List UInt8))
    (h : Unbroken feeds.flatten) :
    ∀ cb ∈ table.outputs table.init
        ((Scanner.feedAll table (Scanner.new table watermark) feeds).replay wantChunks),
      isDropClass cb = false := by
  have hinv := Transducer.along_induct (Front.machine table) ChunkRing.applyAll
    ChunkRing.applyAll_nil ChunkRing.applyAll_append
    (fun f r b hf hok => sanitized_step hf hok) (sanitized_init watermark) h
  rw [Scanner.feedAll_eq_feed, Scanner.replay, Scanner.ring_feed]
  have hclean : ∀ good, (∀ k, Ready good (((ChunkRing.new watermark).applyAll
      ((Front.machine table).outputs (Front.init table) (translate 0 feeds.flatten))).replay k)) →
      ∀ cb ∈ table.outputs table.init (((ChunkRing.new watermark).applyAll
        ((Front.machine table).outputs (Front.init table)
          (translate 0 feeds.flatten))).replay wantChunks), isDropClass cb = false := by
    intro good hready cb hcb
    simpa using List.any_eq_false.mp (hready wantChunks).2 cb hcb
  cases hinv.attached with
  | whole s₀ hinert hstate hquiet hready => exact hclean _ hready
  | terminator hstate hpending hready hdropped => exact hclean _ hready

/-- A bell, a clipboard write ended by ST and a status query between two
characters break no span, and their replay is clean. -/
theorem replay_sanitized_bell_clipboard_query :
    Unbroken [0x41, 0x07, 0x1B, 0x5D, 0x35, 0x32, 0x3B, 0x63, 0x1B, 0x5C, 0x1B, 0x5B, 0x36, 0x6E,
      0x42] ∧
    ∀ cb ∈ table.outputs table.init ((Scanner.feedAll table (Scanner.new table 2)
        [[0x41, 0x07, 0x1B, 0x5D, 0x35, 0x32, 0x3B], [0x63, 0x1B, 0x5C, 0x1B, 0x5B, 0x36, 0x6E,
          0x42]]).replay 1),
      isDropClass cb = false :=
  ⟨by decide, replay_sanitized_of_unbroken 2 1 _ (by decide)⟩

/-- A clipboard write cancelled by CAN is kept whole: the cold parser dispatches
it again. -/
theorem replay_leaks_clipboard :
    ¬ ∀ (watermark wantChunks : Nat) (feeds : List (List UInt8)),
      ∀ cb ∈ table.outputs table.init
          ((Scanner.feedAll table (Scanner.new table watermark) feeds).replay wantChunks),
        isDropClass cb = false := by
  intro h
  have hleak := h 131072 1 [[0x1B, 0x5D, 0x35, 0x32, 0x3B, 0x63, 0x3B, 0x78, 0x18]]
    (.oscDispatch [[0x35, 0x32], [0x63], [0x78]] false) (by decide)
  exact absurd hleak (by decide)

end JftermMuxer.Core
