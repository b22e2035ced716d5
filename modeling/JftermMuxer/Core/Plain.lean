import JftermMuxer.Core.Prologue
import JftermMuxer.Core.Trace

/-!
# OSC data is plain

Only bytes from 0x20 on enter an OSC string, so the directory and the title a
scanner tracks can be written into a prologue without ending it early.

Main results:

- Theorem {lit}`plain_advance`: a step of the parser stores and dispatches only
  plain OSC bytes.
- Theorem {lit}`plainFront_advance`: the collected and the tracked OSC data of the
  front end stay plain.
-/

namespace JftermMuxer.Core

open Foundation Vte

/-! ## Plain OSC contents -/

/-- The parser holds only plain bytes in an OSC string. -/
def PlainOsc : State → Prop
  | .oscString o => (∀ field ∈ o.fields, Plain field) ∧ Plain o.current
  | _ => True

private theorem plain_putParam {o : Osc} (h : PlainOsc (.oscString o)) :
    PlainOsc (.oscString o.putParam) := by
  obtain ⟨hfields, hcurrent⟩ := h
  unfold Osc.putParam
  split
  · exact ⟨hfields, hcurrent⟩
  · refine ⟨?_, by simp [Plain]⟩
    intro field hfield
    rcases List.mem_append.mp hfield with hfield | hfield
    · exact hfields field hfield
    · rw [List.mem_singleton.mp hfield]
      exact hcurrent

private theorem plain_of_not_control {b : UInt8} (hc0 : ¬ isC0 b = true)
    (hcan : ¬ isCancel b = true) (hesc : ¬ b = 0x1B) : 0x20 ≤ b := by
  simp only [isC0, isCancel, Bool.or_eq_true, Bool.and_eq_true, decide_eq_true_eq,
    beq_iff_eq] at hc0 hcan
  grind

/-- The callback is no OSC dispatch. -/
def isNotOsc : Callback → Bool
  | .oscDispatch _ _ => false
  | _ => true

/-- A step that stores and dispatches only plain OSC bytes. -/
def PlainStep (step : State × List Callback) : Prop :=
  PlainOsc step.1 ∧
    ∀ params bell, .oscDispatch params bell ∈ step.2 → ∀ field ∈ params, Plain field

private theorem plainStep_of {s : State} {cbs : List Callback} (hs : PlainOsc s)
    (hcbs : cbs.all isNotOsc = true) : PlainStep (s, cbs) := by
  refine ⟨hs, ?_⟩
  intro params bell hmem
  have hnot := List.all_eq_true.mp hcbs _ hmem
  simp [isNotOsc] at hnot

private theorem plainStep_anywhere {s : State} (hs : PlainOsc s) (b : UInt8) :
    PlainStep (anywhere s b) := by
  unfold anywhere
  split
  · exact plainStep_of trivial rfl
  · split
    · exact plainStep_of trivial rfl
    · exact plainStep_of hs rfl

private theorem plainStep_oscString {o : Osc} (h : PlainOsc (.oscString o)) (b : UInt8) :
    PlainStep (advanceOscString o b) := by
  have hdispatched : ∀ field ∈ o.dispatched, Plain field := (plain_putParam h).1
  unfold advanceOscString
  split
  · exact ⟨trivial, by simpa using hdispatched⟩
  · split
    · exact plainStep_of h rfl
    · split
      · exact ⟨trivial, by simpa using hdispatched⟩
      · split
        · exact ⟨trivial, by simpa using hdispatched⟩
        · split
          · exact plainStep_of (plain_putParam h) rfl
          · rename_i hbel hc0 hcan hesc hsep
            refine plainStep_of ⟨h.1, ?_⟩ rfl
            intro x hx
            rcases List.mem_append.mp hx with hx | hx
            · exact h.2 x hx
            · rw [List.mem_singleton.mp hx]
              exact plain_of_not_control hc0 hcan hesc

private theorem plainStep_ground (buffer : List UInt8) (b : UInt8) :
    PlainStep (advanceGround buffer b) := by
  unfold advanceGround advanceGroundFresh
  repeat' split
  all_goals exact plainStep_of trivial rfl

private theorem plainOsc_of_ne {s : State} (hs : ∀ o, s ≠ .oscString o) : PlainOsc s := by
  cases s with
  | oscString o => exact absurd rfl (hs o)
  | _ => trivial

private theorem plainStep_csi {b : UInt8} {step : State × List Callback} (h : CsiStep b step) :
    PlainStep step := by
  cases h with
  | collect s hs => exact plainStep_of (plainOsc_of_ne hs) rfl
  | execute s hs hc0 => exact plainStep_of (plainOsc_of_ne hs) rfl
  | dispatch seq => exact plainStep_of trivial rfl
  | leave s hs => exact plainStep_anywhere (plainOsc_of_ne hs) b

private theorem plainStep_dcs {b : UInt8} {step : State × List Callback} (h : DcsStep b step) :
    PlainStep step := by
  cases h with
  | collect s hs => exact plainStep_of (plainOsc_of_ne hs) rfl
  | announce seq => exact plainStep_of trivial rfl
  | leave s hs => exact plainStep_anywhere (plainOsc_of_ne hs) b

/-- Only plain bytes enter an OSC string, so only plain fields are dispatched. -/
theorem plain_advance {s : State} (h : PlainOsc s) (b : UInt8) : PlainStep (advance s b) := by
  cases s with
  | oscString o => exact plainStep_oscString h b
  | ground buffer => exact plainStep_ground buffer b
  | csiEntry => exact plainStep_csi (csiStep_entry b)
  | csiParam seq => exact plainStep_csi (csiStep_param seq b)
  | csiIntermediate seq => exact plainStep_csi (csiStep_intermediate seq b)
  | csiIgnore => exact plainStep_csi (csiStep_ignore b)
  | dcsEntry => exact plainStep_dcs (dcsStep_entry b)
  | dcsParam seq => exact plainStep_dcs (dcsStep_param seq b)
  | dcsIntermediate seq => exact plainStep_dcs (dcsStep_intermediate seq b)
  | escape =>
      simp only [advance, advanceEscape]
      repeat' split
      all_goals exact plainStep_of (by simp [PlainOsc, Osc.reset, Plain]) rfl
  | escapeIntermediate seq =>
      simp only [advance, advanceEscapeIntermediate]
      repeat' split
      all_goals first
        | exact plainStep_of trivial rfl
        | exact plainStep_anywhere (by trivial) b
  | dcsIgnore => exact plainStep_anywhere (by trivial) b
  | sosPmApcString => exact plainStep_anywhere (by trivial) b
  | dcsPassthrough =>
      simp only [advance, advanceDcsPassthrough]
      repeat' split
      all_goals exact plainStep_of trivial rfl

/-- A callback with plain fields keeps the tracked state plain. -/
theorem plainSticky_perform {s : Sink} (h : PlainSticky s.sticky) {cb : Callback}
    (hcb : ∀ params bell, cb = .oscDispatch params bell → ∀ field ∈ params, Plain field) :
    PlainSticky (s.perform cb).sticky := by
  cases cb with
  | oscDispatch params bell =>
      have hfield : ∀ text, params[1]? = some text → Plain text :=
        fun text htext => hcb params bell rfl text (List.mem_of_getElem? htext)
      simp only [Sink.perform, Sink.oscDispatch, Sink.oscClassify]
      split
      · split
        · rename_i text htext
          refine ⟨h.1, ?_⟩
          intro title htitle
          rw [← Option.some.inj htitle]
          exact hfield text htext
        · exact h
      · split
        · split
          · rename_i cwd hcwd
            refine ⟨?_, h.2⟩
            intro dir hdir
            rw [← Option.some.inj hdir]
            exact hfield cwd hcwd
          · exact h
        · repeat' split
          all_goals exact h
  | csiDispatch params intermediates ignore action =>
      have hmodes : ∀ (codes : List UInt16) (on : Bool) (st : StickyState), PlainSticky st →
          PlainSticky (codes.foldl (fun st code => st.setDecMode code on) st) := by
        intro codes on
        induction codes with
        | nil => exact fun st hst => hst
        | cons code codes ih =>
            intro st hst
            apply ih
            cases on <;> exact hst
      simp only [Sink.perform, Sink.csiDispatch]
      repeat' split
      all_goals first
        | exact h
        | exact hmodes _ _ _ h
  | escDispatch intermediates ignore byte =>
      simp only [Sink.perform, Sink.escDispatch]
      split <;> exact h
  | _ => exact h

/-- Callbacks with plain fields keep the tracked state plain. -/
theorem plainSticky_performAll {s : Sink} (h : PlainSticky s.sticky) {cbs : List Callback}
    (hcbs : ∀ params bell, .oscDispatch params bell ∈ cbs → ∀ field ∈ params, Plain field) :
    PlainSticky (s.performAll cbs).sticky := by
  induction cbs generalizing s with
  | nil => exact h
  | cons cb cbs ih =>
      apply ih
      · apply plainSticky_perform h
        rintro params bell rfl
        exact hcbs params bell (by simp)
      · intro params bell hmem
        exact hcbs params bell (List.mem_cons_of_mem cb hmem)

/-- The OSC data of a front end, collected or tracked, is plain. -/
def PlainFront (f : Front State) : Prop := PlainOsc f.parser ∧ PlainSticky f.sink.sticky

/-- A fresh front is plain. -/
theorem plainFront_init : PlainFront (Front.init table) :=
  ⟨trivial, by simp [PlainSticky, Front.init, Sink.new, StickyState.new]⟩

/-- Every byte keeps the front plain. -/
theorem plainFront_advance {f : Front State} (h : PlainFront f) (b : UInt8) :
    PlainFront (Front.advance table f b).1 := by
  obtain ⟨hosc, hfields⟩ := plain_advance h.1 b
  have hsticky := plainSticky_performAll h.2 hfields
  rw [PlainFront, Front.parser_advance, Front.sink_advance]
  exact ⟨hosc, hsticky⟩

end JftermMuxer.Core
