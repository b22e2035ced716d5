import JftermMuxer.Core.Plain
import JftermMuxer.Core.Reassert

/-!
# The full reset

RIS takes a terminal back to its defaults.  The scanner purges the ring on it but
keeps the tracked state, so the prologue of the purge re-asserts what the stream
had set before.  This file says when that makes a difference: exactly when the
stream before the reset has left a rendition, a private mode or a scroll region
behind.

Main results:

- Theorem {lit}`settings_track`: the tracked settings evolve on their own.
- Theorem {lit}`ring_ris`: after RIS the ring is one chunk whose prologue carries
  the settings of the stream before it.
- Theorem {lit}`fullReset_iff`: RIS is a full reset iff nothing was left set.
-/

namespace JftermMuxer.Core

open Foundation Vte

/-- {lit}`ESC c`. -/
def ris : List UInt8 := [0x1B, 0x63]

/-- What a full reset puts back: the rendition, the private modes and the scroll
region. -/
def StickyState.settings (s : StickyState) : List UInt16 × DecModes × Option (UInt16 × UInt16) :=
  (s.sgr, s.decModes, s.scrollRegion)

/-- The settings a fresh scanner tracks after a stream. -/
def settingsAfter (watermark : Nat) (bytes : List UInt8) :
    List UInt16 × DecModes × Option (UInt16 × UInt16) :=
  (Scanner.feed table (Scanner.new table watermark) bytes).sink.sticky.settings

/-- The callback sets a rendition other than the default, a private mode or a
scroll region. -/
def Asserts : Callback → Prop
  | .csiDispatch params intermediates _ action =>
      (action = 0x6D ∧ intermediates.head? ≠ some 0x3F ∧ params.flatten ≠ [] ∧
          params.flatten ≠ [0]) ∨
        (action = 0x68 ∧ intermediates.head? = some 0x3F) ∨
        (action = 0x72 ∧ intermediates.head? ≠ some 0x3F)
  | _ => False

instance decidableAsserts : DecidablePred Asserts
  | .csiDispatch params intermediates _ action =>
      inferInstanceAs (Decidable ((action = 0x6D ∧ intermediates.head? ≠ some 0x3F ∧
        params.flatten ≠ [] ∧ params.flatten ≠ [0]) ∨
        (action = 0x68 ∧ intermediates.head? = some 0x3F) ∨
        (action = 0x72 ∧ intermediates.head? ≠ some 0x3F)))
  | .print _ | .execute _ | .hook _ _ _ _ | .put _ | .unhook | .oscDispatch _ _
  | .escDispatch _ _ _ => inferInstanceAs (Decidable False)

/-- RIS between two streams is a full reset: what is tracked at the end is what the
second stream alone sets, and the prologue of the purged ring sets nothing. -/
structure FullReset (watermark : Nat) (s t : List UInt8) : Prop where
  settings : settingsAfter watermark (s ++ ris ++ t) = settingsAfter watermark t
  prologue : ∀ cb ∈ table.outputs (.ground [])
    (Scanner.feed table (Scanner.new table watermark) (s ++ ris)).ring.openChunk.prologue,
    ¬ Asserts cb

/-! ## Settings evolve on their own -/

private theorem settings_foldl_setDecMode {s s' : StickyState} (h : s.settings = s'.settings)
    (codes : List UInt16) (on : Bool) :
    (codes.foldl (fun st code => st.setDecMode code on) s).settings =
      (codes.foldl (fun st code => st.setDecMode code on) s').settings := by
  induction codes generalizing s s' with
  | nil => exact h
  | cons code codes ih =>
      apply ih
      obtain ⟨hsgr, hmodes, hregion⟩ : s.sgr = s'.sgr ∧ s.decModes = s'.decModes ∧
          s.scrollRegion = s'.scrollRegion := by
        simpa [StickyState.settings] using h
      cases on with
      | true => simp [StickyState.setDecMode, StickyState.invalidate, StickyState.settings, *]
      | false => simp [StickyState.setDecMode, StickyState.invalidate, StickyState.settings, *]

/-- What a callback does to the settings depends on the settings alone. -/
theorem settings_track {s s' : StickyState} (h : s.settings = s'.settings) (cb : Callback) :
    (track s cb).settings = (track s' cb).settings := by
  obtain ⟨hsgr, hmodes, hregion⟩ : s.sgr = s'.sgr ∧ s.decModes = s'.decModes ∧
      s.scrollRegion = s'.scrollRegion := by
    simpa [StickyState.settings] using h
  cases cb with
  | csiDispatch params intermediates ignore action =>
      simp only [track, Sink.perform, Sink.csiDispatch]
      repeat' split
      all_goals first
        | exact h
        | exact settings_foldl_setDecMode h _ _
        | simp [StickyState.settings, StickyState.setSgr, StickyState.setScrollRegion,
            StickyState.invalidate, hsgr, hmodes, hregion]
  | oscDispatch params bell =>
      simp only [track, Sink.perform, Sink.oscDispatch, Sink.oscClassify]
      repeat' split
      all_goals exact h
  | escDispatch intermediates ignore byte =>
      simp only [track, Sink.perform, Sink.escDispatch]
      repeat' split
      all_goals exact h
  | _ => exact h

/-- Equal settings stay equal under the same callbacks. -/
theorem settings_foldl_track {s s' : StickyState} (h : s.settings = s'.settings)
    (cbs : List Callback) : (cbs.foldl track s).settings = (cbs.foldl track s').settings := by
  induction cbs generalizing s s' with
  | nil => exact h
  | cons cb cbs ih => exact ih (settings_track h cb)

/-- OSC data is no setting. -/
theorem settings_track_osc (s : StickyState) (params : List (List UInt8)) (bell : Bool) :
    (track s (.oscDispatch params bell)).settings = s.settings := by
  simp only [track, Sink.perform, Sink.oscDispatch, Sink.oscClassify]
  repeat' split
  all_goals rfl

/-- An ESC ends what was going on without touching a setting. -/
theorem settings_esc (q : State) (s : StickyState) :
    ((advance q 0x1B).2.foldl track s).settings = s.settings := by
  cases q with
  | ground buffer =>
      simp only [advance, advanceGround, advanceGroundFresh]
      repeat' split
      all_goals rfl
  | oscString o => exact settings_track_osc s o.dispatched false
  | _ => rfl

/-! ## The scanner at a reset -/

/-- The settings are a fold over the callbacks of the translated stream. -/
theorem settingsAfter_eq (watermark : Nat) (bytes : List UInt8) :
    settingsAfter watermark bytes =
      ((table.outputs (.ground []) (translate 0 bytes)).foldl track StickyState.new).settings := by
  have hfront := Scanner.front_feed table watermark bytes
  have hsticky := (front_stateAfter (Front.init table) (translate 0 bytes)).2
  rw [← hfront] at hsticky
  have hsettings := congrArg StickyState.settings hsticky
  exact hsettings

private theorem translate_ris (remaining : Nat) (t : List UInt8) :
    translate remaining (ris ++ t) = ris ++ translate 0 t := by
  have hascii : ∀ b ∈ ris, b < 0x80 := by simp [ris]
  obtain ⟨hbytes, hremaining⟩ := translate_ascii remaining hascii (by simp [ris])
  rw [translate_append, hbytes, hremaining]

/-- RIS leads every parser to ground; the callbacks leave the settings alone. -/
theorem run_ris (q : State) :
    table.run q ris = (.ground [], (advance q 0x1B).2 ++ [.escDispatch [] false 0x63]) := by
  have hesc := advance_esc q
  rw [ris, Transducer.run_cons, Transducer.run_cons, table_advance, table_advance, hesc]
  rfl

private theorem settings_ris (q : State) (s : StickyState) :
    ((table.outputs q ris).foldl track s).settings = s.settings := by
  rw [Transducer.outputs, run_ris, List.foldl_append]
  exact settings_esc q s

/-- The settings after a reset are those of the first stream, changed by the second. -/
theorem settingsAfter_ris (watermark : Nat) (s t : List UInt8) :
    settingsAfter watermark (s ++ ris ++ t) =
      ((table.outputs (.ground []) (translate 0 t)).foldl track
        ((table.outputs (.ground []) (translate 0 s)).foldl track StickyState.new)).settings := by
  have hstate : ∀ q, table.stateAfter q ris = .ground [] := fun q => congrArg Prod.fst (run_ris q)
  rw [settingsAfter_eq, List.append_assoc, translate_append, translate_ris,
    Transducer.outputs_append, Transducer.outputs_append, hstate, List.foldl_append,
    List.foldl_append]
  exact settings_foldl_track (settings_ris _ _) _

/-- After RIS the ring is one chunk, its prologue made from the tracked state. -/
theorem ring_ris (watermark : Nat) (s : List UInt8) :
    ∃ sticky, sticky.settings = settingsAfter watermark s ∧ PlainSticky sticky ∧
      (Scanner.feed table (Scanner.new table watermark) (s ++ ris)).ring.openChunk.prologue =
        clearBase ++ sticky.buildSerialized := by
  have hbytes : translate 0 (s ++ ris) = translate 0 s ++ [0x1B] ++ [0x63] := by
    have hris := translate_ris (remainingAfter 0 s) []
    rw [List.append_nil] at hris
    rw [translate_append, hris]
    simp [ris]
  generalize hfront : (Front.machine table).stateAfter (Front.init table)
    (translate 0 s ++ [0x1B]) = f
  have hparser : f.parser = .escape := by
    rw [← hfront, (front_stateAfter _ _).1, Transducer.stateAfter_append,
      Transducer.stateAfter_singleton]
    exact advance_esc _
  have hsettings : f.sink.sticky.settings = settingsAfter watermark s := by
    rw [← hfront, (front_stateAfter _ _).2, Transducer.outputs_append, List.foldl_append,
      Transducer.outputs_singleton, settingsAfter_eq]
    exact settings_esc _ _
  have hplain : PlainFront f := by
    rw [← hfront]
    exact (Front.machine table).run_induct (motive := PlainFront)
      (fun g b hg => plainFront_advance hg b) plainFront_init _
  -- the final byte: one callback, and its event asks for a purge
  have hlast : ((Front.machine table).advance f 0x63).2 =
      [.purge (clearBase ++ f.sink.sticky.buildSerialized)] := by
    have hstep : table.advance f.parser 0x63 = (.ground [], [.escDispatch [] false 0x63]) := by
      rw [hparser]
      rfl
    change (Front.advance table f 0x63).2 = _
    simp only [Front.advance, hstep]
    rfl
  refine ⟨f.sink.sticky, hsettings, hplain.2, ?_⟩
  rw [Scanner.ring_feed, hbytes, Transducer.outputs_append, hfront, Transducer.outputs_singleton,
    hlast, ChunkRing.applyAll_append]
  rfl

/-! ## What the prologue asserts -/

private theorem count_le_feedParam (s : Seq) (b : UInt8) :
    s.params.count ≤ (s.feedParam b).params.count := by
  unfold Seq.feedParam Seq.digit Seq.subparam Seq.nextParam
  repeat' split
  all_goals simp

private theorem count_le_foldl_feedParam (s : Seq) (bs : List UInt8) :
    s.params.count ≤ (bs.foldl Seq.feedParam s).params.count := by
  induction bs generalizing s with
  | nil => exact Nat.le_refl _
  | cons b bs ih => exact Nat.le_trans (count_le_feedParam s b) (ih _)

/-- The bare reset is never tracked as a rendition. -/
theorem sgr_track {s : StickyState} (h : s.sgr ≠ [0]) (cb : Callback) :
    (track s cb).sgr ≠ [0] := by
  have hmodes : ∀ (codes : List UInt16) (on : Bool) (st : StickyState), st.sgr ≠ [0] →
      (codes.foldl (fun st code => st.setDecMode code on) st).sgr ≠ [0] := by
    intro codes on
    induction codes with
    | nil => exact fun st hst => hst
    | cons code codes ih =>
        intro st hst
        apply ih
        cases on <;> exact hst
  cases cb with
  | csiDispatch params intermediates ignore action =>
      simp only [track, Sink.perform, Sink.csiDispatch]
      repeat' split
      all_goals first
        | exact h
        | exact hmodes _ _ _ h
        | simp_all [StickyState.setSgr, StickyState.invalidate]
  | oscDispatch params bell =>
      have hsgr : (track s (.oscDispatch params bell)).sgr = s.sgr :=
        congrArg Prod.fst (settings_track_osc s params bell)
      rw [hsgr]
      exact h
  | escDispatch intermediates ignore byte =>
      simp only [track, Sink.perform, Sink.escDispatch]
      repeat' split
      all_goals exact h
  | _ => exact h

/-- A reset is never stored as a list with one zero. -/
theorem sgr_settingsAfter (watermark : Nat) (bytes : List UInt8) :
    (settingsAfter watermark bytes).1 ≠ [0] := by
  rw [settingsAfter_eq]
  have hfold : ∀ (cbs : List Callback) (s : StickyState), s.sgr ≠ [0] →
      (cbs.foldl track s).sgr ≠ [0] := by
    intro cbs
    induction cbs with
    | nil => exact fun s hs => hs
    | cons cb cbs ih => exact fun s hs => ih _ (sgr_track hs cb)
  exact hfold _ _ (by simp [StickyState.new])

/-- A rendition of two values or more is read back as two values or more. -/
theorem two_le_count (p q : UInt16) (ps : List UInt16) :
    2 ≤ (csiSeq none (StickyState.joinParams (p :: q :: ps)) []).finish.params.count := by
  have hsep : ∀ s : Seq, 1 ≤ (s.feedParam 0x3B).params.count := by
    intro s
    change 1 ≤ s.nextParam.params.count
    unfold Seq.nextParam
    split
    · rename_i hfull
      have hcount : s.params.count = maxParams := by simpa [Params.isFull] using hfull
      simp [hcount, maxParams]
    · simp
  have hone : 1 ≤ (csiSeq none (StickyState.joinParams (p :: q :: ps)) []).params.count := by
    rw [csiSeq, joinParams_cons, List.foldl_nil, List.foldl_append, List.foldl_append,
      List.foldl_cons, List.foldl_nil]
    exact Nat.le_trans (hsep _) (count_le_foldl_feedParam _ _)
  unfold Seq.finish
  split
  · rename_i hfull
    have hcount : (csiSeq none (StickyState.joinParams (p :: q :: ps)) []).params.count = maxParams := by
      simpa [Params.isFull] using hfull
    simp [hcount, maxParams]
  · rw [Params.count_push]
    omega

private theorem asserts_sgr {sgr : List UInt16} (hne : sgr ≠ []) (hzero : sgr ≠ [0]) :
    Asserts (csiCallback none (StickyState.joinParams sgr) [] 0x6D) := by
  refine Or.inl ⟨rfl, ?_, ?_⟩
  · rw [intermediates_csiSeq]
    simp
  · cases sgr with
    | nil => contradiction
    | cons p ps =>
        cases ps with
        | nil =>
            have hflat : (csiSeq none (StickyState.joinParams [p]) []).finish.params.groups.flatten =
                [p] := flatten_groups_joinParams none (by simp) (by simp [maxParams])
            rw [hflat]
            exact ⟨by simp, hzero⟩
        | cons q ps =>
            have hlength := two_le_count p q ps
            rw [← Params.length_flatten_groups] at hlength
            constructor
            · intro hnil
              rw [hnil] at hlength
              contradiction
            · intro hreset
              rw [hreset] at hlength
              contradiction

private theorem asserts_decMode (code : UInt16) :
    Asserts (csiCallback (some 0x3F) (decimal code.toNat) [] 0x68) := by
  refine Or.inr (Or.inl ⟨rfl, ?_⟩)
  rw [intermediates_csiSeq]
  rfl

private theorem asserts_region (params : List UInt8) : Asserts (csiCallback none params [] 0x72) := by
  refine Or.inr (Or.inr ⟨rfl, ?_⟩)
  rw [intermediates_csiSeq]
  simp

/-- The base of a purge and the part of a prologue that is always there set nothing. -/
theorem not_asserts_base {cb : Callback}
    (h : cb ∈ [.csiDispatch [[2]] [] false 0x4A, .csiDispatch [[0]] [] false 0x48,
      .csiDispatch [[0]] [] false 0x6D]) : ¬ Asserts cb := by
  simp only [List.mem_cons, List.not_mem_nil, or_false] at h
  rcases h with rfl | rfl | rfl
  · decide
  · decide
  · decide

/-- The prologue of a purge sets nothing iff there is nothing to set. -/
theorem prologue_asserts_iff {s : StickyState} (hplain : PlainSticky s) (hsgr : s.sgr ≠ [0]) :
    (∀ cb ∈ table.outputs (.ground []) (clearBase ++ s.buildSerialized), ¬ Asserts cb) ↔
      s.settings = StickyState.new.settings := by
  have hbase : table.run (.ground []) clearBase =
      (.ground [], [.csiDispatch [[2]] [] false 0x4A, .csiDispatch [[0]] [] false 0x48]) := rfl
  have houtputs : table.outputs (.ground []) (clearBase ++ s.buildSerialized) =
      [.csiDispatch [[2]] [] false 0x4A, .csiDispatch [[0]] [] false 0x48] ++ prologueCallbacks s :=
    congrArg Prod.snd (run_ground_append hbase (run_buildSerialized hplain))
  have hreset : csiCallback none [0x30] [] 0x6D = .csiDispatch [[0]] [] false 0x6D := rfl
  rw [houtputs, prologueCallbacks, hreset]
  constructor
  · intro h
    have hsgrs : s.sgr = [] := by
      by_contra hne
      refine h (csiCallback none (StickyState.joinParams s.sgr) [] 0x6D) ?_ (asserts_sgr hne hsgr)
      simp [sgrCallbacks, hne]
    have hmodes : s.decModes.keys = [] := by
      cases hkeys : s.decModes.keys with
      | nil => rfl
      | cons code codes =>
          refine absurd (asserts_decMode code) (h _ ?_)
          simp [decModeCallbacks, hkeys]
    have hregion : s.scrollRegion = none := by
      cases hsome : s.scrollRegion with
      | none => rfl
      | some region =>
          have hasserts := asserts_region
            (decimal region.1.toNat ++ [0x3B] ++ decimal region.2.toNat)
          refine absurd hasserts (h _ ?_)
          simp [scrollRegionCallbacks, hsome]
    have hempty : s.decModes = DecModes.empty := by
      cases hall : s.decModes with
      | mk keys sorted =>
          rw [hall] at hmodes
          subst hmodes
          rfl
    simp [StickyState.settings, StickyState.new, hsgrs, hempty, hregion]
  · intro h cb hcb
    obtain ⟨hsgrs, hmodes, hregion⟩ : s.sgr = [] ∧ s.decModes = DecModes.empty ∧
        s.scrollRegion = none := by
      simpa [StickyState.settings, StickyState.new] using h
    simp only [sgrCallbacks, hsgrs, if_true, decModeCallbacks, hmodes, DecModes.empty, List.map_nil,
      scrollRegionCallbacks, hregion, List.append_nil] at hcb
    rcases List.mem_append.mp hcb with hcb | hcb
    · exact not_asserts_base (List.mem_append_left [_] hcb)
    · rcases List.mem_append.mp hcb with hcb | hcb
      · rcases List.mem_append.mp hcb with hcb | hcb
        · exact not_asserts_base (List.mem_append_right [_, _] hcb)
        · unfold cwdCallbacks at hcb
          split at hcb
          · contradiction
          · rw [List.mem_singleton.mp hcb]
            exact id
      · unfold titleCallbacks at hcb
        split at hcb
        · contradiction
        · rw [List.mem_singleton.mp hcb]
          exact id

/-! ## Main result -/

/-- RIS between two streams is a full reset iff the first one has left no rendition,
no private mode and no scroll region set. -/
theorem fullReset_iff (watermark : Nat) (s t : List UInt8) :
    FullReset watermark s t ↔ settingsAfter watermark s = StickyState.new.settings := by
  obtain ⟨sticky, hsettings, hplain, hprologue⟩ := ring_ris watermark s
  have hsgr : sticky.sgr ≠ [0] := by
    have hfirst := sgr_settingsAfter watermark s
    rw [← hsettings] at hfirst
    exact hfirst
  have hiff := prologue_asserts_iff hplain hsgr
  rw [← hprologue, hsettings] at hiff
  constructor
  · exact fun h => hiff.mp h.prologue
  · intro h
    refine ⟨?_, hiff.mpr h⟩
    rw [settingsAfter_ris, settingsAfter_eq watermark t]
    rw [settingsAfter_eq] at h
    exact settings_foldl_track h _

/-- A red rendition before RIS is tracked and re-asserted after it. -/
theorem not_fullReset_red :
    ¬ ∀ (watermark : Nat) (s t : List Item), FullReset watermark (Item.stream s) (Item.stream t) := by
  intro h
  have hred := (h 8 [.csi none [0x33, 0x31] [] 0x6D (by simp) (by simp [isParamByte, isDigit])
    (by simp) rfl] []).settings
  exact absurd hred (by decide +kernel)

end JftermMuxer.Core
