import JftermMuxer.Core.Prologue
import JftermMuxer.Core.Replay

/-!
# Parsing a prologue reconstructs the tracked state

The serialized sticky state, read by a performer that tracks nothing yet, leaves
it with the state that was serialized: decimal printing and reading, the 32
parameter limit and the splitting of OSC fields all have to fit.

Main results:

- Definition {lit}`Trackable`: what a tracked state satisfies on every
  well-formed stream.
- Theorem {lit}`foldl_track_prologue`: the callbacks of a prologue rebuild every
  trackable state.
-/

namespace JftermMuxer.Core

open Foundation Vte

/-! ## Parameters read back -/

/-- Digits only change the open value. -/
theorem foldl_feedParam_digits {s : Seq} (hroom : s.params.isFull = false)
    {ds : List UInt8} (hds : ∀ b ∈ ds, 0x30 ≤ b ∧ b ≤ 0x39) :
    ds.foldl Seq.feedParam s =
      { s with param := UInt16.ofNat (ds.foldl readDigit s.param.toNat) } := by
  induction ds generalizing s with
  | nil => simp
  | cons d ds ih =>
      have hd : isDigit d = true := by
        have hrange := hds d (by simp)
        simp [isDigit, hrange.1, hrange.2]
      have hfeed : s.feedParam d =
          { s with param := UInt16.ofNat (readDigit s.param.toNat d) } := by
        rw [Seq.feedParam, if_pos hd, Seq.digit, hroom]
        rfl
      have hvalue : (UInt16.ofNat (readDigit s.param.toNat d)).toNat =
          readDigit s.param.toNat d := by
        have hle : readDigit s.param.toNat d ≤ 65535 := Nat.min_le_left _ _
        rw [UInt16.toNat_ofNat']
        omega
      have hrest := ih (s := { s with param := UInt16.ofNat (readDigit s.param.toNat d) }) hroom
        (fun b hb => hds b (List.mem_cons_of_mem d hb))
      rw [List.foldl_cons, hfeed, hrest, hvalue, List.foldl_cons]

/-- A printed parameter is read back from a fresh position. -/
theorem foldl_feedParam_decimal {s : Seq} (hroom : s.params.isFull = false)
    (hzero : s.param = 0) (p : UInt16) :
    (decimal p.toNat).foldl Seq.feedParam s = { s with param := p } := by
  have hlt := p.toNat_lt
  rw [foldl_feedParam_digits hroom (fun b hb => isDigit_of_mem_decimal hb), hzero]
  have hread := foldl_readDigit_decimal p.toNat
  have hmin : min 65535 p.toNat = p.toNat := by omega
  rw [hmin] at hread
  simp [hread]

/-- Joined parameters are read back as one group each. -/
theorem finish_joinParams {s : Seq} {ps : List UInt16} (hne : ps ≠ [])
    (hopened : s.params.opened = []) (hzero : s.param = 0)
    (hroom : s.params.count + ps.length ≤ maxParams) :
    ((StickyState.joinParams ps).foldl Seq.feedParam s).finish.params =
      ⟨s.params.closed ++ ps.map fun p => [p], []⟩ := by
  have hnotFull : ∀ t : Seq, t.params.count < maxParams → t.params.isFull = false := by
    intro t ht
    simp only [Params.isFull, beq_eq_false_iff_ne]
    omega
  induction ps generalizing s with
  | nil => contradiction
  | cons p ps ih =>
      have hfull := hnotFull s (by simp at hroom; omega)
      cases ps with
      | nil =>
          rw [joinParams_singleton, foldl_feedParam_decimal hfull hzero, Seq.finish]
          simp [hfull, Params.push, hopened]
      | cons q ps =>
          have hnext : ({ s with param := p } : Seq).feedParam 0x3B =
              { s with params := s.params.push p, param := 0 } := by
            have hd : isDigit 0x3B = false := rfl
            rw [Seq.feedParam, hd, if_neg (by decide), if_neg (by decide), Seq.nextParam]
            simp [hfull]
          rw [joinParams_cons, List.foldl_append, List.foldl_append,
            foldl_feedParam_decimal hfull hzero, List.foldl_cons, List.foldl_nil, hnext]
          have hcount : (s.params.push p).count + (q :: ps).length ≤ maxParams := by
            rw [Params.count_push]
            simp only [List.length_cons] at hroom ⊢
            omega
          rw [ih (s := { s with params := s.params.push p, param := 0 }) (by simp) rfl rfl hcount]
          simp [Params.push, hopened]

/-- The groups a CSI with joined parameters is dispatched with. -/
theorem groups_joinParams (marker : Option UInt8) (ps : List UInt16) (hne : ps ≠ [])
    (hlen : ps.length ≤ maxParams) :
    (csiSeq marker (StickyState.joinParams ps) []).finish.params.groups = ps.map fun p => [p] := by
  obtain ⟨hparams, hparam⟩ := Seq.params_foldl_collect Seq.reset marker.toList
  have hfinish := finish_joinParams (s := marker.toList.foldl Seq.collect Seq.reset) hne
    (by rw [hparams]; rfl) hparam (by rw [hparams]; simpa [Seq.reset] using hlen)
  simp only [csiSeq, List.foldl_nil]
  rw [hfinish, hparams]
  simp [Params.groups, Seq.reset, Params.empty]

/-- A CSI with joined parameters is dispatched with their values. -/
theorem flatten_groups_joinParams (marker : Option UInt8) {ps : List UInt16} (hne : ps ≠ [])
    (hlen : ps.length ≤ maxParams) :
    (csiSeq marker (StickyState.joinParams ps) []).finish.params.groups.flatten = ps := by
  rw [groups_joinParams marker ps hne hlen, ← List.flatMap_def, List.flatMap_singleton']

private theorem intermediates_foldl_feedParam (s : Seq) (ps : List UInt8) :
    (ps.foldl Seq.feedParam s).intermediates = s.intermediates := by
  induction ps generalizing s with
  | nil => rfl
  | cons b ps ih =>
      have hstep : (s.feedParam b).intermediates = s.intermediates := by
        unfold Seq.feedParam Seq.digit Seq.subparam Seq.nextParam
        repeat' split
        all_goals rfl
      rw [List.foldl_cons, ih, hstep]

private theorem intermediates_foldl_collect {s : Seq}
    (h : s.intermediates.length ≤ maxIntermediates) (bs : List UInt8) :
    (bs.foldl Seq.collect s).intermediates = (s.intermediates ++ bs).take maxIntermediates := by
  induction bs generalizing s with
  | nil => simp [List.take_of_length_le h]
  | cons b bs ih =>
      rw [List.foldl_cons]
      by_cases hfull : s.intermediates.length = maxIntermediates
      · have hcollect : (s.collect b).intermediates = s.intermediates := by
          rw [Seq.collect, if_pos hfull]
        have hroom : (s.collect b).intermediates.length ≤ maxIntermediates := by
          rw [hcollect]
          exact h
        have hfits : ∀ more, (s.intermediates ++ more).take maxIntermediates = s.intermediates := by
          intro more
          rw [← hfull, List.take_left]
        rw [ih hroom, hcollect, hfits, hfits]
      · have hcollect : (s.collect b).intermediates = s.intermediates ++ [b] := by
          rw [Seq.collect, if_neg hfull]
        have hroom : (s.collect b).intermediates.length ≤ maxIntermediates := by
          rw [hcollect, List.length_append, List.length_singleton]
          omega
        rw [ih hroom, hcollect, List.append_assoc]
        rfl

/-- A CSI is dispatched with its private marker and its intermediates, two at most. -/
theorem intermediates_csiSeq_take (marker : Option UInt8) (ps is : List UInt8) :
    (csiSeq marker ps is).finish.intermediates = (marker.toList ++ is).take maxIntermediates := by
  have hfinish : ∀ s : Seq, s.finish.intermediates = s.intermediates := by
    intro s
    unfold Seq.finish
    split
    · rfl
    · rfl
  have hmarker : (marker.toList.foldl Seq.collect Seq.reset).intermediates = marker.toList := by
    cases marker with
    | none => rfl
    | some m => rfl
  have hlen : marker.toList.length ≤ maxIntermediates := by
    cases marker with
    | none => exact Nat.zero_le _
    | some m => exact Nat.le_of_ble_eq_true rfl
  rw [hfinish, csiSeq, intermediates_foldl_collect]
  · rw [intermediates_foldl_feedParam, hmarker]
  · rw [intermediates_foldl_feedParam, hmarker]
    exact hlen

/-- The private marker is the only intermediate of a prologue CSI. -/
theorem intermediates_csiSeq (marker : Option UInt8) (ps : List UInt8) :
    (csiSeq marker ps []).finish.intermediates = marker.toList := by
  rw [intermediates_csiSeq_take, List.append_nil]
  cases marker with
  | none => rfl
  | some m => rfl

/-! ## OSC fields read back -/

/-- A code and a text without semicolons are dispatched as two fields. -/
theorem oscFields_pair {code : UInt8} (hcode : code ≠ 0x3B) {text : List UInt8}
    (htext : 0x3B ∉ text) : oscFields ([code, 0x3B] ++ text) = [[code], text] := by
  have hfeed : Osc.reset.feed code = ⟨[], [code]⟩ := by
    simp [Osc.feed, hcode, Osc.put, Osc.reset]
  have hsep : (⟨[], [code]⟩ : Osc).feed 0x3B = ⟨[[code]], []⟩ := rfl
  rw [oscFields, List.foldl_append, List.foldl_cons, List.foldl_cons, List.foldl_nil, hfeed, hsep,
    foldl_feed_plain _ htext]
  rfl

/-! ## The tracked state read back -/

/-- A tracked text: encoded characters without a semicolon. -/
def FieldOk (text : List UInt8) : Prop := IsText text ∧ 0x3B ∉ text

/-- What the tracked state satisfies on every well-formed stream: at most 32 SGR
values and never the bare reset, no empty scroll region, and texts that are
single OSC fields. -/
structure Trackable (s : StickyState) : Prop where
  sgr_length : s.sgr.length ≤ maxParams
  sgr_ne : s.sgr ≠ [0]
  region : s.scrollRegion ≠ some (0, 0)
  cwd : ∀ cwd, s.cwd = some cwd → FieldOk cwd
  title : ∀ title, s.title = some title → FieldOk title
  cache : s.cache = none

/-- A fresh state is trackable. -/
theorem trackable_new : Trackable StickyState.new :=
  ⟨by simp [StickyState.new], by simp [StickyState.new], by simp [StickyState.new],
    by simp [StickyState.new], by simp [StickyState.new], rfl⟩

private theorem foldl_sgr (s : StickyState) (hlen : s.sgr.length ≤ maxParams) (hne : s.sgr ≠ [0])
    {t : StickyState} (ht : t.sgr = []) (hcache : t.cache = none) :
    (sgrCallbacks s).foldl track t = { t with sgr := s.sgr } := by
  unfold sgrCallbacks
  split
  · rename_i hnil
    rw [hnil, List.foldl_nil, ← ht]
  · rename_i hsgr
    have hflat := flatten_groups_joinParams none hsgr hlen
    have hints := intermediates_csiSeq none (StickyState.joinParams s.sgr)
    have hcond : ¬ (s.sgr = [] ∨ s.sgr = [0]) := by tauto
    simp only [List.foldl_cons, List.foldl_nil, track, csiCallback, Sink.perform, Sink.csiDispatch,
      hints, hflat]
    simp [hcond, StickyState.setSgr, StickyState.invalidate, hcache]

private theorem track_decMode (t : StickyState) (hcache : t.cache = none) (code : UInt16) :
    track t (csiCallback (some 0x3F) (decimal code.toNat) [] 0x68) =
      { t with decModes := t.decModes.insert code } := by
  have hgroups := groups_joinParams (some 0x3F) [code] (by simp) (by simp [maxParams])
  have hints := intermediates_csiSeq (some 0x3F) (decimal code.toNat)
  rw [joinParams_singleton] at hgroups
  simp only [track, csiCallback, Sink.perform, Sink.csiDispatch, hgroups, hints]
  simp [StickyState.setDecMode, StickyState.invalidate, hcache]

private theorem foldl_decModes {keys : List UInt16} (t : StickyState) (hcache : t.cache = none)
    (hsorted : (t.decModes.keys ++ keys).Pairwise (· < ·)) :
    ((keys.map fun code => csiCallback (some 0x3F) (decimal code.toNat) [] 0x68).foldl track t) =
      { t with decModes := ⟨t.decModes.keys ++ keys, hsorted⟩ } := by
  induction keys generalizing t with
  | nil => simp
  | cons code keys ih =>
      have hlt : ∀ key ∈ t.decModes.keys, key < code := by
        intro key hkey
        exact (List.pairwise_append.mp hsorted).2.2 key hkey code (by simp)
      have hinsert : (t.decModes.insert code).keys = t.decModes.keys ++ [code] :=
        DecModes.insertKey_of_forall_lt hlt
      rw [List.map_cons, List.foldl_cons, track_decMode t hcache code,
        ih { t with decModes := t.decModes.insert code } hcache (by simpa [hinsert] using hsorted)]
      simp [hinsert]

private theorem foldl_region (s t : StickyState) (hregion : s.scrollRegion ≠ some (0, 0))
    (ht : t.scrollRegion = none) (hcache : t.cache = none) :
    (scrollRegionCallbacks s).foldl track t = { t with scrollRegion := s.scrollRegion } := by
  unfold scrollRegionCallbacks
  split
  · rename_i hnone
    rw [hnone, List.foldl_nil, ← ht]
  · rename_i top bottom hsome
    have hjoin : decimal top.toNat ++ [0x3B] ++ decimal bottom.toNat =
        StickyState.joinParams [top, bottom] := by
      rw [joinParams_cons, joinParams_singleton]
    have hgroups := groups_joinParams none [top, bottom] (by simp) (by simp [maxParams])
    have hints := intermediates_csiSeq none (StickyState.joinParams [top, bottom])
    have hcond : ¬ (top = 0 ∧ bottom = 0) := by
      rintro ⟨rfl, rfl⟩
      exact hregion hsome
    rw [hjoin, hsome]
    simp only [List.foldl_cons, List.foldl_nil, track, csiCallback, Sink.perform, Sink.csiDispatch,
      hgroups, hints]
    simp [firstValue, hcond, StickyState.setScrollRegion, StickyState.invalidate, hcache]

private theorem foldl_cwd (s t : StickyState) (hcwd : ∀ cwd, s.cwd = some cwd → FieldOk cwd)
    (ht : t.cwd = none) (hcache : t.cache = none) :
    (cwdCallbacks s).foldl track t = { t with cwd := s.cwd } := by
  unfold cwdCallbacks
  split
  · rename_i hnone
    rw [hnone, List.foldl_nil, ← ht]
  · rename_i cwd hsome
    rw [hsome, oscFields_pair (by decide) (hcwd cwd hsome).2]
    simp [track, Sink.perform, Sink.oscDispatch, Sink.oscClassify, StickyState.setCwd,
      StickyState.invalidate, hcache]

private theorem foldl_title (s t : StickyState) (htitle : ∀ title, s.title = some title → FieldOk title)
    (ht : t.title = none) (hcache : t.cache = none) :
    (titleCallbacks s).foldl track t = { t with title := s.title } := by
  unfold titleCallbacks
  split
  · rename_i hnone
    rw [hnone, List.foldl_nil, ← ht]
  · rename_i title hsome
    rw [hsome, oscFields_pair (by decide) (htitle title hsome).2]
    simp [track, Sink.perform, Sink.oscDispatch, Sink.oscClassify, StickyState.setTitle,
      StickyState.invalidate, hcache]

/-- The callbacks of a prologue rebuild the state it was made from. -/
theorem foldl_track_prologue {s : StickyState} (h : Trackable s) :
    (prologueCallbacks s).foldl track StickyState.new = s := by
  have hreset : track StickyState.new (csiCallback none [0x30] [] 0x6D) = StickyState.new := by
    decide
  have hmodes := foldl_decModes { StickyState.new with sgr := s.sgr } rfl s.decModes.sorted
  rw [prologueCallbacks, List.foldl_append, List.foldl_append, List.foldl_append, List.foldl_append,
    List.foldl_append, List.foldl_cons, List.foldl_nil, hreset,
    foldl_sgr s h.sgr_length h.sgr_ne rfl rfl, decModeCallbacks, hmodes,
    foldl_region s _ h.region rfl rfl, foldl_cwd s _ h.cwd rfl rfl, foldl_title s _ h.title rfl rfl]
  obtain ⟨sgr, modes, region, cwd, title, cache⟩ := s
  have hcache : cache = none := h.cache
  simp [StickyState.new, DecModes.empty, hcache]

end JftermMuxer.Core
