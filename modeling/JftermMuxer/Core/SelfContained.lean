import JftermMuxer.Core.Reassert

/-!
# Self-contained chunks

Every replay, from whatever chunk it starts, re-establishes the tracked state: a
fresh scanner that reads it tracks what the original scanner tracks.  The
invariant links the prologue of every chunk to the tracked state at its cut.

Main results:

- Theorem {lit}`trackable_frontAfter`: the tracked state is trackable after every
  well-formed stream.
- Theorem {lit}`reads_ringAfter`: the invariant, for every capped replay.
- Theorem {lit}`replay_self_contained`: the scanner level statement.
-/

namespace JftermMuxer.Core

open Foundation Vte

/-! ## Tracked states are trackable -/

private theorem count_feedParam {s : Seq} (h : s.params.count ≤ maxParams) (b : UInt8) :
    (s.feedParam b).params.count ≤ maxParams := by
  have hroom : ¬ s.params.isFull = true → s.params.count + 1 ≤ maxParams := by
    intro hfull
    have hne : s.params.count ≠ maxParams := by simpa [Params.isFull] using hfull
    omega
  unfold Seq.feedParam
  split
  · unfold Seq.digit
    split <;> exact h
  · split
    · unfold Seq.subparam
      split
      · exact h
      · rename_i hfull
        rw [Params.count_extend]
        exact hroom hfull
    · unfold Seq.nextParam
      split
      · exact h
      · rename_i hfull
        rw [Params.count_push]
        exact hroom hfull

/-- A CSI is dispatched with at most 32 values. -/
theorem count_csiSeq (marker : Option UInt8) (params intermediates : List UInt8) :
    (csiSeq marker params intermediates).finish.params.count ≤ maxParams := by
  have hfold : ∀ (ps : List UInt8) (s : Seq), s.params.count ≤ maxParams →
      (ps.foldl Seq.feedParam s).params.count ≤ maxParams := by
    intro ps
    induction ps with
    | nil => exact fun s hs => hs
    | cons b ps ih => exact fun s hs => ih _ (count_feedParam hs b)
  have hmarker := (Seq.params_foldl_collect Seq.reset marker.toList).1
  have hseq : (csiSeq marker params intermediates).params.count ≤ maxParams := by
    rw [csiSeq, (Seq.params_foldl_collect _ intermediates).1]
    apply hfold
    rw [hmarker]
    decide
  unfold Seq.finish
  split
  · exact hseq
  · rename_i hfull
    have hne : (csiSeq marker params intermediates).params.count ≠ maxParams := by
      simpa [Params.isFull] using hfull
    rw [Params.count_push]
    omega

private theorem isText_append {a b : List UInt8} (ha : IsText a) (hb : IsText b) :
    IsText (a ++ b) := by
  induction ha with
  | nil => exact hb
  | cons hscalar _ ih =>
      rw [List.append_assoc]
      exact .cons hscalar ih

/-- The fields collected so far are fit to be tracked. -/
private def OscOk (o : Osc) : Prop := (∀ field ∈ o.fields, FieldOk field) ∧ FieldOk o.current

private theorem oscOk_putParam {o : Osc} (h : OscOk o) : OscOk o.putParam := by
  unfold Osc.putParam
  split
  · exact h
  · refine ⟨?_, .nil, by simp⟩
    intro field hfield
    rcases List.mem_append.mp hfield with hfield | hfield
    · exact h.1 field hfield
    · rw [List.mem_singleton.mp hfield]
      exact h.2

/-- One character of a payload: a separator, or bytes of the current field. -/
theorem oscOk_scalar {o : Osc} (h : OscOk o) {c : List UInt8} (hc : IsScalar c) :
    OscOk (c.foldl Osc.feed o) := by
  by_cases hsep : c = [0x3B]
  · subst hsep
    exact oscOk_putParam h
  · have hnot : 0x3B ∉ c := by
      obtain ⟨lead, tail, rfl, hwidth, hcont⟩ := hc.lead_cont
      intro hmem
      rcases List.mem_cons.mp hmem with hmem | hmem
      · subst hmem
        have htail : tail = [] := by simpa [leadWidth] using hwidth
        exact hsep (by rw [htail])
      · have hlow := hcont _ hmem
        contradiction
    have hfold : c.foldl Osc.feed o = { o with current := o.current ++ c } :=
      foldl_feed_plain o hnot
    have htext : IsText (o.current ++ c) := by
      have hone : IsText c := by simpa using IsText.cons hc .nil
      exact isText_append h.2.1 hone
    rw [hfold]
    refine ⟨h.1, htext, ?_⟩
    simpa [h.2.2] using hnot

/-- Every field of a valid payload is valid text without a semicolon. -/
theorem fieldOk_oscFields {payload : List UInt8} (h : IsText payload) :
    ∀ field ∈ oscFields payload, FieldOk field := by
  have hfold : ∀ o, OscOk o → OscOk (payload.foldl Osc.feed o) := by
    induction h with
    | nil => exact fun o ho => ho
    | cons hscalar _ ih =>
        intro o ho
        rw [List.foldl_append]
        exact ih _ (oscOk_scalar ho hscalar)
  exact (oscOk_putParam (hfold Osc.reset ⟨by simp [Osc.reset], .nil, by simp [Osc.reset]⟩)).1

private theorem trackable_osc {s : StickyState} (h : Trackable s) {params : List (List UInt8)}
    (hparams : ∀ field ∈ params, FieldOk field) (bell : Bool) :
    Trackable (track s (.oscDispatch params bell)) := by
  have hfield : ∀ text, params[1]? = some text → FieldOk text :=
    fun text htext => hparams text (List.mem_of_getElem? htext)
  simp only [track, Sink.perform, Sink.oscDispatch, Sink.oscClassify]
  split
  · split
    · rename_i text htext
      refine ⟨h.sgr_length, h.sgr_ne, h.region, h.cwd, ?_, rfl⟩
      intro title htitle
      rw [← Option.some.inj htitle]
      exact hfield text htext
    · exact h
  · split
    · split
      · rename_i cwd hcwd
        refine ⟨h.sgr_length, h.sgr_ne, h.region, ?_, h.title, rfl⟩
        intro dir hdir
        rw [← Option.some.inj hdir]
        exact hfield cwd hcwd
      · exact h
    · repeat' split
      all_goals exact h

private theorem trackable_foldl_setDecMode {s : StickyState} (h : Trackable s) (codes : List UInt16)
    (on : Bool) : Trackable (codes.foldl (fun st code => st.setDecMode code on) s) := by
  induction codes generalizing s with
  | nil => exact h
  | cons code codes ih =>
      apply ih
      cases on with
      | true => exact ⟨h.sgr_length, h.sgr_ne, h.region, h.cwd, h.title, rfl⟩
      | false => exact ⟨h.sgr_length, h.sgr_ne, h.region, h.cwd, h.title, rfl⟩

private theorem trackable_csi {s : StickyState} (h : Trackable s) {params : List (List UInt16)}
    (hlen : params.flatten.length ≤ maxParams) (intermediates : List UInt8) (ignore : Bool)
    (action : UInt8) : Trackable (track s (.csiDispatch params intermediates ignore action)) := by
  simp only [track, Sink.perform, Sink.csiDispatch]
  split
  · exact h
  split
  · exact h
  split
  · split
    · exact ⟨by simp [StickyState.setSgr, StickyState.invalidate],
        by simp [StickyState.setSgr, StickyState.invalidate], h.region, h.cwd, h.title, rfl⟩
    · rename_i hsgr
      exact ⟨hlen, fun hzero => hsgr (Or.inr hzero), h.region, h.cwd, h.title, rfl⟩
  split
  · refine ⟨h.sgr_length, h.sgr_ne, ?_, h.cwd, h.title, rfl⟩
    simp only [StickyState.setScrollRegion, StickyState.invalidate]
    split
    · simp
    · rename_i hcond
      intro hzero
      have hpair := Option.some.inj hzero
      exact hcond ⟨congrArg Prod.fst hpair, congrArg Prod.snd hpair⟩
  split
  · exact trackable_foldl_setDecMode h _ _
  split
  · exact h
  · exact h

/-- Every item keeps the tracked state trackable. -/
theorem trackable_item {s : StickyState} (h : Trackable s) (i : Item) :
    Trackable (track s i.callback) := by
  cases i with
  | osc payload terminator text plain => exact trackable_osc h (fieldOk_oscFields text) _
  | csi marker params intermediates final marked listed collected ends =>
      refine trackable_csi h ?_ _ _ _
      rw [Params.length_flatten_groups]
      exact count_csiSeq marker params intermediates
  | esc intermediates final collected ends =>
      simp only [Item.callback, track, Sink.perform, Sink.escDispatch]
      split <;> exact h
  | _ => exact h

/-- Behind a stream of items the tracked state is trackable. -/
theorem trackable_frontAfter (items : List Item) :
    Trackable (frontAfter items).sink.sticky := by
  induction items using List.reverseRecOn with
  | nil => exact trackable_new
  | append_singleton items i ih =>
      rw [(after_snoc 0 items i (atRest_frontAfter items)).2.1]
      exact trackable_item ih i

/-- A dropped item leaves the tracked state alone. -/
theorem track_of_drop {i : Item} (hi : verdict i = .drop) (s : StickyState) :
    track s i.callback = s := by
  cases i with
  | control byte c0 notEsc => rfl
  | csi marker params intermediates final marked listed collected ends =>
      simp only [verdict] at hi
      have hfinal : final = 0x6E ∨ final = 0x63 := by
        by_contra hnot
        rw [if_neg hnot] at hi
        split at hi <;> contradiction
      rcases hfinal with rfl | rfl
      · rfl
      · rfl
  | osc payload terminator text plain =>
      simp only [verdict] at hi
      have hcode : payload.takeWhile (· ≠ 0x3B) ∈ dropCodes := by
        by_contra hnot
        rw [if_neg hnot] at hi
        contradiction
      simp only [Item.callback, track, Sink.perform, Sink.oscDispatch, Sink.oscClassify,
        head_oscFields, Option.some.injEq]
      generalize payload.takeWhile (· ≠ 0x3B) = code at hcode
      simp only [dropCodes, List.mem_cons, List.not_mem_nil, or_false] at hcode
      rcases hcode with rfl | rfl | rfl | rfl
      · simp
        repeat' split
        all_goals rfl
      · rfl
      · simp
        repeat' split
        all_goals rfl
      · rfl
  | esc intermediates final collected ends =>
      simp only [verdict] at hi
      split at hi <;> contradiction
  | _ => contradiction

/-! ## The invariant of the ring -/

/-- A fresh scanner reads the bytes untranslated, ends in a good parser state and
tracks the given state. -/
structure Reads (good : State → Prop) (s : StickyState) (bs : List UInt8) : Prop where
  stable : Stable bs
  state : good (table.stateAfter (.ground []) bs)
  tracked : (table.outputs (.ground []) bs).foldl track StickyState.new = s

/-- Ends between two items. -/
abbrev ReadsWhole : StickyState → List UInt8 → Prop := Reads (· = .ground [])

/-- The condition on the end may be weakened. -/
theorem Reads.mono {good good' : State → Prop} {s : StickyState} {bs : List UInt8}
    (h : Reads good s bs) (himp : ∀ q, good q → good' q) : Reads good' s bs :=
  ⟨h.stable, himp _ h.state, h.tracked⟩

/-- Nothing reads as the fresh state. -/
theorem reads_nil : ReadsWhole StickyState.new [] := ⟨stable_nil, rfl, rfl⟩

private theorem stable_buildSerialized {s : StickyState} (h : Trackable s) :
    Stable s.buildSerialized := by
  apply prologue_induct stable_nil fun as bs has hbs => has.append hbs
  · intro w hw
    apply stable_ascii
    intro b hb
    rcases List.mem_cons.mp hb with rfl | hb
    · decide
    · rcases List.mem_cons.mp hb with rfl | hb
      · decide
      · exact (hw b hb).2
  · intro cwd hsome
    exact ((stable_ascii (by simp)).append (stable_text (h.cwd cwd hsome).1)).append
      (stable_ascii (by simp))
  · intro title hsome
    exact ((stable_ascii (by simp)).append (stable_text (h.title title hsome).1)).append
      (stable_ascii (by simp))

/-- A prologue alone re-establishes the state it was made from. -/
theorem reads_prologue {s : StickyState} (h : Trackable s) (hplain : PlainSticky s) :
    ReadsWhole s s.buildSerialized := by
  have hrun := run_buildSerialized hplain
  refine ⟨stable_buildSerialized h, congrArg Prod.fst hrun, ?_⟩
  rw [Transducer.outputs, hrun]
  exact foldl_track_prologue h

/-- The clear base and a prologue read as the tracked state. -/
theorem reads_clear {s : StickyState} (h : Trackable s) (hplain : PlainSticky s) :
    ReadsWhole s (clearBase ++ s.buildSerialized) := by
  have hbase : table.run (.ground []) clearBase =
      (.ground [], [.csiDispatch [[2]] [] false 0x4A, .csiDispatch [[0]] [] false 0x48]) := rfl
  have hrun := run_ground_append hbase (run_buildSerialized hplain)
  refine ⟨(stable_ascii (by simp [clearBase])).append (stable_buildSerialized h), congrArg Prod.fst hrun, ?_⟩
  rw [Transducer.outputs, hrun, List.foldl_append]
  exact foldl_track_prologue h

/-- Reading on through a word that has been read before. -/
theorem Reads.append {s s' : StickyState} {x w : List UInt8} {q : State} {cbs : List Callback}
    (hx : ReadsWhole s x) (hw : Stable w) (hrun : table.run (.ground []) w = (q, cbs))
    (htrack : cbs.foldl track s = s') : Reads (· = q) s' (x ++ w) := by
  refine ⟨hx.stable.append hw, ?_, ?_⟩
  · rw [Transducer.stateAfter_append, hx.state]
    exact congrArg Prod.fst hrun
  · rw [Transducer.outputs_append, hx.state, List.foldl_append, hx.tracked, Transducer.outputs, hrun,
      htrack]

private theorem stable_closing (i : Item) : Stable (i.body ++ [i.closing]) := by
  have hstable := stable_item i
  rw [i.bytes_eq] at hstable
  cases htail : i.hasTail with
  | false => simpa [Item.tail, htail] using hstable
  | true =>
      -- the closing byte is the ESC of the ST, which ends any character
      have hclosing : i.closing = 0x1B := Item.closing_of_hasTail htail
      have hend : remainingAfter (remainingAfter 0 i.body) [i.closing] = 0 :=
        (translate_ascii _ (by simp [hclosing]) (by simp)).2
      exact ⟨translate_of_append hstable.1, by rw [remainingAfter_append, hend]⟩

/-- The callbacks up to and including the closing byte track the item. -/
theorem run_closing (i : Item) (s : StickyState) :
    ∃ cbs, table.run (.ground []) (i.body ++ [i.closing]) = (i.closed, cbs) ∧
      cbs.foldl track s = track s i.callback := by
  obtain ⟨q, quiet, hbody, hquiet, hclosing⟩ := i.run_body
  refine ⟨quiet ++ [i.callback], ?_, ?_⟩
  · rw [Transducer.run_append, hbody, Transducer.run_cons, table_advance, hclosing]
    rfl
  · rw [List.foldl_append, foldl_track_quiet _ hquiet]
    rfl

/-- The backslash of an ST, read right after its ESC or at the start of a chunk,
tracks nothing. -/
theorem reads_tail {s : StickyState} {x : List UInt8} (i : Item)
    (h : Reads (fun q => q = .ground [] ∨ q = i.closed) s x) : ReadsWhole s (x ++ i.tail) := by
  cases hcase : i.hasTail with
  | false =>
      have hground : ∀ q, q = .ground [] ∨ q = i.closed → q = .ground [] := by
        simp [Item.closed, hcase]
      rw [Item.tail, hcase, if_neg Bool.false_ne_true, List.append_nil]
      exact h.mono hground
  | true =>
      rw [Item.tail, hcase, if_pos rfl]
      rw [Item.closed, hcase] at h
      refine ⟨h.stable.append (stable_ascii (by simp)), ?_, ?_⟩
      · rw [Transducer.stateAfter_append]
        rcases h.state with hq | hq
        · rw [hq]
          rfl
        · rw [hq]
          rfl
      · rw [Transducer.outputs_append, List.foldl_append, h.tracked]
        rcases h.state with hq | hq
        · rw [hq]
          rfl
        · rw [hq]
          rfl

/-- One item: whatever chunk a replay starts at, it keeps up with the tracked
state. -/
theorem reads_itemOps {r : ChunkRing} {s : StickyState} (hr : ∀ k, ReadsWhole s (r.replay k))
    (i : Item) (htrackable : Trackable (track s i.callback))
    (hplain : PlainSticky (track s i.callback)) (k : Nat) :
    ReadsWhole (track s i.callback)
      ((r.applyAll (itemOps i (track s i.callback).buildSerialized)).replay k) := by
  obtain ⟨cbs, hrun, htrack⟩ := run_closing i s
  refine forall_replay_itemOps hr ?_ (reads_clear htrackable hplain)
    (reads_prologue htrackable hplain) (fun x hx => hx.mono fun q hq => Or.inl hq)
    (fun x hx => (hx.append (stable_closing i) hrun htrack).mono fun q hq => Or.inr hq)
    (fun x hx => reads_tail i hx) k
  intro hdrop x hx
  rw [track_of_drop hdrop]
  exact hx

/-- Along every well-formed stream, every capped replay re-establishes the
tracked state. -/
theorem reads_ringAfter (watermark : Nat) (items : List Item) (k : Nat) :
    ReadsWhole (frontAfter items).sink.sticky ((ringAfter watermark items).replay k) := by
  induction items using List.reverseRecOn generalizing k with
  | nil =>
      change ReadsWhole StickyState.new ((ChunkRing.new watermark).replay k)
      rw [ChunkRing.replay_new]
      exact reads_nil
  | append_singleton items i ih =>
      obtain ⟨-, hsticky, hring⟩ := after_snoc watermark items i (atRest_frontAfter items)
      have htrackable := trackable_frontAfter (items ++ [i])
      have hplain := (plainFront_frontAfter (items ++ [i])).2
      rw [hsticky] at htrackable hplain hring ⊢
      rw [hring]
      exact reads_itemOps ih i htrackable hplain k

/-! ## Main result -/

/-- The tracked state of a fresh scanner that reads what has been read before. -/
theorem erase_sticky_feed (watermark : Nat) {s : StickyState} {bs : List UInt8}
    (h : ReadsWhole s bs) :
    (Scanner.feed table (Scanner.new table watermark) bs).sink.sticky.erase = s := by
  have hfront := congrArg (fun f => f.sink.sticky) (Scanner.front_feed table watermark bs)
  rw [h.stable.1] at hfront
  have htrack := (front_stateAfter (Front.init table) bs).2
  exact hfront.trans (htrack.trans h.tracked)

/-- The tracked fields agree. -/
def SameTracked (s t : StickyState) : Prop :=
  s.sgr = t.sgr ∧ s.decModes = t.decModes ∧ s.scrollRegion = t.scrollRegion ∧ s.cwd = t.cwd ∧
    s.title = t.title

/-- States that differ in the cache alone have the same tracked fields. -/
theorem sameTracked_of_erase {s t : StickyState} (h : s.erase = t.erase) :
    SameTracked s t :=
  ⟨congrArg (·.sgr) h, congrArg (·.decModes) h, congrArg (·.scrollRegion) h, congrArg (·.cwd) h,
    congrArg (·.title) h⟩

/-- Every capped replay of a well-formed stream, fed to a fresh scanner, leaves it
tracking what the original scanner tracks; so does the serialized state alone. -/
theorem replay_self_contained (watermark freshWatermark wantChunks : Nat) (items : List Item)
    (feeds : List (List UInt8)) (hfeeds : feeds.flatten = Item.stream items) :
    let original := Scanner.feedAll table (Scanner.new table watermark) feeds
    let fresh := Scanner.new table freshWatermark
    SameTracked (Scanner.feed table fresh (original.replay wantChunks)).sink.sticky
        original.sink.sticky ∧
      SameTracked (Scanner.feed table fresh original.sink.sticky.serialize.1).sink.sticky
        original.sink.sticky := by
  intro original fresh
  have horiginal : original = Scanner.feed table (Scanner.new table watermark) (Item.stream items) := by
    rw [← hfeeds]
    exact Scanner.feedAll_eq_feed table _ feeds
  have htracked : original.sink.sticky.erase = (frontAfter items).sink.sticky := by
    have hfront := Scanner.front_feed table watermark (Item.stream items)
    rw [(stable_stream items).1, ← horiginal] at hfront
    exact congrArg (fun f => f.sink.sticky) hfront
  have hreplay : original.replay wantChunks = (ringAfter watermark items).replay wantChunks :=
    replay_feedAll hfeeds wantChunks
  have hserialize : original.sink.sticky.serialize.1 =
      (frontAfter items).sink.sticky.buildSerialized := by
    rw [horiginal]
    exact serialize_stream watermark items
  refine ⟨sameTracked_of_erase ?_, sameTracked_of_erase ?_⟩
  · rw [htracked, hreplay]
    exact erase_sticky_feed freshWatermark (reads_ringAfter watermark items wantChunks)
  · rw [htracked, hserialize]
    exact erase_sticky_feed freshWatermark
      (reads_prologue (trackable_frontAfter items) (plainFront_frontAfter items).2)

/-- A title, a red SGR and bracketed paste, cut after every span: the last chunk
alone carries them all. -/
theorem replay_self_contained_sample :
    let original := Scanner.feedAll table (Scanner.new table 1)
      [[0x1B, 0x5D, 0x30, 0x3B, 0x74, 0x1B], [0x5C, 0x1B, 0x5B, 0x33, 0x31, 0x6D, 0x1B, 0x5B, 0x3F,
        0x32, 0x30, 0x30, 0x34, 0x68]]
    let fresh := Scanner.new table 64
    SameTracked (Scanner.feed table fresh (original.replay 1)).sink.sticky original.sink.sticky ∧
      SameTracked (Scanner.feed table fresh original.sink.sticky.serialize.1).sink.sticky
        original.sink.sticky :=
  replay_self_contained 1 64 1
    [.osc [0x30, 0x3B, 0x74] .st
        (.cons (.one (by decide)) (.cons (.one (by decide)) (.cons (.one (by decide)) .nil)))
        (by simp),
      .csi none [0x33, 0x31] [] 0x6D (by simp) (List.all_eq_true.mp rfl) (by simp) rfl,
      .csi (some 0x3F) [0x32, 0x30, 0x30, 0x34] [] 0x68 (by simp [isPrivate]) (List.all_eq_true.mp rfl) (by simp)
        rfl] _ (by decide)

end JftermMuxer.Core
