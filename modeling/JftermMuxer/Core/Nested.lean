import JftermMuxer.Core.Preservation
import JftermMuxer.Core.Labels
import JftermMuxer.Core.Reattach

/-!
# Recording a replay

A client may run in a terminal that is muxed itself.  What it draws, the replay of a
session and then the session's live output, is fed to another scanner.  A replay is
again a well-formed stream, of items that the other scanner keeps, so recording it
loses nothing: the second record is the first one, with the re-assertion of a cleared
screen written once more when the first one begins with a cleared screen.

Main results:

- Theorem {lit}`recorded_ringAfter`: along every well-formed stream, every capped
  replay is a stream of kept items, behind the clear base or not.
- Theorem {lit}`replay_nested`: the record of a replay and of what follows it.
- Theorem {lit}`replay_nested_deep`: the record at any depth of nesting.
-/

namespace JftermMuxer.Core

open Foundation Vte

/-! ## Tracked texts without DEL -/

/-- Every byte collected so far satisfies a property. -/
private def OscAll (P : UInt8 → Prop) (o : Osc) : Prop :=
  (∀ field ∈ o.fields, ∀ b ∈ field, P b) ∧ ∀ b ∈ o.current, P b

private theorem oscAll_putParam {P : UInt8 → Prop} {o : Osc} (h : OscAll P o) :
    OscAll P o.putParam := by
  unfold Osc.putParam
  split
  · exact h
  · refine ⟨?_, by simp⟩
    intro field hfield
    rcases List.mem_append.mp hfield with hfield | hfield
    · exact h.1 field hfield
    · rw [List.mem_singleton.mp hfield]
      exact h.2

private theorem oscAll_feed {P : UInt8 → Prop} {o : Osc} (h : OscAll P o) {b : UInt8} (hb : P b) :
    OscAll P (o.feed b) := by
  unfold Osc.feed
  split
  · exact oscAll_putParam h
  · exact ⟨h.1, List.forall_mem_append.mpr ⟨h.2, List.forall_mem_singleton.mpr hb⟩⟩

/-- What holds of every byte of a payload holds of every byte of its fields. -/
theorem forall_oscFields {P : UInt8 → Prop} {payload : List UInt8} (h : ∀ b ∈ payload, P b) :
    ∀ field ∈ oscFields payload, ∀ b ∈ field, P b := by
  have hfold : ∀ o : Osc, OscAll P o → OscAll P (payload.foldl Osc.feed o) := by
    induction payload with
    | nil => exact fun o ho => ho
    | cons b payload ih =>
        intro o ho
        rw [List.forall_mem_cons] at h
        exact ih h.2 _ (oscAll_feed ho h.1)
  exact (oscAll_putParam (hfold Osc.reset ⟨by simp [Osc.reset], by simp [Osc.reset]⟩)).1

/-- The tracked directory and title hold no DEL. -/
def NoDelete (s : StickyState) : Prop :=
  (∀ cwd, s.cwd = some cwd → 0x7F ∉ cwd) ∧ (∀ title, s.title = some title → 0x7F ∉ title)

/-- Equal labels are equally free of DEL. -/
theorem noDelete_of_labels {s t : StickyState} (h : NoDelete s)
    (hlabels : trackedLabels t = trackedLabels s) : NoDelete t := by
  have htitle : t.title = s.title := congrArg Labels.title hlabels
  have hcwd : t.cwd = s.cwd := congrArg Labels.cwd hlabels
  unfold NoDelete
  rw [htitle, hcwd]
  exact h

private theorem noDelete_osc {s : StickyState} (h : NoDelete s) {params : List (List UInt8)}
    (hparams : ∀ field ∈ params, 0x7F ∉ field) (bell : Bool) :
    NoDelete (track s (.oscDispatch params bell)) := by
  have hfield : ∀ text, params[1]? = some text → 0x7F ∉ text :=
    fun text htext => hparams text (List.mem_of_getElem? htext)
  simp only [track, Sink.perform, Sink.oscDispatch, Sink.oscClassify]
  split
  · split
    · rename_i text htext
      refine ⟨h.1, ?_⟩
      intro title htitle
      rw [← Option.some.inj htitle]
      exact hfield text htext
    · exact h
  · split
    · split
      · rename_i cwd hcwd
        refine ⟨?_, h.2⟩
        intro dir hdir
        rw [← Option.some.inj hdir]
        exact hfield cwd hcwd
      · exact h
    · repeat' split
      all_goals exact h

/-- An item brings no DEL into the labels. -/
theorem noDelete_item {s : StickyState} (h : NoDelete s) (i : Item) :
    NoDelete (track s i.callback) := by
  cases i with
  | osc payload terminator text plain =>
      apply noDelete_osc h
      intro field hfield hmem
      exact forall_oscFields (P := (· ≠ 0x7F)) (fun b hb => (plain b hb).2) field hfield 0x7F hmem rfl
  | _ => exact noDelete_of_labels h (trackedLabels_track s rfl)

/-- After any stream the labels are free of DEL. -/
theorem noDelete_frontAfter (items : List Item) : NoDelete (frontAfter items).sink.sticky := by
  induction items using List.reverseRecOn with
  | nil =>
      refine ⟨?_, ?_⟩
      · intro cwd hcwd
        cases hcwd
      · intro title htitle
        cases htitle
  | append_singleton items i ih =>
      rw [(after_snoc 0 items i (atRest_frontAfter items)).2.1]
      exact noDelete_item ih i

/-! ## Streams of kept items -/

/-- The bytes of items that a scanner keeps. -/
def Kept (bs : List UInt8) : Prop :=
  ∃ items : List Item, (∀ i ∈ items, verdict i = .keep) ∧ bs = Item.stream items

/-- Nothing at all is kept as it is. -/
theorem kept_nil : Kept [] := ⟨[], by simp, rfl⟩

/-- Two kept streams in a row are kept. -/
theorem Kept.append {as bs : List UInt8} (ha : Kept as) (hb : Kept bs) : Kept (as ++ bs) := by
  obtain ⟨before, hbefore, rfl⟩ := ha
  obtain ⟨after, hafter, rfl⟩ := hb
  exact ⟨before ++ after, List.forall_mem_append.mpr ⟨hbefore, hafter⟩, by simp⟩

/-- An item with the verdict to keep is kept. -/
theorem kept_item {i : Item} (h : verdict i = .keep) : Kept i.bytes :=
  ⟨[i], List.forall_mem_singleton.mpr h, by simp⟩

/-- A CSI sequence that selects rendition, modes or the scroll region. -/
theorem kept_csi (marker : Option UInt8) (params : List UInt8) {final : UInt8}
    (hmarker : ∀ m ∈ marker, isPrivate m = true) (hparams : ∀ b ∈ params, isParamByte b = true)
    (hfinal : final = 0x6D ∨ final = 0x68 ∨ final = 0x72) :
    Kept ([0x1B, 0x5B] ++ (marker.toList ++ params) ++ [final]) := by
  have hends : isFinal final = true := by
    rcases hfinal with rfl | rfl | rfl
    · rfl
    · rfl
    · rfl
  have hkeep : verdict (.csi marker params [] final hmarker hparams no_intermediates hends) = .keep := by
    rcases hfinal with rfl | rfl | rfl
    · rfl
    · rfl
    · rfl
  have hbytes := kept_item hkeep
  simpa [Item.bytes] using hbytes

/-- An OSC string that sets a directory or a title. -/
theorem kept_label {code : UInt8} {text : List UInt8} (hcode : code = 0x37 ∨ code = 0x32)
    (htext : IsText text) (hplain : Plain text) (hdel : 0x7F ∉ text) :
    Kept ([0x1B, 0x5D, code, 0x3B] ++ text ++ [0x07]) := by
  have hwhole : IsText (code :: 0x3B :: text) := by
    have hlow : code < 0x80 := by
      rcases hcode with rfl | rfl
      · decide
      · decide
    exact .cons (.one hlow) (.cons (.one (by decide)) htext)
  have hbytes : ∀ b ∈ code :: 0x3B :: text, 0x20 ≤ b ∧ b ≠ 0x7F := by
    intro b hb
    simp only [List.mem_cons] at hb
    rcases hb with rfl | rfl | hb
    · rcases hcode with rfl | rfl
      · decide
      · decide
    · decide
    · exact ⟨hplain b hb, fun heq => hdel (heq ▸ hb)⟩
  have hkeep : verdict (.osc (code :: 0x3B :: text) .bel hwhole hbytes) = .keep := by
    rcases hcode with rfl | rfl
    · rfl
    · rfl
  have hitem := kept_item hkeep
  simpa [Item.bytes, Terminator.bytes] using hitem

/-- A prologue is a stream of kept items. -/
theorem kept_prologue {s : StickyState} (h : Trackable s) (hplain : PlainSticky s)
    (hdel : NoDelete s) : Kept s.buildSerialized := by
  have hdigits : ∀ n, ∀ b ∈ decimal n, isParamByte b = true :=
    fun n b hb => isParamByte_of_digit (isDigit_of_mem_decimal hb)
  have hreset : Kept [0x1B, 0x5B, 0x30, 0x6D] :=
    kept_csi none [0x30] no_marker (by simp [isParamByte, isDigit]) (Or.inl rfl)
  have hsgr : Kept s.sgrBytes := by
    unfold StickyState.sgrBytes
    split
    · exact kept_nil
    · exact kept_csi none (StickyState.joinParams s.sgr) no_marker
        (fun b hb => isParamByte_of_mem_joinParams hb) (Or.inl rfl)
  have hmodes : Kept s.decModeBytes := by
    unfold StickyState.decModeBytes
    induction s.decModes.keys with
    | nil => exact kept_nil
    | cons code keys ih =>
        rw [List.map_cons, List.flatten_cons]
        exact (kept_csi (some 0x3F) (decimal code.toNat) (by simp [isPrivate]) (hdigits code.toNat)
          (Or.inr (Or.inl rfl))).append ih
  have hregion : Kept s.scrollRegionBytes := by
    unfold StickyState.scrollRegionBytes
    split
    · exact kept_nil
    · rename_i top bottom hsome
      have hpair := kept_csi none (decimal top.toNat ++ [0x3B] ++ decimal bottom.toNat) no_marker
        (fun b hb => isParamByte_of_mem_pair hb) (Or.inr (Or.inr rfl))
      simpa using hpair
  have hcwd : Kept s.cwdBytes := by
    unfold StickyState.cwdBytes
    split
    · exact kept_nil
    · rename_i cwd hsome
      exact kept_label (Or.inl rfl) (h.cwd cwd hsome).1 (hplain.1 cwd hsome) (hdel.1 cwd hsome)
  have htitle : Kept s.titleBytes := by
    unfold StickyState.titleBytes
    split
    · exact kept_nil
    · rename_i title hsome
      exact kept_label (Or.inr rfl) (h.title title hsome).1 (hplain.2 title hsome)
        (hdel.2 title hsome)
  unfold StickyState.buildSerialized
  exact ((((hreset.append hsgr).append hmodes).append hregion).append hcwd).append htitle

/-! ## Replays are records -/

/-- A stream of kept items, behind the clear base or not. -/
inductive Recorded : List UInt8 → Prop where
  | uncleared {bs : List UInt8} (kept : Kept bs) : Recorded bs
  | cleared {bs : List UInt8} (kept : Kept bs) : Recorded (clearBase ++ bs)

/-- A record followed by a kept stream is a record. -/
theorem Recorded.append {as bs : List UInt8} (ha : Recorded as) (hb : Kept bs) :
    Recorded (as ++ bs) := by
  cases ha with
  | uncleared kept => exact .uncleared (kept.append hb)
  | cleared kept =>
      rw [List.append_assoc]
      exact .cleared (kept.append hb)

/-- A record, or one up to the closing byte of an item. -/
private def AtClosing (i : Item) (bs : List UInt8) : Prop :=
  Recorded bs ∨ ∃ before, Recorded before ∧ bs = before ++ (i.body ++ [i.closing])

private theorem kept_backslash : Kept [0x5C] :=
  kept_item (i := .char [0x5C] (.one (by decide)) rfl) rfl

/-- One item: whatever chunk a replay starts at, it stays a record. -/
theorem recorded_itemOps {r : ChunkRing} (hr : ∀ k, Recorded (r.replay k)) (i : Item)
    {prologue : List UInt8} (hprologue : Kept prologue) (k : Nat) :
    Recorded ((r.applyAll (itemOps i prologue)).replay k) := by
  cases hv : verdict i with
  | drop =>
      have hnone : itemOps i prologue = [] := by simp [itemOps, hv, Verdict.ops]
      rw [hnone, ChunkRing.applyAll_nil]
      exact hr k
  | clear =>
      rw [itemOps_of_clear hv, ChunkRing.applyAll_cons, ChunkRing.applyAll_nil]
      change Recorded ((r.purge _).replay k)
      rw [ChunkRing.replay_purge]
      exact .cleared hprologue
  | keep =>
      have hmid : ∀ bs, Recorded bs → AtClosing i bs := fun bs hbs => Or.inl hbs
      have hclosing : ∀ bs, Recorded bs → AtClosing i (bs ++ (i.body ++ [i.closing])) :=
        fun bs hbs => Or.inr ⟨bs, hbs, rfl⟩
      have htail : ∀ bs, AtClosing i bs → Recorded (bs ++ i.tail) := by
        intro bs hbs
        rcases hbs with hbs | ⟨before, hbefore, rfl⟩
        · -- the chunk was opened between the closing byte and the backslash of an ST
          unfold Item.tail
          split
          · exact hbs.append kept_backslash
          · exact hbs.append kept_nil
        · rw [List.append_assoc, ← i.bytes_eq]
          exact hbefore.append (kept_item hv)
      exact forall_replay_itemOps hr (fun _ bs hbs => hbs) (.cleared hprologue)
        (.uncleared hprologue) hmid hclosing htail k

/-- Along every well-formed stream, every capped replay is a record. -/
theorem recorded_ringAfter (watermark : Nat) (items : List Item) (k : Nat) :
    Recorded ((ringAfter watermark items).replay k) := by
  induction items using List.reverseRecOn generalizing k with
  | nil =>
      change Recorded ((ChunkRing.new watermark).replay k)
      rw [ChunkRing.replay_new]
      exact .uncleared kept_nil
  | append_singleton items i ih =>
      rw [(after_snoc watermark items i (atRest_frontAfter items)).2.2]
      exact recorded_itemOps ih i (kept_prologue (trackable_frontAfter (items ++ [i]))
        (plainFront_frontAfter (items ++ [i])).2 (noDelete_frontAfter (items ++ [i]))) k

/-! ## A record does not begin with a clear of its own -/

/-- A quiet callback clears nothing. -/
theorem not_clearClass_of_quiet {cb : Callback} (h : isQuiet cb = true) :
    isClearClass cb = false := by
  cases cb with
  | csiDispatch params intermediates ignore action => cases h
  | escDispatch intermediates ignore byte => cases h
  | _ => rfl

/-- A callback that purges says so. -/
theorem event_of_clearClass (s : Sink) {cb : Callback} (h : isClearClass cb = true) :
    (s.perform cb).event = .clearSeq := by
  cases cb with
  | csiDispatch params intermediates ignore action =>
      simp only [isClearClass, Bool.and_eq_true, Bool.or_eq_true, beq_iff_eq] at h
      obtain ⟨rfl, hmode⟩ := h
      change (s.csiDispatch params intermediates 0x4A).event = .clearSeq
      rw [event_csi, if_neg (by decide), if_pos ⟨rfl, hmode⟩]
  | escDispatch intermediates ignore byte =>
      simp only [isClearClass, Bool.and_eq_true, beq_iff_eq] at h
      rw [h.2]
      rfl
  | _ => cases h

/-- A kept item makes no callback that purges. -/
theorem not_clearClass_of_keep {i : Item} (h : verdict i = .keep) :
    isClearClass i.callback = false := by
  have hmatches := matches_callback Sink.new i
  rw [h] at hmatches
  by_contra hclear
  rw [Bool.not_eq_false] at hclear
  rw [event_of_clearClass Sink.new hclear] at hmatches
  rcases hmatches with hmatches | hmatches
  · cases hmatches
  · cases hmatches

/-- Reading kept items makes no callback that purges. -/
theorem outputs_kept_items {bs : List UInt8} (h : Kept bs) :
    ∀ cb ∈ table.outputs (.ground []) bs, isClearClass cb = false := by
  obtain ⟨items, hkeep, rfl⟩ := h
  induction items with
  | nil => simp
  | cons i items ih =>
      rw [List.forall_mem_cons] at hkeep
      obtain ⟨quiet, hquiet, hrun⟩ := i.run_bytes
      have hstate : table.stateAfter (.ground []) i.bytes = .ground [] := by
        rw [Transducer.stateAfter, hrun]
      have htail : ∀ cb ∈ i.tailCallbacks, isClearClass cb = false := by
        intro cb hcb
        unfold Item.tailCallbacks at hcb
        split at hcb
        · rw [List.mem_singleton.mp hcb]
          rfl
        · cases hcb
      rw [Item.stream_cons, Transducer.outputs_append, hstate, Transducer.outputs, hrun]
      intro cb hcb
      rcases List.mem_append.mp hcb with hcb | hcb
      · rcases List.mem_append.mp hcb with hcb | hcb
        · rcases List.mem_append.mp hcb with hcb | hcb
          · exact not_clearClass_of_quiet (hquiet cb hcb)
          · rw [List.mem_singleton.mp hcb]
            exact not_clearClass_of_keep hkeep.1
        · exact htail cb hcb
      · exact ih hkeep.2 cb hcb

/-- A kept stream does not begin with the clear base. -/
theorem not_prefix_of_kept {bs : List UInt8} (h : Kept bs) : ¬ clearBase <+: bs := by
  rintro ⟨rest, rfl⟩
  have hclear := outputs_kept_items h (.csiDispatch [[2]] [] false 0x4A) (by
    rw [Transducer.outputs_append]
    exact List.mem_append_left _ List.mem_cons_self)
  cases hclear

/-! ## What the other scanner holds -/

/-- The prologue of a fresh scanner and the cursor home of the clear base: what a
scanner holds behind the clear base once it has read a clear base. -/
def reassertion : List UInt8 := [0x1B, 0x5B, 0x30, 0x6D, 0x1B, 0x5B, 0x48]

/-- A record that was recorded again a number of times. -/
def nestedRecord (depth : Nat) (record : List UInt8) : List UInt8 :=
  if clearBase.isPrefixOf record then
    clearBase ++ (List.replicate depth reassertion).flatten ++ record.drop clearBase.length
  else record

/-- A record without a clear is the same at every depth. -/
theorem nestedRecord_of_kept (depth : Nat) {bs : List UInt8} (h : Kept bs) :
    nestedRecord depth bs = bs := by
  rw [nestedRecord, if_neg]
  rw [List.isPrefixOf_iff_prefix]
  exact not_prefix_of_kept h

/-- A record with a clear gets one re-assertion for every level. -/
theorem nestedRecord_cleared (depth : Nat) (bs : List UInt8) :
    nestedRecord depth (clearBase ++ bs) =
      clearBase ++ ((List.replicate depth reassertion).flatten ++ bs) := by
  rw [nestedRecord, if_pos (List.isPrefixOf_iff_prefix.mpr (List.prefix_append _ _)),
    List.drop_left, List.append_assoc]

/-- At depth 0 a record is itself. -/
theorem nestedRecord_zero (bs : List UInt8) : nestedRecord 0 bs = bs := by
  unfold nestedRecord
  split
  · rename_i hbase
    obtain ⟨rest, rfl⟩ := List.isPrefixOf_iff_prefix.mp hbase
    rw [List.drop_left]
    simp
  · rfl

private theorem listed_all : ∀ b ∈ [(0x32 : UInt8)], isParamByte b = true := List.all_eq_true.mp rfl

private theorem listed_none : ∀ b ∈ ([] : List UInt8), isParamByte b = true := by simp

private theorem final_erase : isFinal 0x4A = true := rfl

private theorem final_home : isFinal 0x48 = true := rfl

/-- The erasure of the clear base. -/
def eraseScreen : Item :=
  .csi none [0x32] [] 0x4A no_marker listed_all no_intermediates final_erase

/-- The cursor home of the clear base. -/
def homeCursor : Item := .csi none [] [] 0x48 no_marker listed_none no_intermediates final_home

/-- Items that do not purge change nothing about the last clear. -/
theorem split_append_of_keepsHistory (items : List Item) {later : List Item}
    (h : ∀ i ∈ later, keepsHistory i = true) :
    throughClear (items ++ later) = throughClear items ∧
      sinceClear (items ++ later) = sinceClear items ++ later := by
  induction later using List.reverseRecOn with
  | nil => simp
  | append_singleton later i ih =>
      obtain ⟨hlater, hi⟩ := List.forall_mem_append.mp h
      have hkeeps := List.forall_mem_singleton.mp hi
      obtain ⟨hthrough, hsince⟩ := ih hlater
      unfold throughClear sinceClear at *
      rw [← List.append_assoc, List.rdropWhile_concat_pos _ _ _ hkeeps,
        List.rtakeWhile_concat_pos _ _ _ hkeeps, hthrough, hsince]
      simp

/-- The last clear of a stream is the last one of its later part, when there is one. -/
theorem split_append_of_clear (items : List Item) {later : List Item}
    (h : throughClear later ≠ []) :
    throughClear (items ++ later) = items ++ throughClear later ∧
      sinceClear (items ++ later) = sinceClear later := by
  induction later using List.reverseRecOn with
  | nil => exact absurd rfl h
  | append_singleton later i ih =>
      unfold throughClear sinceClear at *
      cases hkeeps : keepsHistory i with
      | true =>
          rw [List.rdropWhile_concat_pos _ _ _ hkeeps] at h
          obtain ⟨hthrough, hsince⟩ := ih h
          rw [← List.append_assoc, List.rdropWhile_concat_pos _ _ _ hkeeps,
            List.rtakeWhile_concat_pos _ _ _ hkeeps, List.rdropWhile_concat_pos _ _ _ hkeeps,
            List.rtakeWhile_concat_pos _ _ _ hkeeps, hthrough, hsince]
          exact ⟨rfl, rfl⟩
      | false =>
          have hpurges : ¬ keepsHistory i = true := by simp [hkeeps]
          rw [← List.append_assoc, List.rdropWhile_concat_neg _ _ _ hpurges,
            List.rtakeWhile_concat_neg _ _ _ hpurges, List.rdropWhile_concat_neg _ _ _ hpurges,
            List.rtakeWhile_concat_neg _ _ _ hpurges, List.append_assoc]
          exact ⟨rfl, rfl⟩

private theorem keepsHistory_of_keep {i : Item} (h : verdict i = .keep) : keepsHistory i = true := by
  simp [keepsHistory, h]

private theorem keptBytes_of_keep {items : List Item} (h : ∀ i ∈ items, verdict i = .keep)
    (later : List Item) : keptBytes (items ++ later) = Item.stream items ++ keptBytes later := by
  have hall : items.filter (verdict · = .keep) = items :=
    List.filter_eq_self.mpr fun i hi => decide_eq_true (h i hi)
  rw [keptBytes, keptPart_append, keptPart, hall]
  rfl

/-- The prologue of the clear base itself is that of a fresh scanner. -/
theorem clearPrologue_eraseScreen (watermark : Nat) :
    clearPrologue watermark [eraseScreen] = clearBase ++ [0x1B, 0x5B, 0x30, 0x6D] := by
  have hsticky := (after_snoc 0 [] eraseScreen atRest_init).2.1
  have hnew : (frontAfter [eraseScreen]).sink.sticky = StickyState.new := hsticky
  rw [clearPrologue, serialize_stream, hnew]
  rfl

/-- A record, read as a stream, is held as it stands, behind one more re-assertion if
it begins with the clear base. -/
theorem Recorded.full {bs : List UInt8} (h : Recorded bs) :
    ∃ items, bs = Item.stream items ∧ ∀ (watermark : Nat) (later : List Item),
      throughClear later = [] →
        (ringAfter watermark (items ++ later)).full = nestedRecord 1 bs ++ keptBytes later := by
  have hkeeps : ∀ items : List Item, (∀ i ∈ items, verdict i = .keep) →
      ∀ i ∈ items, keepsHistory i = true :=
    fun items hkeep i hi => keepsHistory_of_keep (hkeep i hi)
  cases h with
  | uncleared kept =>
      have hnested := nestedRecord_of_kept 1 kept
      obtain ⟨items, hkeep, rfl⟩ := kept
      refine ⟨items, rfl, ?_⟩
      intro watermark later hlater
      have hlast := List.rdropWhile_eq_nil_iff.mp hlater
      obtain ⟨hthrough, hsince⟩ := split_append_of_keepsHistory [] (List.forall_mem_append.mpr
        ⟨hkeeps items hkeep, hlast⟩)
      rw [List.nil_append] at hthrough hsince
      rw [full_ringAfter, hthrough, hsince, hnested]
      exact keptBytes_of_keep hkeep later
  | cleared kept =>
      obtain ⟨items, hkeep, rfl⟩ := kept
      refine ⟨eraseScreen :: homeCursor :: items, rfl, ?_⟩
      intro watermark later hlater
      have hlast := List.rdropWhile_eq_nil_iff.mp hlater
      have hshown : ∀ i ∈ homeCursor :: items, verdict i = .keep :=
        List.forall_mem_cons.mpr ⟨rfl, hkeep⟩
      obtain ⟨hthrough, hsince⟩ := split_append_of_keepsHistory [eraseScreen]
        (List.forall_mem_append.mpr ⟨hkeeps _ hshown, hlast⟩)
      have hsplit : eraseScreen :: homeCursor :: items ++ later =
          [eraseScreen] ++ (homeCursor :: items ++ later) := rfl
      have hclear : throughClear [eraseScreen] = [eraseScreen] ∧ sinceClear [eraseScreen] = [] :=
        ⟨rfl, rfl⟩
      rw [full_ringAfter, hsplit, hthrough, hsince, hclear.1, hclear.2, List.nil_append,
        clearPrologue_eraseScreen, keptBytes_of_keep hshown, nestedRecord_cleared]
      simp [reassertion, homeCursor, Item.bytes]

/-- A record, read as a stream, tracks what the recorded session tracks. -/
theorem sticky_of_record (watermark wantChunks : Nat) (items : List Item) {record later : List Item}
    (h : (ringAfter watermark items).replay wantChunks = Item.stream record) :
    (frontAfter (record ++ later)).sink.sticky = (frontAfter (items ++ later)).sink.sticky := by
  have hreads := (reads_ringAfter watermark items wantChunks).tracked
  rw [h] at hreads
  have hrecord : (frontAfter record).sink.sticky = (frontAfter items).sink.sticky :=
    (front_stateAfter (Front.init table) (Item.stream record)).2.trans hreads
  rw [sticky_frontAfter_append, sticky_frontAfter_append, hrecord]

/-- From the next clear on, what is recorded of a record and of the session's further
output is what the session's own scanner holds. -/
theorem full_of_record (watermark nestedWatermark wantChunks : Nat) (items : List Item)
    {record later : List Item}
    (h : (ringAfter watermark items).replay wantChunks = Item.stream record)
    (hclear : throughClear later ≠ []) :
    (ringAfter nestedWatermark (record ++ later)).full = (ringAfter watermark (items ++ later)).full := by
  obtain ⟨hthrough, hsince⟩ := split_append_of_clear record hclear
  obtain ⟨hown, hownSince⟩ := split_append_of_clear items hclear
  have hsome : ∀ before : List Item, (before ++ throughClear later).isEmpty = false := by
    intro before
    rw [List.isEmpty_eq_false_iff]
    exact List.append_ne_nil_of_right_ne_nil before hclear
  rw [full_ringAfter, full_ringAfter, hthrough, hsince, hown, hownSince, clearPrologue,
    clearPrologue, hsome, hsome, serialize_stream, serialize_stream,
    sticky_of_record watermark wantChunks items h]

/-! ## Main results -/

/-- A scanner that is fed a replay of a session, of any number of chunks, and then the
session's further output, in any pieces, replays all of it: the replay, nested once, and
the kept items behind it, and after a clear exactly what the session's own scanner
replays. -/
theorem replay_nested (watermark nestedWatermark wantChunks nestedChunks : Nat)
    (items later : List Item) (feeds nestedFeeds : List (List UInt8))
    (hfeeds : feeds.flatten = Item.stream items)
    (hnested : nestedFeeds.flatten =
      (Scanner.feedAll table (Scanner.new table watermark) feeds).replay wantChunks ++
        Item.stream later)
    (hcap : (Scanner.feedAll table (Scanner.new table nestedWatermark)
      nestedFeeds).ring.chunks.length ≤ nestedChunks) :
    (throughClear later = [] →
      (Scanner.feedAll table (Scanner.new table nestedWatermark) nestedFeeds).replay nestedChunks =
        nestedRecord 1
            ((Scanner.feedAll table (Scanner.new table watermark) feeds).replay wantChunks) ++
          keptBytes later) ∧
      (throughClear later ≠ [] → ∀ (laterFeeds : List (List UInt8)) (ownChunks : Nat),
        laterFeeds.flatten = Item.stream later →
        (Scanner.feedAll table (Scanner.new table watermark)
          (feeds ++ laterFeeds)).ring.chunks.length ≤ ownChunks →
        (Scanner.feedAll table (Scanner.new table nestedWatermark) nestedFeeds).replay nestedChunks =
          (Scanner.feedAll table (Scanner.new table watermark) (feeds ++ laterFeeds)).replay
            ownChunks) := by
  have hrecorded := recorded_ringAfter watermark items wantChunks
  rw [← replay_feedAll hfeeds] at hrecorded
  obtain ⟨record, hrecord, hfull⟩ := hrecorded.full
  have hstream : nestedFeeds.flatten = Item.stream (record ++ later) := by
    rw [hnested, hrecord, Item.stream_append]
  have hreplay : (Scanner.feedAll table (Scanner.new table nestedWatermark)
      nestedFeeds).replay nestedChunks = (ringAfter nestedWatermark (record ++ later)).full := by
    rw [Scanner.replay, ChunkRing.replay_of_length_le _ hcap,
      Scanner.ring_feedAll table (stable_stream _) hstream]
    rfl
  rw [hreplay]
  refine ⟨fun hlater => hfull nestedWatermark later hlater, ?_⟩
  intro hclear laterFeeds ownChunks hlaterFeeds hownCap
  have hown : (feeds ++ laterFeeds).flatten = Item.stream (items ++ later) := by
    rw [List.flatten_append, hfeeds, hlaterFeeds, Item.stream_append]
  rw [Scanner.replay, ChunkRing.replay_of_length_le _ hownCap,
    Scanner.ring_feedAll table (stable_stream _) hown]
  rw [replay_feedAll hfeeds] at hrecord
  exact full_of_record watermark nestedWatermark wantChunks items hrecord hclear

private theorem scalar_letter : IsScalar [0x43] := .one (by decide)

private theorem printable_letter : isControlChar [0x43] = false := rfl

/-- The letter {lit}`C`. -/
def moreItems : List Item := [.char [0x43] scalar_letter printable_letter]

/-- The letter {lit}`C` behind a clear. -/
def clearedItems : List Item := eraseScreen :: moreItems

/-- The stream of {lit}`sampleItems`, which clears the screen, is replayed to a scanner
with another watermark, and the letter {lit}`C` follows, first alone and then behind
another clear. -/
theorem replay_nested_sample :
    let feeds := [Item.stream sampleItems]
    let session := Scanner.feedAll table (Scanner.new table 1) feeds
    let nested := fun later => Scanner.feedAll table (Scanner.new table 64)
      [session.replay usizeMax, Item.stream later]
    (nested moreItems).replay usizeMax =
        nestedRecord 1 (session.replay usizeMax) ++ keptBytes moreItems ∧
      nestedRecord 1 (session.replay usizeMax) ++ keptBytes moreItems =
        clearBase ++ reassertion ++ [0x1B, 0x5B, 0x30, 0x6D, 0x1B, 0x5B, 0x33, 0x31, 0x6D] ++
          [0x42, 0x43] ∧
      (nested clearedItems).replay usizeMax =
        (Scanner.feedAll table (Scanner.new table 1) (feeds ++ [Item.stream clearedItems])).replay
          usizeMax := by
  refine ⟨?_, by decide, ?_⟩
  · exact (replay_nested 1 64 usizeMax usizeMax sampleItems moreItems [Item.stream sampleItems]
      [_, Item.stream moreItems] (by decide) (by decide) (by decide)).1 rfl
  · exact (replay_nested 1 64 usizeMax usizeMax sampleItems clearedItems [Item.stream sampleItems]
      [_, Item.stream clearedItems] (by decide) (by decide) (by decide)).2 (by decide)
      [Item.stream clearedItems] usizeMax (by decide) (by decide)

/-! ## Any depth -/

private theorem kept_reassertions (depth : Nat) :
    Kept (List.replicate depth reassertion).flatten := by
  have hreset : Kept [0x1B, 0x5B, 0x30, 0x6D] :=
    kept_csi none [0x30] no_marker (by simp [isParamByte, isDigit]) (Or.inl rfl)
  have hhome : Kept homeCursor.bytes := kept_item rfl
  induction depth with
  | zero => exact kept_nil
  | succ depth ih =>
      rw [List.replicate_succ, List.flatten_cons]
      exact (hreset.append hhome).append ih

/-- A nested record is a record. -/
theorem Recorded.nested {bs : List UInt8} (h : Recorded bs) (depth : Nat) :
    Recorded (nestedRecord depth bs) := by
  cases h with
  | uncleared kept =>
      rw [nestedRecord_of_kept depth kept]
      exact .uncleared kept
  | cleared kept =>
      rw [nestedRecord_cleared]
      exact .cleared ((kept_reassertions depth).append kept)

/-- One level more is one nesting more. -/
theorem Recorded.nested_succ {bs : List UInt8} (h : Recorded bs) (depth : Nat) :
    nestedRecord 1 (nestedRecord depth bs) = nestedRecord (depth + 1) bs := by
  cases h with
  | uncleared kept =>
      rw [nestedRecord_of_kept depth kept, nestedRecord_of_kept 1 kept,
        nestedRecord_of_kept (depth + 1) kept]
  | cleared kept =>
      have hone : (List.replicate 1 reassertion).flatten = reassertion := by simp
      rw [nestedRecord_cleared, nestedRecord_cleared, nestedRecord_cleared, hone,
        List.replicate_succ, List.flatten_cons, List.append_assoc reassertion]

/-- What scanners replay that are fed one another's full replays, in any pieces, the
first of them a given one. -/
inductive Rerecorded (record : List UInt8) : Nat → List UInt8 → Prop where
  | itself : Rerecorded record 0 record
  | again {depth : Nat} {bs : List UInt8} (watermark wantChunks : Nat) (feeds : List (List UInt8))
      (h : Rerecorded record depth bs) (hfeeds : feeds.flatten = bs)
      (hcap : (Scanner.feedAll table (Scanner.new table watermark) feeds).ring.chunks.length ≤
        wantChunks) :
      Rerecorded record (depth + 1)
        ((Scanner.feedAll table (Scanner.new table watermark) feeds).replay wantChunks)

/-- At any depth of nesting a replay is the session's own, behind as many re-assertions
as it was recorded again if it begins with a cleared screen; everything else in it is
as it was. -/
theorem replay_nested_deep (watermark wantChunks : Nat) (items : List Item)
    (feeds : List (List UInt8)) (hfeeds : feeds.flatten = Item.stream items) (depth : Nat)
    (bs : List UInt8)
    (h : Rerecorded ((Scanner.feedAll table (Scanner.new table watermark) feeds).replay wantChunks)
      depth bs) :
    bs = nestedRecord depth
      ((Scanner.feedAll table (Scanner.new table watermark) feeds).replay wantChunks) := by
  have hrecorded := recorded_ringAfter watermark items wantChunks
  rw [← replay_feedAll hfeeds] at hrecorded
  induction h with
  | itself => exact (nestedRecord_zero _).symm
  | again nestedWatermark nestedChunks nestedFeeds h hnested hcap ih =>
      rename_i depth before
      obtain ⟨record, hrecord, hfull⟩ := (hrecorded.nested depth).full
      have hstream : nestedFeeds.flatten = Item.stream record := by rw [hnested, ih, hrecord]
      have hheld := hfull nestedWatermark [] rfl
      rw [List.append_nil, hrecorded.nested_succ] at hheld
      rw [Scanner.replay, ChunkRing.replay_of_length_le _ hcap,
        Scanner.ring_feedAll table (stable_stream _) hstream]
      refine Eq.trans hheld ?_
      simp [keptBytes, keptPart]

/-- The stream of {lit}`sampleItems` two muxers deep. -/
theorem replay_nested_deep_sample :
    let session := Scanner.feedAll table (Scanner.new table 1) [Item.stream sampleItems]
    let outer := Scanner.feedAll table (Scanner.new table 64) [session.replay usizeMax]
    let outermost := Scanner.feedAll table (Scanner.new table 2) [outer.replay usizeMax]
    outermost.replay usizeMax = nestedRecord 2 (session.replay usizeMax) := by
  intro session outer outermost
  have houter : Rerecorded (session.replay usizeMax) 1 (outer.replay usizeMax) :=
    .again 64 usizeMax _ .itself (by simp) (by decide)
  exact replay_nested_deep 1 usizeMax sampleItems [Item.stream sampleItems] (by decide) 2 _
    (.again 2 usizeMax _ houter (by simp) (by decide))

end JftermMuxer.Core
