import JftermMuxer.Core.SelfContained
import JftermMuxer.Core.Watermark
import JftermMuxer.Vte.Labels

/-!
# Title and directory across a cut

The performer receives the payload of a title or of a directory cut at its
semicolons and tracks the first piece of its text.  A replay that starts behind the
sequence shows that piece.

Main results:

- Theorem {lit}`tracked_labels`: the tracked title and directory are the first pieces
  of what the terminal has.
- Theorem {lit}`labels_prologue`: a prologue sets what is tracked.
- Theorem {lit}`labels_survive_iff`: every capped replay leaves the title and the
  directory of the stream iff neither contains a semicolon.
-/

namespace JftermMuxer.Core

open Foundation Vte

/-! ## What is tracked -/

/-- A text up to its first semicolon. -/
def firstPiece (text : List UInt8) : List UInt8 := text.takeWhile (· ≠ 0x3B)

/-- The first pieces of title and directory. -/
def firstPieces (l : Labels) : Labels := ⟨l.title.map firstPiece, l.cwd.map firstPiece⟩

/-- The title and the directory of a tracked state. -/
def trackedLabels (s : StickyState) : Labels := ⟨s.title, s.cwd⟩

/-- An OSC 1, which names an icon. -/
def isIconName : Item → Bool
  | .osc payload _ _ _ => payload.takeWhile (· ≠ 0x3B) == [0x31]
  | .char _ _ _ | .control _ _ _ | .esc _ _ _ _ | .csi _ _ _ _ _ _ _ _ | .dcs _ _ _ _ _ _ => false

private theorem trackedLabels_setDecModes (s : StickyState) (codes : List UInt16) (on : Bool) :
    trackedLabels (codes.foldl (fun st code => st.setDecMode code on) s) = trackedLabels s := by
  induction codes generalizing s with
  | nil => rfl
  | cons code codes ih =>
      rw [List.foldl_cons, ih]
      cases on with
      | true => rfl
      | false => rfl

/-- Only OSC strings change title and directory. -/
theorem trackedLabels_track (s : StickyState) {cb : Callback} (h : cb.isOsc = false) :
    trackedLabels (track s cb) = trackedLabels s := by
  cases cb with
  | oscDispatch params bell => cases h
  | csiDispatch params intermediates ignore action =>
      simp only [track, Sink.perform, Sink.csiDispatch]
      repeat' split
      all_goals first
        | rfl
        | exact trackedLabels_setDecModes s _ _
  | escDispatch intermediates ignore byte =>
      simp only [track, Sink.perform, Sink.escDispatch]
      repeat' split
      all_goals rfl
  | print _ | execute _ | hook _ _ _ _ | put _ | unhook => rfl

/-- The performer sets the first piece of what the terminal sets. -/
theorem trackedLabels_osc {s : StickyState} {l : Labels} (h : trackedLabels s = firstPieces l)
    {payload : List UInt8} (hicon : payload.takeWhile (· ≠ 0x3B) ≠ [0x31]) (bell : Bool) :
    trackedLabels (track s (.oscDispatch (oscFields payload) bell)) = firstPieces (l.set payload) := by
  have htext := second_oscFields payload
  simp only [track, Sink.perform, Sink.oscDispatch, Sink.oscClassify, head_oscFields,
    Option.some.injEq, Labels.set, htext]
  generalize payload.takeWhile (· ≠ 0x3B) = code at hicon ⊢
  by_cases htitle : code = [0x30] ∨ code = [0x32]
  · have hany : code = [0x30] ∨ code = [0x31] ∨ code = [0x32] := by tauto
    simp only [if_pos htitle, if_pos hany]
    cases oscText payload with
    | none => exact h
    | some text => exact congrArg (Labels.mk (some (firstPiece text))) (congrArg Labels.cwd h)
  · have hnot : ¬ (code = [0x30] ∨ code = [0x31] ∨ code = [0x32]) := by tauto
    simp only [if_neg htitle, if_neg hnot]
    by_cases hcwd : code = [0x37]
    · simp only [if_pos hcwd]
      cases oscText payload with
      | none => exact h
      | some text =>
          exact congrArg (fun t => Labels.mk t (some (firstPiece text))) (congrArg Labels.title h)
    · simp only [if_neg hcwd]
      repeat' split
      all_goals exact h

/-- The tracked title and directory are the first pieces of what a terminal has that
has read the stream. -/
theorem tracked_labels {items : List Item} (h : ∀ i ∈ items, isIconName i = false) :
    trackedLabels (frontAfter items).sink.sticky = firstPieces (labels (Item.stream items)) := by
  induction items using List.reverseRecOn with
  | nil => rfl
  | append_singleton items i ih =>
      have htracked := ih fun j hj => h j (List.mem_append_left _ hj)
      have hicon := h i (by simp)
      obtain ⟨-, hsticky, -⟩ := after_snoc 0 items i (atRest_frontAfter items)
      rw [hsticky, labels_append_item]
      cases i with
      | osc payload terminator text plain =>
          apply trackedLabels_osc htracked
          simpa [isIconName] using hicon
      | char _ _ _ | control _ _ _ | esc _ _ _ _ | csi _ _ _ _ _ _ _ _ | dcs _ _ _ _ _ _ =>
          exact (trackedLabels_track _ rfl).trans htracked

/-! ## What a prologue sets -/

private theorem oscReader_prefixed {code : UInt8} (hcode : 0x20 ≤ code) {text : List UInt8}
    (htext : Plain text) :
    oscReader.run oscReader.init ([0x1B, 0x5D, code, 0x3B] ++ text ++ [0x07]) =
      (oscReader.init, [[code, 0x3B] ++ text]) :=
  oscReader_bel (plain_prefixed hcode htext)

/-- Without title and directory a prologue holds no OSC string. -/
theorem oscReader_unlabelled (s : StickyState) :
    oscReader.run oscReader.init (StickyState.buildSerialized { s with cwd := none, title := none }) =
      (oscReader.init, []) := by
  have hplain : PlainSticky { s with cwd := none, title := none } := ⟨by simp, by simp⟩
  refine oscReader_run (run_buildSerialized hplain) ?_ rfl
  intro cb hcb
  simp only [prologueCallbacks, cwdCallbacks, titleCallbacks, List.append_nil, List.mem_append,
    List.mem_singleton] at hcb
  rcases hcb with ((hreset | hsgr) | hmode) | hregion
  · rw [hreset]
    rfl
  · unfold sgrCallbacks at hsgr
    split at hsgr
    · cases hsgr
    · rw [List.mem_singleton.mp hsgr]
      rfl
  · obtain ⟨code, -, rfl⟩ := List.mem_map.mp hmode
    rfl
  · unfold scrollRegionCallbacks at hregion
    split at hregion
    · cases hregion
    · rw [List.mem_singleton.mp hregion]
      rfl

/-- A prologue is read from rest to rest. -/
theorem oscReader_prologue {s : StickyState} (h : PlainSticky s) :
    oscReader.run oscReader.init s.buildSerialized =
      (oscReader.init, (s.cwd.map ([0x37, 0x3B] ++ ·)).toList ++
        (s.title.map ([0x32, 0x3B] ++ ·)).toList) := by
  have hcwd : oscReader.run oscReader.init s.cwdBytes =
      (oscReader.init, (s.cwd.map ([0x37, 0x3B] ++ ·)).toList) := by
    unfold StickyState.cwdBytes
    cases hsome : s.cwd with
    | none => rfl
    | some cwd => exact oscReader_prefixed (by decide) (h.1 cwd hsome)
  have htitle : oscReader.run oscReader.init s.titleBytes =
      (oscReader.init, (s.title.map ([0x32, 0x3B] ++ ·)).toList) := by
    unfold StickyState.titleBytes
    cases hsome : s.title with
    | none => rfl
    | some title => exact oscReader_prefixed (by decide) (h.2 title hsome)
  have hsplit : s.buildSerialized =
      StickyState.buildSerialized { s with cwd := none, title := none } ++
        (s.cwdBytes ++ s.titleBytes) := by
    simp [StickyState.buildSerialized, StickyState.sgrBytes, StickyState.decModeBytes,
      StickyState.scrollRegionBytes, StickyState.cwdBytes, StickyState.titleBytes]
  rw [hsplit, Transducer.run_append, oscReader_unlabelled, Transducer.run_append, hcwd, htitle]
  rfl

/-- A prologue sets what is tracked, also behind bytes that set nothing. -/
theorem labels_prologue {s : StickyState} (h : PlainSticky s) {bytes : List UInt8}
    (hbytes : oscReader.run oscReader.init bytes = (oscReader.init, [])) :
    oscReader.stateAfter oscReader.init (bytes ++ s.buildSerialized) = oscReader.init ∧
      labels (bytes ++ s.buildSerialized) = trackedLabels s := by
  have hrest : oscReader.stateAfter oscReader.init bytes = oscReader.init := congrArg Prod.fst hbytes
  obtain ⟨hstate, hlabels⟩ := labels_append hrest (oscReader_prologue h)
  have hcold : labels bytes = Labels.cold := by
    rw [labels, Transducer.outputs, hbytes]
    rfl
  refine ⟨hstate, ?_⟩
  rw [hlabels, hcold, trackedLabels]
  cases s.cwd with
  | none =>
      cases s.title with
      | none => rfl
      | some title => rfl
  | some cwd =>
      cases s.title with
      | none => rfl
      | some title => rfl

/-! ## Capped replays -/

/-- A replay that starts before a sequence shows its text, one that starts behind it
shows the first piece. -/
structure Near (whole shown : Labels) : Prop where
  title : shown.title = whole.title ∨ shown.title = whole.title.map firstPiece
  cwd : shown.cwd = whole.cwd ∨ shown.cwd = whole.cwd.map firstPiece

/-- The first pieces of labels are near them. -/
theorem near_firstPieces (l : Labels) : Near l (firstPieces l) := ⟨Or.inr rfl, Or.inr rfl⟩

/-- A payload keeps labels near their first pieces. -/
theorem Near.set {whole shown : Labels} (h : Near whole shown) (payload : List UInt8) :
    Near (whole.set payload) (shown.set payload) := by
  unfold Labels.set
  cases oscText payload with
  | none => exact h
  | some text =>
      dsimp only
      split
      · exact ⟨Or.inl rfl, h.cwd⟩
      · split
        · exact ⟨h.title, Or.inl rfl⟩
        · exact h

/-- Payloads keep labels near their first pieces. -/
theorem Near.setAll {whole shown : Labels} (h : Near whole shown) (payloads : List (List UInt8)) :
    Near (payloads.foldl Labels.set whole) (payloads.foldl Labels.set shown) := by
  induction payloads generalizing whole shown with
  | nil => exact h
  | cons payload payloads ih => exact ih (h.set payload)

/-- Bytes that leave the reader in some state, close to the given labels. -/
structure Shows (good : OscReader → Prop) (l : Labels) (bytes : List UInt8) : Prop where
  state : good (oscReader.stateAfter oscReader.init bytes)
  near : Near l (labels bytes)

/-- Further bytes show the labels with the payloads they hold. -/
theorem Shows.append {good : OscReader → Prop} {l : Labels} {bytes more : List UInt8}
    {r : OscReader} {payloads : List (List UInt8)} (h : Shows good l bytes)
    (hmore : ∀ q, good q → oscReader.run q more = (r, payloads)) :
    Shows (· = r) (payloads.foldl Labels.set l) (bytes ++ more) := by
  obtain ⟨hstate, hlabels⟩ := labels_append rfl (hmore _ h.state)
  refine ⟨hstate, ?_⟩
  rw [hlabels]
  exact h.near.setAll payloads

/-- A dropped item sets nothing. -/
theorem set_of_drop {i : Item} (h : verdict i = .drop) (l : Labels) :
    i.payloads.foldl Labels.set l = l := by
  cases i with
  | osc payload terminator text plain =>
      have hcode : payload.takeWhile (· ≠ 0x3B) ∈ dropCodes := by
        by_contra hnot
        rw [verdict, if_neg hnot] at h
        cases h
      simp only [Item.payloads, List.foldl_cons, List.foldl_nil, Labels.set]
      generalize payload.takeWhile (· ≠ 0x3B) = code at hcode
      cases oscText payload with
      | none => rfl
      | some text =>
          simp only [dropCodes, List.mem_cons, List.not_mem_nil, or_false] at hcode
          rcases hcode with rfl | rfl | rfl | rfl
          · rfl
          · rfl
          · rfl
          · rfl
  | char _ _ _ | control _ _ _ | esc _ _ _ _ | csi _ _ _ _ _ _ _ _ | dcs _ _ _ _ _ _ => rfl

/-- The prologue of the moment, alone or behind the base of a clear, sets the first
pieces. -/
theorem labels_cut {items : List Item} (h : ∀ i ∈ items, isIconName i = false)
    (base : List UInt8) (hbase : oscReader.run oscReader.init base = (oscReader.init, [])) :
    oscReader.stateAfter oscReader.init
        (base ++ (frontAfter items).sink.sticky.buildSerialized) = oscReader.init ∧
      labels (base ++ (frontAfter items).sink.sticky.buildSerialized) =
        firstPieces (labels (Item.stream items)) := by
  obtain ⟨hstate, hlabels⟩ := labels_prologue (plainFront_frontAfter items).2 hbase
  exact ⟨hstate, hlabels.trans (tracked_labels h)⟩

/-- Along every well-formed stream without an OSC 1, every capped replay is close to
the labels of the stream. -/
theorem shows_ringAfter (watermark : Nat) {items : List Item}
    (h : ∀ i ∈ items, isIconName i = false) (k : Nat) :
    Shows (· = oscReader.init) (labels (Item.stream items)) ((ringAfter watermark items).replay k) := by
  induction items using List.reverseRecOn generalizing k with
  | nil =>
      change Shows _ _ ((ChunkRing.new watermark).replay k)
      rw [ChunkRing.replay_new]
      exact ⟨rfl, Or.inl rfl, Or.inl rfl⟩
  | append_singleton items i ih =>
      have hbefore := ih fun j hj => h j (List.mem_append_left _ hj)
      obtain ⟨-, -, hring⟩ := after_snoc watermark items i (atRest_frontAfter items)
      have hprologue : ∀ base, oscReader.run oscReader.init base = (oscReader.init, []) →
          Shows (· = oscReader.init) (labels (Item.stream (items ++ [i])))
            (base ++ (frontAfter (items ++ [i])).sink.sticky.buildSerialized) := by
        intro base hbase
        obtain ⟨hstate, hlabels⟩ := labels_cut h base hbase
        exact ⟨hstate, hlabels ▸ near_firstPieces _⟩
      rw [hring]
      rw [labels_append_item] at hprologue ⊢
      -- a chunk opened between an ESC and its backslash starts with a reader at rest
      have hmid : ∀ x, Shows (· = oscReader.init) (i.payloads.foldl Labels.set
          (labels (Item.stream items))) x →
            Shows (fun q => q = oscReader.init ∨ q = ⟨i.closed, []⟩) (i.payloads.foldl Labels.set
              (labels (Item.stream items))) x :=
        fun x hx => ⟨Or.inl hx.state, hx.near⟩
      refine forall_replay_itemOps hbefore ?_ (hprologue clearBase rfl) (hprologue [] rfl) hmid ?_ ?_ k
      · intro hdrop x hx
        rw [set_of_drop hdrop]
        exact hx
      · intro x hx
        have hclosing := hx.append fun q hq => hq ▸ oscReader_closing i
        exact ⟨Or.inr hclosing.state, hclosing.near⟩
      · intro x hx
        have htail : ∀ q, q = oscReader.init ∨ q = ⟨i.closed, []⟩ →
            oscReader.run q i.tail = (oscReader.init, []) := by
          rintro q (rfl | rfl)
          · unfold Item.tail
            split
            · rfl
            · rfl
          · exact oscReader_tail i
        exact hx.append htail

/-! ## Cuts after every span -/

private theorem replay_keep_sealed {r : ChunkRing} (hzero : r.watermark = 0)
    (span prologue : List UInt8) : (r.apply (.keep span prologue)).replay 1 = prologue := by
  have hle : r.watermark ≤ r.openChunk.data.length + span.length := by omega
  rw [ChunkRing.apply_keep_of_le hle, ChunkRing.replay_cut_one _ _ (Nat.le_refl 1)]

/-- With a watermark of zero every kept span seals its chunk, and the last chunk alone
is a prologue. -/
theorem labels_replay_sealed {items : List Item} (h : ∀ i ∈ items, isIconName i = false) :
    labels ((ringAfter 0 items).replay 1) = firstPieces (labels (Item.stream items)) := by
  induction items using List.reverseRecOn with
  | nil => rfl
  | append_singleton items i ih =>
      have hbefore := ih fun j hj => h j (List.mem_append_left _ hj)
      have hzero := watermark_ringAfter 0 items
      obtain ⟨-, -, hring⟩ := after_snoc 0 items i (atRest_frontAfter items)
      rw [hring]
      cases hv : verdict i with
      | drop =>
          have hsame : labels (Item.stream (items ++ [i])) = labels (Item.stream items) := by
            rw [labels_append_item, set_of_drop hv]
          rw [hsame, ← hbefore]
          simp [itemOps, hv, Verdict.ops]
      | clear =>
          rw [itemOps_of_clear hv, ← (labels_cut h clearBase rfl).2]
          change labels ((ChunkRing.purge _ _).replay 1) = _
          rw [ChunkRing.replay_purge]
      | keep =>
          rw [itemOps, hv, ← (labels_cut h [] rfl).2, List.nil_append,
            ChunkRing.applyAll_append]
          have hlast : ∀ r : ChunkRing, r.watermark = 0 → ∀ span prologue,
              (r.applyAll (Verdict.keep.ops span prologue)).replay 1 = prologue :=
            fun r hr span prologue => replay_keep_sealed hr span prologue
          cases i.hasTail with
          | false => exact congrArg labels (hlast _ hzero _ _)
          | true =>
              have hstill : ((ringAfter 0 items).applyAll (Verdict.keep.ops (i.body ++ [i.closing])
                  (frontAfter (items ++ [i])).sink.sticky.buildSerialized)).watermark = 0 := by
                rw [ChunkRing.watermark_applyAll, hzero]
              exact congrArg labels (hlast _ hstill _ _)

/-! ## Main result -/

/-- Whatever the watermark, the split into feed calls and the cap, a cold terminal ends
with the title and the directory of the stream. -/
def LabelsSurvive (items : List Item) : Prop :=
  ∀ (watermark : Nat) (feeds : List (List UInt8)) (wantChunks : Nat),
    feeds.flatten = Item.stream items →
      labels ((Scanner.feedAll table (Scanner.new table watermark) feeds).replay wantChunks) =
        labels (Item.stream items)

/-- Neither title nor directory contains a semicolon. -/
def InOnePiece (l : Labels) : Prop :=
  (∀ text, l.title = some text → 0x3B ∉ text) ∧ ∀ text, l.cwd = some text → 0x3B ∉ text

private theorem map_firstPiece_eq_iff (label : Option (List UInt8)) :
    label.map firstPiece = label ↔ ∀ text, label = some text → 0x3B ∉ text := by
  cases label with
  | none => simp
  | some text =>
      have hwhole : firstPiece text = text ↔ 0x3B ∉ text := by
        rw [firstPiece, List.takeWhile_eq_self_iff]
        constructor
        · intro hall hmem
          simpa using hall 0x3B hmem
        · intro hnot b hb
          have hne : b ≠ 0x3B := fun heq => hnot (heq ▸ hb)
          simpa using hne
      simpa using hwhole

/-- Cutting at the semicolons changes nothing where there is none. -/
theorem firstPieces_eq_iff (l : Labels) : firstPieces l = l ↔ InOnePiece l := by
  rw [InOnePiece, ← map_firstPiece_eq_iff, ← map_firstPiece_eq_iff]
  constructor
  · intro h
    exact ⟨congrArg Labels.title h, congrArg Labels.cwd h⟩
  · rintro ⟨htitle, hcwd⟩
    rw [firstPieces, htitle, hcwd]

/-- What is close to labels without semicolons is equal to them. -/
theorem Near.eq_of_inOnePiece {whole shown : Labels} (h : Near whole shown)
    (hone : InOnePiece whole) : shown = whole := by
  have htitle := (map_firstPiece_eq_iff whole.title).mpr hone.1
  have hcwd := (map_firstPiece_eq_iff whole.cwd).mpr hone.2
  have hsame : shown.title = whole.title ∧ shown.cwd = whole.cwd := by
    constructor
    · rcases h.title with heq | heq
      · exact heq
      · exact heq.trans htitle
    · rcases h.cwd with heq | heq
      · exact heq
      · exact heq.trans hcwd
  ext1
  · exact hsame.1
  · exact hsame.2

/-- Title and directory survive every capped replay exactly when the text of neither
contains a semicolon. -/
theorem labels_survive_iff (items : List Item) (h : ∀ i ∈ items, isIconName i = false) :
    LabelsSurvive items ↔ InOnePiece (labels (Item.stream items)) := by
  constructor
  · intro hsurvive
    have hone : [Item.stream items].flatten = Item.stream items := List.flatten_singleton
    have hlast := hsurvive 0 [Item.stream items] 1 hone
    rw [replay_feedAll hone, labels_replay_sealed h] at hlast
    exact (firstPieces_eq_iff _).mp hlast
  · intro hone watermark feeds wantChunks hfeeds
    rw [replay_feedAll hfeeds]
    exact (shows_ringAfter watermark h wantChunks).near.eq_of_inOnePiece hone

/-- The titles {lit}`a-b` and {lit}`a;b`. -/
def dashed : Item :=
  .osc [0x32, 0x3B, 0x61, 0x2D, 0x62] .bel
    (.cons (.one (by decide)) (.cons (.one (by decide)) (.cons (.one (by decide))
      (.cons (.one (by decide)) (.cons (.one (by decide)) .nil))))) (by simp)

def pieced : Item :=
  .osc [0x32, 0x3B, 0x61, 0x3B, 0x62] .bel
    (.cons (.one (by decide)) (.cons (.one (by decide)) (.cons (.one (by decide))
      (.cons (.one (by decide)) (.cons (.one (by decide)) .nil))))) (by simp)

/-- One survives, the other does not. -/
theorem labels_survive_iff_samples : LabelsSurvive [dashed] ∧ ¬ LabelsSurvive [pieced] := by
  have hdashed : labels (Item.stream [dashed]) = ⟨some [0x61, 0x2D, 0x62], none⟩ := by
    decide +kernel
  have hpieced : labels (Item.stream [pieced]) = ⟨some [0x61, 0x3B, 0x62], none⟩ := by
    decide +kernel
  constructor
  · rw [labels_survive_iff [dashed] (by simp [dashed, isIconName]), hdashed]
    simp [InOnePiece]
  · rw [labels_survive_iff [pieced] (by simp [pieced, isIconName]), hpieced]
    simp [InOnePiece]

/-- The chunk behind the title {lit}`a;b` restores {lit}`a`. -/
theorem title_cut_at_semicolon :
    ¬ ∀ items : List Item, (∀ i ∈ items, isIconName i = false) → LabelsSurvive items := by
  intro h
  have hsame := h [pieced] (by simp [pieced, isIconName]) 1 [Item.stream [pieced]] 1
    List.flatten_singleton
  have hreplayed : labels ((Scanner.feedAll table (Scanner.new table 1)
      [Item.stream [pieced]]).replay 1) = ⟨some [0x61], none⟩ := by
    decide +kernel
  have hstream : labels (Item.stream [pieced]) = ⟨some [0x61, 0x3B, 0x62], none⟩ := by
    decide +kernel
  rw [hreplayed, hstream] at hsame
  cases hsame

end JftermMuxer.Core
