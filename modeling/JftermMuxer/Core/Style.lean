import JftermMuxer.Core.Rendition
import JftermMuxer.Vte.Style

/-!
# One SGR sequence and its prologue

The tracker stores the values of an SGR sequence without the bounds of its colon
groups, and it looks for one private byte only.  The prologue gives the values back
one by one.

Main results:

- Theorem {lit}`sticky_sgr`: what the tracker stores of one sequence.
- Theorem {lit}`style_serialized`: the style that the serialized state establishes.
- Theorem {lit}`tracked_of_plain`: a sequence of semicolons and digits is tracked with
  its own meaning.
- Theorem {lit}`tracked_iff`: any sequence is tracked with its own meaning iff its
  private byte is a question mark or its values, read one by one, leave what the
  sequence leaves.
-/

namespace JftermMuxer.Core

open Foundation Vte

/-! ## SGR sequences -/

/-- A CSI sequence with final byte {lit}`m`. -/
structure SgrSequence where
  marker : Option UInt8
  params : List UInt8
  intermediates : List UInt8
  marked : ∀ m ∈ marker, isPrivate m = true
  listed : ∀ b ∈ params, isParamByte b = true
  collected : ∀ b ∈ intermediates, isIntermediate b = true

namespace SgrSequence

variable (q : SgrSequence)

private theorem isFinal_m : isFinal 0x6D = true := rfl

/-- The sequence as an item. -/
def item : Item :=
  .csi q.marker q.params q.intermediates 0x6D q.marked q.listed q.collected isFinal_m

/-- Its parameters, as the parser groups them. -/
def groups : List (List UInt16) := (csiSeq q.marker q.params q.intermediates).finish.params.groups

/-- What the sequence assigns: nothing with a private byte or with intermediates. -/
def own : List Setting :=
  if q.marker = none ∧ q.intermediates = [] then settings q.groups else []

/-- What its values assign when every value is a parameter of its own. -/
def oneByOne : List Setting := settings (q.groups.flatten.map fun value => [value])

end SgrSequence

/-! ## What the tracker stores -/

/-- A sequence reaches the parser's caller without intermediates iff it has neither a marker
nor any. -/
theorem intermediates_eq_nil_iff (q : SgrSequence) :
    (csiSeq q.marker q.params q.intermediates).finish.intermediates = [] ↔
      q.marker = none ∧ q.intermediates = [] := by
  rw [intermediates_csiSeq_take, List.take_eq_nil_iff]
  cases q.marker with
  | none => simp [maxIntermediates]
  | some m => simp [maxIntermediates]

/-- A question mark never is an intermediate. -/
theorem head_intermediates_iff (q : SgrSequence) :
    (csiSeq q.marker q.params q.intermediates).finish.intermediates.head? = some 0x3F ↔
      q.marker = some 0x3F := by
  have htake : ∀ bs : List UInt8, (bs.take maxIntermediates).head? = bs.head? := by
    intro bs
    cases bs with
    | nil => rfl
    | cons b bs => rfl
  rw [intermediates_csiSeq_take, htake]
  cases hmarker : q.marker with
  | some m => simp
  | none =>
      have hnot : q.intermediates.head? ≠ some 0x3F := by
        intro hhead
        have hcollected := q.collected 0x3F (List.mem_of_head? hhead)
        exact absurd hcollected (by decide)
      simpa using hnot

/-- The tracked state after one sequence. -/
theorem sticky_sgr (q : SgrSequence) :
    (frontAfter [q.item]).sink.sticky =
      if q.marker = some 0x3F then StickyState.new
      else StickyState.new.setSgr (storedSgr q.groups.flatten) := by
  obtain ⟨-, hsticky, -⟩ := after_snoc 0 [] q.item (atRest_frontAfter _)
  have hstep : (frontAfter [q.item]).sink.sticky = track StickyState.new q.item.callback := hsticky
  have hhead := head_intermediates_iff q
  rw [hstep, SgrSequence.item, Item.callback, csiCallback]
  split
  · rename_i hprivate
    have hmark := hhead.mpr hprivate
    simp [track, Sink.perform, Sink.csiDispatch, hmark, Sink.new]
  · rename_i hopen
    exact track_sgr _ _ (fun hmark => hopen (hhead.mp hmark)) _

/-! ## What the serialized state establishes -/

/-- A reset assigns the plain style, so nothing and a bare reset are the same. -/
theorem execute_storedSgr (values : List UInt16) :
    Assignment.execute Style.plain (settings ((storedSgr values).map fun value => [value])) =
      Assignment.execute Style.plain (settings (values.map fun value => [value])) := by
  unfold storedSgr
  split
  · rename_i hreset
    rcases hreset with rfl | rfl
    · rfl
    · exact (Style.execute_reset Style.plain).symm
  · rfl

/-- The prologue of some values: the values one by one. -/
theorem style_prologue {values : List UInt16} (hlen : values.length ≤ maxParams) :
    Style.terminal.render (StickyState.new.setSgr values).buildSerialized =
      Assignment.execute Style.plain (settings (values.map fun value => [value])) := by
  have hplain : PlainSticky (StickyState.new.setSgr values) := by
    simp [PlainSticky, StickyState.setSgr, StickyState.invalidate, StickyState.new]
  have hreset : Style.terminal.perform Style.terminal.cold (csiCallback none [0x30] [] 0x6D) =
      Style.plain := Style.execute_reset Style.plain
  rw [Terminal.render, Transducer.outputs, run_buildSerialized hplain, prologueCallbacks_setSgr,
    Terminal.performAll_cons, hreset]
  by_cases hnil : values = []
  · rw [if_pos hnil, hnil]
    rfl
  · have hgroups := groups_joinParams none values hnil hlen
    have hints := intermediates_csiSeq none (StickyState.joinParams values)
    rw [if_neg hnil, Terminal.performAll_cons, Terminal.performAll_nil]
    simp [Style.terminal, Style.perform, csiCallback, hints, hgroups]

/-- What the values of a sequence assign one by one, unless its private byte is a
question mark. -/
theorem style_serialized (q : SgrSequence) :
    Style.terminal.render (frontAfter [q.item]).sink.sticky.buildSerialized =
      if q.marker = some 0x3F then Style.plain else Assignment.execute Style.plain q.oneByOne := by
  have hlen := count_csiSeq q.marker q.params q.intermediates
  rw [← Params.length_flatten_groups] at hlen
  rw [sticky_sgr]
  split
  · have hnone : ([] : List UInt16).length ≤ maxParams := Nat.zero_le _
    exact style_prologue hnone
  · have hstored : (storedSgr q.groups.flatten).length ≤ maxParams := by
      unfold storedSgr
      split
      · exact Nat.zero_le _
      · exact hlen
    rw [style_prologue hstored, execute_storedSgr]
    rfl

/-- What the sequence itself leaves. -/
theorem style_own (q : SgrSequence) :
    Style.terminal.render q.item.bytes = Assignment.execute Style.plain q.own := by
  have hstream := Style.terminal.render_stream_snoc [] (i := q.item) rfl
  have hints := intermediates_eq_nil_iff q
  rw [List.nil_append, Item.stream_cons, Item.stream_nil, List.append_nil] at hstream
  rw [hstream]
  change Style.perform Style.plain q.item.callback = _
  rw [SgrSequence.own, SgrSequence.item, Item.callback, csiCallback, Style.perform]
  by_cases hown : q.marker = none ∧ q.intermediates = []
  · rw [if_pos hown, if_pos ⟨hints.mpr hown, rfl⟩]
    rfl
  · rw [if_neg hown, if_neg fun h => hown (hints.mp h.1)]
    rfl

/-! ## Main results -/

namespace SgrSequence

/-- However the sequence is fed to a fresh scanner, the serialized state puts a cold
terminal in the style that the sequence itself leaves. -/
def Tracked (q : SgrSequence) : Prop :=
  ∀ (watermark : Nat) (feeds : List (List UInt8)), feeds.flatten = q.item.bytes →
    Style.terminal.render
        (Scanner.feedAll table (Scanner.new table watermark) feeds).sink.sticky.serialize.1 =
      Style.terminal.render q.item.bytes

/-- The value that an attribute ends with. -/
def final (a : Attribute) (xs : List Setting) : a.Value := (Assignment.last a xs).getD (Style.plain a)

/-- The private byte is a question mark, or the values of the sequence, read as
parameters of their own, end every attribute as the sequence does. -/
def ReadsAlike (q : SgrSequence) : Prop :=
  q.marker = some 0x3F ∨ ∀ a, final a q.oneByOne = final a q.own

end SgrSequence

/-- A scanner's prologue is that of the front, whatever the pieces. -/
theorem serialize_feedAll (q : SgrSequence) (watermark : Nat) {feeds : List (List UInt8)}
    (hfeeds : feeds.flatten = q.item.bytes) :
    (Scanner.feedAll table (Scanner.new table watermark) feeds).sink.sticky.serialize.1 =
      (frontAfter [q.item]).sink.sticky.buildSerialized := by
  have hstream : feeds.flatten = Item.stream [q.item] := by
    rw [hfeeds, Item.stream_cons, Item.stream_nil, List.append_nil]
  rw [Scanner.feedAll_eq_feed, hstream, serialize_stream]

/-- A sequence is tracked exactly when its serialized state has its style. -/
theorem tracked_iff_execute (q : SgrSequence) :
    q.Tracked ↔ q.marker = some 0x3F ∨
      Assignment.execute Style.plain q.oneByOne = Assignment.execute Style.plain q.own := by
  have hown : q.marker = some 0x3F → q.own = [] := by
    intro hprivate
    rw [SgrSequence.own, hprivate, if_neg]
    simp
  have hstyle : Style.terminal.render (frontAfter [q.item]).sink.sticky.buildSerialized =
      Style.terminal.render q.item.bytes ↔ q.marker = some 0x3F ∨
        Assignment.execute Style.plain q.oneByOne = Assignment.execute Style.plain q.own := by
    rw [style_serialized, style_own]
    by_cases hprivate : q.marker = some 0x3F
    · simp [hprivate, hown hprivate]
    · simp [hprivate]
  rw [← hstyle]
  constructor
  · intro h
    have hone := h 0 [q.item.bytes] List.flatten_singleton
    rw [serialize_feedAll q 0 List.flatten_singleton] at hone
    exact hone
  · intro h watermark feeds hfeeds
    rw [serialize_feedAll q watermark hfeeds]
    exact h

/-- No group holds more than one value. -/
def Flat (p : Params) : Prop := p.opened = [] ∧ ∀ group ∈ p.closed, ∃ value, group = [value]

/-- A new parameter keeps the list flat. -/
theorem Flat.push {p : Params} (h : Flat p) (value : UInt16) : Flat (p.push value) := by
  refine ⟨rfl, ?_⟩
  intro group hgroup
  rcases List.mem_append.mp hgroup with hgroup | hgroup
  · exact h.2 group hgroup
  · rw [List.mem_singleton.mp hgroup, h.1]
    exact ⟨value, rfl⟩

/-- A byte that is no colon keeps the list flat. -/
theorem Flat.feedParam {s : Seq} (h : Flat s.params) {b : UInt8} (hb : b ≠ 0x3A) :
    Flat (s.feedParam b).params := by
  have hfeed : s.feedParam b = if isDigit b then s.digit b else s.nextParam := by
    rw [Seq.feedParam, if_neg hb]
  rw [hfeed]
  split
  · unfold Seq.digit
    split
    · exact h
    · exact h
  · unfold Seq.nextParam
    split
    · exact h
    · exact h.push s.param

/-- The end of a sequence keeps the list flat. -/
theorem Flat.finish {s : Seq} (h : Flat s.params) : Flat s.finish.params := by
  unfold Seq.finish
  split
  · exact h
  · exact h.push s.param

/-- Without colons every group holds one value. -/
theorem flat_csiSeq (marker : Option UInt8) {params : List UInt8} (h : 0x3A ∉ params)
    (intermediates : List UInt8) : Flat (csiSeq marker params intermediates).finish.params := by
  have hfold : ∀ (ps : List UInt8) (s : Seq), 0x3A ∉ ps → Flat s.params →
      Flat (ps.foldl Seq.feedParam s).params := by
    intro ps
    induction ps with
    | nil => exact fun s _ hs => hs
    | cons b ps ih =>
        intro s hps hs
        rw [List.mem_cons, not_or] at hps
        exact ih _ hps.2 (hs.feedParam fun hb => hps.1 hb.symm)
  have hmarker : Flat (marker.toList.foldl Seq.collect Seq.reset).params := by
    rw [(Seq.params_foldl_collect Seq.reset marker.toList).1]
    exact ⟨rfl, by simp [Seq.reset, Params.empty]⟩
  apply Flat.finish
  rw [csiSeq, (Seq.params_foldl_collect _ intermediates).1]
  exact hfold params _ h hmarker

/-- A sequence of digits and semicolons is tracked with its own meaning. -/
theorem tracked_of_plain {q : SgrSequence} (hmarker : q.marker = none)
    (hintermediates : q.intermediates = []) (hplain : 0x3A ∉ q.params) : q.Tracked := by
  obtain ⟨hopened, hclosed⟩ := flat_csiSeq q.marker hplain q.intermediates
  have hgroups : q.groups = (csiSeq q.marker q.params q.intermediates).finish.params.closed :=
    if_pos hopened
  have hsame : q.groups.flatten.map (fun value => [value]) = q.groups := by
    rw [hgroups]
    generalize (csiSeq q.marker q.params q.intermediates).finish.params.closed = closed at hclosed
    induction closed with
    | nil => rfl
    | cons group closed ih =>
        obtain ⟨value, hvalue⟩ := hclosed group List.mem_cons_self
        rw [List.flatten_cons, List.map_append, hvalue,
          ih fun g hg => hclosed g (List.mem_cons_of_mem group hg)]
        rfl
  have hown : q.oneByOne = q.own := by
    rw [SgrSequence.oneByOne, hsame, SgrSequence.own, if_pos ⟨hmarker, hintermediates⟩]
  rw [tracked_iff_execute, hown]
  exact Or.inr rfl

/-- An SGR sequence is tracked with its own meaning exactly when its private byte is a
question mark, or its values one by one end every attribute as the sequence does. -/
theorem tracked_iff (q : SgrSequence) : q.Tracked ↔ q.ReadsAlike := by
  rw [tracked_iff_execute, Assignment.execute_eq_iff]
  rfl

/-- A curly underline. -/
def curly : SgrSequence :=
  ⟨none, [0x34, 0x3A, 0x33], [], no_marker, List.all_eq_true.mp rfl, no_intermediates⟩

/-- Not an SGR at all: the sequence that switches modified keys on. -/
def modifyOtherKeys : SgrSequence :=
  ⟨some 0x3E, [0x34, 0x3B, 0x32], [], by simp [isPrivate], List.all_eq_true.mp rfl, no_intermediates⟩

/-- The first comes back as underlined and italic, the second as underlined and faint. -/
theorem curly_and_keys_mistracked : ¬ curly.Tracked ∧ ¬ modifyOtherKeys.Tracked := by
  constructor
  · intro h
    have hstyle := congrFun (h 1 [curly.item.bytes] List.flatten_singleton) .italic
    exact absurd hstyle (by decide +kernel)
  · intro h
    have hstyle := congrFun (h 1 [modifyOtherKeys.item.bytes] List.flatten_singleton) .faint
    exact absurd hstyle (by decide +kernel)

end JftermMuxer.Core
