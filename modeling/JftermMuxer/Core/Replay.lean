import Mathlib.Data.List.DropRight
import JftermMuxer.Core.Sanitization
import JftermMuxer.Vte.Items

/-!
# What a replay is, on well-formed streams

The meaning of the engine in its own terms: every item of a well-formed stream
is kept, dropped or clears the screen, and the full replay is the concatenation
of the items kept since the last clear, behind the prologue of that clear.

Main results:

- Definition {lit}`verdict`: the classification of items.
- Theorem {lit}`front_item`: how the front end crosses one item, whatever it has
  seen before.
- Theorem {lit}`replay_items`: the full replay of every well-formed stream.
-/

namespace JftermMuxer.Core

open Foundation Vte

/-! ## Verdicts -/

/-- The three fates of an item. -/
inductive Verdict where
  | keep
  | drop
  | clear
deriving DecidableEq, Repr

/-- The fate of an item: bells, queries, clipboard writes, notifications and
prompt markers are dropped, full clears and resets purge, the rest is kept. -/
def verdict : Item → Verdict
  | .char _ _ _ => .keep
  | .control byte _ _ => if byte = 0x07 then .drop else .keep
  | .esc intermediates final _ _ => if intermediates = [] ∧ final = 0x63 then .clear else .keep
  | .csi _ params _ final _ _ _ _ =>
      if final = 0x6E ∨ final = 0x63 then .drop
      else if final = 0x4A ∧ (firstParam params = 2 ∨ firstParam params = 3) then .clear
      else .keep
  | .osc payload _ _ _ => if payload.takeWhile (· ≠ 0x3B) ∈ dropCodes then .drop else .keep
  | .dcs _ _ _ _ _ _ => .keep

/-- The bytes of what is kept, each part of a stream with its verdict and its span. -/
def keptPart {α : Type} (verdict : α → Verdict) (span : α → List UInt8) (xs : List α) :
    List UInt8 :=
  ((xs.filter (verdict · = .keep)).map span).flatten

@[simp] theorem keptPart_nil {α : Type} (verdict : α → Verdict) (span : α → List UInt8) :
    keptPart verdict span [] = [] := rfl

/-- What is kept of two lists in a row. -/
theorem keptPart_append {α : Type} (verdict : α → Verdict) (span : α → List UInt8)
    (xs ys : List α) :
    keptPart verdict span (xs ++ ys) = keptPart verdict span xs ++ keptPart verdict span ys := by
  simp [keptPart]

/-- The events a verdict stands for. -/
def Verdict.Matches : Verdict → SegEvent → Prop
  | .keep, ev => ev = .keepByte ∨ ev = .keepSeq
  | .drop, ev => ev = .dropSeq
  | .clear, ev => ev = .clearSeq

/-- What a verdict asks of the ring. -/
def Verdict.ops (span prologue : List UInt8) : Verdict → List RingOp
  | .keep => [.keep span prologue]
  | .drop => []
  | .clear => [.purge (clearBase ++ prologue)]

/-! ## The performer on items -/

/-- The change a callback makes to the tracked state. -/
def track (s : StickyState) (cb : Callback) : StickyState :=
  ({ Sink.new with sticky := s }.perform cb).sticky

/-- The performer's bookkeeping never influences the tracked state. -/
theorem sticky_perform (s : Sink) (cb : Callback) : (s.perform cb).sticky = track s.sticky cb := by
  unfold track
  cases cb with
  | oscDispatch params bell =>
      simp only [Sink.perform, Sink.oscDispatch, Sink.oscClassify]
      repeat' split
      all_goals rfl
  | csiDispatch params intermediates ignore action =>
      simp only [Sink.perform, Sink.csiDispatch]
      repeat' split
      all_goals rfl
  | escDispatch intermediates ignore byte =>
      simp only [Sink.perform, Sink.escDispatch]
      repeat' split
      all_goals rfl
  | _ => rfl

/-- A quiet callback leaves the tracked state. -/
theorem track_quiet (s : StickyState) {cb : Callback} (h : isQuiet cb = true) : track s cb = s := by
  cases cb with
  | hook => rfl
  | put => rfl
  | _ => contradiction

/-- The tracked state follows from the callbacks alone. -/
theorem tracks_sticky : Sink.Tracks Sink.sticky track := ⟨sticky_perform, fun _ _ => rfl⟩

/-- Quiet callbacks leave the tracked state. -/
theorem foldl_track_quiet (s : StickyState) {cbs : List Callback}
    (h : ∀ cb ∈ cbs, isQuiet cb = true) : cbs.foldl track s = s := by
  induction cbs with
  | nil => rfl
  | cons cb cbs ih =>
      rw [List.foldl_cons, track_quiet s (h cb (by simp))]
      exact ih (fun x hx => h x (List.mem_cons_of_mem cb hx))

/-- Quiet callbacks bring no verdict. -/
theorem event_performAll_quiet {s : Sink} (hev : s.event = .none) {cbs : List Callback}
    (h : ∀ cb ∈ cbs, isQuiet cb = true) : (s.performAll cbs).event = .none := by
  induction cbs generalizing s with
  | nil => exact hev
  | cons cb cbs ih =>
      have hcb := h cb (by simp)
      refine ih (s := s.perform cb) ?_ (fun x hx => h x (List.mem_cons_of_mem cb hx))
      cases cb with
      | hook => rfl
      | put => rfl
      | _ => contradiction

private theorem matches_osc (s : Sink) (payload : List UInt8) (bell : Bool) :
    (if payload.takeWhile (· ≠ 0x3B) ∈ dropCodes then Verdict.drop else .keep).Matches
        (s.perform (.oscDispatch (oscFields payload) bell)).event := by
  simp only [Sink.perform, Sink.oscDispatch, Sink.oscClassify, head_oscFields, Option.some.injEq]
  generalize payload.takeWhile (· ≠ 0x3B) = code
  simp only [dropCodes, List.mem_cons, List.not_mem_nil, or_false]
  by_cases htitle : code = [0x30] ∨ code = [0x31] ∨ code = [0x32]
  · have hcode : ¬ (code = [0x39] ∨ code = [0x35, 0x32] ∨ code = [0x31, 0x33, 0x33] ∨
        code = [0x37, 0x37, 0x37]) := by
      rcases htitle with rfl | rfl | rfl <;> decide
    rw [if_pos htitle, if_neg hcode]
    exact Or.inr rfl
  · rw [if_neg htitle]
    by_cases hcwd : code = [0x37]
    · subst hcwd
      exact Or.inr rfl
    · rw [if_neg hcwd]
      by_cases hprogress : code = [0x39]
      · subst hprogress
        rfl
      · rw [if_neg hprogress]
        by_cases hprompt : code = [0x31, 0x33, 0x33]
        · subst hprompt
          rfl
        · rw [if_neg hprompt]
          by_cases hclip : code = [0x35, 0x32] ∨ code = [0x37, 0x37, 0x37]
          · rw [if_pos hclip, if_pos (by tauto)]
            rfl
          · rw [if_neg hclip, if_neg (by tauto)]
            exact Or.inr rfl

private theorem firstParam_lt (params : List UInt8) : firstParam params < 65536 := by
  have hread : ∀ (ds : List UInt8) (acc : Nat), acc < 65536 → ds.foldl readDigit acc < 65536 := by
    intro ds
    induction ds with
    | nil => exact fun acc hacc => hacc
    | cons d ds ih =>
        intro acc _
        apply ih
        have hle := Nat.min_le_left 65535 (acc * 10 + (d.toNat - 48))
        simp only [readDigit]
        omega
  exact hread _ 0 (by decide)

private theorem firstValue_eq_iff (marker : Option UInt8) {params : List UInt8}
    (hparams : ∀ b ∈ params, isParamByte b = true) (intermediates : List UInt8) (v : UInt16) :
    firstValue (csiSeq marker params intermediates).finish.params.groups[0]? = v ↔
      firstParam params = v.toNat := by
  have hlt := firstParam_lt params
  rw [firstValue, head_groups_csiSeq marker hparams intermediates, Option.getD_some,
    ← UInt16.toNat_inj, UInt16.toNat_ofNat']
  omega

private theorem matches_csi (s : Sink) (marker : Option UInt8) {params : List UInt8}
    (hparams : ∀ b ∈ params, isParamByte b = true) (intermediates : List UInt8) (final : UInt8) :
    (if final = 0x6E ∨ final = 0x63 then Verdict.drop
      else if final = 0x4A ∧ (firstParam params = 2 ∨ firstParam params = 3) then .clear
      else .keep).Matches
        (s.perform (csiCallback marker params intermediates final)).event := by
  have htwo := firstValue_eq_iff marker hparams intermediates 2
  have hthree := firstValue_eq_iff marker hparams intermediates 3
  simp only [Sink.perform, csiCallback, event_csi, htwo, hthree, UInt16.reduceToNat]
  split
  · rfl
  · split
    · rfl
    · exact Or.inr rfl

private theorem matches_esc (s : Sink) {intermediates : List UInt8} {final : UInt8}
    (ends : isEscItem intermediates final = true) (is : List UInt8) (ignore : Bool) :
    (if intermediates = [] ∧ final = 0x63 then Verdict.clear else .keep).Matches
        (s.perform (.escDispatch is ignore final)).event := by
  simp only [isEscItem, Bool.and_eq_true, bne_iff_ne, ne_eq] at ends
  obtain ⟨⟨-, hslash⟩, hlast⟩ := ends
  have hevent : (s.perform (.escDispatch is ignore final)).event =
      if final = 0x63 then .clearSeq else .keepSeq := by
    have hne : (final == 0x5C) = false := by simpa using hslash
    simp only [Sink.perform, Sink.escDispatch, hne]
  rw [hevent]
  by_cases hc : final = 0x63
  · have hnil : intermediates = [] := by
      by_contra hne
      rw [if_neg hne] at hlast
      simp [hc] at hlast
    rw [if_pos ⟨hnil, hc⟩, if_pos hc]
    rfl
  · rw [if_neg (fun h => hc h.2), if_neg hc]
    exact Or.inr rfl

/-- The closing byte of an item raises the event of its verdict. -/
theorem matches_callback (s : Sink) (i : Item) :
    (verdict i).Matches (s.perform i.callback).event := by
  cases i with
  | char encoded scalar printable => exact Or.inl rfl
  | control byte c0 notEsc =>
      simp only [verdict, Item.callback, Sink.perform, Sink.execute]
      split
      · rfl
      · exact Or.inr rfl
  | esc intermediates final collected ends => exact matches_esc s ends _ _
  | csi marker params intermediates final marked listed collected ends =>
      exact matches_csi s marker listed intermediates final
  | osc payload terminator text plain => exact matches_osc s payload _
  | dcs params final payload listed ends plain => exact Or.inr rfl

/-- A backslash after the closing byte repeats the item's verdict. -/
theorem matches_tail (s : Sink) {i : Item} (h : i.hasTail = true) :
    (verdict i).Matches
      ({ s.perform i.callback with event := .none }.perform (.escDispatch [] false 0x5C)).event := by
  cases i with
  | osc payload terminator text plain =>
      have hpending : (s.perform (.oscDispatch (oscFields payload) (terminator == .bel))).stPending =
          some (s.perform (.oscDispatch (oscFields payload) (terminator == .bel))).event := rfl
      have hmatches := matches_osc s payload (terminator == .bel)
      simp only [Item.callback, Sink.perform, Sink.escDispatch] at hpending hmatches ⊢
      exact hmatches
  | dcs params final payload listed ends plain => exact Or.inr rfl
  | _ => contradiction

/-! ## The front end on items -/

/-- The front end between two items. -/
structure AtRest (f : Front State) : Prop where
  parser : f.parser = .ground []
  pending : f.pending = []
  event : f.sink.event = .none

/-- A fresh front is at rest. -/
theorem atRest_init : AtRest (Front.init table) := ⟨rfl, rfl, rfl⟩

/-- Quiet callbacks only buffer bytes. -/
theorem front_run_quiet {f : Front State} {w : List UInt8} {q : State} {cbs : List Callback}
    (hrun : table.run f.parser w = (q, cbs)) (hquiet : ∀ cb ∈ cbs, isQuiet cb = true)
    (hev : f.sink.event = .none) :
    (Front.machine table).run f w = (⟨q, f.sink.performAll cbs, f.pending ++ w⟩, []) := by
  induction w generalizing f cbs with
  | nil =>
      cases hrun
      simp [Sink.performAll]
  | cons b w ih =>
      rw [Transducer.run_cons] at hrun
      obtain ⟨hq, rfl⟩ := Prod.mk.inj hrun
      have hfirst : ∀ cb ∈ (advance f.parser b).2, isQuiet cb = true :=
        fun cb hcb => hquiet cb (List.mem_append_left _ hcb)
      have hnone := event_performAll_quiet hev hfirst
      have hstep : Front.advance table f b =
          (⟨(advance f.parser b).1, f.sink.performAll (advance f.parser b).2, f.pending ++ [b]⟩,
            []) := by
        simp only [Front.advance, Sink.takeEvent, table_advance, hnone, Front.closeSpan, Front.opOf]
        rw [← hnone]
      have hnext : table.run (advance f.parser b).1 w =
          (q, (table.run (advance f.parser b).1 w).2) := Prod.ext hq rfl
      have hrest := ih (f := ⟨(advance f.parser b).1, f.sink.performAll (advance f.parser b).2,
        f.pending ++ [b]⟩) hnext (fun cb hcb => hquiet cb (List.mem_append_right _ hcb)) hnone
      rw [Transducer.run_cons, Front.machine_advance, hstep, hrest]
      simp [Sink.performAll]

/-- A byte whose one callback decides a verdict closes the span. -/
theorem front_advance_closing {f : Front State} {b : UInt8} {q : State} {cb : Callback}
    {v : Verdict} (hstep : advance f.parser b = (q, [cb]))
    (hev : v.Matches (f.sink.perform cb).event) :
    Front.advance table f b =
      (⟨q, { f.sink.perform cb with event := .none }, []⟩,
        v.ops (f.pending ++ [b]) (f.sink.perform cb).sticky.buildSerialized) := by
  simp only [Front.advance, table_advance, hstep, Sink.takeEvent, Sink.performAll, List.foldl_cons,
    List.foldl_nil]
  cases v with
  | keep =>
      rcases hev with hev | hev
      · simp [hev, Front.closeSpan, Front.opOf, Verdict.ops]
      · simp [hev, Front.closeSpan, Front.opOf, Verdict.ops]
  | drop =>
      have hev : (f.sink.perform cb).event = .dropSeq := hev
      simp [hev, Front.closeSpan, Front.opOf, Verdict.ops]
  | clear =>
      have hev : (f.sink.perform cb).event = .clearSeq := hev
      simp [hev, Front.closeSpan, Front.opOf, Verdict.ops]

/-- The ring operations of an item: one for its closing byte, and one more for
the backslash of its ST. -/
def itemOps (i : Item) (prologue : List UInt8) : List RingOp :=
  (verdict i).ops (i.body ++ [i.closing]) prologue ++
    (if i.hasTail then (verdict i).ops [0x5C] prologue else [])

/-- The front end right after the closing byte of an item. -/
theorem front_closing {f : Front State} (h : AtRest f) (i : Item) :
    ∃ sink : Sink, (Front.machine table).run f (i.body ++ [i.closing]) =
        (⟨i.closed, sink, []⟩,
          (verdict i).ops (i.body ++ [i.closing]) sink.sticky.buildSerialized) ∧
      sink.event = .none ∧ sink.sticky = track f.sink.sticky i.callback ∧
      (i.hasTail = true →
        (verdict i).Matches (sink.perform (.escDispatch [] false 0x5C)).event) := by
  obtain ⟨q, quiet, hbody, hquiet, hclosing⟩ := i.run_body
  have hrun := front_run_quiet (f := f) (by rw [h.parser]; exact hbody) hquiet h.event
  have hmatch := matches_callback (f.sink.performAll quiet) i
  have hlast := front_advance_closing
    (f := ⟨q, f.sink.performAll quiet, f.pending ++ i.body⟩) hclosing hmatch
  refine ⟨{ (f.sink.performAll quiet).perform i.callback with event := .none }, ?_, rfl, ?_,
    fun htail => matches_tail _ htail⟩
  · rw [Transducer.run_append, hrun, Transducer.run_cons, Front.machine_advance, hlast, h.pending]
    simp
  · change ((f.sink.performAll quiet).perform i.callback).sticky = _
    rw [sticky_perform, tracks_sticky.performAll, foldl_track_quiet _ hquiet]

/-- Inside the body of an item the front end only buffers bytes. -/
theorem front_body {f : Front State} (h : AtRest f) {i : Item} {p rest : List UInt8}
    (hbody : i.body = p ++ rest) :
    (Front.machine table).run f p =
      (⟨table.stateAfter (.ground []) p, f.sink.performAll (table.outputs (.ground []) p), p⟩,
        []) := by
  obtain ⟨q, quiet, hrun, hquiet, -⟩ := i.run_body
  have hprefix : ∀ cb ∈ table.outputs (.ground []) p, isQuiet cb = true := by
    intro cb hcb
    apply hquiet
    rw [hbody, Transducer.run_append] at hrun
    rw [← (Prod.mk.inj hrun).2]
    exact List.mem_append_left _ hcb
  have hfront := front_run_quiet (f := f) (w := p) (q := table.stateAfter (.ground []) p)
    (by rw [h.parser]; rfl) hprefix h.event
  rw [h.pending, List.nil_append] at hfront
  exact hfront

/-- The front end crosses an item from rest to rest. -/
theorem front_item {f : Front State} (h : AtRest f) (i : Item) :
    ∃ f', (Front.machine table).run f i.bytes =
        (f', itemOps i f'.sink.sticky.buildSerialized) ∧
      AtRest f' ∧ f'.sink.sticky = track f.sink.sticky i.callback := by
  obtain ⟨sink, hrun, hev, hsticky, htail⟩ := front_closing h i
  rw [i.bytes_eq, Transducer.run_append, hrun]
  cases hcase : i.hasTail with
  | false =>
      refine ⟨⟨.ground [], sink, []⟩, ?_, ⟨rfl, rfl, hev⟩, hsticky⟩
      simp [Item.tail, Item.closed, hcase, itemOps]
  | true =>
      have hlast := front_advance_closing (f := ⟨.escape, sink, []⟩) (b := 0x5C) rfl (htail hcase)
      have hsame : (sink.perform (.escDispatch [] false 0x5C)).sticky = sink.sticky := by
        rw [sticky_perform]
        rfl
      refine ⟨⟨.ground [], { sink.perform (.escDispatch [] false 0x5C) with event := .none }, []⟩,
        ?_, ⟨rfl, rfl, rfl⟩, hsame.trans hsticky⟩
      simp [Item.tail, Item.closed, hcase, itemOps, Transducer.run_cons, hlast, hsame]

/-- The parser and the tracked state of the front end do not depend on the spans
it closes. -/
theorem front_stateAfter (f : Front State) (bs : List UInt8) :
    ((Front.machine table).stateAfter f bs).parser = table.stateAfter f.parser bs ∧
      ((Front.machine table).stateAfter f bs).sink.sticky =
        (table.outputs f.parser bs).foldl track f.sink.sticky := by
  constructor
  · exact Front.parser_stateAfter table f bs
  · exact tracks_sticky.stateAfter table f bs

/-! ## Well-formed streams pass the translation -/

private theorem ascii_intermediate {b : UInt8} (h : isIntermediate b = true) : b < 0x80 := by
  simp only [isIntermediate, Bool.and_eq_true, decide_eq_true_eq] at h
  grind

/-- Parameter bytes are ASCII. -/
theorem ascii_param {b : UInt8} (h : isParamByte b = true) : b < 0x80 := by
  simp only [isParamByte, isDigit, Bool.or_eq_true, Bool.and_eq_true, decide_eq_true_eq,
    beq_iff_eq] at h
  grind

private theorem ascii_final {b : UInt8} (h : isFinal b = true) : b < 0x80 := by
  simp only [isFinal, Bool.and_eq_true, decide_eq_true_eq] at h
  grind

private theorem ascii_marker {marker : Option UInt8} (h : ∀ m ∈ marker, isPrivate m = true)
    {b : UInt8} (hb : b ∈ marker.toList) : b < 0x80 := by
  have hpriv := h b (by simpa using hb)
  simp only [isPrivate, Bool.and_eq_true, decide_eq_true_eq] at hpriv
  grind

/-- The translation leaves an item alone. -/
theorem stable_item (i : Item) : Stable i.bytes := by
  cases i with
  | char encoded scalar printable => exact stable_scalar scalar
  | control byte c0 notEsc =>
      refine stable_ascii ?_
      intro b hb
      rw [List.mem_singleton.mp hb]
      grind
  | esc intermediates final collected ends =>
      refine stable_ascii ?_
      intro b hb
      simp only [Item.bytes, List.mem_append, List.mem_singleton] at hb
      rcases hb with (rfl | hb) | rfl
      · decide
      · exact ascii_intermediate (collected b hb)
      · simp only [isEscItem, Bool.and_eq_true, decide_eq_true_eq] at ends
        grind
  | csi marker params intermediates final marked listed collected ends =>
      refine stable_ascii ?_
      intro b hb
      simp only [Item.bytes, List.mem_append, List.mem_cons, List.not_mem_nil, or_false] at hb
      rcases hb with ((rfl | rfl) | (hb | hb) | hb) | rfl
      · decide
      · decide
      · exact ascii_marker marked hb
      · exact ascii_param (listed b hb)
      · exact ascii_intermediate (collected b hb)
      · exact ascii_final ends
  | osc payload terminator text plain =>
      refine (Stable.append (stable_ascii (by simp)) (stable_text text)).append ?_
      cases terminator with
      | bel => exact stable_ascii (by simp [Terminator.bytes])
      | st => exact stable_ascii (by simp [Terminator.bytes])
  | dcs params final payload listed ends plain =>
      refine stable_ascii ?_
      intro b hb
      simp only [Item.bytes, List.mem_append, List.mem_cons, List.not_mem_nil, or_false] at hb
      rcases hb with ((rfl | rfl) | (hb | rfl) | hb) | rfl | rfl
      · decide
      · decide
      · rcases listed b hb with hd | rfl
        · exact ascii_param (by simp [isParamByte, hd])
        · decide
      · exact ascii_final ends
      · have hhigh := (plain b hb).2
        grind
      · decide
      · decide

/-- The translation leaves a stream of items alone. -/
theorem stable_stream (items : List Item) : Stable (Item.stream items) := by
  induction items with
  | nil => exact stable_nil
  | cons i items ih => exact (stable_item i).append ih

/-! ## The full replay -/

/-- The front end after a well-formed stream. -/
def frontAfter (items : List Item) : Front State :=
  (Front.machine table).stateAfter (Front.init table) (Item.stream items)

/-- The ring after a well-formed stream. -/
def ringAfter (watermark : Nat) (items : List Item) : ChunkRing :=
  (ChunkRing.new watermark).applyAll
    ((Front.machine table).outputs (Front.init table) (Item.stream items))

/-- One more item: the front end is at rest again and the ring has executed the
operations of the item. -/
theorem after_snoc (watermark : Nat) (items : List Item) (i : Item)
    (hrest : AtRest (frontAfter items)) :
    AtRest (frontAfter (items ++ [i])) ∧
      (frontAfter (items ++ [i])).sink.sticky = track (frontAfter items).sink.sticky i.callback ∧
      ringAfter watermark (items ++ [i]) = (ringAfter watermark items).applyAll
        (itemOps i (frontAfter (items ++ [i])).sink.sticky.buildSerialized) := by
  obtain ⟨f', hrun, hrest', hsticky⟩ := front_item hrest i
  have hfront : frontAfter (items ++ [i]) = f' := by
    rw [frontAfter, Item.stream_append, Item.stream_cons, Item.stream_nil, List.append_nil,
      Transducer.stateAfter_append, Transducer.stateAfter]
    exact congrArg Prod.fst hrun
  refine ⟨hfront ▸ hrest', hfront ▸ hsticky, ?_⟩
  rw [hfront, ringAfter, Item.stream_append, Item.stream_cons, Item.stream_nil, List.append_nil,
    Transducer.outputs_append, ChunkRing.applyAll_append]
  exact congrArg (ChunkRing.applyAll _) (congrArg Prod.snd hrun)

/-- Behind a stream of items the front is at rest. -/
theorem atRest_frontAfter (items : List Item) : AtRest (frontAfter items) := by
  induction items using List.reverseRecOn with
  | nil => exact atRest_init
  | append_singleton items i ih => exact (after_snoc 0 items i ih).1

/-- Behind a stream of items the front is plain. -/
theorem plainFront_frontAfter (items : List Item) : PlainFront (frontAfter items) :=
  Transducer.run_induct (motive := PlainFront) (Front.machine table)
    (fun _ b hf => plainFront_advance hf b) plainFront_init (Item.stream items)

/-- An item that ends in an ST never purges. -/
theorem verdict_ne_clear {i : Item} (h : i.hasTail = true) : verdict i ≠ .clear := by
  cases i with
  | osc payload terminator text plain =>
      simp only [verdict]
      split <;> simp
  | dcs params final payload listed ends plain => simp [verdict]
  | _ => contradiction

/-- A clear purges once. -/
theorem itemOps_of_clear {i : Item} (h : verdict i = .clear) (prologue : List UInt8) :
    itemOps i prologue = [.purge (clearBase ++ prologue)] := by
  have hnone : i.hasTail = false := by
    by_contra hne
    exact verdict_ne_clear (by simpa using hne) h
  simp [itemOps, h, hnone, Verdict.ops]

/-- What an item does to every capped replay.  A cut may fall between the closing
byte and the backslash of an ST, so what holds there is a property of its own. -/
theorem forall_replay_itemOps {before mid after : List UInt8 → Prop} {r : ChunkRing} {i : Item}
    {prologue : List UInt8} (hr : ∀ k, before (r.replay k))
    (hdrop : verdict i = .drop → ∀ x, before x → after x) (hclear : after (clearBase ++ prologue))
    (hprologue : after prologue) (hmid : ∀ x, after x → mid x)
    (hclosing : ∀ x, before x → mid (x ++ (i.body ++ [i.closing])))
    (htail : ∀ x, mid x → after (x ++ i.tail)) (k : Nat) :
    after ((r.applyAll (itemOps i prologue)).replay k) := by
  cases hv : verdict i with
  | drop => simpa [itemOps, hv, Verdict.ops] using hdrop hv _ (hr k)
  | clear =>
      rw [itemOps_of_clear hv]
      change after ((r.purge _).replay k)
      rw [ChunkRing.replay_purge]
      exact hclear
  | keep =>
      have hfirst : ∀ k, mid ((r.apply (.keep (i.body ++ [i.closing]) prologue)).replay k) := by
        refine ChunkRing.forall_replay_apply hr ?_ (by simp)
        intro span new heq
        cases heq
        exact ⟨hmid _ hprologue, hclosing⟩
      cases hcase : i.hasTail with
      | false =>
          have hops : itemOps i prologue = [.keep (i.body ++ [i.closing]) prologue] := by
            simp [itemOps, hv, hcase, Verdict.ops]
          have hlast := htail _ (hfirst k)
          rw [Item.tail, hcase, if_neg Bool.false_ne_true, List.append_nil] at hlast
          rw [hops, ChunkRing.applyAll_cons, ChunkRing.applyAll_nil]
          exact hlast
      | true =>
          have hops : itemOps i prologue =
              [.keep (i.body ++ [i.closing]) prologue, .keep [0x5C] prologue] := by
            simp [itemOps, hv, hcase, Verdict.ops]
          rw [Item.tail, hcase, if_pos rfl] at htail
          rw [hops, ChunkRing.applyAll_cons, ChunkRing.applyAll_cons, ChunkRing.applyAll_nil]
          refine ChunkRing.forall_replay_apply hfirst ?_ (by simp) k
          intro span new heq
          cases heq
          exact ⟨hprologue, htail⟩

/-- What the operations of a verdict do to the full replay. -/
theorem full_ops (r : ChunkRing) (v : Verdict) (span prologue : List UInt8) :
    (r.applyAll (v.ops span prologue)).full =
      match v with
      | .keep => r.full ++ span
      | .drop => r.full
      | .clear => clearBase ++ prologue := by
  cases v with
  | keep => exact ChunkRing.full_keep r span prologue
  | drop => rfl
  | clear => exact ChunkRing.full_purge r _

/-- What the operations of an item do to the full replay. -/
theorem full_itemOps (r : ChunkRing) (i : Item) (prologue : List UInt8) :
    (r.applyAll (itemOps i prologue)).full =
      match verdict i with
      | .keep => r.full ++ i.bytes
      | .drop => r.full
      | .clear => clearBase ++ prologue := by
  have htail := fun h => verdict_ne_clear (i := i) h
  rw [itemOps, ChunkRing.applyAll_append, i.bytes_eq, Item.tail]
  cases hcase : i.hasTail with
  | false => simp [full_ops]
  | true =>
      simp only [if_true, full_ops]
      cases hv : verdict i with
      | keep => simp
      | drop => rfl
      | clear => exact absurd hv (htail hcase)

/-- The item does not purge. -/
def keepsHistory (i : Item) : Bool := verdict i != .clear

/-- The items after the last clear. -/
def sinceClear (items : List Item) : List Item := items.rtakeWhile keepsHistory

/-- The items up to and including the last clear. -/
def throughClear (items : List Item) : List Item := items.rdropWhile keepsHistory

/-- The bytes of the kept items. -/
def keptBytes (items : List Item) : List UInt8 := keptPart verdict Item.bytes items

/-- What precedes the kept items: nothing without a clear, else the clear base
and the sticky state the scanner had right after the clear. -/
def clearPrologue (watermark : Nat) (items : List Item) : List UInt8 :=
  if items.isEmpty then []
  else clearBase ++
    (Scanner.feed table (Scanner.new table watermark) (Item.stream items)).sink.sticky.serialize.1

/-- A scanner's prologue is that of the front, whatever the watermark. -/
theorem serialize_stream (watermark : Nat) (items : List Item) :
    (Scanner.feed table (Scanner.new table watermark)
        (Item.stream items)).sink.sticky.serialize.1 =
      (frontAfter items).sink.sticky.buildSerialized := by
  rw [Scanner.serialize_feed, (stable_stream items).1]
  rfl

/-- The full content of the ring, by induction from the right. -/
theorem full_ringAfter (watermark : Nat) (items : List Item) :
    (ringAfter watermark items).full =
      clearPrologue watermark (throughClear items) ++ keptBytes (sinceClear items) := by
  induction items using List.reverseRecOn with
  | nil => rfl
  | append_singleton items i ih =>
      obtain ⟨-, -, hring⟩ := after_snoc watermark items i (atRest_frontAfter items)
      rw [hring, full_itemOps]
      cases hv : verdict i with
      | keep =>
          have hkeeps : keepsHistory i = true := by simp [keepsHistory, hv]
          simp [throughClear, sinceClear, keptBytes, keptPart, hkeeps, hv, ih]
      | drop =>
          have hkeeps : keepsHistory i = true := by simp [keepsHistory, hv]
          simp [throughClear, sinceClear, keptBytes, keptPart, hkeeps, hv, ih]
      | clear =>
          have hpurges : keepsHistory i = false := by simp [keepsHistory, hv]
          have hsince : sinceClear (items ++ [i]) = [] := by simp [sinceClear, hpurges]
          have hthrough : throughClear (items ++ [i]) = items ++ [i] := by
            simp [throughClear, hpurges]
          have hne : (items ++ [i]).isEmpty = false := by simp
          rw [hsince, hthrough, clearPrologue, hne, serialize_stream]
          simp [keptBytes, keptPart]

/-- The replays of a scanner that is fed a well-formed stream are those of its ring. -/
theorem replay_feedAll {watermark : Nat} {items : List Item} {feeds : List (List UInt8)}
    (hfeeds : feeds.flatten = Item.stream items) (wantChunks : Nat) :
    (Scanner.feedAll table (Scanner.new table watermark) feeds).replay wantChunks =
      (ringAfter watermark items).replay wantChunks := by
  rw [Scanner.replay, Scanner.ring_feedAll table (stable_stream items) hfeeds]
  rfl

/-- Full replay of a well-formed stream, in any number of feed calls and for
every watermark: the kept items after the last clear, in order, behind the
prologue of that clear.  The cap is any number that is not below the number of
chunks held, as {lit}`usize::MAX` never is. -/
theorem replay_items (watermark wantChunks : Nat) (items : List Item) (feeds : List (List UInt8))
    (hfeeds : feeds.flatten = Item.stream items)
    (hcap : (Scanner.feedAll table (Scanner.new table watermark) feeds).ring.chunks.length ≤
      wantChunks) :
    (Scanner.feedAll table (Scanner.new table watermark) feeds).replay wantChunks =
      clearPrologue watermark (throughClear items) ++ keptBytes (sinceClear items) := by
  rw [Scanner.replay, ChunkRing.replay_of_length_le _ hcap,
    Scanner.ring_feedAll table (stable_stream items) hfeeds]
  exact full_ringAfter watermark items

/-- The letter {lit}`A`, a red SGR, a full clear, a bell, a clipboard write and
the letter {lit}`B`. -/
def sampleItems : List Item :=
  [.char [0x41] (.one (by decide)) rfl,
    .csi none [0x33, 0x31] [] 0x6D (by simp) (List.all_eq_true.mp rfl) (by simp) rfl,
    .csi none [0x32] [] 0x4A (by simp) (List.all_eq_true.mp rfl) (by simp) rfl,
    .control 0x07 (by decide) (by decide),
    .osc [0x35, 0x32, 0x3B, 0x63] .st
      (.cons (.one (by decide)) (.cons (.one (by decide)) (.cons (.one (by decide))
        (.cons (.one (by decide)) .nil)))) (by simp),
    .char [0x42] (.one (by decide)) rfl]

/-- A one-byte watermark and a split inside the clear: the replay is the clear
base, the prologue with the red SGR and the letter {lit}`B`. -/
theorem replay_items_sample :
    (Scanner.feedAll table (Scanner.new table 1)
      [[0x41, 0x1B, 0x5B, 0x33, 0x31, 0x6D, 0x1B, 0x5B], [0x32, 0x4A, 0x07, 0x1B, 0x5D, 0x35, 0x32,
        0x3B, 0x63, 0x1B, 0x5C, 0x42]]).replay usizeMax =
      clearPrologue 1 (throughClear sampleItems) ++ keptBytes (sinceClear sampleItems) ∧
    clearPrologue 1 (throughClear sampleItems) ++ keptBytes (sinceClear sampleItems) =
      clearBase ++ [0x1B, 0x5B, 0x30, 0x6D, 0x1B, 0x5B, 0x33, 0x31, 0x6D] ++ [0x42] :=
  ⟨replay_items 1 usizeMax sampleItems _ (by decide) (by decide), by decide⟩

end JftermMuxer.Core
