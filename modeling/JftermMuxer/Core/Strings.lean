import JftermMuxer.Core.Sanitization
import JftermMuxer.Core.Seamless
import Mathlib.Data.List.Chain

/-!
# SOS, PM and APC strings

The scanner learns about an SOS, PM or APC string at the backslash of its ST alone,
and there it looks at {lit}`st_pending`, which an OSC leaves behind however it ends.
An OSC that ended in a BEL still owes its classification then, so the string that
follows it at once is taken for its tail.

Main results:

- Theorem {lit}`front_text`: how the front end crosses a string.
- Theorem {lit}`full_elements`: the full replay of a stream of items and strings.
- Theorem {lit}`strings_kept_iff`: every string after the last clear is replayed iff
  none of them directly follows a dropped OSC that ended in a BEL.
-/

namespace JftermMuxer.Core

open Foundation Vte

/-! ## Streams of items and strings -/

/-- A complete item, or a string that the parser skips. -/
inductive Element where
  | item (i : Item)
  | text (s : ControlString)

namespace Element

def bytes : Element → List UInt8
  | item i => i.bytes
  | text s => s.bytes

/-- The bytes of a list of elements. -/
def stream (es : List Element) : List UInt8 := (es.map bytes).flatten

/-- One more element at the end of a stream. -/
theorem stream_snoc (es : List Element) (e : Element) : stream (es ++ [e]) = stream es ++ e.bytes := by
  simp [stream]

def isText : Element → Bool
  | item _ => false
  | text _ => true

/-- The element, when it is a string. -/
def string? : Element → Option ControlString
  | item _ => none
  | text s => some s

/-- A dropped OSC that ends in a BEL: its classification is still to be taken. -/
def owes : Element → Bool
  | item (.osc payload .bel _ _) => isDropCode (some (payload.takeWhile (· ≠ 0x3B)))
  | item _ => false
  | text _ => false

/-- What becomes of an element; a string is dropped when something is owed. -/
def fate (owed : Bool) : Element → Verdict
  | item i => verdict i
  | text _ => if owed then .drop else .keep

/-- The element does not purge. -/
def staysBehind : Element → Bool
  | item i => verdict i != .clear
  | text _ => true

/-- The elements after the last clear. -/
def since (es : List Element) : List Element := es.rtakeWhile staysBehind

/-- What the last element owes, or what was owed before the first. -/
def owedAfter (owed : Bool) (es : List Element) : Bool := (es.getLast?.map owes).getD owed

/-- The elements that are kept. -/
def kept : Bool → List Element → List Element
  | _, [] => []
  | owed, e :: es => (if e.fate owed = .keep then [e] else []) ++ kept e.owes es

/-- One more element is kept or not. -/
theorem kept_snoc (owed : Bool) (es : List Element) (e : Element) :
    kept owed (es ++ [e]) =
      kept owed es ++ if e.fate (owedAfter owed es) = .keep then [e] else [] := by
  induction es generalizing owed with
  | nil => exact List.append_nil _
  | cons d es ih =>
      have hlast : owedAfter owed (d :: es) = owedAfter d.owes es := by
        rw [owedAfter, owedAfter, List.getLast?_cons]
        cases es.getLast? with
        | none => rfl
        | some last => rfl
      rw [List.cons_append, kept, ih, kept, hlast, List.append_assoc]

/-- What is owed depends on the last element. -/
theorem owedAfter_snoc (owed : Bool) (es : List Element) (e : Element) :
    owedAfter owed (es ++ [e]) = e.owes := by
  simp [owedAfter]

/-- A clear owes nothing. -/
theorem owes_of_clear {e : Element} (h : e.staysBehind = false) : e.owes = false := by
  cases e with
  | text s => cases h
  | item i =>
      cases i with
      | osc payload terminator text plain =>
          have hverdict : verdict (.osc payload terminator text plain) ≠ .clear := by
            rw [verdict]
            split
            · simp
            · simp
          simp [staysBehind, hverdict] at h
      | char _ _ _ | control _ _ _ | esc _ _ _ _ | csi _ _ _ _ _ _ _ _ | dcs _ _ _ _ _ _ => rfl

/-- What came before the last clear does not matter to it. -/
theorem owedAfter_since (es : List Element) :
    owedAfter false (since es) = owedAfter false es := by
  induction es using List.reverseRecOn with
  | nil => rfl
  | append_singleton es e _ =>
      cases hstays : e.staysBehind with
      | true =>
          have hsince : since (es ++ [e]) = since es ++ [e] := by simp [since, hstays]
          rw [hsince, owedAfter_snoc, owedAfter_snoc]
      | false =>
          have hsince : since (es ++ [e]) = [] := by simp [since, hstays]
          rw [hsince, owedAfter_snoc, owes_of_clear hstays]
          rfl

end Element

/-! ## What an OSC leaves behind -/

/-- The classification that an ST would take over after a callback. -/
def pendingOf : Callback → Option SegEvent
  | .oscDispatch params _ => some (if isDropCode params.head? then .dropSeq else .keepSeq)
  | .print _ | .execute _ | .hook _ _ _ _ | .put _ | .unhook | .csiDispatch _ _ _ _
  | .escDispatch _ _ _ => none

/-- A callback leaves the pending verdict it brings. -/
theorem stPending_perform (s : Sink) (cb : Callback) : (s.perform cb).stPending = pendingOf cb := by
  cases cb with
  | oscDispatch params bell =>
      obtain ⟨hevent, hpending⟩ := event_oscDispatch s params
      rw [Sink.perform, hpending, hevent]
      rfl
  | csiDispatch params intermediates ignore action =>
      simp only [Sink.perform, Sink.csiDispatch]
      repeat' split
      all_goals rfl
  | escDispatch intermediates ignore byte =>
      simp only [Sink.perform, Sink.escDispatch]
      split
      · rfl
      · rfl
  | print _ | execute _ | hook _ _ _ _ | put _ | unhook => rfl

/-- The pending verdict follows from the callbacks alone. -/
theorem tracks_stPending : Sink.Tracks Sink.stPending (fun _ cb => pendingOf cb) :=
  ⟨stPending_perform, fun _ _ => rfl⟩

/-- The front end between two elements. -/
structure Settled (f : Front State) (owed : Bool) : Prop extends AtRest f where
  owing : f.sink.stPending = some .dropSeq ↔ owed = true
  known : f.sink.stPending = none ∨ f.sink.stPending = some .keepSeq ∨
    f.sink.stPending = some .dropSeq

/-- A fresh front is settled. -/
theorem settled_init : Settled (Front.init table) false :=
  ⟨atRest_init, by simp [Front.init, Sink.new], Or.inl rfl⟩

/-- An item leaves its classification behind when it is an OSC that ends in a BEL. -/
theorem pending_item (i : Item) (before : Option SegEvent) :
    (i.callback :: i.tailCallbacks).foldl (fun _ cb => pendingOf cb) before = none ∧
        (Element.item i).owes = false ∨
      (i.callback :: i.tailCallbacks).foldl (fun _ cb => pendingOf cb) before =
        some (if (Element.item i).owes then .dropSeq else .keepSeq) := by
  cases i with
  | osc payload terminator text plain =>
      cases terminator with
      | bel =>
          refine Or.inr ?_
          have hcode : isDropCode (oscFields payload).head? =
              (Element.item (.osc payload .bel text plain)).owes := by
            rw [head_oscFields]
            rfl
          rw [← hcode]
          rfl
      | st => exact Or.inl ⟨rfl, rfl⟩
  | dcs params final payload listed ends plain => exact Or.inl ⟨rfl, rfl⟩
  | char _ _ _ | control _ _ _ | esc _ _ _ _ | csi _ _ _ _ _ _ _ _ => exact Or.inl ⟨rfl, rfl⟩

/-- The front end crosses an item from rest to rest. -/
theorem settled_item {f : Front State} {owed : Bool} (h : Settled f owed) (i : Item) :
    ∃ f', (Front.machine table).run f i.bytes = (f', itemOps i f'.sink.sticky.buildSerialized) ∧
      Settled f' (Element.item i).owes := by
  obtain ⟨f', hrun, hrest, -⟩ := front_item h.toAtRest i
  obtain ⟨quiet, -, hout⟩ := i.run_bytes
  have hpending : f'.sink.stPending =
      (i.callback :: i.tailCallbacks).foldl (fun _ cb => pendingOf cb)
        (quiet.foldl (fun _ cb => pendingOf cb) f.sink.stPending) := by
    have hafter := tracks_stPending.stateAfter table f i.bytes
    rw [Transducer.stateAfter, hrun, h.parser, Transducer.outputs, hout, List.append_assoc,
      List.foldl_append] at hafter
    exact hafter
  refine ⟨f', hrun, hrest, ?_, ?_⟩
  · rcases pending_item i (quiet.foldl (fun _ cb => pendingOf cb) f.sink.stPending) with
      ⟨hnone, howes⟩ | hsome
    · rw [hpending, hnone, howes]
      simp
    · rw [hpending, hsome]
      cases (Element.item i).owes <;> simp
  · rcases pending_item i (quiet.foldl (fun _ cb => pendingOf cb) f.sink.stPending) with
      ⟨hnone, -⟩ | hsome
    · exact Or.inl (hpending.trans hnone)
    · rw [hpending, hsome]
      cases (Element.item i).owes <;> simp

/-- The front end crosses a string without a callback up to its last backslash, and
drops it when an OSC owes it that. -/
theorem front_text {f : Front State} {owed : Bool} (h : Settled f owed) (s : ControlString) :
    ∃ f', (Front.machine table).run f s.bytes =
        (f', ((Element.text s).fate owed).ops s.bytes f'.sink.sticky.buildSerialized) ∧
      Settled f' false := by
  have hrun : table.run f.parser s.body = (.escape, []) := by
    rw [h.parser]
    exact s.run_body
  have hbody := front_run_quiet hrun (by simp) h.event
  have hmatches : ((Element.text s).fate owed).Matches
      (f.sink.perform (.escDispatch [] false 0x5C)).event := by
    cases howed : owed with
    | true =>
        have hdrop := h.owing.mpr howed
        simp only [Sink.perform, Sink.escDispatch, hdrop]
        rfl
    | false =>
        refine Or.inr ?_
        rcases h.known with hpending | hpending | hpending
        · simp [Sink.perform, Sink.escDispatch, hpending]
        · simp [Sink.perform, Sink.escDispatch, hpending]
        · rw [h.owing, howed] at hpending
          cases hpending
  have hlast := front_advance_closing (f := ⟨.escape, f.sink, f.pending ++ s.body⟩) (b := 0x5C) rfl
    hmatches
  have hnone := stPending_perform f.sink (.escDispatch [] false 0x5C)
  refine ⟨⟨.ground [], { f.sink.perform (.escDispatch [] false 0x5C) with event := .none }, []⟩,
    ?_, ⟨⟨rfl, rfl, rfl⟩, ?_, Or.inl hnone⟩⟩
  · rw [ControlString.bytes, Transducer.run_append, hbody, Transducer.run_cons]
    change ((Front.advance table _ 0x5C).1, _ ++ ((Front.advance table _ 0x5C).2 ++ [])) = _
    rw [show f.sink.performAll [] = f.sink from rfl, hlast, h.pending]
    simp
  · change (f.sink.perform (.escDispatch [] false 0x5C)).stPending = _ ↔ _
    rw [hnone]
    simp [pendingOf]

/-! ## The full replay -/

/-- The front end after a stream of elements. -/
def frontElements (es : List Element) : Front State :=
  (Front.machine table).stateAfter (Front.init table) (Element.stream es)

/-- The ring after a stream of elements. -/
def ringElements (watermark : Nat) (es : List Element) : ChunkRing :=
  (ChunkRing.new watermark).applyAll
    ((Front.machine table).outputs (Front.init table) (Element.stream es))

/-- What a run adds to the front end and to the ring. -/
theorem elements_snoc (watermark : Nat) (es : List Element) {e : Element} {f : Front State}
    {ops : List RingOp} (h : (Front.machine table).run (frontElements es) e.bytes = (f, ops)) :
    frontElements (es ++ [e]) = f ∧
      ringElements watermark (es ++ [e]) = (ringElements watermark es).applyAll ops := by
  constructor
  · rw [frontElements, Element.stream_snoc, Transducer.stateAfter_append, Transducer.stateAfter]
    exact congrArg Prod.fst h
  · rw [ringElements, Element.stream_snoc, Transducer.outputs_append, ChunkRing.applyAll_append]
    exact congrArg (ChunkRing.applyAll _) (congrArg Prod.snd h)

/-- One more element: the front end is at rest again, and the full replay keeps it,
drops it or starts anew. -/
theorem full_snoc (watermark : Nat) {es : List Element}
    (h : Settled (frontElements es) (Element.owedAfter false es)) (e : Element) :
    Settled (frontElements (es ++ [e])) e.owes ∧
      (e.fate (Element.owedAfter false es) = .keep →
        (ringElements watermark (es ++ [e])).full = (ringElements watermark es).full ++ e.bytes) ∧
      (e.fate (Element.owedAfter false es) = .drop →
        (ringElements watermark (es ++ [e])).full = (ringElements watermark es).full) ∧
      (e.fate (Element.owedAfter false es) = .clear →
        (ringElements watermark (es ++ [e])).full =
          clearBase ++ (frontElements (es ++ [e])).sink.sticky.buildSerialized) := by
  cases e with
  | item i =>
      obtain ⟨f, hrun, hsettled⟩ := settled_item h i
      obtain ⟨hfront, hring⟩ := elements_snoc watermark es (e := .item i) hrun
      have hfull := full_itemOps (ringElements watermark es) i f.sink.sticky.buildSerialized
      rw [hfront, hring, Element.fate]
      refine ⟨hsettled, ?_, ?_, ?_⟩
      all_goals
        intro hfate
        rw [hfate] at hfull
        exact hfull
  | text s =>
      obtain ⟨f, hrun, hsettled⟩ := front_text h s
      obtain ⟨hfront, hring⟩ := elements_snoc watermark es (e := .text s) hrun
      have hfull := full_ops (ringElements watermark es)
        ((Element.text s).fate (Element.owedAfter false es)) s.bytes f.sink.sticky.buildSerialized
      rw [hfront, hring]
      refine ⟨hsettled, ?_, ?_, ?_⟩
      all_goals
        intro hfate
        rw [hfate] at hfull ⊢
        exact hfull

/-- Behind elements the front is settled. -/
theorem settled_elements (es : List Element) :
    Settled (frontElements es) (Element.owedAfter false es) := by
  induction es using List.reverseRecOn with
  | nil => exact settled_init
  | append_singleton es e ih =>
      rw [Element.owedAfter_snoc]
      exact (full_snoc 0 ih e).1

/-- What stands before the kept elements: nothing, or the base of a clear with a
prologue. -/
def IsBase (bytes : List UInt8) : Prop :=
  bytes = [] ∨ ∃ sticky, PlainSticky sticky ∧ bytes = clearBase ++ sticky.buildSerialized

/-- The full replay of a stream of elements: the kept ones after the last clear, in
order, behind the base of that clear. -/
theorem full_elements (watermark : Nat) (es : List Element) :
    ∃ base, IsBase base ∧ (ringElements watermark es).full =
      base ++ Element.stream (Element.kept false (Element.since es)) := by
  induction es using List.reverseRecOn with
  | nil => exact ⟨[], Or.inl rfl, rfl⟩
  | append_singleton es e ih =>
      obtain ⟨base, hbase, hfull⟩ := ih
      have hplain : PlainFront (frontElements (es ++ [e])) :=
        Transducer.run_induct (motive := PlainFront) (Front.machine table)
          (fun _ b hf => plainFront_advance hf b) plainFront_init _
      obtain ⟨-, hkeep, hdrop, hclear⟩ := full_snoc watermark (settled_elements es) e
      cases hstays : e.staysBehind with
      | true =>
          have hsince : Element.since (es ++ [e]) = Element.since es ++ [e] := by
            simp [Element.since, hstays]
          rw [hsince, Element.kept_snoc, Element.owedAfter_since]
          refine ⟨base, hbase, ?_⟩
          cases hfate : e.fate (Element.owedAfter false es) with
          | keep => simp [hkeep hfate, hfull, Element.stream_snoc]
          | drop => simp [hdrop hfate, hfull]
          | clear =>
              cases e with
              | item i =>
                  have hverdict : verdict i = .clear := hfate
                  simp [Element.staysBehind, hverdict] at hstays
              | text s =>
                  rw [Element.fate] at hfate
                  split at hfate
                  · cases hfate
                  · cases hfate
      | false =>
          have hsince : Element.since (es ++ [e]) = [] := by
            simp [Element.since, hstays]
          have hfate : e.fate (Element.owedAfter false es) = .clear := by
            cases e with
            | item i =>
                have hverdict : verdict i = .clear := by simpa [Element.staysBehind] using hstays
                exact hverdict
            | text s => cases hstays
          rw [hclear hfate, hsince]
          exact ⟨_, Or.inr ⟨_, hplain.2, rfl⟩, (List.append_nil _).symm⟩

/-! ## Counting the strings of a replay -/

/-- Reports every byte that introduces a string right after an ESC. -/
def opener : Transducer Bool UInt8 Unit where
  init := false
  advance := fun escaped b =>
    (b == 0x1B, if escaped && (b == 0x58 || b == 0x5E || b == 0x5F) then [()] else [])

/-- A word without an ESC opens nothing. -/
theorem opener_plain {w : List UInt8} (h : ∀ b ∈ w, b ≠ 0x1B) :
    opener.run false w = (false, []) := by
  induction w with
  | nil => rfl
  | cons b w ih =>
      have hb : (b == 0x1B) = false := beq_false_of_ne (h b (by simp))
      have hstep : opener.advance false b = (false, []) := by
        simp [opener, hb]
      rw [Transducer.run_cons, hstep, ih (fun x hx => h x (List.mem_cons_of_mem b hx))]
      rfl

/-- Nor does an escape sequence of another kind. -/
theorem opener_escape {c : UInt8} {w : List UInt8} (hesc : c ≠ 0x1B) (hsos : c ≠ 0x58)
    (hpm : c ≠ 0x5E) (hapc : c ≠ 0x5F) (h : ∀ b ∈ w, b ≠ 0x1B) :
    opener.run false (0x1B :: c :: w) = (false, []) := by
  have hstep : opener.advance true c = (false, []) := by
    simp [opener, hesc, hsos, hpm, hapc]
  have hintro : opener.advance false 0x1B = (true, []) := rfl
  rw [Transducer.run_cons, hintro, Transducer.run_cons, hstep, opener_plain h]
  rfl

/-- Words that open nothing compose. -/
theorem opener_append {as bs : List UInt8} {n : List Unit} (ha : opener.run false as = (false, []))
    (hb : opener.run false bs = (false, n)) : opener.run false (as ++ bs) = (false, n) := by
  rw [Transducer.run_append, ha, hb]
  rfl

private theorem plain_scalar {bs : List UInt8} (h : IsScalar bs)
    (hprintable : isControlChar bs = false) : ∀ b ∈ bs, b ≠ 0x1B := by
  have hcont : ∀ b : UInt8, isCont b = true → b ≠ 0x1B := by
    rintro b hb rfl
    exact absurd hb (by decide)
  have hlead : ∀ b : UInt8, 2 ≤ leadWidth b → b ≠ 0x1B := by
    rintro b hb rfl
    exact absurd hb (by decide)
  intro b hb
  cases h with
  | @one a ha =>
      rw [List.mem_singleton.mp hb]
      rintro rfl
      exact absurd hprintable (by decide)
  | @two x y hx hy =>
      rcases List.mem_cons.mp hb with rfl | hb
      · exact hlead b (by omega)
      · rw [List.mem_singleton.mp hb]
        exact hcont y (secondOk_isCont hy)
  | @three x y z hx hy hz =>
      simp only [List.mem_cons, List.not_mem_nil, or_false] at hb
      rcases hb with rfl | rfl | rfl
      · exact hlead b (by omega)
      · exact hcont b (secondOk_isCont hy)
      · exact hcont b hz
  | @four x y z u hx hy hz hu =>
      simp only [List.mem_cons, List.not_mem_nil, or_false] at hb
      rcases hb with rfl | rfl | rfl | rfl
      · exact hlead b (by omega)
      · exact hcont b (secondOk_isCont hy)
      · exact hcont b hz
      · exact hcont b hu

/-- The body of a sequence, with its introducer. -/
theorem opener_body {i : Item} {c : UInt8} {w : List UInt8} (h : isSequence i = true)
    (hbody : i.body = 0x1B :: c :: w) (hsos : c ≠ 0x58) (hpm : c ≠ 0x5E) (hapc : c ≠ 0x5F)
    (last : List UInt8) (hlast : ∀ b ∈ last, b ≠ 0x1B) :
    opener.run false (0x1B :: c :: w ++ last) = (false, []) := by
  obtain ⟨rest, hrest, hnot⟩ := body_of_sequence h
  rw [hbody] at hrest
  rw [← (List.cons.inj hrest).2] at hnot
  refine opener_escape ?_ hsos hpm hapc ?_
  · rintro rfl
    exact hnot List.mem_cons_self
  · intro b hb
    rcases List.mem_append.mp hb with hb | hb
    · rintro rfl
      exact hnot (List.mem_cons_of_mem c hb)
    · exact hlast b hb

/-- Items open no string. -/
theorem opener_item (i : Item) : opener.run false i.bytes = (false, []) := by
  have hst : opener.run false [0x1B, 0x5C] = (false, []) := rfl
  cases i with
  | char encoded scalar printable => exact opener_plain (plain_scalar scalar printable)
  | control byte c0 notEsc => exact opener_plain (by simpa [Item.bytes] using notEsc)
  | esc intermediates final collected ends =>
      have hends := ends
      simp only [isEscItem, Bool.and_eq_true, decide_eq_true_eq] at ends
      have hfinal : final ≠ 0x1B := by grind
      cases intermediates with
      | nil =>
          have hesc := ends.2
          rw [if_pos rfl] at hesc
          unfold isEscFinal at hesc
          exact opener_escape hfinal (by grind) (by grind) (by grind) (by simp)
      | cons b bs =>
          have hb : isIntermediate b = true := collected b (by simp)
          refine opener_body (i := .esc (b :: bs) final collected hends) rfl rfl ?_ ?_ ?_
            [final] (by simpa using hfinal)
          · rintro rfl
            contradiction
          · rintro rfl
            contradiction
          · rintro rfl
            contradiction
  | csi marker params intermediates final marked listed collected ends =>
      have hfinal : final ≠ 0x1B := by
        rintro rfl
        contradiction
      exact opener_body (i := .csi marker params intermediates final marked listed collected ends)
        rfl rfl (by decide) (by decide) (by decide) [final] (by simpa using hfinal)
  | osc payload terminator text plain =>
      have hbody := opener_body (i := .osc payload terminator text plain) rfl rfl (by decide)
        (by decide) (by decide)
      cases terminator with
      | bel => exact hbody [0x07] (by simp)
      | st =>
          have hopen := hbody [] (by simp)
          rw [List.append_nil] at hopen
          exact opener_append hopen hst
  | dcs params final payload listed ends plain =>
      have hopen := opener_body (i := .dcs params final payload listed ends plain) rfl rfl
        (by decide) (by decide) (by decide) [] (by simp)
      rw [List.append_nil] at hopen
      exact opener_append hopen hst

/-- A string opens itself, whatever came before it. -/
theorem opener_text (escaped : Bool) (s : ControlString) :
    opener.run escaped s.bytes = (false, [()]) := by
  have hintro : opener.run escaped [0x1B, s.kind.byte] = (false, [()]) := by
    cases s.kind with
    | sos => cases escaped <;> rfl
    | pm => cases escaped <;> rfl
    | apc => cases escaped <;> rfl
  have hpayload : opener.run false s.payload = (false, []) := by
    apply opener_plain
    rintro b hb rfl
    exact absurd (s.plain _ hb).1 (by decide)
  have hst : opener.run false [0x1B, 0x5C] = (false, []) := rfl
  have hbytes : s.bytes = [0x1B, s.kind.byte] ++ (s.payload ++ [0x1B, 0x5C]) := by
    simp [ControlString.bytes, ControlString.body]
  rw [hbytes, Transducer.run_append, hintro, opener_append hpayload hst]
  rfl

/-- The base of a replay opens no string. -/
theorem opener_base {base : List UInt8} (h : IsBase base) : opener.run false base = (false, []) := by
  have hosc : ∀ {code : UInt8} {text : List UInt8}, 0x20 ≤ code → Plain text →
      opener.run false ([0x1B, 0x5D, code, 0x3B] ++ text ++ [0x07]) = (false, []) := by
    intro code text hcode htext
    have hnot : ∀ b ∈ [code, 0x3B] ++ text ++ [0x07], b ≠ 0x1B := by
      rintro b hb rfl
      rcases List.mem_append.mp hb with hb | hb
      · exact absurd (plain_prefixed hcode htext _ hb) (by decide)
      · simp at hb
    exact opener_escape (by decide) (by decide) (by decide) (by decide) hnot
  rcases h with rfl | ⟨s, hplain, rfl⟩
  · rfl
  · have hprologue : opener.run false s.buildSerialized = (false, []) := by
      apply prologue_induct (P := fun w => opener.run false w = (false, [])) rfl
        fun as bs has hbs => opener_append has hbs
      · intro w hw
        have hnot : ∀ b ∈ w, b ≠ 0x1B := by
          rintro b hb rfl
          exact absurd (hw _ hb).1 (by decide)
        exact opener_escape (by decide) (by decide) (by decide) (by decide) hnot
      · exact fun cwd hsome => hosc (by decide) (hplain.1 cwd hsome)
      · exact fun title hsome => hosc (by decide) (hplain.2 title hsome)
    have hclear : opener.run false clearBase = (false, []) := rfl
    exact opener_append hclear hprologue

/-- A stream opens as many strings as it has. -/
theorem opener_stream (es : List Element) :
    (opener.run false (Element.stream es)).1 = false ∧
      (opener.run false (Element.stream es)).2.length = es.countP Element.isText := by
  induction es with
  | nil => exact ⟨rfl, rfl⟩
  | cons e es ih =>
      have hstep : opener.run false e.bytes = (false, if e.isText then [()] else []) := by
        cases e with
        | item i => exact opener_item i
        | text s => exact opener_text false s
      have hstream : Element.stream (e :: es) = e.bytes ++ Element.stream es := rfl
      rw [hstream, Transducer.run_append, hstep, List.countP_cons]
      refine ⟨ih.1, ?_⟩
      rw [List.length_append, ih.2]
      cases e.isText <;> simp [Nat.add_comm]

/-! ## Strings in a replay -/

/-- The pieces occur in the bytes one after the other, each of them whole. -/
inductive Occur : List (List UInt8) → List UInt8 → Prop where
  | nil (bytes : List UInt8) : Occur [] bytes
  | cons (before piece : List UInt8) {pieces : List (List UInt8)} {after : List UInt8}
      (rest : Occur pieces after) : Occur (piece :: pieces) (before ++ piece ++ after)

/-- More bytes in front leave the pieces in place. -/
theorem Occur.prepend {pieces : List (List UInt8)} {bytes : List UInt8} (h : Occur pieces bytes)
    (more : List UInt8) : Occur pieces (more ++ bytes) := by
  cases h with
  | nil => exact .nil _
  | cons before piece rest =>
      rw [← List.append_assoc, ← List.append_assoc]
      exact .cons (more ++ before) piece rest

namespace Element

/-- The strings among the elements, in order. -/
def strings (es : List Element) : List (List UInt8) :=
  (es.filterMap string?).map ControlString.bytes

/-- There are as many strings as text elements. -/
theorem length_strings (es : List Element) : (strings es).length = es.countP isText := by
  rw [strings, List.length_map, List.length_filterMap_eq_countP]
  apply List.countP_congr
  intro e _
  cases e with
  | item i => exact Iff.rfl
  | text s => exact Iff.rfl

/-- The strings of a stream occur in its bytes. -/
theorem occur_strings (es : List Element) : Occur (strings es) (stream es) := by
  induction es with
  | nil => exact .nil _
  | cons e es ih =>
      cases e with
      | item i => exact ih.prepend i.bytes
      | text s => exact .cons [] s.bytes ih

/-- No string directly follows an element that owes its classification. -/
def Unclaimed : List Element → Prop :=
  List.IsChain fun e next => next.isText = true → e.owes = false

instance decidableUnclaimed (es : List Element) : Decidable (Unclaimed es) :=
  inferInstanceAs (Decidable (List.IsChain _ es))

/-- What is kept is a selection of the elements. -/
theorem kept_sublist (owed : Bool) (es : List Element) : (kept owed es).Sublist es := by
  induction es generalizing owed with
  | nil => exact List.Sublist.refl _
  | cons e es ih =>
      rw [kept]
      split
      · exact (ih e.owes).cons_cons e
      · exact (ih e.owes).cons e

/-- The strings are all kept iff none claims what is owed. -/
theorem countP_kept_iff (owed : Bool) (es : List Element) :
    (kept owed es).countP isText = es.countP isText ↔
      (∀ e ∈ es.head?, e.isText = true → owed = false) ∧ Unclaimed es := by
  induction es generalizing owed with
  | nil => simp [kept, Unclaimed]
  | cons e es ih =>
      have hle : (kept e.owes es).countP isText ≤ es.countP isText :=
        (kept_sublist e.owes es).countP_le
      have hchain : Unclaimed (e :: es) ↔
          (∀ next ∈ es.head?, next.isText = true → e.owes = false) ∧ Unclaimed es := by
        rw [Unclaimed, List.isChain_cons]
      rw [hchain, ← ih e.owes, kept, List.countP_append, List.countP_cons]
      cases e with
      | item i =>
          have hnone : List.countP isText (if (item i).fate owed = .keep then [item i] else []) = 0 := by
            split
            · rfl
            · rfl
          simp [hnone, isText]
      | text s =>
          have hone : (if (text s).isText = true then 1 else 0) = 1 := rfl
          cases owed with
          | true =>
              have hdrop : List.countP isText (if (text s).fate true = .keep then [text s] else []) =
                  0 := rfl
              rw [hdrop, hone]
              constructor
              · intro heq
                omega
              · rintro ⟨hno, -⟩
                cases hno (text s) rfl rfl
          | false =>
              have hkeep : List.countP isText (if (text s).fate false = .keep then [text s] else []) =
                  1 := rfl
              rw [hkeep, hone]
              constructor
              · intro heq
                exact ⟨fun _ _ _ => rfl, by omega⟩
              · rintro ⟨-, heq⟩
                omega

end Element

/-- Every piece of a stream that occurs in some bytes opens a string there. -/
theorem length_le_of_occur {pieces : List (List UInt8)} {bytes : List UInt8}
    (h : Occur pieces bytes) (hpieces : ∀ piece ∈ pieces, ∃ s : ControlString, piece = s.bytes)
    (escaped : Bool) : pieces.length ≤ (opener.run escaped bytes).2.length := by
  induction h generalizing escaped with
  | nil bytes => exact Nat.zero_le _
  | cons before piece rest ih =>
      obtain ⟨s, rfl⟩ := hpieces piece List.mem_cons_self
      have hrest := ih (fun p hp => hpieces p (List.mem_cons_of_mem _ hp)) false
      rw [Transducer.run_append, Transducer.run_append, opener_text]
      simp only [List.length_append, List.length_cons, List.length_nil]
      omega

/-- Whatever the split into feed calls, the full replay has every string after the
last clear, verbatim and in order. -/
def StringsKept (watermark : Nat) (es : List Element) : Prop :=
  ∀ (feeds : List (List UInt8)) (wantChunks : Nat), feeds.flatten = Element.stream es →
    (Scanner.feedAll table (Scanner.new table watermark) feeds).ring.chunks.length ≤ wantChunks →
    Occur (Element.strings (Element.since es))
      ((Scanner.feedAll table (Scanner.new table watermark) feeds).replay wantChunks)

/-- A replay that is not cut off is the prologue and the kept elements since the last clear.
-/
theorem replay_elements (watermark : Nat) {wantChunks : Nat} {es : List Element}
    {feeds : List (List UInt8)} (hfeeds : feeds.flatten = Element.stream es)
    (hcap : (Scanner.feedAll table (Scanner.new table watermark) feeds).ring.chunks.length ≤
      wantChunks) :
    (Scanner.feedAll table (Scanner.new table watermark) feeds).replay wantChunks =
      (ringElements watermark es).full := by
  have hstable : Stable (Element.stream es) := by
    clear hfeeds
    induction es with
    | nil => exact stable_nil
    | cons e es ih =>
        refine Stable.append ?_ ih
        cases e with
        | item i => exact stable_item i
        | text s =>
            apply stable_ascii
            intro b hb
            have hplain := s.plain b
            simp only [Element.bytes, ControlString.bytes, ControlString.body, List.mem_append,
              List.mem_cons, List.not_mem_nil, or_false] at hb
            cases hkind : s.kind <;> rw [hkind, StringKind.byte] at hb <;> grind
  rw [Scanner.replay, ChunkRing.replay_of_length_le _ hcap, Scanner.ring_feedAll table hstable hfeeds]
  rfl

/-- For every watermark, every string after the last clear appears in the full replay,
verbatim and in order, exactly when none of them comes right after an OSC 9, 52, 133
or 777 that ended in a BEL. -/
theorem strings_kept_iff (watermark : Nat) (es : List Element) :
    StringsKept watermark es ↔ Element.Unclaimed (Element.since es) := by
  obtain ⟨base, hbase, hfull⟩ := full_elements watermark es
  have hcount := Element.countP_kept_iff false (Element.since es)
  have hunclaimed : (Element.kept false (Element.since es)).countP Element.isText =
      (Element.since es).countP Element.isText ↔ Element.Unclaimed (Element.since es) := by
    simpa using hcount
  rw [← hunclaimed]
  constructor
  · intro h
    have hone : [Element.stream es].flatten = Element.stream es := List.flatten_singleton
    have hreplay := replay_elements watermark hone (Nat.le_refl _)
    have hoccur := h [Element.stream es] _ hone (Nat.le_refl _)
    rw [hreplay, hfull] at hoccur
    have hpieces : ∀ piece ∈ Element.strings (Element.since es), ∃ s : ControlString,
        piece = s.bytes := by
      intro piece hpiece
      obtain ⟨s, -, heq⟩ := List.mem_map.mp hpiece
      exact ⟨s, heq.symm⟩
    have hlength := length_le_of_occur hoccur hpieces false
    obtain ⟨-, hopened⟩ := opener_stream (Element.kept false (Element.since es))
    rw [Transducer.run_append, opener_base hbase, Element.length_strings] at hlength
    simp only [List.nil_append] at hlength
    have hle : (Element.kept false (Element.since es)).countP Element.isText ≤
        (Element.since es).countP Element.isText :=
      (Element.kept_sublist false (Element.since es)).countP_le
    omega
  · intro heq feeds wantChunks hfeeds hcap
    have hsame : Element.strings (Element.kept false (Element.since es)) =
        Element.strings (Element.since es) := by
      have hsub := ((Element.kept_sublist false (Element.since es)).filterMap
        Element.string?).map ControlString.bytes
      apply hsub.eq_of_length
      have hlengths := heq
      rw [← Element.length_strings, ← Element.length_strings] at hlengths
      exact hlengths
    rw [replay_elements watermark hfeeds hcap, hfull, ← hsame]
    exact (Element.occur_strings _).prepend base

/-- A notification that ends in a BEL, and an APC string right after it. -/
def claimed : List Element :=
  [.item (.osc [0x39, 0x3B, 0x78] .bel
      (.cons (.one (by decide)) (.cons (.one (by decide)) (.cons (.one (by decide)) .nil)))
      (by simp)),
    .text ⟨.apc, [0x61], by simp⟩]

/-- The string is gone. -/
theorem string_taken_for_tail :
    ¬ ∀ (watermark : Nat) (es : List Element), StringsKept watermark es := by
  intro h
  have hempty : (Scanner.feedAll table (Scanner.new table 1) [Element.stream claimed]).replay 1 =
      [] := by
    decide +kernel
  have hoccur := h 1 claimed [Element.stream claimed] 1 (by simp) (by decide +kernel)
  rw [hempty] at hoccur
  generalize hnone : ([] : List UInt8) = bytes at hoccur
  have hstrings : Element.strings (Element.since claimed) =
      [[0x1B, 0x5F, 0x61, 0x1B, 0x5C]] := by decide +kernel
  rw [hstrings] at hoccur
  cases hoccur with
  | cons before piece rest => simp at hnone

end JftermMuxer.Core
