import JftermMuxer.Core.Replay

/-!
# Attaching in the middle of a stream

A client that attaches reads the replay and then the live bytes.  The replay
holds finished spans only, so the bytes of an unfinished item are missing from
it: the client reads the rest of the item from the ground state.  This file
says exactly at which split points the client and the session nevertheless
agree.

Main results:

- Definition {lit}`Seamless`: the client interprets the live bytes as the
  session does.
- Theorem {lit}`seamless_iff`: a split is seamless exactly when it falls between
  two items, or right before the last byte of a resumable item.
-/

namespace JftermMuxer.Core

open Foundation Vte

/-! ## The client's parser after a replay -/

/-- A client that has read a full replay between two items is in the ground
state. -/
theorem stateAfter_full (watermark : Nat) (items : List Item) :
    table.stateAfter (.ground []) (ringAfter watermark items).full = .ground [] := by
  have hprologue : table.stateAfter (.ground []) (clearPrologue watermark (throughClear items)) =
      .ground [] := by
    unfold clearPrologue
    split
    · rfl
    · have hplain := (plainFront_frontAfter (throughClear items)).2
      have hbase : table.stateAfter (.ground []) clearBase = .ground [] := rfl
      rw [serialize_stream, Transducer.stateAfter_append, hbase, Transducer.stateAfter,
        run_buildSerialized hplain]
  rw [full_ringAfter, Transducer.stateAfter_append, hprologue]
  exact Item.stateAfter_stream _

/-! ## The split point -/

/-- A split of a well-formed stream falls between two items or inside one. -/
theorem split_cases {items : List Item} {a b : List UInt8} (h : a ++ b = Item.stream items) :
    (∃ before after, items = before ++ after ∧ a = Item.stream before ∧ b = Item.stream after) ∨
    ∃ before i after p r, items = before ++ i :: after ∧ i.bytes = p ++ r ∧ p ≠ [] ∧ r ≠ [] ∧
      a = Item.stream before ++ p ∧ b = r ++ Item.stream after := by
  induction items generalizing a with
  | nil =>
      obtain ⟨ha, hb⟩ := List.append_eq_nil_iff.mp h
      exact Or.inl ⟨[], [], rfl, ha, hb⟩
  | cons i items ih =>
      rw [Item.stream_cons] at h
      by_cases hnil : a = []
      · subst hnil
        exact Or.inl ⟨[], i :: items, rfl, rfl, by simpa using h⟩
      rcases List.append_eq_append_iff.mp h with ⟨r, hbytes, hb⟩ | ⟨a', ha, hrest⟩
      · by_cases hr : r = []
        · subst hr
          refine Or.inl ⟨[i], items, rfl, ?_, by simpa using hb⟩
          simpa using hbytes.symm
        · exact Or.inr ⟨[], i, items, a, r, rfl, hbytes, hnil, hr, rfl, hb⟩
      · rcases ih hrest.symm with ⟨before, after, hitems, ha', hb⟩ |
          ⟨before, j, after, p, r, hitems, hbytes, hp, hr, ha', hb⟩
        · refine Or.inl ⟨i :: before, after, by rw [hitems]; rfl, ?_, hb⟩
          rw [ha, ha', Item.stream_cons]
        · refine Or.inr ⟨i :: before, j, after, p, r, by rw [hitems]; rfl, hbytes, hp, hr, ?_, hb⟩
          rw [ha, ha', Item.stream_cons, List.append_assoc]

/-- A split inside an item falls inside its body or right before the backslash
of its ST. -/
theorem split_item {i : Item} {p r : List UInt8} (h : i.bytes = p ++ r) (hr : r ≠ []) :
    (∃ rest, i.body = p ++ rest ∧ r = rest ++ [i.closing] ++ i.tail) ∨
      (i.hasTail = true ∧ p = i.body ++ [i.closing] ∧ r = [0x5C]) := by
  rw [i.bytes_eq, List.append_assoc] at h
  rcases List.append_eq_append_iff.mp h with ⟨q, hp, hq⟩ | ⟨rest, hbody, hr'⟩
  · cases q with
    | nil =>
        refine Or.inl ⟨[], by simpa using hp.symm, ?_⟩
        simpa using hq.symm
    | cons c q =>
        obtain ⟨rfl, hq⟩ := List.cons.inj hq
        refine Or.inr ?_
        cases htail : i.hasTail with
        | false =>
            simp only [Item.tail, htail] at hq
            simp at hq
            exact absurd hq.2 hr
        | true =>
            simp only [Item.tail, htail, if_true] at hq
            cases q with
            | nil => exact ⟨rfl, hp, by simpa using hq.symm⟩
            | cons d q =>
                simp at hq
                exact absurd hq.2.2 hr
  · exact Or.inl ⟨rest, hbody, by rw [hr', List.append_assoc]⟩

/-! ## Reading the rest of an item from the ground state -/

/-- Callbacks the ground state makes by itself. -/
def isGlyph : Callback → Bool
  | .print _ => true
  | .execute _ => true
  | _ => false

private theorem glyph_fresh (b : UInt8) : ∀ cb ∈ (advanceGroundFresh b).2, isGlyph cb = true := by
  unfold advanceGroundFresh
  repeat' split
  all_goals simp [isGlyph]

/-- Only glyphs come out of the ground state. -/
theorem glyph_advance (buffer : List UInt8) (b : UInt8) :
    ∀ cb ∈ (advance (.ground buffer) b).2, isGlyph cb = true := by
  simp only [advance, advanceGround]
  split
  · exact glyph_fresh b
  · split
    · split
      · simp [isGlyph]
      · simp
    · intro cb hcb
      rcases List.mem_cons.mp hcb with rfl | hcb
      · rfl
      · exact glyph_fresh b cb hcb

/-- Only an ESC leaves the ground state. -/
theorem ground_advance (buffer : List UInt8) {b : UInt8} (hb : b ≠ 0x1B) :
    ∃ buffer', (advance (.ground buffer) b).1 = .ground buffer' := by
  simp only [advance, advanceGround, advanceGroundFresh, if_neg hb]
  repeat' split
  all_goals exact ⟨_, rfl⟩

/-- Without an ESC the ground state shows glyphs. -/
theorem glyph_run (buffer : List UInt8) {w : List UInt8} (hw : 0x1B ∉ w) :
    ∃ buffer', table.stateAfter (.ground buffer) w = .ground buffer' ∧
      ∀ cb ∈ table.outputs (.ground buffer) w, isGlyph cb = true := by
  induction w generalizing buffer with
  | nil => exact ⟨buffer, rfl, by simp⟩
  | cons b w ih =>
      simp only [List.mem_cons, not_or] at hw
      obtain ⟨mid, hstate⟩ := ground_advance buffer (b := b) (fun h => hw.1 h.symm)
      obtain ⟨buffer', hstate', hglyph'⟩ := ih mid hw.2
      rw [Transducer.stateAfter_cons, Transducer.outputs_cons, table_advance, hstate]
      refine ⟨buffer', hstate', ?_⟩
      intro cb hcb
      rcases List.mem_append.mp hcb with hcb | hcb
      · exact glyph_advance buffer b cb hcb
      · exact hglyph' cb hcb

/-- An ASCII byte other than ESC always comes out. -/
theorem outputs_ascii_ne_nil (buffer : List UInt8) {b : UInt8} (hb : b < 0x80) (hesc : b ≠ 0x1B) :
    (advance (.ground buffer) b).2 ≠ [] := by
  have hfresh : (advanceGroundFresh b).2 ≠ [] := by
    unfold advanceGroundFresh
    rw [if_neg hesc]
    split
    · simp
    · simp
  have hcont : ∀ lead rest, contOk (lead :: rest) b = false := by
    intro lead rest
    have hnot : isCont b = false := by
      unfold isCont
      grind
    cases rest with
    | nil =>
        by_contra hne
        have hsecond := @secondOk_isCont lead b (by simpa [contOk] using hne)
        rw [hnot] at hsecond
        contradiction
    | cons c rest => exact hnot
  cases buffer with
  | nil => exact hfresh
  | cons lead rest => simp [advance, advanceGround, hcont]

/-- Items that begin with an ESC. -/
def isSequence : Item → Bool
  | .char _ _ _ => false
  | .control _ _ _ => false
  | _ => true

private theorem not_esc_intermediate {b : UInt8} (h : isIntermediate b = true) : b ≠ 0x1B := by
  rintro rfl
  contradiction

private theorem not_esc_param {b : UInt8} (h : isParamByte b = true) : b ≠ 0x1B := by
  rintro rfl
  contradiction

/-- The only ESC in the body of a sequence is its first byte. -/
theorem body_of_sequence {i : Item} (h : isSequence i = true) :
    ∃ rest, i.body = 0x1B :: rest ∧ 0x1B ∉ rest := by
  cases i with
  | char encoded scalar printable => contradiction
  | control byte c0 notEsc => contradiction
  | esc intermediates final collected ends =>
      exact ⟨intermediates, rfl, fun hmem => not_esc_intermediate (collected _ hmem) rfl⟩
  | csi marker params intermediates final marked listed collected ends =>
      refine ⟨0x5B :: (marker.toList ++ params ++ intermediates), rfl, ?_⟩
      intro hmem
      simp only [List.mem_cons, List.mem_append] at hmem
      rcases hmem with hmem | (hmem | hmem) | hmem
      · contradiction
      · have hpriv := marked 0x1B (by simpa using hmem)
        contradiction
      · exact not_esc_param (listed _ hmem) rfl
      · exact not_esc_intermediate (collected _ hmem) rfl
  | osc payload terminator text plain =>
      refine ⟨0x5D :: payload, rfl, ?_⟩
      intro hmem
      rcases List.mem_cons.mp hmem with hmem | hmem
      · contradiction
      · exact absurd (plain _ hmem).1 (by decide)
  | dcs params final payload listed ends plain =>
      refine ⟨0x50 :: (params ++ [final] ++ payload), rfl, ?_⟩
      intro hmem
      simp only [List.mem_cons, List.mem_append, List.not_mem_nil, or_false] at hmem
      rcases hmem with hmem | (hmem | hmem) | hmem
      · contradiction
      · rcases listed _ hmem with hd | hd
        · contradiction
        · contradiction
      · rw [← hmem] at ends
        contradiction
      · exact absurd (plain _ hmem).1 (by decide)

private theorem closing_of_sequence {i : Item} (h : isSequence i = true)
    (htail : i.hasTail = false) : i.closing < 0x80 ∧ i.closing ≠ 0x1B := by
  cases i with
  | char encoded scalar printable => contradiction
  | control byte c0 notEsc => contradiction
  | esc intermediates final collected ends =>
      simp only [isEscItem, Bool.and_eq_true, decide_eq_true_eq] at ends
      obtain ⟨⟨⟨hlow, hhigh⟩, -⟩, -⟩ := ends
      simp only [Item.closing]
      grind
  | csi marker params intermediates final marked listed collected ends =>
      simp only [isFinal, Bool.and_eq_true, decide_eq_true_eq] at ends
      simp only [Item.closing]
      grind
  | osc payload terminator text plain =>
      cases terminator with
      | bel => simp [Item.closing]
      | st => contradiction
  | dcs params final payload listed ends plain => contradiction

/-- From the ground state the rest of a sequence first shows a glyph, or the
stray backslash of its terminator. -/
theorem cold_head {i : Item} (hseq : isSequence i = true) {rest : List UInt8}
    (hrest : 0x1B ∉ rest) (live : List UInt8) :
    ∃ c l, table.outputs (.ground []) (rest ++ [i.closing] ++ i.tail ++ live) = c :: l ∧
      (isGlyph c = true ∨ i.hasTail = true ∧ c = .escDispatch [] false 0x5C) := by
  obtain ⟨buffer, hstate, hglyph⟩ := glyph_run [] hrest
  rw [List.append_assoc, List.append_assoc, Transducer.outputs_append, hstate]
  cases hout : table.outputs (.ground []) rest with
  | cons c l => exact ⟨c, _, rfl, Or.inl (hglyph c (by rw [hout]; simp))⟩
  | nil =>
      rw [List.nil_append, List.singleton_append, Transducer.outputs_cons, table_advance]
      cases htail : i.hasTail with
      | false =>
          obtain ⟨hascii, hesc⟩ := closing_of_sequence hseq htail
          cases hcbs : (advance (.ground buffer) i.closing).2 with
          | nil => exact absurd hcbs (outputs_ascii_ne_nil buffer hascii hesc)
          | cons c l => exact ⟨c, _, rfl, Or.inl (glyph_advance buffer _ c (by rw [hcbs]; simp))⟩
      | true =>
          have hclosing : i.closing = 0x1B := Item.closing_of_hasTail htail
          have hesc : (advance (.ground buffer) 0x1B).1 = .escape := advance_esc _
          have htailBytes : i.tail = [0x5C] := by simp [Item.tail, htail]
          rw [hclosing, hesc, htailBytes, List.singleton_append, Transducer.outputs_cons]
          cases hcbs : (advance (.ground buffer) 0x1B).2 with
          | nil => exact ⟨.escDispatch [] false 0x5C, _, rfl, Or.inr ⟨rfl, rfl⟩⟩
          | cons c l => exact ⟨c, _, rfl, Or.inl (glyph_advance buffer _ c (by rw [hcbs]; simp))⟩

/-- The session goes on inside the sequence: it first makes a quiet callback or
the callback of the item. -/
theorem session_head {i : Item} {p rest : List UInt8} (hbody : i.body = p ++ rest)
    (live : List UInt8) :
    ∃ c l, table.outputs (table.stateAfter (.ground []) p)
        (rest ++ [i.closing] ++ i.tail ++ live) = c :: l ∧
      (isQuiet c = true ∨ c = i.callback) := by
  obtain ⟨q, quiet, hrun, hquiet, hclosing⟩ := i.run_body
  have hstate : table.stateAfter (table.stateAfter (.ground []) p) rest = q := by
    rw [← Transducer.stateAfter_append, ← hbody, Transducer.stateAfter, hrun]
  have hout : table.outputs (.ground []) p ++
      table.outputs (table.stateAfter (.ground []) p) rest = quiet := by
    rw [← Transducer.outputs_append, ← hbody, Transducer.outputs, hrun]
  rw [List.append_assoc, List.append_assoc, Transducer.outputs_append, hstate,
    List.singleton_append, Transducer.outputs_cons, table_advance, hclosing]
  cases hcbs : table.outputs (table.stateAfter (.ground []) p) rest with
  | nil => exact ⟨i.callback, _, rfl, Or.inr rfl⟩
  | cons c l =>
      refine ⟨c, _, rfl, Or.inl (hquiet c ?_)⟩
      rw [← hout, hcbs]
      simp

/-- A sequence cut inside its body is read differently by the client. -/
theorem cold_ne_session {i : Item} (hseq : isSequence i = true) {p rest : List UInt8}
    (hbody : i.body = p ++ rest) (hp : p ≠ []) (live : List UInt8) :
    table.outputs (.ground []) (rest ++ [i.closing] ++ i.tail ++ live) ≠
      table.outputs (table.stateAfter (.ground []) p)
        (rest ++ [i.closing] ++ i.tail ++ live) := by
  have hrest : 0x1B ∉ rest := by
    obtain ⟨tail, htail, hnot⟩ := body_of_sequence hseq
    obtain ⟨x, p, rfl⟩ := List.exists_cons_of_ne_nil hp
    rw [hbody, List.cons_append] at htail
    rw [← (List.cons.inj htail).2] at hnot
    exact fun hmem => hnot (List.mem_append_right _ hmem)
  obtain ⟨c, l, hcold, hc⟩ := cold_head hseq hrest live
  obtain ⟨d, m, hsession, hd⟩ := session_head hbody live
  rw [hcold, hsession]
  intro heq
  obtain ⟨rfl, -⟩ := List.cons.inj heq
  rcases hd with hquiet | rfl
  · cases c <;> simp_all [isQuiet, isGlyph]
  · cases i <;> simp_all [isSequence, isGlyph, Item.callback, Item.hasTail, csiCallback]

/-! ## Cut characters -/

private theorem eq_of_ofNat_eq_replacement {v : Nat} (h : Char.ofNat v = replacement) :
    v = 0xFFFD := by
  have hval := congrArg Char.toNat h
  have hrepl : replacement.toNat = 0xFFFD := by decide
  rw [hrepl] at hval
  by_cases hvalid : v.isValidChar
  · have hchar : Char.ofNat v = Char.ofNatAux v hvalid := dif_pos hvalid
    rw [hchar] at hval
    exact hval
  · have hchar : Char.ofNat v = ⟨0, by decide⟩ := dif_neg hvalid
    rw [hchar] at hval
    exact absurd hval (by decide)

/-- The replacement character has one encoding. -/
theorem eq_of_decodeChar_eq_replacement {bs : List UInt8} (h : IsScalar bs)
    (hdecode : decodeChar bs = replacement) : bs = [0xEF, 0xBF, 0xBD] := by
  cases h with
  | @one a ha =>
      have hv := eq_of_ofNat_eq_replacement hdecode
      have hlt := UInt8.lt_iff_toNat_lt.mp ha
      simp at hlt
      omega
  | @two a b ha hb =>
      have hv := eq_of_ofNat_eq_replacement hdecode
      omega
  | @three a b c ha hb hc =>
      have hv := eq_of_ofNat_eq_replacement hdecode
      have hlead : 0xE0 ≤ a ∧ a ≤ 0xEF := by
        unfold leadWidth at ha
        grind
      have hsecond := isCont_high (secondOk_isCont hb)
      have hthird := isCont_high hc
      simp only [UInt8.le_iff_toNat_le, UInt8.reduceToNat] at hlead hsecond hthird
      have h1 : a = 0xEF := UInt8.toNat_inj.mp (by simp; omega)
      have h2 : b = 0xBF := UInt8.toNat_inj.mp (by simp; omega)
      have h3 : c = 0xBD := UInt8.toNat_inj.mp (by simp; omega)
      rw [h1, h2, h3]
  | @four a b c d ha hb hc hd =>
      have hv := eq_of_ofNat_eq_replacement hdecode
      have hlead : 0xF0 ≤ a ∧ a ≤ 0xF4 := by
        unfold leadWidth at ha
        grind
      have hsecond := isCont_high (secondOk_isCont hb)
      have hfirst : a = 0xF0 → 0x90 ≤ b := by
        rintro rfl
        unfold secondOk at hb
        grind
      rw [← UInt8.toNat_inj] at hfirst
      simp only [UInt8.le_iff_toNat_le, UInt8.reduceToNat] at hlead hsecond hfirst
      omega

/-- What the ground state makes of a stray continuation byte. -/
def strayCallback (b : UInt8) : Callback := if b ≤ 0x9F then .execute b else .print replacement

/-- Stray continuation bytes are shown one by one. -/
theorem run_stray {r : List UInt8} (h : ∀ b ∈ r, isCont b = true) :
    table.run (.ground []) r = (.ground [], r.map strayCallback) := by
  induction r with
  | nil => rfl
  | cons b r ih =>
      have hb := isCont_high (h b (by simp))
      have hstep : advance (.ground []) b = (.ground [], [strayCallback b]) := by
        have hwidth : leadWidth b = 0 := by
          unfold leadWidth
          grind
        simp only [advance, advanceGround, if_true, advanceGroundFresh, hwidth, strayCallback]
        grind
      rw [Transducer.run_cons, table_advance, hstep, ih (fun x hx => h x (List.mem_cons_of_mem b hx))]
      rfl

/-- A cut character is read as a run of stray bytes; only the replacement
character, cut before its last byte, reads as itself. -/
theorem cut_char_iff {encoded : List UInt8} (scalar : IsScalar encoded)
    (printable : isControlChar encoded = false) {p r : List UInt8} (hsplit : encoded = p ++ r)
    (hp : p ≠ []) (hr : r ≠ []) (live : List UInt8) :
    table.outputs (.ground []) (r ++ live) =
        table.outputs (table.stateAfter (.ground []) p) (r ++ live) ↔
      encoded = [0xEF, 0xBF, 0xBD] ∧ p = encoded.dropLast := by
  have hcont : ∀ b ∈ r, isCont b = true := by
    obtain ⟨lead, tail, htail, -, hcont⟩ := scalar.lead_cont
    obtain ⟨x, p, rfl⟩ := List.exists_cons_of_ne_nil hp
    rw [htail, List.cons_append] at hsplit
    rw [(List.cons.inj hsplit).2] at hcont
    exact fun b hb => hcont b (List.mem_append_right _ hb)
  -- the session prints the character with its last byte
  have hsession : table.run (table.stateAfter (.ground []) p) r =
      (.ground [], [.print (decodeChar encoded)]) := by
    have hprint : ∀ a, encoded = [a] → 0x20 ≤ a := by
      rintro a rfl
      simp only [isControlChar, Bool.or_eq_false_iff, decide_eq_false_iff_not] at printable
      grind
    obtain ⟨body, last, hbytes, hrun, hlast⟩ := run_scalar scalar hprint
    have hlastEq : r = r.dropLast ++ [last] ∧ body = p ++ r.dropLast := by
      have hr' := List.dropLast_append_getLast hr
      rw [hbytes, ← hr', ← List.append_assoc] at hsplit
      obtain ⟨hbody, hsame⟩ := List.append_inj' hsplit rfl
      rw [(List.cons.inj hsame).1]
      exact ⟨hr'.symm, hbody⟩
    obtain ⟨hr', hbody⟩ := hlastEq
    have hmid := hrun
    rw [hbody, Transducer.run_append] at hmid
    obtain ⟨hstate, hout⟩ := Prod.mk.inj hmid
    have hnil := (List.append_eq_nil_iff.mp hout).2
    rw [hr', Transducer.run_append, Transducer.stateAfter, hstate, hnil, ← hbody,
      Transducer.run_cons, table_advance, hlast]
    rfl
  have hcold := run_stray hcont
  have hcoldOut : table.outputs (.ground []) (r ++ live) =
      r.map strayCallback ++ table.outputs (.ground []) live := by
    rw [Transducer.outputs_append, Transducer.outputs, Transducer.stateAfter, hcold]
  have hsessionOut : table.outputs (table.stateAfter (.ground []) p) (r ++ live) =
      [.print (decodeChar encoded)] ++ table.outputs (.ground []) live := by
    rw [Transducer.outputs_append]
    simp only [Transducer.outputs, Transducer.stateAfter] at hsession ⊢
    rw [hsession]
  rw [hcoldOut, hsessionOut, List.append_left_inj]
  constructor
  · intro heq
    cases r with
    | nil => contradiction
    | cons x r =>
        obtain ⟨hx, hnil⟩ := List.cons.inj heq
        have hr' : r = [] := List.map_eq_nil_iff.mp hnil
        subst hr'
        have hrepl : decodeChar encoded = replacement := by
          unfold strayCallback at hx
          split at hx
          · contradiction
          · exact (Callback.print.inj hx).symm
        refine ⟨eq_of_decodeChar_eq_replacement scalar hrepl, ?_⟩
        rw [hsplit, List.dropLast_concat]
  · rintro ⟨hrepl, rfl⟩
    have hlast : r = [0xBD] := by
      rw [hrepl] at hsplit
      simpa using hsplit.symm
    rw [hlast, hrepl]
    decide

/-! ## Main results -/

/-- A client that reads the replay of a scanner fed with {lit}`a` and then the
live bytes {lit}`b` makes, on {lit}`b`, the callbacks of the scanner's own
parser. -/
def Seamless (watermark wantChunks : Nat) (a b : List UInt8) : Prop :=
  let s := Scanner.feed table (Scanner.new table watermark) a
  table.outputs (table.stateAfter table.init (s.replay wantChunks)) b =
    table.outputs s.parser (translate s.utf8Remaining b)

/-- Items whose last byte reads alike from the ring and from the session: a DCS
or a kept OSC string whose ST lacks its backslash, since the scanner closes
their span at the ESC, and the replacement character, since a stray last byte
prints one too. -/
def isResumable : Item → Bool
  | .char encoded _ _ => encoded == [0xEF, 0xBF, 0xBD]
  | .osc payload .st text plain => verdict (.osc payload .st text plain) == .keep
  | .dcs _ _ _ _ _ _ => true
  | _ => false

/-- The split falls between two items, or right before the last byte of a
resumable one. -/
def ResumesAt (items : List Item) (a : List UInt8) : Prop :=
  ∃ before after, items = before ++ after ∧
    (a = Item.stream before ∨
      ∃ i rest, after = i :: rest ∧ isResumable i = true ∧
        a = Item.stream before ++ i.bytes.dropLast)

/-- The scanner in the middle of a stream that passes the translation: its parser,
its ring and the rest of the stream. -/
theorem feed_prefix (watermark : Nat) {a b : List UInt8} (h : Stable (a ++ b)) :
    (Scanner.feed table (Scanner.new table watermark) a).parser =
        ((Front.machine table).stateAfter (Front.init table) a).parser ∧
      (Scanner.feed table (Scanner.new table watermark) a).ring =
        (ChunkRing.new watermark).applyAll
          ((Front.machine table).outputs (Front.init table) a) ∧
      translate (Scanner.feed table (Scanner.new table watermark) a).utf8Remaining b = b := by
  have ha := translate_of_append h.1
  have hfront := Scanner.front_feed table watermark a
  have hring := Scanner.ring_feed table watermark a
  rw [ha] at hfront hring
  refine ⟨?_, hring, ?_⟩
  · rw [← hfront]
    rfl
  · have hwhole := h.1
    rw [translate_append, ha] at hwhole
    rw [Scanner.feed_eq]
    exact List.append_cancel_left hwhole

/-- The scanner between two items. -/
theorem feed_between (watermark : Nat) (before after : List Item) :
    let s := Scanner.feed table (Scanner.new table watermark) (Item.stream before)
    s.ring = ringAfter watermark before ∧ s.parser = .ground [] ∧
      translate s.utf8Remaining (Item.stream after) = Item.stream after := by
  have hstable := stable_stream (before ++ after)
  rw [Item.stream_append] at hstable
  obtain ⟨hparser, hring, hlive⟩ := feed_prefix watermark hstable
  refine ⟨hring, ?_, hlive⟩
  rw [hparser]
  exact (atRest_frontAfter before).parser

/-- The scanner inside the body of an item: nothing of it has reached the ring. -/
theorem feed_body (watermark : Nat) (before after : List Item) {i : Item}
    {p rest : List UInt8} (hbody : i.body = p ++ rest) :
    let s := Scanner.feed table (Scanner.new table watermark) (Item.stream before ++ p)
    let live := rest ++ [i.closing] ++ i.tail ++ Item.stream after
    s.ring = ringAfter watermark before ∧ s.parser = table.stateAfter (.ground []) p ∧
      translate s.utf8Remaining live = live := by
  have hstable := stable_stream (before ++ i :: after)
  rw [Item.stream_append, Item.stream_cons, i.bytes_eq, hbody] at hstable
  have hassoc : Item.stream before ++ (p ++ rest ++ [i.closing] ++ i.tail ++ Item.stream after) =
      Item.stream before ++ p ++ (rest ++ [i.closing] ++ i.tail ++ Item.stream after) := by
    simp
  rw [hassoc] at hstable
  obtain ⟨hparser, hring, hlive⟩ := feed_prefix watermark hstable
  have hfront := front_body (atRest_frontAfter before) hbody
  refine ⟨?_, ?_, hlive⟩
  · have hnone : (Front.machine table).outputs (frontAfter before) p = [] := congrArg Prod.snd hfront
    rw [hring, Transducer.outputs_append, ChunkRing.applyAll_append]
    change (ringAfter watermark before).applyAll
      ((Front.machine table).outputs (frontAfter before) p) = _
    rw [hnone, ChunkRing.applyAll_nil]
  · rw [hparser, Transducer.stateAfter_append]
    exact congrArg (Front.parser ∘ Prod.fst) hfront

/-- The scanner right after the closing byte of an item: the item has reached the
ring, up to the backslash of its ST. -/
theorem feed_closing (watermark : Nat) (before after : List Item) (i : Item) :
    let s := Scanner.feed table (Scanner.new table watermark)
      (Item.stream before ++ (i.body ++ [i.closing]))
    let live := i.tail ++ Item.stream after
    (∃ prologue, s.ring = (ringAfter watermark before).applyAll
        ((verdict i).ops (i.body ++ [i.closing]) prologue)) ∧
      s.parser = i.closed ∧ translate s.utf8Remaining live = live := by
  have hstable := stable_stream (before ++ i :: after)
  rw [Item.stream_append, Item.stream_cons, i.bytes_eq] at hstable
  have hassoc : Item.stream before ++ (i.body ++ [i.closing] ++ i.tail ++ Item.stream after) =
      Item.stream before ++ (i.body ++ [i.closing]) ++ (i.tail ++ Item.stream after) := by
    simp
  rw [hassoc] at hstable
  obtain ⟨hparser, hring, hlive⟩ := feed_prefix watermark hstable
  obtain ⟨sink, hrun, -, -, -⟩ := front_closing (atRest_frontAfter before) i
  refine ⟨⟨sink.sticky.buildSerialized, ?_⟩, ?_, hlive⟩
  · have hops : (Front.machine table).outputs (frontAfter before) (i.body ++ [i.closing]) =
        (verdict i).ops (i.body ++ [i.closing]) sink.sticky.buildSerialized :=
      congrArg Prod.snd hrun
    rw [hring, Transducer.outputs_append, ChunkRing.applyAll_append, ← hops]
    rfl
  · rw [hparser, Transducer.stateAfter_append]
    exact congrArg (Front.parser ∘ Prod.fst) hrun

/-- Both parsers between two items. -/
theorem parsers_between (watermark : Nat) (before after : List Item) :
    let s := Scanner.feed table (Scanner.new table watermark) (Item.stream before)
    table.stateAfter (.ground []) s.ring.full = .ground [] ∧ s.parser = .ground [] ∧
      translate s.utf8Remaining (Item.stream after) = Item.stream after := by
  obtain ⟨hring, hparser, hlive⟩ := feed_between watermark before after
  refine ⟨?_, hparser, hlive⟩
  rw [hring]
  exact stateAfter_full watermark before

/-- Both parsers inside the body of an item. -/
theorem parsers_body (watermark : Nat) (before after : List Item) {i : Item}
    {p rest : List UInt8} (hbody : i.body = p ++ rest) :
    let s := Scanner.feed table (Scanner.new table watermark) (Item.stream before ++ p)
    let live := rest ++ [i.closing] ++ i.tail ++ Item.stream after
    table.stateAfter (.ground []) s.ring.full = .ground [] ∧
      s.parser = table.stateAfter (.ground []) p ∧ translate s.utf8Remaining live = live := by
  obtain ⟨hring, hparser, hlive⟩ := feed_body watermark before after hbody
  refine ⟨?_, hparser, hlive⟩
  rw [hring]
  exact stateAfter_full watermark before

/-- Both parsers between the ESC and the backslash of an ST. -/
theorem parsers_terminator (watermark : Nat) (before after : List Item) {i : Item}
    (htail : i.hasTail = true) :
    let s := Scanner.feed table (Scanner.new table watermark)
      (Item.stream before ++ (i.body ++ [i.closing]))
    let live := [0x5C] ++ Item.stream after
    table.stateAfter (.ground []) s.ring.full =
        (if verdict i = .keep then .escape else .ground []) ∧
      s.parser = .escape ∧ translate s.utf8Remaining live = live := by
  obtain ⟨⟨prologue, hring⟩, hparser, hlive⟩ := feed_closing watermark before after i
  have hclosed : i.closed = .escape := by simp [Item.closed, htail]
  have hspan : table.stateAfter (.ground []) (i.body ++ [i.closing]) = .escape := by
    obtain ⟨q, quiet, hbody, -, hclosing⟩ := i.run_body
    have hq : table.stateAfter (.ground []) i.body = q := congrArg Prod.fst hbody
    rw [Transducer.stateAfter_append, hq, Transducer.stateAfter_singleton, table_advance, hclosing,
      hclosed]
  rw [Item.tail, if_pos htail] at hlive
  refine ⟨?_, hparser.trans hclosed, hlive⟩
  rw [hring, full_ops]
  cases hv : verdict i with
  | keep => rw [if_pos rfl, Transducer.stateAfter_append, stateAfter_full, hspan]
  | drop => rw [if_neg (by simp), stateAfter_full]
  | clear => exact absurd hv (verdict_ne_clear htail)

private theorem dropLast_bytes {i : Item} (h : i.hasTail = true) :
    i.bytes.dropLast = i.body ++ [i.closing] := by
  rw [i.bytes_eq, Item.tail, if_pos h, List.dropLast_concat]

/-- A resumable item cut before its last byte: both parsers make the same
callbacks. -/
theorem seamless_of_resumable (watermark : Nat) (before after : List Item) {i : Item}
    (hi : isResumable i = true) {b : List UInt8}
    (hb : i.bytes.dropLast ++ b = i.bytes ++ Item.stream after) :
    let s := Scanner.feed table (Scanner.new table watermark)
      (Item.stream before ++ i.bytes.dropLast)
    table.outputs (table.stateAfter (.ground []) s.ring.full) b =
      table.outputs s.parser (translate s.utf8Remaining b) := by
  cases htail : i.hasTail with
  | true =>
      have hkeep : verdict i = .keep := by
        cases i with
        | osc payload terminator text plain =>
            cases terminator with
            | bel => contradiction
            | st => simpa [isResumable] using hi
        | dcs params final payload listed ends plain => rfl
        | _ => contradiction
      have hlive : b = [0x5C] ++ Item.stream after := by
        rw [dropLast_bytes htail, i.bytes_eq, Item.tail, if_pos htail,
          List.append_assoc (i.body ++ [i.closing])] at hb
        exact List.append_cancel_left hb
      obtain ⟨hclient, hsession, htranslate⟩ := parsers_terminator watermark before after htail
      dsimp only
      rw [dropLast_bytes htail, hclient, hsession, hlive, htranslate, if_pos hkeep]
  | false =>
      cases i with
      | char encoded scalar printable =>
          have hrepl : encoded = [0xEF, 0xBF, 0xBD] := by simpa [isResumable] using hi
          subst hrepl
          have hbody : (Item.char [0xEF, 0xBF, 0xBD] scalar printable).body = [0xEF, 0xBF] ++ [] :=
            rfl
          have hlive : b = [0xBD] ++ Item.stream after := by
            change [0xEF, 0xBF] ++ b = [0xEF, 0xBF] ++ ([0xBD] ++ Item.stream after) at hb
            exact List.append_cancel_left hb
          have hcut := (cut_char_iff scalar printable (p := [0xEF, 0xBF]) (r := [0xBD]) rfl (by simp)
            (by simp) (Item.stream after)).mpr ⟨rfl, rfl⟩
          obtain ⟨hclient, hsession, htranslate⟩ := parsers_body watermark before after hbody
          change translate _ ([0xBD] ++ Item.stream after) = _ at htranslate
          change table.outputs (table.stateAfter (.ground []) (Scanner.feed table
            (Scanner.new table watermark) (Item.stream before ++ [0xEF, 0xBF])).ring.full) b = _
          rw [hclient, hlive, hcut]
          exact congrArg₂ table.outputs hsession.symm htranslate.symm
      | osc payload terminator text plain =>
          cases terminator with
          | bel => contradiction
          | st => contradiction
      | _ => contradiction

/-- Exactly the splits between items, and those right before the last byte of a
resumable item, are seamless; the cap is any number not below the number of
chunks held, as {lit}`usize::MAX` never is. -/
theorem seamless_iff (watermark wantChunks : Nat) (items : List Item) (a b : List UInt8)
    (hsplit : a ++ b = Item.stream items)
    (hcap : (Scanner.feed table (Scanner.new table watermark) a).ring.chunks.length ≤ wantChunks) :
    Seamless watermark wantChunks a b ↔ ResumesAt items a := by
  have hfull := ChunkRing.replay_of_length_le _ hcap
  unfold Seamless
  dsimp only
  rw [Scanner.replay, hfull, table_init]
  constructor
  · intro h
    rcases split_cases hsplit with ⟨before, after, hitems, ha, -⟩ |
      ⟨before, i, after, p, r, hitems, hbytes, hp, hr, ha, hb⟩
    · exact ⟨before, after, hitems, Or.inl ha⟩
    · refine ⟨before, i :: after, hitems, Or.inr ⟨i, after, rfl, ?_⟩⟩
      rcases split_item hbytes hr with ⟨rest, hbody, hrest⟩ | ⟨htail, hpre, hlast⟩
      · obtain ⟨hclient, hsession, htranslate⟩ := parsers_body watermark before after hbody
        rw [hrest] at hb
        rw [ha, hb, hclient, hsession, htranslate] at h
        cases i with
        | char encoded scalar printable =>
            rw [← hrest] at h
            obtain ⟨hrepl, hlast⟩ :=
              (cut_char_iff scalar printable hbytes hp hr (Item.stream after)).mp h
            exact ⟨by simp [isResumable, hrepl], by rw [ha, hlast]; rfl⟩
        | control byte c0 notEsc => exact absurd (List.append_eq_nil_iff.mp hbody.symm).1 hp
        | _ => exact absurd h (cold_ne_session rfl hbody hp (Item.stream after))
      · obtain ⟨hclient, hsession, htranslate⟩ := parsers_terminator watermark before after htail
        rw [hpre] at ha
        rw [hlast] at hb
        rw [ha, hb, hclient, hsession, htranslate] at h
        refine ⟨?_, by rw [ha, dropLast_bytes htail]⟩
        by_cases hkeep : verdict i = .keep
        · cases i with
          | osc payload terminator text plain =>
              cases terminator with
              | bel => contradiction
              | st => simpa [isResumable] using hkeep
          | dcs params final payload listed ends plain => rfl
          | _ => contradiction
        · -- a dropped string leaves the client in the ground state: it prints the backslash
          rw [if_neg hkeep, List.singleton_append, Transducer.outputs_cons, Transducer.outputs_cons]
            at h
          exact absurd (List.cons.inj h).1 (by simp)
  · rintro ⟨before, after, rfl, ha | ⟨i, rest, rfl, hi, ha⟩⟩
    · have hb : b = Item.stream after := by
        rw [ha, Item.stream_append] at hsplit
        exact List.append_cancel_left hsplit
      obtain ⟨hclient, hsession, htranslate⟩ := parsers_between watermark before after
      rw [ha, hb, hclient, hsession, htranslate]
    · rw [ha, Item.stream_append, Item.stream_cons, List.append_assoc] at hsplit
      rw [ha]
      exact seamless_of_resumable watermark before rest hi (List.append_cancel_left hsplit)

/-- The title {lit}`t`, ended by ST. -/
def titleItem : Item :=
  .osc [0x30, 0x3B, 0x74] .st
    (.cons (.one (by decide)) (.cons (.one (by decide)) (.cons (.one (by decide)) .nil))) (by simp)

/-- A title is resumed when it is cut behind the ESC of its ST. -/
theorem resumesAt_title : ResumesAt [titleItem] [0x1B, 0x5D, 0x30, 0x3B, 0x74, 0x1B] :=
  ⟨[], [titleItem], rfl, Or.inr ⟨titleItem, [], rfl, rfl, rfl⟩⟩

/-- A title cut inside its ST is resumed, even with a cut of the ring in
between. -/
theorem seamless_title :
    Seamless 1 usizeMax [0x1B, 0x5D, 0x30, 0x3B, 0x74, 0x1B] [0x5C] :=
  (seamless_iff 1 usizeMax [titleItem] _ _ (by decide) (by decide)).mpr resumesAt_title

/-- A client that attaches inside a red SGR prints its parameters. -/
theorem not_seamless_sgr :
    ¬ ∀ (watermark wantChunks : Nat) (items : List Item) (a b : List UInt8),
      a ++ b = Item.stream items →
      (Scanner.feed table (Scanner.new table watermark) a).ring.chunks.length ≤ wantChunks →
      Seamless watermark wantChunks a b := by
  intro h
  have hsgr := h 131072 usizeMax
    [.csi none [0x33, 0x31] [] 0x6D (by simp) (List.all_eq_true.mp rfl) (by simp) rfl]
    [0x1B, 0x5B] [0x33, 0x31, 0x6D] rfl (by decide)
  unfold Seamless at hsgr
  exact absurd hsgr (by decide)

end JftermMuxer.Core
