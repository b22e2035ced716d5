import JftermMuxer.Core.Watermark

/-!
# Text without escapes

The loop of {lit}`core/src/scanner.rs` counts continuation bytes and the parser
buffers unfinished characters; on UTF-8 text the two stay in step.  A character is one
span whatever its length, so text without an ESC survives byte for byte, its bells
apart, and is cut between characters only.

Main results:

- Theorem {lit}`front_character`: the front end crosses one character from rest to
  rest.
- Theorem {lit}`text_survives`: text in any number of feed calls, for every
  watermark.
-/

namespace JftermMuxer.Core

open Foundation Vte

/-! ## One character -/

/-- The callback of a character's last byte. -/
def characterCallback (c : List UInt8) : Callback :=
  match c with
  | [b] => if b < 0x20 then .execute b else .print (decodeChar [b])
  | _ => .print (decodeChar c)

/-- A bell is dropped, every other character kept. -/
def characterVerdict (c : List UInt8) : Verdict := if c = [0x07] then .drop else .keep

/-- A character brings the verdict on it. -/
theorem matches_character (s : Sink) (c : List UInt8) :
    (characterVerdict c).Matches (s.perform (characterCallback c)).event := by
  by_cases hbell : c = [0x07]
  · subst hbell
    rfl
  · rw [characterVerdict, if_neg hbell]
    unfold characterCallback
    split
    · rename_i b
      have hb : b ≠ 0x07 := fun heq => hbell (by rw [heq])
      split
      · exact Or.inr (if_neg hb)
      · exact Or.inl rfl
    · exact Or.inl rfl

/-- The parser reads a character other than ESC with one callback at its last byte. -/
theorem run_character {c : List UInt8} (h : IsScalar c) (hesc : c ≠ [0x1B]) :
    ∃ body last, c = body ++ [last] ∧ table.run (.ground []) body = (.ground body, []) ∧
      advance (.ground body) last = (.ground [], [characterCallback c]) := by
  by_cases hcontrol : ∃ b, c = [b] ∧ b < 0x20
  · obtain ⟨b, rfl, hb⟩ := hcontrol
    have hne : b ≠ 0x1B := fun heq => hesc (by rw [heq])
    refine ⟨[], b, rfl, rfl, ?_⟩
    simp only [advance, advanceGround, if_true, advanceGroundFresh, characterCallback, if_neg hne,
      if_pos hb]
  · have hprint : ∀ a, c = [a] → 0x20 ≤ a := by
      intro a ha
      by_contra hlt
      exact hcontrol ⟨a, ha, by grind⟩
    have hcallback : characterCallback c = .print (decodeChar c) := by
      unfold characterCallback
      split
      · rename_i b
        have hb := hprint b rfl
        rw [if_neg (by grind)]
      · rfl
    rw [hcallback]
    exact run_scalar h hprint

/-- The front end crosses a character from rest to rest; its bytes are one span. -/
theorem front_character {f : Front State} (h : AtRest f) {c : List UInt8} (hscalar : IsScalar c)
    (hesc : c ≠ [0x1B]) :
    ∃ f', (Front.machine table).run f c =
        (f', (characterVerdict c).ops c f'.sink.sticky.buildSerialized) ∧ AtRest f' := by
  obtain ⟨body, last, hc, hbody, hlast⟩ := run_character hscalar hesc
  have hparser : table.run f.parser body = (.ground body, []) := by
    rw [h.parser]
    exact hbody
  have hrun := front_run_quiet hparser (by simp) h.event
  have hclose := front_advance_closing
    (f := ⟨.ground body, f.sink.performAll [], f.pending ++ body⟩) hlast (matches_character _ c)
  refine ⟨⟨.ground [], { (f.sink.performAll []).perform (characterCallback c) with
    event := .none }, []⟩, ?_, ⟨rfl, rfl, rfl⟩⟩
  have hwhole : (Front.machine table).run f (body ++ [last]) = (⟨.ground [],
      { (f.sink.performAll []).perform (characterCallback c) with event := .none }, []⟩,
      (characterVerdict c).ops (f.pending ++ body ++ [last])
        ((f.sink.performAll []).perform (characterCallback c)).sticky.buildSerialized) := by
    rw [Transducer.run_append, hrun, Transducer.run_cons, Front.machine_advance, hclose]
    simp
  rw [← hc, List.append_assoc, ← hc, h.pending, List.nil_append] at hwhole
  exact hwhole

/-! ## Whole texts -/

/-- The characters of a valid text. -/
theorem exists_characters {s : List UInt8} (h : IsText s) :
    ∃ chars : List (List UInt8), (∀ c ∈ chars, IsScalar c) ∧ chars.flatten = s := by
  induction h with
  | nil => exact ⟨[], by simp, rfl⟩
  | @cons c rest hscalar _ ih =>
      obtain ⟨chars, hchars, hrest⟩ := ih
      refine ⟨c :: chars, ?_, ?_⟩
      · intro x hx
        rcases List.mem_cons.mp hx with rfl | hx
        · exact hscalar
        · exact hchars x hx
      · rw [List.flatten_cons, hrest]

/-- Only the bell itself contains its byte. -/
theorem filter_character {c : List UInt8} (h : IsScalar c) :
    c.filter (· ≠ 0x07) = if c = [0x07] then [] else c := by
  cases h with
  | @one a ha =>
      by_cases hbell : a = 0x07
      · subst hbell
        rfl
      · rw [if_neg (by simpa using hbell)]
        simpa using hbell
  | @two a b ha hb =>
      have hlead := leadWidth_high (b := a) (by omega)
      have hcont := isCont_high (secondOk_isCont hb)
      rw [if_neg (by simp), List.filter_eq_self]
      grind
  | @three a b c ha hb hc =>
      have hlead := leadWidth_high (b := a) (by omega)
      have hcont := isCont_high (secondOk_isCont hb)
      have hlast := isCont_high hc
      rw [if_neg (by simp), List.filter_eq_self]
      grind
  | @four a b c d ha hb hc hd =>
      have hlead := leadWidth_high (b := a) (by omega)
      have hcont := isCont_high (secondOk_isCont hb)
      have hthird := isCont_high hc
      have hlast := isCont_high hd
      rw [if_neg (by simp), List.filter_eq_self]
      grind

/-- The bytes of the kept characters are those of the text without its bells. -/
theorem flatten_kept {chars : List (List UInt8)} (h : ∀ c ∈ chars, IsScalar c) :
    (chars.filter (· ≠ [0x07])).flatten = chars.flatten.filter (· ≠ 0x07) := by
  induction chars with
  | nil => rfl
  | cons c chars ih =>
      have hrest := ih fun x hx => h x (List.mem_cons_of_mem c hx)
      rw [List.flatten_cons, List.filter_append, filter_character (h c List.mem_cons_self), ← hrest]
      by_cases hbell : c = [0x07]
      · rw [if_pos hbell, List.filter_cons_of_neg (by simpa using hbell), List.nil_append]
      · rw [if_neg hbell, List.filter_cons_of_pos (by simpa using hbell), List.flatten_cons]

/-- Characters, one span each: the front end is at rest again, nothing but bells is
lost, and no character is cut. -/
theorem ring_characters (watermark : Nat) {chars : List (List UInt8)}
    (h : ∀ c ∈ chars, IsScalar c ∧ c ≠ [0x1B]) :
    AtRest ((Front.machine table).stateAfter (Front.init table) chars.flatten) ∧
      ((ChunkRing.new watermark).applyAll
        ((Front.machine table).outputs (Front.init table) chars.flatten)).full =
          (chars.filter (· ≠ [0x07])).flatten ∧
      ((ChunkRing.new watermark).applyAll
        ((Front.machine table).outputs (Front.init table) chars.flatten)).Shares id
          (chars.filter (· ≠ [0x07])) := by
  induction chars using List.reverseRecOn with
  | nil => exact ⟨atRest_init, rfl, ChunkRing.shares_new watermark⟩
  | append_singleton chars c ih =>
      obtain ⟨hrest, hfull, hshares⟩ := ih fun x hx => h x (List.mem_append_left _ hx)
      obtain ⟨hscalar, hesc⟩ := h c (List.mem_append_right _ (List.mem_singleton_self c))
      obtain ⟨f, hrun, hf⟩ := front_character hrest hscalar hesc
      have hstate : (Front.machine table).stateAfter (Front.init table) (chars ++ [c]).flatten = f := by
        rw [List.flatten_append, List.flatten_singleton, Transducer.stateAfter_append]
        exact congrArg Prod.fst hrun
      have hops : (ChunkRing.new watermark).applyAll
          ((Front.machine table).outputs (Front.init table) (chars ++ [c]).flatten) =
          ((ChunkRing.new watermark).applyAll
            ((Front.machine table).outputs (Front.init table) chars.flatten)).applyAll
              ((characterVerdict c).ops c f.sink.sticky.buildSerialized) := by
        rw [List.flatten_append, List.flatten_singleton, Transducer.outputs_append,
          ChunkRing.applyAll_append]
        exact congrArg _ (congrArg Prod.snd hrun)
      rw [hstate, hops]
      refine ⟨hf, ?_, ?_⟩
      · rw [full_ops, hfull, List.filter_append, List.flatten_append]
        by_cases hbell : c = [0x07]
        · rw [List.filter_cons_of_neg (by simpa using hbell)]
          simp [characterVerdict, hbell]
        · rw [List.filter_cons_of_pos (by simpa using hbell)]
          simp [characterVerdict, hbell]
      · rw [List.filter_append]
        by_cases hbell : c = [0x07]
        · rw [List.filter_cons_of_neg (by simpa using hbell), characterVerdict, if_pos hbell,
            List.filter_nil, List.append_nil]
          exact hshares
        · rw [List.filter_cons_of_pos (by simpa using hbell), characterVerdict, if_neg hbell,
            List.filter_nil]
          exact hshares.keep c _

/-! ## Main result -/

/-- Valid UTF-8 text without an ESC, in any number of feed calls and for every
watermark: the parser is handed its bytes as they are, the full replay is the text
without its bells, and every chunk is made of whole characters.  The length of a
vector is a {lit}`usize`. -/
theorem text_survives (watermark : Nat) (text : List UInt8) (htext : IsText text)
    (hplain : 0x1B ∉ text) (feeds : List (List UInt8)) (hfeeds : feeds.flatten = text)
    (hlen : (Scanner.feedAll table (Scanner.new table watermark) feeds).ring.chunks.length ≤
      usizeMax) :
    (Scanner.feedAll table (Scanner.new table watermark) feeds).replay usizeMax =
        text.filter (· ≠ 0x07) ∧
      translate 0 text = text ∧
      ∃ parts : List (List (List UInt8)), (∀ part ∈ parts, ∀ c ∈ part, IsScalar c) ∧
        (Scanner.feedAll table (Scanner.new table watermark) feeds).ring.chunks.map Chunk.data =
          parts.map List.flatten := by
  obtain ⟨chars, hchars, hflat⟩ := exists_characters htext
  have hplainChars : ∀ c ∈ chars, IsScalar c ∧ c ≠ [0x1B] := by
    intro c hc
    refine ⟨hchars c hc, ?_⟩
    rintro rfl
    apply hplain
    rw [← hflat]
    exact List.mem_flatten.mpr ⟨_, hc, List.mem_singleton_self _⟩
  obtain ⟨-, hfull, parts, hparts, hdata⟩ := ring_characters watermark hplainChars
  have hring : (Scanner.feedAll table (Scanner.new table watermark) feeds).ring =
      (ChunkRing.new watermark).applyAll
        ((Front.machine table).outputs (Front.init table) chars.flatten) := by
    rw [Scanner.ring_feedAll table (stable_text htext) hfeeds, hflat]
  refine ⟨?_, (stable_text htext).1, parts, ?_, ?_⟩
  · rw [Scanner.replay, ChunkRing.replay_of_length_le _ hlen, hring, hfull, flatten_kept hchars,
      hflat]
  · intro part hpart c hc
    have hmem : c ∈ chars.filter (· ≠ [0x07]) := by
      rw [← hparts]
      exact List.mem_flatten.mpr ⟨part, hpart, hc⟩
    exact hchars c (List.mem_of_mem_filter hmem)
  · rw [hring, hdata]
    simp

/-- The letter {lit}`A`, a bell and the letter {lit}`Ĝ`, whose last byte is 0x9C, split
inside it and cut after every span. -/
theorem text_survives_circumflex :
    (Scanner.feedAll table (Scanner.new table 0) [[0x41, 0x07, 0xC4], [0x9C]]).replay usizeMax =
      [0x41, 0xC4, 0x9C] :=
  (text_survives 0 [0x41, 0x07, 0xC4, 0x9C]
    (.cons (.one (by decide)) (.cons (.one (by decide)) (.cons (.two (by decide) (by decide)) .nil)))
    (by decide) _ rfl (by decide +kernel)).1

end JftermMuxer.Core
