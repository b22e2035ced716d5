import JftermMuxer.Core.Seamless
import JftermMuxer.Core.SelfContained

/-!
# The watermark

The watermark decides only where the ring is cut.  This file says what follows
from that for the full replay, and where the cuts fall: the scanner takes a
finished span for a return to the ground state, and the two differ at the ESC
that begins an ST.

Main results:

- Theorem {lit}`watermark_invisible`: two scanners that differ in the watermark
  alone agree on the full replay, the status and the tracked state, whatever the
  parser.
- Theorem {lit}`groundCuts_iff`: on well-formed streams the cuts fall between
  items exactly when every kept string that ends in an ST fits below the
  watermark.
-/

namespace JftermMuxer.Core

open Foundation Vte

/-! ## Two watermarks -/

/-- Rings with the same full content keep it under the same operations, wherever
each of them cuts. -/
theorem ChunkRing.full_applyAll_congr {r₁ r₂ : ChunkRing} (h : r₁.full = r₂.full)
    (ops : List RingOp) : (r₁.applyAll ops).full = (r₂.applyAll ops).full := by
  induction ops generalizing r₁ r₂ with
  | nil => exact h
  | cons op ops ih =>
      rw [applyAll_cons, applyAll_cons]
      apply ih
      cases op with
      | keep span prologue => rw [full_keep, full_keep, h]
      | purge prologue => rw [apply, apply, full_purge, full_purge]

section TwoRuns

variable {σ : Type} (T : Transducer σ UInt8 Callback)

/-- The full content of the ring does not depend on the watermark. -/
theorem full_feed_congr (w₁ w₂ : Nat) (bytes : List UInt8) :
    (Scanner.feed T (Scanner.new T w₁) bytes).ring.full =
      (Scanner.feed T (Scanner.new T w₂) bytes).ring.full := by
  rw [Scanner.ring_feed, Scanner.ring_feed]
  apply ChunkRing.full_applyAll_congr
  rw [ChunkRing.full_new, ChunkRing.full_new]

/-- Nor does anything the performer has recorded, its cache apart. -/
theorem sink_feed_congr (w₁ w₂ : Nat) (bytes : List UInt8) :
    (Scanner.feed T (Scanner.new T w₁) bytes).sink.erase =
      (Scanner.feed T (Scanner.new T w₂) bytes).sink.erase := by
  have h₁ := Scanner.front_feed T w₁ bytes
  have h₂ := Scanner.front_feed T w₂ bytes
  exact congrArg Front.sink (h₁.trans h₂.symm)

/-- The watermark is invisible to a full replay: over any parser, two scanners fed
with the same bytes in any two splits agree on the full replay, the status, the
prompt latch and the five tracked fields.  The length of a vector is a
{lit}`usize`. -/
theorem watermark_invisible (w₁ w₂ : Nat) (feeds₁ feeds₂ : List (List UInt8))
    (hsame : feeds₁.flatten = feeds₂.flatten)
    (hlen₁ : (Scanner.feedAll T (Scanner.new T w₁) feeds₁).ring.chunks.length ≤ usizeMax)
    (hlen₂ : (Scanner.feedAll T (Scanner.new T w₂) feeds₂).ring.chunks.length ≤ usizeMax) :
    let s₁ := Scanner.feedAll T (Scanner.new T w₁) feeds₁
    let s₂ := Scanner.feedAll T (Scanner.new T w₂) feeds₂
    s₁.replay usizeMax = s₂.replay usizeMax ∧ s₁.status = s₂.status ∧
      s₁.sawPromptMarker = s₂.sawPromptMarker ∧
      SameTracked s₁.sink.sticky s₂.sink.sticky := by
  dsimp only
  have hreplay : (Scanner.feedAll T (Scanner.new T w₁) feeds₁).replay usizeMax =
      (Scanner.feedAll T (Scanner.new T w₂) feeds₂).replay usizeMax := by
    rw [Scanner.replay, Scanner.replay, ChunkRing.replay_of_length_le _ hlen₁,
      ChunkRing.replay_of_length_le _ hlen₂, Scanner.feedAll_eq_feed, Scanner.feedAll_eq_feed, hsame]
    exact full_feed_congr T w₁ w₂ feeds₂.flatten
  have hsink : (Scanner.feedAll T (Scanner.new T w₁) feeds₁).sink.erase =
      (Scanner.feedAll T (Scanner.new T w₂) feeds₂).sink.erase := by
    rw [Scanner.feedAll_eq_feed, Scanner.feedAll_eq_feed, hsame]
    exact sink_feed_congr T w₁ w₂ feeds₂.flatten
  have hstatus := congrArg Sink.status hsink
  exact ⟨hreplay, congrArg StatusCache.snapshot hstatus,
    congrArg StatusCache.sawPromptMarker hstatus,
    sameTracked_of_erase (congrArg Sink.sticky hsink)⟩

end TwoRuns

/-- The letter {lit}`A`, a red SGR and a title, cut after every span by one scanner
and never by the other. -/
theorem watermark_invisible_title :
    (Scanner.feedAll table (Scanner.new table 0)
        [[0x41, 0x1B, 0x5B, 0x33], [0x31, 0x6D, 0x1B, 0x5D, 0x30, 0x3B, 0x74, 0x07]]).replay
          usizeMax =
      (Scanner.feedAll table (Scanner.new table 64)
        [[0x41, 0x1B, 0x5B, 0x33, 0x31, 0x6D, 0x1B, 0x5D], [0x30, 0x3B, 0x74, 0x07]]).replay
          usizeMax :=
  (watermark_invisible table 0 64 _ _ (by decide) (by decide +kernel) (by decide +kernel)).1

/-! ## What a kept span does to the chunks -/

namespace ChunkRing

/-- Two spans appended in turn are appended together. -/
theorem append_append (r : ChunkRing) (as bs : List UInt8) :
    (r.append as).append bs = r.append (as ++ bs) := by
  have hdrop : (r.append as).chunks.dropLast = r.chunks.dropLast := by
    simp [append]
  unfold append at hdrop ⊢
  simp only [hdrop]
  simp [openChunk]

/-- Below the watermark a kept span only grows the open chunk. -/
theorem apply_keep_of_lt {r : ChunkRing} {span : List UInt8}
    (h : r.openChunk.data.length + span.length < r.watermark) (prologue : List UInt8) :
    r.apply (.keep span prologue) = r.append span := by
  have hnot : (r.append span).shouldCut = false := by
    simp only [shouldCut, watermark_append, openChunk_append, List.length_append,
      decide_eq_false_iff_not]
    omega
  simp [apply, hnot]

/-- At the watermark it also seals it. -/
theorem apply_keep_of_le {r : ChunkRing} {span : List UInt8}
    (h : r.watermark ≤ r.openChunk.data.length + span.length) (prologue : List UInt8) :
    r.apply (.keep span prologue) = (r.append span).cut prologue := by
  have hcut : (r.append span).shouldCut = true := by
    simp only [shouldCut, watermark_append, openChunk_append, List.length_append, decide_eq_true_eq]
    omega
  simp [apply, hcut]

@[simp] theorem watermark_apply (r : ChunkRing) (op : RingOp) :
    (r.apply op).watermark = r.watermark := by
  cases op with
  | keep span prologue =>
      simp only [apply]
      split <;> rfl
  | purge prologue => rfl

@[simp] theorem watermark_applyAll (r : ChunkRing) (ops : List RingOp) :
    (r.applyAll ops).watermark = r.watermark := by
  induction ops generalizing r with
  | nil => rfl
  | cons op ops ih => rw [applyAll_cons, ih, watermark_apply]

end ChunkRing

@[simp] theorem watermark_ringAfter (watermark : Nat) (items : List Item) :
    (ringAfter watermark items).watermark = watermark := by
  rw [ringAfter, ChunkRing.watermark_applyAll]
  rfl

/-! ## Chunks of whole items -/

/-- The chunks of a ring share the items between them, each item whole. -/
def WholeChunks (r : ChunkRing) (items : List Item) : Prop :=
  ∃ parts : List (List Item), parts.flatten = items ∧
    r.chunks.map Chunk.data = parts.map Item.stream

/-- A fresh ring holds no items. -/
theorem wholeChunks_new (watermark : Nat) : WholeChunks (ChunkRing.new watermark) [] :=
  ChunkRing.shares_new watermark

/-- A purged ring holds no items. -/
theorem wholeChunks_purge (r : ChunkRing) (prologue : List UInt8) :
    WholeChunks (r.purge prologue) [] :=
  r.shares_purge prologue

/-- A kept item goes whole into one chunk. -/
theorem WholeChunks.keep {r : ChunkRing} {items : List Item} (h : WholeChunks r items)
    (i : Item) (prologue : List UInt8) :
    WholeChunks (r.apply (.keep i.bytes prologue)) (items ++ [i]) :=
  ChunkRing.Shares.keep h i prologue

/-- A kept item that ends in an ST fits below the watermark, so that its ESC does
not cut. -/
def Fits (r : ChunkRing) (i : Item) : Prop :=
  i.hasTail = true → verdict i = .keep → r.openChunk.data.length + i.bytes.length ≤ r.watermark

/-- The span up to the ESC of an item that fits stays below the watermark. -/
theorem Fits.span_lt {r : ChunkRing} {i : Item} (h : Fits r i) (htail : i.hasTail = true)
    (hkeep : verdict i = .keep) :
    r.openChunk.data.length + (i.body ++ [i.closing]).length < r.watermark := by
  have hroom := h htail hkeep
  rw [i.bytes_eq, Item.tail, if_pos htail] at hroom
  simp only [List.length_append, List.length_singleton] at hroom ⊢
  omega

/-- The ESC of an item that fits makes no chunk. -/
theorem Fits.length_closing {r : ChunkRing} {i : Item} (h : Fits r i) (htail : i.hasTail = true)
    (prologue : List UInt8) :
    (r.applyAll ((verdict i).ops (i.body ++ [i.closing]) prologue)).chunks.length =
      r.chunks.length := by
  cases hv : verdict i with
  | keep =>
      have hkept : r.applyAll (Verdict.ops (i.body ++ [i.closing]) prologue .keep) =
          r.append (i.body ++ [i.closing]) := ChunkRing.apply_keep_of_lt (h.span_lt htail hv) prologue
      rw [hkept, ChunkRing.length_append]
  | drop => rfl
  | clear => exact absurd hv (verdict_ne_clear htail)

/-- An item that fits is kept as one span. -/
theorem applyAll_itemOps_of_fits {r : ChunkRing} {i : Item} (hfits : Fits r i)
    (hkeep : verdict i = .keep) (prologue : List UInt8) :
    r.applyAll (itemOps i prologue) = r.apply (.keep i.bytes prologue) := by
  rw [itemOps, hkeep, i.bytes_eq]
  cases htail : i.hasTail with
  | false => simp [Item.tail, htail, Verdict.ops, ChunkRing.applyAll_cons]
  | true =>
      have hops : r.applyAll (Verdict.ops (i.body ++ [i.closing]) prologue .keep ++
          (if true then Verdict.ops [0x5C] prologue .keep else [])) =
            (r.apply (.keep (i.body ++ [i.closing]) prologue)).apply (.keep [0x5C] prologue) := rfl
      rw [hops, ChunkRing.apply_keep_of_lt (hfits.span_lt htail hkeep), Item.tail, if_pos htail]
      simp only [ChunkRing.apply, ChunkRing.append_append]

/-- One item that fits: the chunks still hold whole items. -/
theorem wholeChunks_itemOps {r : ChunkRing} {items : List Item}
    (h : WholeChunks r ((sinceClear items).filter (verdict · = .keep))) {i : Item}
    (hfits : Fits r i) (prologue : List UInt8) :
    WholeChunks (r.applyAll (itemOps i prologue))
      ((sinceClear (items ++ [i])).filter (verdict · = .keep)) := by
  cases hv : verdict i with
  | keep =>
      have hkeeps : keepsHistory i = true := by simp [keepsHistory, hv]
      have hsince : (sinceClear (items ++ [i])).filter (verdict · = .keep) =
          (sinceClear items).filter (verdict · = .keep) ++ [i] := by
        simp [sinceClear, hkeeps, hv]
      rw [applyAll_itemOps_of_fits hfits hv, hsince]
      exact h.keep i prologue
  | drop =>
      have hkeeps : keepsHistory i = true := by simp [keepsHistory, hv]
      have hsince : (sinceClear (items ++ [i])).filter (verdict · = .keep) =
          (sinceClear items).filter (verdict · = .keep) := by
        simp [sinceClear, hkeeps, hv]
      have hops : itemOps i prologue = [] := by simp [itemOps, hv, Verdict.ops]
      rw [hops, hsince]
      exact h
  | clear =>
      have hpurges : keepsHistory i = false := by simp [keepsHistory, hv]
      have hsince : sinceClear (items ++ [i]) = [] := by simp [sinceClear, hpurges]
      rw [itemOps_of_clear hv, hsince]
      exact wholeChunks_purge r _

/-! ## Cuts and the ground state -/

/-- When the next byte makes the ring grow, which only a cut does, the parser is
in the ground state and outside a character. -/
def CutsAtGround (s : Scanner State) (b : UInt8) : Prop :=
  s.ring.chunks.length < (Scanner.feedByte table s b).ring.chunks.length →
    (Scanner.feedByte table s b).parser = .ground [] ∧
      (Scanner.feedByte table s b).utf8Remaining = 0

/-- Every cut of a run finds the parser in the ground state. -/
def GroundCuts (watermark : Nat) (feeds : List (List UInt8)) : Prop :=
  ∀ done a b c rest, feeds = done ++ (a ++ b :: c) :: rest →
    CutsAtGround
      (Scanner.feed table (Scanner.feedAll table (Scanner.new table watermark) done) a) b

/-- Every item of the stream fits where it arrives. -/
def AllFit (watermark : Nat) (items : List Item) : Prop :=
  ∀ before i after, items = before ++ i :: after →
    Fits (Scanner.feed table (Scanner.new table watermark) (Item.stream before)).ring i

/-- The split into feed calls does not matter for the cuts. -/
theorem groundCuts_iff_forall_split (watermark : Nat) (feeds : List (List UInt8)) :
    GroundCuts watermark feeds ↔
      ∀ a b c, feeds.flatten = a ++ b :: c →
        CutsAtGround (Scanner.feed table (Scanner.new table watermark) a) b := by
  constructor
  · intro h a b c hsplit
    rcases List.flatten_eq_append_iff.mp hsplit with ⟨done, rest, hfeeds, ha, hrest⟩ |
      ⟨done, as, x, cs, rest, hfeeds, ha, hrest⟩
    · obtain ⟨nils, c', rest', hcs, hnil, -⟩ := List.flatten_eq_cons_iff.mp hrest.symm
      have hcut := h (done ++ nils) [] b c' rest' (by rw [hfeeds, hcs]; simp)
      have hflat : (done ++ nils).flatten = a := by
        rw [List.flatten_append, List.flatten_eq_nil_iff.mpr hnil, ha, List.append_nil]
      rw [Scanner.feedAll_eq_feed, hflat] at hcut
      exact hcut
    · obtain ⟨rfl, -⟩ := List.cons.inj hrest
      have hcut := h done as b cs rest hfeeds
      rw [Scanner.feedAll_eq_feed, ← Scanner.feed_append, ← ha] at hcut
      exact hcut
  · intro h done a b c rest hfeeds
    rw [Scanner.feedAll_eq_feed, ← Scanner.feed_append]
    apply h (done.flatten ++ a) b (c ++ rest.flatten)
    rw [hfeeds]
    simp

private theorem feedByte_feed (watermark : Nat) (a : List UInt8) (b : UInt8) :
    Scanner.feedByte table (Scanner.feed table (Scanner.new table watermark) a) b =
      Scanner.feed table (Scanner.new table watermark) (a ++ [b]) := by
  rw [Scanner.feed_append]
  rfl

/-- A string that ends in an ST and does not fit is cut at its ESC. -/
theorem fits_of_cutsAtGround {watermark : Nat} {before : List Item} {i : Item}
    (h : CutsAtGround (Scanner.feed table (Scanner.new table watermark)
      (Item.stream before ++ i.body)) i.closing) :
    Fits (ringAfter watermark before) i := by
  intro htail hkeep
  by_contra hroom
  rw [i.bytes_eq, Item.tail, if_pos htail, watermark_ringAfter] at hroom
  obtain ⟨hring, -, -⟩ := feed_body watermark before [] (i := i) (List.append_nil _).symm
  obtain ⟨⟨prologue, hnext⟩, hparser, -⟩ := feed_closing watermark before [] i
  have hle : (ringAfter watermark before).watermark ≤
      (ringAfter watermark before).openChunk.data.length + (i.body ++ [i.closing]).length := by
    rw [watermark_ringAfter]
    simp only [List.length_append, List.length_singleton] at hroom ⊢
    omega
  have hcut : (ringAfter watermark before).applyAll
      ((verdict i).ops (i.body ++ [i.closing]) prologue) =
        ((ringAfter watermark before).append (i.body ++ [i.closing])).cut prologue := by
    rw [hkeep]
    exact ChunkRing.apply_keep_of_le hle prologue
  unfold CutsAtGround at h
  rw [feedByte_feed, List.append_assoc, hring, hnext, hcut, hparser] at h
  have hground := h (by simp [ChunkRing.cut])
  rw [Item.closed, if_pos htail] at hground
  exact absurd hground.1 (by simp)

/-- Where every item fits, a byte that cuts ends an item. -/
theorem cutsAtGround_of_allFit {watermark : Nat} {items : List Item} (h : AllFit watermark items)
    {a c : List UInt8} {b : UInt8} (hsplit : Item.stream items = a ++ b :: c) :
    CutsAtGround (Scanner.feed table (Scanner.new table watermark) a) b := by
  unfold CutsAtGround
  rw [feedByte_feed]
  have hword : (a ++ [b]) ++ c = Item.stream items := by
    rw [hsplit]
    simp
  rcases split_cases hword with ⟨before, after, -, ha, -⟩ |
    ⟨before, i, after, p, r, hitems, hbytes, hp, hr, ha, -⟩
  · intro _
    rw [ha]
    refine ⟨(feed_between watermark before after).2.1, ?_⟩
    rw [Scanner.feed_eq]
    exact (stable_stream before).2
  · intro hgrows
    exfalso
    have hfits := h before i after hitems
    rw [(feed_between watermark before after).1] at hfits
    obtain ⟨p, x, rfl⟩ : ∃ q x, p = q ++ [x] :=
      ⟨p.dropLast, p.getLast hp, (List.dropLast_append_getLast hp).symm⟩
    rw [← List.append_assoc] at ha
    obtain ⟨hinit, hx⟩ := List.append_inj' ha rfl
    cases List.singleton_inj.mp hx
    subst hinit
    rw [List.append_assoc] at hgrows
    rcases split_item hbytes hr with ⟨rest, hbody, -⟩ | ⟨htail, hclosing, -⟩
    · -- inside the body nothing reaches the ring
      have hprev : i.body = p ++ ([b] ++ rest) := by
        rw [hbody]
        simp
      rw [(feed_body watermark before after hprev).1, (feed_body watermark before after hbody).1]
        at hgrows
      omega
    · -- at the ESC of an ST no chunk is made, since the item fits
      obtain ⟨rfl, hb⟩ := List.append_inj' hclosing rfl
      rw [List.singleton_inj.mp hb] at hgrows
      obtain ⟨⟨prologue, hnext⟩, -, -⟩ := feed_closing watermark before after i
      rw [(feed_body watermark before after (List.append_nil _).symm).1, hnext,
        hfits.length_closing htail] at hgrows
      omega

/-- Where every item fits, the chunks hold whole items. -/
theorem wholeChunks_ringAfter {watermark : Nat} {items : List Item} (h : AllFit watermark items) :
    WholeChunks (ringAfter watermark items) ((sinceClear items).filter (verdict · = .keep)) := by
  induction items using List.reverseRecOn with
  | nil => exact wholeChunks_new watermark
  | append_singleton items i ih =>
      have hprefix : AllFit watermark items := by
        intro before j after hitems
        exact h before j (after ++ [i]) (by rw [hitems]; simp)
      have hlast := h items i [] rfl
      rw [(feed_between watermark items []).1] at hlast
      obtain ⟨-, -, hring⟩ := after_snoc watermark items i (atRest_frontAfter items)
      rw [hring]
      exact wholeChunks_itemOps (ih hprefix) hlast _

/-- On a well-formed stream, in any number of feed calls, every cut falls on the
ground state and the chunks share whole items between them exactly when every kept
string that ends in an ST fits, on arrival, below the watermark. -/
theorem groundCuts_iff (watermark : Nat) (items : List Item) (feeds : List (List UInt8))
    (hfeeds : feeds.flatten = Item.stream items) :
    GroundCuts watermark feeds ∧
        WholeChunks (Scanner.feedAll table (Scanner.new table watermark) feeds).ring
          ((sinceClear items).filter (verdict · = .keep)) ↔
      AllFit watermark items := by
  rw [groundCuts_iff_forall_split, hfeeds, Scanner.feedAll_eq_feed, hfeeds,
    (feed_between watermark items []).1]
  constructor
  · rintro ⟨h, -⟩ before i after hitems
    rw [(feed_between watermark before []).1]
    apply fits_of_cutsAtGround
    apply h _ _ (i.tail ++ Item.stream after)
    rw [hitems, Item.stream_append, Item.stream_cons, i.bytes_eq]
    simp
  · intro h
    exact ⟨fun a b c hsplit => cutsAtGround_of_allFit h hsplit, wholeChunks_ringAfter h⟩

/-- The title fits a chunk of seven bytes. -/
theorem allFit_title : AllFit 7 [titleItem] := by
  intro before i after hitems
  cases before with
  | nil =>
      obtain ⟨rfl, -⟩ := List.cons.inj hitems
      intro _ _
      decide +kernel
  | cons j before => simp at hitems

/-- A title of seven bytes under a watermark of seven is cut after its ST. -/
theorem groundCuts_title :
    GroundCuts 7 [[0x1B, 0x5D, 0x30, 0x3B], [0x74, 0x1B], [0x5C]] :=
  ((groundCuts_iff 7 [titleItem] _ (by decide)).mpr allFit_title).1

/-- Under a watermark of six it is cut inside its ST, and the next chunk begins
with the backslash. -/
theorem title_cut_inside_terminator :
    ¬ ∀ (watermark : Nat) (items : List Item) (feeds : List (List UInt8)),
      feeds.flatten = Item.stream items →
      GroundCuts watermark feeds ∧
        WholeChunks (Scanner.feedAll table (Scanner.new table watermark) feeds).ring
          ((sinceClear items).filter (verdict · = .keep)) := by
  intro h
  have hcuts := (h 6 [titleItem] [[0x1B, 0x5D, 0x30, 0x3B, 0x74, 0x1B, 0x5C]] (by decide)).1
  have hesc := hcuts [] [0x1B, 0x5D, 0x30, 0x3B, 0x74] 0x1B [0x5C] [] rfl
  have hground := hesc (by decide +kernel)
  exact absurd hground.1 (by decide +kernel)

end JftermMuxer.Core
