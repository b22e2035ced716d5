import JftermMuxer.Core.Trace
import Mathlib.Data.List.Induction

/-!
# The standalone string terminator

The loop of {lit}`core/src/scanner.rs` passes a 0x9C byte through while continuation
bytes are announced, and otherwise takes it for the C1 string terminator.  It looks at
the lead byte alone, so it also swallows a terminator behind a lead whose second byte
is out of its range.

Main results:

- Definition {lit}`Standalone`: no character or valid beginning of one goes through
  the byte.
- Theorem {lit}`replaced_iff_of_lead`: what the loop does behind a lead byte.
- Theorem {lit}`c1_st_iff`: exactly the standalone terminators of a stream are
  replaced iff none is swallowed.
-/

namespace JftermMuxer.Core

open Foundation Vte

/-! ## Standalone bytes -/

/-- No character and no valid beginning of one ends in or goes through a 0x9C after
these bytes. -/
def Standalone (before : List UInt8) : Prop :=
  ∀ word more, word <:+ before → ¬ IsScalar (word ++ 0x9C :: more)

/-- The bytes handed to the parser for one byte. -/
def handed (before : List UInt8) (b : UInt8) : List UInt8 :=
  (translateByte (remainingAfter 0 before) b).1

/-- The loop hands on the bytes of a stream one after the other. -/
theorem translate_snoc (before : List UInt8) (b : UInt8) :
    translate 0 (before ++ [b]) = translate 0 before ++ handed before b := by
  rw [translate_append]
  exact congrArg _ (List.append_nil _)

/-- Only {lit}`9C` is ever replaced. -/
theorem handed_of_ne {b : UInt8} (hb : b ≠ 0x9C) (before : List UInt8) : handed before b = [b] := by
  unfold handed translateByte
  split
  · rfl
  · rfl

/-- A 0x9C is replaced by ESC and a backslash. -/
def Replaced (before : List UInt8) : Prop := handed before 0x9C = [0x1B, 0x5C]

/-- A {lit}`9C` is replaced when no character waits for it. -/
theorem replaced_iff (before : List UInt8) : Replaced before ↔ remainingAfter 0 before = 0 := by
  have hcont : isCont 0x9C = true := by decide
  unfold Replaced handed translateByte
  by_cases hzero : remainingAfter 0 before = 0
  · simp [hzero]
  · have hpos : 0 < remainingAfter 0 before := Nat.pos_of_ne_zero hzero
    simp [hcont, hpos, hzero]

/-- Inside a character it is handed on as it is. -/
theorem handed_of_not_replaced {before : List UInt8} (h : ¬ Replaced before) :
    handed before 0x9C = [0x9C] := by
  have hcont : isCont 0x9C = true := by decide
  have hpos : 0 < remainingAfter 0 before := Nat.pos_of_ne_zero (mt (replaced_iff before).mpr h)
  rw [handed, translateByte, if_pos ⟨hpos, hcont⟩]

/-! ## The bytes behind a lead -/

/-- A stream either has continuation bytes only, or these are preceded by a last byte
of another kind. -/
theorem exists_last_lead (before : List UInt8) :
    (∀ b ∈ before, isCont b = true) ∨
      ∃ front lead conts, before = front ++ lead :: conts ∧ isCont lead = false ∧
        ∀ b ∈ conts, isCont b = true := by
  induction before using List.reverseRecOn with
  | nil => exact Or.inl (by simp)
  | append_singleton before b ih =>
      cases hb : isCont b with
      | false => exact Or.inr ⟨before, b, [], rfl, hb, by simp⟩
      | true =>
          rcases ih with hall | ⟨front, lead, conts, rfl, hlead, hconts⟩
          · refine Or.inl ?_
            intro x hx
            rcases List.mem_append.mp hx with hx | hx
            · exact hall x hx
            · rw [List.mem_singleton.mp hx]
              exact hb
          · refine Or.inr ⟨front, lead, conts ++ [b], by simp, hlead, ?_⟩
            intro x hx
            rcases List.mem_append.mp hx with hx | hx
            · exact hconts x hx
            · rw [List.mem_singleton.mp hx]
              exact hb

/-- The last byte that is no continuation byte is determined. -/
theorem lead_unique {as bs : List UInt8} {x y : UInt8} {us vs : List UInt8}
    (hx : isCont x = false) (hy : isCont y = false) (hus : ∀ b ∈ us, isCont b = true)
    (hvs : ∀ b ∈ vs, isCont b = true) (h : as ++ x :: us = bs ++ y :: vs) : x = y ∧ us = vs := by
  rcases List.append_eq_append_iff.mp h with ⟨mid, -, hmid⟩ | ⟨mid, -, hmid⟩
  · cases mid with
    | nil => exact List.cons.inj hmid
    | cons z mid =>
        obtain ⟨-, hus'⟩ := List.cons.inj hmid
        have hy' := hus y (by rw [hus']; simp)
        rw [hy] at hy'
        cases hy'
  · cases mid with
    | nil =>
        obtain ⟨hyx, hvs'⟩ := List.cons.inj hmid
        exact ⟨hyx.symm, hvs'.symm⟩
    | cons z mid =>
        obtain ⟨-, hvs'⟩ := List.cons.inj hmid
        have hx' := hvs x (by rw [hvs']; simp)
        rw [hx] at hx'
        cases hx'

/-- The count after a lead and continuation bytes is what is missing of the
announced ones. -/
theorem remainingAfter_lead (front : List UInt8) {lead : UInt8} (hlead : isCont lead = false)
    {conts : List UInt8} (hconts : ∀ b ∈ conts, isCont b = true) :
    remainingAfter 0 (front ++ lead :: conts) = utf8Announced lead - conts.length := by
  have hrest : ∀ (conts : List UInt8) (n : Nat), (∀ b ∈ conts, isCont b = true) →
      remainingAfter n conts = n - conts.length := by
    intro conts
    induction conts with
    | nil => exact fun n _ => rfl
    | cons b conts ih =>
        intro n hall
        have hb := hall b List.mem_cons_self
        have hannounced : utf8Announced b = 0 := by
          have hhigh := isCont_high hb
          unfold utf8Announced
          grind
        have htail := fun x hx => hall x (List.mem_cons_of_mem b hx)
        rw [remainingAfter, ih _ htail, List.length_cons]
        unfold translateByte
        by_cases hn : 0 < n
        · rw [if_pos ⟨hn, hb⟩]
          omega
        · rw [if_neg fun h => hn h.1]
          have hzero : (if b = 0x9C then ([0x1B, 0x5C], utf8Announced b)
              else ([b], utf8Announced b)).2 = 0 := by
            split <;> exact hannounced
          omega
  have hstart : ∀ n, (translateByte n lead).2 = utf8Announced lead := by
    intro n
    unfold translateByte
    rw [if_neg (by simp [hlead])]
    split <;> rfl
  rw [remainingAfter_append, remainingAfter, hstart, hrest conts _ hconts]

/-- Continuation bytes alone begin no character. -/
theorem remainingAfter_conts {conts : List UInt8} (hconts : ∀ b ∈ conts, isCont b = true) :
    remainingAfter 0 conts = 0 := by
  induction conts with
  | nil => rfl
  | cons b conts ih =>
      have hb := isCont_high (hconts b List.mem_cons_self)
      have hstep : (translateByte 0 b).2 = 0 := by
        have hannounced : utf8Announced b = 0 := by
          unfold utf8Announced
          grind
        unfold translateByte
        rw [if_neg (by simp)]
        split <;> exact hannounced
      rw [remainingAfter, hstep]
      exact ih fun x hx => hconts x (List.mem_cons_of_mem b hx)

/-- Behind a lead byte the loop replaces a 0x9C once the announced bytes are there. -/
theorem replaced_iff_of_lead (front : List UInt8) {lead : UInt8} (hlead : isCont lead = false)
    {conts : List UInt8} (hconts : ∀ b ∈ conts, isCont b = true) :
    Replaced (front ++ lead :: conts) ↔ utf8Announced lead ≤ conts.length := by
  rw [replaced_iff, remainingAfter_lead front hlead hconts]
  omega

/-! ## Characters through a byte -/

/-- The second byte of a character that goes through a 0x9C. -/
def secondByte (conts : List UInt8) : UInt8 := conts.headD 0x9C

/-- What follows a lead begins with its second byte. -/
theorem secondByte_append (conts more : List UInt8) :
    ∃ rest, conts ++ 0x9C :: more = secondByte conts :: rest := by
  cases conts with
  | nil => exact ⟨more, rfl⟩
  | cons b conts => exact ⟨conts ++ 0x9C :: more, rfl⟩

private theorem second_of_scalar {lead b : UInt8} {rest : List UInt8}
    (h : IsScalar (lead :: b :: rest)) : secondOk lead b = true := by
  cases h with
  | two _ hb => exact hb
  | three _ hb _ => exact hb
  | four _ hb _ _ => exact hb

/-- The announced bytes are those after the first. -/
theorem leadWidth_eq {lead : UInt8} (h : 0 < utf8Announced lead ∨ 2 ≤ leadWidth lead) :
    leadWidth lead = utf8Announced lead + 1 := by
  unfold utf8Announced leadWidth at *
  grind

/-- A lead is no continuation byte. -/
theorem not_cont_of_leadWidth {lead : UInt8} (h : 2 ≤ leadWidth lead) : isCont lead = false := by
  have hhigh := leadWidth_high h
  unfold isCont
  grind

/-- A character through a 0x9C has a lead that announces it and admits its second
byte. -/
theorem lead_of_scalar {word more : List UInt8} (h : IsScalar (word ++ 0x9C :: more)) :
    ∃ lead conts, word = lead :: conts ∧ isCont lead = false ∧ (∀ b ∈ conts, isCont b = true) ∧
      conts.length < utf8Announced lead ∧ secondOk lead (secondByte conts) = true := by
  obtain ⟨lead, tail, hbytes, hlength, htail⟩ := h.lead_cont
  cases word with
  | nil =>
      obtain ⟨rfl, -⟩ := List.cons.inj hbytes
      have hzero : leadWidth 0x9C = 0 := by decide
      rw [hzero] at hlength
      cases hlength
  | cons first conts =>
      obtain ⟨rfl, rfl⟩ := List.cons.inj hbytes
      rw [List.length_append, List.length_cons, List.length_cons] at hlength
      have hwidth : leadWidth first = utf8Announced first + 1 := leadWidth_eq (Or.inr (by omega))
      obtain ⟨rest, hrest⟩ := secondByte_append conts more
      rw [List.cons_append, hrest] at h
      refine ⟨first, conts, rfl, not_cont_of_leadWidth (by omega), ?_, by omega,
        second_of_scalar h⟩
      exact fun b hb => htail b (List.mem_append_left _ hb)

/-- Any such lead begins a character through the 0x9C. -/
theorem exists_scalar {lead : UInt8} {conts : List UInt8} (hconts : ∀ b ∈ conts, isCont b = true)
    (hlength : conts.length < utf8Announced lead)
    (hsecond : secondOk lead (secondByte conts) = true) :
    ∃ more, IsScalar (lead :: conts ++ 0x9C :: more) := by
  have hwidth : leadWidth lead = utf8Announced lead + 1 := leadWidth_eq (Or.inl (by omega))
  have hmost : utf8Announced lead ≤ 3 := by
    unfold utf8Announced
    grind
  have hst : isCont 0x9C = true := by decide
  match conts with
  | [] =>
      rcases (by omega : utf8Announced lead = 1 ∨ utf8Announced lead = 2 ∨ utf8Announced lead = 3)
        with hn | hn | hn
      · exact ⟨[], .two (by omega) hsecond⟩
      · exact ⟨[0x80], .three (by omega) hsecond (by decide)⟩
      · exact ⟨[0x80, 0x80], .four (by omega) hsecond (by decide) (by decide)⟩
  | [b] =>
      simp only [List.length_singleton] at hlength
      rcases (by omega : utf8Announced lead = 2 ∨ utf8Announced lead = 3) with hn | hn
      · exact ⟨[], .three (by omega) hsecond hst⟩
      · exact ⟨[0x80], .four (by omega) hsecond hst (by decide)⟩
  | [b, c] =>
      simp only [List.length_cons, List.length_nil] at hlength
      exact ⟨[], .four (by omega) hsecond (hconts c (by simp)) hst⟩
  | b :: c :: d :: conts =>
      simp only [List.length_cons] at hlength
      omega

/-- Behind a lead byte a 0x9C stands alone unless it is announced and the second byte
is in the lead's range. -/
theorem standalone_iff_of_lead (front : List UInt8) {lead : UInt8} (hlead : isCont lead = false)
    {conts : List UInt8} (hconts : ∀ b ∈ conts, isCont b = true) :
    Standalone (front ++ lead :: conts) ↔
      ¬ (conts.length < utf8Announced lead ∧ secondOk lead (secondByte conts) = true) := by
  constructor
  · rintro hstandalone ⟨hlength, hsecond⟩
    obtain ⟨more, hscalar⟩ := exists_scalar hconts hlength hsecond
    exact hstandalone (lead :: conts) more (List.suffix_append front _) hscalar
  · rintro hnot word more ⟨earlier, hword⟩ hscalar
    obtain ⟨lead', conts', rfl, hlead', hconts', hlength, hsecond⟩ := lead_of_scalar hscalar
    obtain ⟨rfl, rfl⟩ := lead_unique hlead' hlead hconts' hconts hword
    exact hnot ⟨hlength, hsecond⟩

/-- Behind continuation bytes alone a {lit}`9C` stands alone. -/
theorem standalone_of_conts {conts : List UInt8} (hconts : ∀ b ∈ conts, isCont b = true) :
    Standalone conts := by
  intro word more hsuffix hscalar
  obtain ⟨lead, rest, rfl, hlead, -⟩ := lead_of_scalar hscalar
  have hcont := hconts lead (hsuffix.subset List.mem_cons_self)
  rw [hlead] at hcont
  cases hcont

/-! ## Swallowed terminators -/

/-- The byte is announced by a lead whose second byte is out of its range. -/
def Swallowed (before : List UInt8) : Prop :=
  ∃ front lead conts, before = front ++ lead :: conts ∧ isCont lead = false ∧
    (∀ b ∈ conts, isCont b = true) ∧ conts.length < utf8Announced lead ∧
    secondOk lead (secondByte conts) = false

/-- The loop and the law agree on a byte unless it is swallowed. -/
theorem replaced_iff_standalone_iff (before : List UInt8) :
    (Replaced before ↔ Standalone before) ↔ ¬ Swallowed before := by
  rcases exists_last_lead before with hall | ⟨front, lead, conts, rfl, hlead, hconts⟩
  · refine iff_of_true (iff_of_true ?_ (standalone_of_conts hall)) ?_
    · rw [replaced_iff]
      exact remainingAfter_conts hall
    · rintro ⟨front, lead, conts, rfl, hlead, -⟩
      have hcont := hall lead (by simp)
      rw [hlead] at hcont
      cases hcont
  · have hswallowed : Swallowed (front ++ lead :: conts) ↔
        conts.length < utf8Announced lead ∧ secondOk lead (secondByte conts) = false := by
      constructor
      · rintro ⟨front', lead', conts', hsame, hlead', hconts', hlength, hsecond⟩
        obtain ⟨rfl, rfl⟩ := lead_unique hlead hlead' hconts hconts' hsame
        exact ⟨hlength, hsecond⟩
      · rintro ⟨hlength, hsecond⟩
        exact ⟨front, lead, conts, rfl, hlead, hconts, hlength, hsecond⟩
    rw [replaced_iff_of_lead front hlead hconts, standalone_iff_of_lead front hlead hconts,
      hswallowed]
    cases hsecond : secondOk lead (secondByte conts) with
    | false =>
        simp only [Bool.false_eq_true, and_false, not_false_iff, iff_true, and_true]
        omega
    | true =>
        simp only [and_true, Bool.true_eq_false, and_false, not_false_iff, iff_true]
        omega

/-! ## Main result -/

/-- For every stream in any number of feed calls and over any parser: the parser is
handed the stream byte by byte, every byte but 0x9C as it is and every 0x9C as it is
or as ESC and a backslash; and exactly the standalone ones are replaced if and only if
the stream has none behind a lead that announces it and does not admit the second
byte. -/
theorem c1_st_iff {σ : Type} (T : Transducer σ UInt8 Callback) (watermark : Nat)
    (feeds : List (List UInt8)) :
    (Scanner.feedAll T (Scanner.new T watermark) feeds =
      { Scanner.advanceAll T (Scanner.new T watermark) (translate 0 feeds.flatten) with
        utf8Remaining := remainingAfter 0 feeds.flatten }) ∧
    (∀ before b, translate 0 (before ++ [b]) = translate 0 before ++ handed before b) ∧
    (∀ before b, b ≠ 0x9C → handed before b = [b]) ∧
    (∀ before, ¬ Replaced before → handed before 0x9C = [0x9C]) ∧
    ((∀ before after, feeds.flatten = before ++ 0x9C :: after →
        (Replaced before ↔ Standalone before)) ↔
      ∀ before after, feeds.flatten = before ++ 0x9C :: after → ¬ Swallowed before) := by
  refine ⟨?_, translate_snoc, fun before b hb => handed_of_ne hb before,
    fun before h => handed_of_not_replaced h, ?_⟩
  · rw [Scanner.feedAll_eq_feed, Scanner.feed_eq]
    rfl
  · refine forall_congr' fun before => forall_congr' fun after => imp_congr_right fun _ => ?_
    exact replaced_iff_standalone_iff before

private theorem not_swallowed_check {before after : List UInt8}
    (h : [[0xE2], [0x9C, 0x93]].flatten = before ++ 0x9C :: after) : ¬ Swallowed before := by
  have hbefore : before = [0xE2] := by
    match before with
    | [] => cases h
    | [b] =>
        obtain ⟨rfl, -⟩ := List.cons.inj h
        rfl
    | [b, c] => cases h
    | b :: c :: d :: rest =>
        have hlength := congrArg List.length h
        simp only [List.flatten_cons, List.flatten_nil, List.length_append, List.length_cons,
          List.length_nil] at hlength
        omega
  subst hbefore
  rintro ⟨front, lead, conts, hsplit, hlead, hconts, -, hsecond⟩
  have hsame : [] ++ (0xE2 : UInt8) :: [] = front ++ lead :: conts := hsplit
  obtain ⟨rfl, rfl⟩ := lead_unique (by decide) hlead (by simp) hconts hsame
  exact absurd hsecond (by decide)

/-- The check mark, split behind its lead: its 0x9C is part of it and stays. -/
theorem c1_st_check_mark : Replaced [0xE2] ↔ Standalone [0xE2] :=
  (c1_st_iff table 0 [[0xE2], [0x9C, 0x93]]).2.2.2.2.mpr
    (fun _ _ hsplit => not_swallowed_check hsplit) [0xE2] [0x93] rfl

/-- A title whose last byte before its terminator is 0xE0: the terminator stands alone
and is not recognized, and the letter {lit}`X` behind it is lost. -/
theorem c1_st_swallowed :
    Standalone [0x1B, 0x5D, 0x32, 0x3B, 0xE0] ∧ ¬ Replaced [0x1B, 0x5D, 0x32, 0x3B, 0xE0] ∧
      (Scanner.feed table (Scanner.new table 64)
        [0x1B, 0x5D, 0x32, 0x3B, 0xE0, 0x9C, 0x58]).replay usizeMax = [] := by
  have hfront : [0x1B, 0x5D, 0x32, 0x3B, 0xE0] = [0x1B, 0x5D, 0x32, 0x3B] ++ (0xE0 : UInt8) :: [] := rfl
  refine ⟨?_, ?_, by decide +kernel⟩
  · rw [hfront, standalone_iff_of_lead _ (by decide) (by simp)]
    decide
  · rw [hfront, replaced_iff_of_lead _ (by decide) (by simp)]
    decide

end JftermMuxer.Core
