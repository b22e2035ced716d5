import JftermMuxer.Core.Trace
import Mathlib.Data.List.Induction

/-!
# The progress percentage

The OSC 9;4 arm of {lit}`Sink::osc_dispatch` in {lit}`core/src/scanner.rs` stores
whatever its value field parses to as a byte.  The percentage after a stream is that
of its last report, so it leaves the documented range exactly when that report is
numbered above 100.

Main results:

- Theorem {lit}`progress_feeds`: the progress of an engine is that of the last report
  in the stream it was fed.
- Theorem {lit}`inRange_feeds_iff`: it is in range iff that report does not overshoot.
-/

namespace JftermMuxer.Core

open Foundation Vte

/-! ## Reports -/

/-- A progress report: OSC 9 with the subcommand 4. -/
def isReport : Callback → Bool
  | .oscDispatch params _ => params.head? == some [0x39] && params[1]? == some [0x34]
  | .print _ | .execute _ | .hook _ _ _ _ | .put _ | .unhook | .csiDispatch _ _ _ _
  | .escDispatch _ _ _ => false

/-- What a report sets: nothing in state 0, otherwise its value field as a byte. -/
def reported : Callback → Option UInt8
  | .oscDispatch params _ =>
      if params[2]? = some [0x30] then none else params[3]?.bind parseU8
  | .print _ | .execute _ | .hook _ _ _ _ | .put _ | .unhook | .csiDispatch _ _ _ _
  | .escDispatch _ _ _ => none

/-- Only a report changes the progress. -/
theorem progress_perform (s : Sink) (cb : Callback) :
    (s.perform cb).status.progress = if isReport cb then reported cb else s.status.progress := by
  cases cb with
  | oscDispatch params bell =>
      simp only [Sink.perform, Sink.oscDispatch, Sink.oscClassify, isReport, reported]
      by_cases hcode : params.head? = some [0x39]
      · by_cases hsub : params[1]? = some [0x34]
        · by_cases hstate : params[2]? = some [0x30]
          · simp [hcode, hsub, hstate, StatusCache.setProgress]
          · simp [hcode, hsub, hstate, StatusCache.setProgress]
        · simp [hcode, hsub]
      · simp only [hcode, beq_eq_false_iff_ne.mpr hcode, Bool.false_and, if_false]
        split
        · split <;> rfl
        · split
          · split <;> rfl
          · split
            · split
              · rfl
              · split <;> rfl
            · split <;> rfl
  | csiDispatch params intermediates ignore action =>
      simp only [Sink.perform, Sink.csiDispatch]
      repeat' split
      all_goals first
        | rfl
        | contradiction
  | escDispatch intermediates ignore byte =>
      simp only [Sink.perform, Sink.escDispatch]
      split <;> rfl
  | print _ | execute _ | hook _ _ _ _ | put _ | unhook => rfl

/-- The last report of a list of callbacks. -/
def lastReport (cbs : List Callback) : Option Callback := (cbs.filter isReport).getLast?

/-- A report is the last one until the next. -/
theorem lastReport_snoc (cbs : List Callback) (cb : Callback) :
    lastReport (cbs ++ [cb]) = if isReport cb then some cb else lastReport cbs := by
  unfold lastReport
  rw [List.filter_append]
  by_cases hreport : isReport cb = true
  · rw [if_pos hreport, List.filter_cons_of_pos hreport, List.filter_nil,
      List.getLast?_append_cons]
    rfl
  · rw [if_neg hreport, List.filter_cons_of_neg hreport, List.filter_nil, List.append_nil]

/-- The progress follows from the callbacks alone. -/
theorem tracks_progress : Sink.Tracks (fun s => s.status.progress)
    (fun progress cb => if isReport cb then reported cb else progress) :=
  ⟨progress_perform, fun _ _ => rfl⟩

/-- Of the reports only the last one matters. -/
theorem foldl_reported (progress : Option UInt8) (cbs : List Callback) :
    cbs.foldl (fun progress cb => if isReport cb then reported cb else progress) progress =
      ((lastReport cbs).map reported).getD progress := by
  induction cbs using List.reverseRecOn with
  | nil => rfl
  | append_singleton cbs cb ih =>
      rw [List.foldl_concat, lastReport_snoc, ih]
      by_cases hreport : isReport cb = true
      · rw [if_pos hreport, if_pos hreport]
        rfl
      · rw [if_neg hreport, if_neg hreport]

/-! ## Whole streams -/

/-- The parser callbacks of a raw stream. -/
def callbacks (stream : List UInt8) : List Callback := table.outputs table.init (translate 0 stream)

/-- The percentage the front end holds is that of the last report. -/
theorem progress_front {σ : Type} (T : Transducer σ UInt8 Callback) (f : Front σ)
    (bytes : List UInt8) :
    ((Front.machine T).stateAfter f bytes).sink.status.progress =
      ((lastReport (T.outputs f.parser bytes)).map reported).getD f.sink.status.progress := by
  have hprogress := tracks_progress.stateAfter T f bytes
  rw [foldl_reported] at hprogress
  exact hprogress

namespace ReplayEngine

/-- Any number of feed calls. -/
def feedAll (e : ReplayEngine) (feeds : List (List UInt8)) : ReplayEngine := feeds.foldl feed e

/-- The engine feeds its scanner. -/
theorem scanner_feedAll (e : ReplayEngine) (feeds : List (List UInt8)) :
    (e.feedAll feeds).scanner = Scanner.feedAll table e.scanner feeds := by
  induction feeds generalizing e with
  | nil => rfl
  | cons bytes feeds ih => exact ih (e.feed bytes)

end ReplayEngine

/-- The progress of an engine is that of the last report in the stream it was fed. -/
theorem progress_feeds (feeds : List (List UInt8)) :
    (ReplayEngine.new.feedAll feeds).status.progress =
      (lastReport (callbacks feeds.flatten)).bind reported := by
  have hfront := Scanner.front_feed table engineWatermark feeds.flatten
  have hprogress := progress_front table (Front.init table) (translate 0 feeds.flatten)
  rw [← hfront] at hprogress
  have hscanner := ReplayEngine.scanner_feedAll ReplayEngine.new feeds
  rw [Scanner.feedAll_eq_feed] at hscanner
  have hstatus : (ReplayEngine.new.feedAll feeds).status =
      (Scanner.feed table (Scanner.new table engineWatermark) feeds.flatten).status := by
    rw [ReplayEngine.status, hscanner]
    rfl
  have hbind : ∀ last : Option Callback, (last.map reported).getD none = last.bind reported := by
    intro last
    cases last with
    | none => rfl
    | some cb => rfl
  rw [hstatus]
  exact hprogress.trans (hbind _)

/-! ## The documented range -/

/-- A percentage or nothing. -/
def InRange (progress : Option UInt8) : Prop := ∀ v, progress = some v → v ≤ 100

instance (progress : Option UInt8) : Decidable (InRange progress) :=
  match progress with
  | none => isTrue fun v h => by cases h
  | some u =>
      if hu : u ≤ 100 then isTrue fun v h => by cases h; exact hu
      else isFalse fun h => hu (h u rfl)

/-- The number that decimal digits write. -/
def numeral (digits : List UInt8) : Nat :=
  digits.foldl (fun acc b => acc * 10 + (b.toNat - 48)) 0

/-- A numeral without its plus sign. -/
def unsigned : List UInt8 → List UInt8
  | 0x2B :: digits => digits
  | text => text

/-- A decimal number that fits a byte but is no percentage. -/
def Overshoots (text : List UInt8) : Prop :=
  unsigned text ≠ [] ∧ (unsigned text).all isDigit = true ∧ 100 < numeral (unsigned text) ∧
    numeral (unsigned text) ≤ 255

/-- A report of a state other than 0 whose value field overshoots. -/
def OverReport : Callback → Prop
  | .oscDispatch params _ =>
      params[2]? ≠ some [0x30] ∧ ∃ text ∈ params[3]?, Overshoots text
  | .print _ | .execute _ | .hook _ _ _ _ | .put _ | .unhook | .csiDispatch _ _ _ _
  | .escDispatch _ _ _ => False

/-- The last progress report of a stream is one that overshoots. -/
def EndsOver (stream : List UInt8) : Prop := ∃ cb ∈ lastReport (callbacks stream), OverReport cb

instance : DecidablePred Overshoots := fun text =>
  inferInstanceAs (Decidable (unsigned text ≠ [] ∧ (unsigned text).all isDigit = true ∧
    100 < numeral (unsigned text) ∧ numeral (unsigned text) ≤ 255))

instance : DecidablePred OverReport
  | .oscDispatch params _ =>
      inferInstanceAs (Decidable
        (params[2]? ≠ some [0x30] ∧ ∃ text ∈ params[3]?, Overshoots text))
  | .print _ | .execute _ | .hook _ _ _ _ | .put _ | .unhook | .csiDispatch _ _ _ _
  | .escDispatch _ _ _ => inferInstanceAs (Decidable False)

instance : DecidablePred EndsOver := fun stream =>
  inferInstanceAs (Decidable (∃ cb ∈ lastReport (callbacks stream), OverReport cb))

/-- The byte that a numeral stands for; a sign alone is not one. -/
theorem parseU8_eq (text : List UInt8) :
    parseU8 text = if unsigned text = [] ∨ ¬ (unsigned text).all isDigit then none
      else if numeral (unsigned text) ≤ 255 then some (UInt8.ofNat (numeral (unsigned text)))
      else none := by
  cases text with
  | nil => rfl
  | cons b rest =>
      by_cases hb : b = 0x2B
      · subst hb
        cases rest with
        | nil => rfl
        | cons d ds => rfl
      · have hunsigned : unsigned (b :: rest) = b :: rest := by
          unfold unsigned
          split
          · rename_i heq
            exact absurd (List.cons.inj heq).1 hb
          · rfl
        rw [hunsigned]
        unfold parseU8
        split
        · rename_i heq
          exact absurd (List.cons.inj heq).1 hb
        · rfl

/-- A field parses to a value out of range iff it overshoots. -/
theorem inRange_parseU8_iff (text : List UInt8) : InRange (parseU8 text) ↔ ¬ Overshoots text := by
  have htoNat : ∀ n, n ≤ 255 → (UInt8.ofNat n ≤ 100 ↔ n ≤ 100) := by
    intro n hn
    rw [UInt8.le_iff_toNat_le, UInt8.toNat_ofNat']
    have hmod : n % 2 ^ 8 = n := Nat.mod_eq_of_lt (by omega)
    rw [hmod]
    exact Iff.rfl
  have hnone : InRange none := fun v hv => by cases hv
  rw [parseU8_eq]
  by_cases htext : unsigned text = [] ∨ ¬ (unsigned text).all isDigit
  · rw [if_pos htext]
    refine iff_of_true hnone ?_
    rintro ⟨hne, hdigits, -, -⟩
    exact htext.elim hne fun h => h hdigits
  rw [if_neg htext]
  rw [not_or, Decidable.not_not] at htext
  by_cases hvalue : numeral (unsigned text) ≤ 255
  · rw [if_pos hvalue]
    constructor
    · rintro hrange ⟨-, -, hover, -⟩
      have hle := (htoNat _ hvalue).mp (hrange _ rfl)
      omega
    · intro hover v hv
      cases hv
      rw [htoNat _ hvalue]
      by_contra hlt
      exact hover ⟨htext.1, htext.2, by omega, hvalue⟩
  · rw [if_neg hvalue]
    exact iff_of_true hnone fun h => hvalue h.2.2.2

/-- What a report stores is in range unless it reports more than all. -/
theorem inRange_reported_iff {cb : Callback} (hreport : isReport cb = true) :
    InRange (reported cb) ↔ ¬ OverReport cb := by
  cases cb with
  | oscDispatch params bell =>
      have hreported : reported (.oscDispatch params bell) =
          if params[2]? = some [0x30] then none else params[3]?.bind parseU8 := rfl
      have hover : OverReport (.oscDispatch params bell) ↔
          params[2]? ≠ some [0x30] ∧ ∃ text ∈ params[3]?, Overshoots text := Iff.rfl
      have hnone : InRange none := fun v hv => by cases hv
      rw [hreported, hover]
      by_cases hstate : params[2]? = some [0x30]
      · rw [if_pos hstate]
        exact iff_of_true hnone fun h => h.1 hstate
      · rw [if_neg hstate]
        cases hfield : params[3]? with
        | none =>
            refine iff_of_true hnone ?_
            rintro ⟨-, text, htext, -⟩
            cases htext
        | some text =>
            rw [Option.bind_some, inRange_parseU8_iff]
            refine not_congr ⟨fun h => ⟨hstate, text, rfl, h⟩, ?_⟩
            rintro ⟨-, text', htext, h⟩
            cases htext
            exact h
  | print _ | execute _ | hook _ _ _ _ | put _ | unhook | csiDispatch _ _ _ _
  | escDispatch _ _ _ => cases hreport

/-- The last report is a report. -/
theorem isReport_of_lastReport {cbs : List Callback} {cb : Callback}
    (h : lastReport cbs = some cb) : isReport cb = true :=
  (List.mem_filter.mp (List.mem_of_getLast? h)).2

/-- The progress of an engine is in range iff the last report it was fed is. -/
theorem inRange_feeds_iff (feeds : List (List UInt8)) :
    InRange (ReplayEngine.new.feedAll feeds).status.progress ↔ ¬ EndsOver feeds.flatten := by
  rw [progress_feeds]
  unfold EndsOver
  cases hlast : lastReport (callbacks feeds.flatten) with
  | none =>
      refine iff_of_true (fun v hv => by cases hv) ?_
      rintro ⟨cb, hcb, -⟩
      cases hcb
  | some cb =>
      rw [Option.bind_some, inRange_reported_iff (isReport_of_lastReport hlast)]
      refine not_congr ⟨fun hover => ⟨cb, rfl, hover⟩, ?_⟩
      rintro ⟨cb', hcb, hover⟩
      cases hcb
      exact hover

end JftermMuxer.Core
