import Mathlib.Algebra.Group.Nat.Defs
import Mathlib.Data.List.Basic
import Mathlib.Data.List.Flatten

/-!
# Framing a byte stream

A framing encodes values as words over some alphabet so that a reader of the
concatenation can tell where each one ends.  A stream decoder receives the words
in arbitrary pieces and is asked for the next value at arbitrary moments; this
file shows that neither matters.

Main results:

- Theorem {lit}`Framing.run_wire`: along every interleaving of pushes and pulls
  whose pushes add up to the encodings of a list, the values come out in order
  and what is unread encodes the values still to come.
- Theorem {lit}`Framing.run_consumed`: along every interleaving whatsoever, what
  has been consumed is the concatenated encodings of what has come out.
- Definition {lit}`Framing.frames`: the values of a whole stream, one after the
  other, with the equation {lit}`Framing.frames_of_frame`.
-/

namespace JftermMuxer.Foundation

/-- What a decoder makes of the unread symbols. -/
inductive Decoded (φ ε β : Type) where
  | more
  | frame (f : φ) (rest : List β)
  | malformed (e : ε)

/-- An encoding whose words can be recognized at the front of a stream. -/
structure Framing (φ ε β : Type) where
  encode : φ → List β
  decode : List β → Decoded φ ε β
  Valid : φ → Prop
  decode_nil : decode [] = .more
  decode_encode : ∀ f, Valid f → ∀ rest, decode (encode f ++ rest) = .frame f rest
  decode_proper : ∀ f, Valid f → ∀ p r, encode f = p ++ r → r ≠ [] → decode p = .more
  encode_decode : ∀ bs f rest, decode bs = .frame f rest → bs = encode f ++ rest

/-- The two things a client of a stream decoder does. -/
inductive StreamOp (β : Type) where
  | push (symbols : List β)
  | pull

/-- The symbols pushed along a list of operations. -/
def StreamOp.pushed {β : Type} : List (StreamOp β) → List β
  | [] => []
  | .push symbols :: ops => symbols ++ pushed ops
  | .pull :: ops => pushed ops

/-- The values that came out of a list of pulls. -/
def yielded {φ ε : Type} (results : List (Except ε (Option φ))) : List φ :=
  results.filterMap fun
    | .ok f => f
    | .error _ => none

namespace Framing

variable {φ ε β : Type} (F : Framing φ ε β)

/-- The concatenated encodings of a list of values. -/
def wire (fs : List φ) : List β := (fs.map F.encode).flatten

@[simp] theorem wire_nil : F.wire [] = [] := rfl

@[simp] theorem wire_cons (f : φ) (fs : List φ) : F.wire (f :: fs) = F.encode f ++ F.wire fs := rfl

/-- Ask for the next value. -/
def pull (unread : List β) : Except ε (Option φ) × List β :=
  match F.decode unread with
  | .more => (.ok none, unread)
  | .frame f rest => (.ok (some f), rest)
  | .malformed e => (.error e, unread)

/-- A sequence of pushes and pulls: the results of the pulls and what is left
unread. -/
def run : List β → List (StreamOp β) → List (Except ε (Option φ)) × List β
  | unread, [] => ([], unread)
  | unread, .push symbols :: ops => run (unread ++ symbols) ops
  | unread, .pull :: ops =>
      let step := F.pull unread
      let rest := run step.2 ops
      (step.1 :: rest.1, rest.2)

/-- At the front of a stream of valid values, a pull either takes the first value
or has to wait for the rest of it. -/
theorem pull_of_wire {fs : List φ} (hvalid : ∀ f ∈ fs, F.Valid f) {unread future : List β}
    (h : unread ++ future = F.wire fs) :
    F.pull unread = (.ok none, unread) ∨
      ∃ f fs' rest, fs = f :: fs' ∧ F.pull unread = (.ok (some f), rest) ∧
        rest ++ future = F.wire fs' := by
  cases fs with
  | nil =>
      have hnil : unread = [] := (List.append_eq_nil_iff.mp h).1
      rw [hnil, pull, F.decode_nil]
      exact Or.inl rfl
  | cons f fs =>
      have hf := hvalid f (by simp)
      rw [wire_cons] at h
      rcases List.append_eq_append_iff.mp h with ⟨missing, hencode, hfuture⟩ | ⟨rest, hunread, hrest⟩
      · by_cases hmissing : missing = []
        · subst hmissing
          have hunread : unread = F.encode f ++ [] := by simpa using hencode.symm
          refine Or.inr ⟨f, fs, [], rfl, ?_, by simpa using hfuture⟩
          rw [hunread, pull, F.decode_encode f hf]
        · rw [pull, F.decode_proper f hf unread missing hencode hmissing]
          exact Or.inl rfl
      · refine Or.inr ⟨f, fs, rest, rfl, ?_, hrest.symm⟩
        rw [hunread, pull, F.decode_encode f hf]

/-- Pushes and pulls in any order deliver the values in order; no pull fails, and
the unread symbols encode the values to come. -/
theorem run_wire {ops : List (StreamOp β)} {fs : List φ} (hvalid : ∀ f ∈ fs, F.Valid f)
    {unread : List β} (h : unread ++ StreamOp.pushed ops = F.wire fs) :
    (∀ result ∈ (F.run unread ops).1, ∃ f, result = .ok f) ∧
      ∃ rest, fs = yielded (F.run unread ops).1 ++ rest ∧ (F.run unread ops).2 = F.wire rest := by
  induction ops generalizing unread fs with
  | nil =>
      refine ⟨by simp [run], fs, rfl, ?_⟩
      simpa [run, StreamOp.pushed] using h
  | cons op ops ih =>
      cases op with
      | push symbols =>
          apply ih hvalid
          rw [List.append_assoc]
          exact h
      | pull =>
          rcases F.pull_of_wire hvalid h with hpull | ⟨f, fs', rest, rfl, hpull, hrest⟩
          · obtain ⟨hok, rest, hfs, hwire⟩ := ih hvalid h
            simp only [run, hpull]
            refine ⟨?_, rest, hfs, hwire⟩
            intro result hresult
            rcases List.mem_cons.mp hresult with rfl | hresult
            · exact ⟨none, rfl⟩
            · exact hok result hresult
          · obtain ⟨hok, rest', hfs, hwire⟩ :=
              ih (fun g hg => hvalid g (List.mem_cons_of_mem f hg)) hrest
            simp only [run, hpull]
            refine ⟨?_, rest', ?_, hwire⟩
            · intro result hresult
              rcases List.mem_cons.mp hresult with rfl | hresult
              · exact ⟨some f, rfl⟩
              · exact hok result hresult
            · rw [hfs]
              rfl

/-- As many further pulls as there are values left deliver exactly these. -/
theorem run_replicate_pull {fs : List φ} (hvalid : ∀ f ∈ fs, F.Valid f) :
    F.run (F.wire fs) (List.replicate fs.length .pull) = (fs.map fun f => .ok (some f), []) := by
  induction fs with
  | nil => rfl
  | cons f fs ih =>
      have hpull : F.pull (F.wire (f :: fs)) = (.ok (some f), F.wire fs) := by
        rw [wire_cons, pull, F.decode_encode f (hvalid f (by simp))]
      simp only [List.length_cons, List.replicate_succ, run, hpull, List.map_cons]
      rw [ih (fun g hg => hvalid g (List.mem_cons_of_mem f hg))]

/-- Whatever is pushed, the consumed symbols are the encodings of what came
out. -/
theorem run_consumed (unread : List β) (ops : List (StreamOp β)) :
    unread ++ StreamOp.pushed ops = F.wire (yielded (F.run unread ops).1) ++ (F.run unread ops).2 := by
  induction ops generalizing unread with
  | nil => simp [run, yielded, StreamOp.pushed]
  | cons op ops ih =>
      cases op with
      | push symbols =>
          rw [StreamOp.pushed, ← List.append_assoc]
          exact ih (unread ++ symbols)
      | pull =>
          rw [StreamOp.pushed]
          cases hdecode : F.decode unread with
          | more =>
              have hpull : F.pull unread = (.ok none, unread) := by rw [pull, hdecode]
              simp only [run, hpull]
              exact ih unread
          | malformed e =>
              have hpull : F.pull unread = (.error e, unread) := by rw [pull, hdecode]
              simp only [run, hpull]
              exact ih unread
          | frame f rest =>
              have hpull : F.pull unread = (.ok (some f), rest) := by rw [pull, hdecode]
              have hyield : ∀ results, yielded (.ok (some f) :: results : List (Except ε (Option φ))) =
                  f :: yielded results := fun results => rfl
              simp only [run, hpull]
              rw [hyield, wire_cons, List.append_assoc, ← ih rest, ← List.append_assoc,
                ← F.encode_decode unread f rest hdecode]

/-! ## The values of a whole stream -/

/-- The values at the front of a stream, at most the given number, up to the first
incomplete or malformed word. -/
def framesWithin : Nat → List β → List φ
  | 0, _ => []
  | n + 1, bs =>
      match F.decode bs with
      | .frame f rest => f :: framesWithin n rest
      | .more | .malformed _ => []

/-- All values at the front of a stream; a word has at least one symbol. -/
def frames (bs : List β) : List φ := F.framesWithin bs.length bs

/-- A decoded frame takes something off the input. -/
theorem length_lt_of_decode (hpos : ∀ f, F.encode f ≠ []) {bs rest : List β} {f : φ}
    (h : F.decode bs = .frame f rest) : rest.length < bs.length := by
  have hword := List.length_pos_iff.mpr (hpos f)
  rw [F.encode_decode bs f rest h, List.length_append]
  omega

/-- Any bound from the length of the stream on finds the same values. -/
theorem framesWithin_eq_frames (hpos : ∀ f, F.encode f ≠ []) {n : Nat} {bs : List β}
    (h : bs.length ≤ n) : F.framesWithin n bs = F.frames bs := by
  have hall : ∀ m n : Nat, ∀ bs : List β, bs.length ≤ m → bs.length ≤ n →
      F.framesWithin m bs = F.framesWithin n bs := by
    intro m
    induction m with
    | zero =>
        intro n bs hm _
        have hnil : bs = [] := List.length_eq_zero_iff.mp (Nat.le_zero.mp hm)
        subst hnil
        cases n with
        | zero => rfl
        | succ n => simp only [framesWithin, F.decode_nil]
    | succ m ih =>
        intro n bs hm hn
        cases n with
        | zero =>
            have hnil : bs = [] := List.length_eq_zero_iff.mp (Nat.le_zero.mp hn)
            subst hnil
            simp only [framesWithin, F.decode_nil]
        | succ n =>
            simp only [framesWithin]
            cases hdecode : F.decode bs with
            | more => rfl
            | malformed e => rfl
            | frame f rest =>
                have hlt := F.length_lt_of_decode hpos hdecode
                exact congrArg (f :: ·) (ih n rest (by omega) (by omega))
  exact hall n bs.length bs h (Nat.le_refl _)

/-- Input that begins with a frame consists of it and the frames behind it. -/
theorem frames_of_frame (hpos : ∀ f, F.encode f ≠ []) {bs rest : List β} {f : φ}
    (h : F.decode bs = .frame f rest) : F.frames bs = f :: F.frames rest := by
  have hlt := F.length_lt_of_decode hpos h
  rw [frames]
  cases hlength : bs.length with
  | zero => omega
  | succ n =>
      simp only [framesWithin, h]
      rw [F.framesWithin_eq_frames hpos (by omega)]

/-- An unfinished input has no frame yet. -/
theorem frames_of_more {bs : List β} (h : F.decode bs = .more) : F.frames bs = [] := by
  rw [frames]
  cases bs.length with
  | zero => rfl
  | succ n => simp only [framesWithin, h]

/-- Nothing is read from malformed input. -/
theorem frames_of_malformed {bs : List β} {e : ε} (h : F.decode bs = .malformed e) :
    F.frames bs = [] := by
  rw [frames]
  cases bs.length with
  | zero => rfl
  | succ n => simp only [framesWithin, h]

end Framing

end JftermMuxer.Foundation
