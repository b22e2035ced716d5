import Mathlib.Data.List.Basic
import Mathlib.Data.List.Flatten

/-!
# Per-symbol transducers

A transducer reads one symbol at a time and answers with a finite list of
outputs.  This file fixes the run of a transducer over a word, how runs compose
over concatenation, and the invariant rule used for every per-byte argument.

Main results:

- Theorem {lit}`Transducer.run_append`: a run over a concatenation is the run
  over the first part continued by the run over the second.
- Theorem {lit}`Transducer.run_induct`: a property of states that every step
  preserves holds after a whole run.
- Theorem {lit}`Transducer.run_simulates`: machines that answer alike in related
  states answer every word alike.
- Theorem {lit}`Transducer.along_induct`: the invariant rule for runs whose steps all meet
  a condition, jointly with a value accumulated from the outputs.
-/

namespace JftermMuxer.Foundation

/-- A deterministic machine that reads one symbol and emits a list of outputs. -/
structure Transducer (σ ι ο : Type) where
  init : σ
  advance : σ → ι → σ × List ο

namespace Transducer

variable {σ ι ο : Type} (T : Transducer σ ι ο)

/-- Run the machine over a word, concatenating the outputs of the steps. -/
def run : σ → List ι → σ × List ο
  | s, [] => (s, [])
  | s, b :: bs =>
      let step := T.advance s b
      let rest := run step.1 bs
      (rest.1, step.2 ++ rest.2)

/-- State reached after a word. -/
def stateAfter (s : σ) (bs : List ι) : σ := (T.run s bs).1

/-- Outputs emitted along a word. -/
def outputs (s : σ) (bs : List ι) : List ο := (T.run s bs).2

@[simp] theorem run_nil (s : σ) : T.run s [] = (s, []) := rfl

/-- A run reads its first input first. -/
theorem run_cons (s : σ) (b : ι) (bs : List ι) :
    T.run s (b :: bs) =
      ((T.run (T.advance s b).1 bs).1, (T.advance s b).2 ++ (T.run (T.advance s b).1 bs).2) :=
  rfl

@[simp] theorem stateAfter_nil (s : σ) : T.stateAfter s [] = s := rfl

@[simp] theorem outputs_nil (s : σ) : T.outputs s [] = [] := rfl

/-- The state after a stream is reached from that after its first input. -/
theorem stateAfter_cons (s : σ) (b : ι) (bs : List ι) :
    T.stateAfter s (b :: bs) = T.stateAfter (T.advance s b).1 bs :=
  rfl

/-- The outputs of a stream begin with those of its first input. -/
theorem outputs_cons (s : σ) (b : ι) (bs : List ι) :
    T.outputs s (b :: bs) = (T.advance s b).2 ++ T.outputs (T.advance s b).1 bs :=
  rfl

/-- Runs compose over concatenation. -/
theorem run_append (s : σ) (as bs : List ι) :
    T.run s (as ++ bs) =
      ((T.run (T.run s as).1 bs).1, (T.run s as).2 ++ (T.run (T.run s as).1 bs).2) := by
  induction as generalizing s with
  | nil => simp
  | cons a as ih =>
      rw [List.cons_append, run_cons, ih, run_cons]
      simp only [List.append_assoc]

/-- Two streams in a row lead where the second one leads from the end of the first. -/
theorem stateAfter_append (s : σ) (as bs : List ι) :
    T.stateAfter s (as ++ bs) = T.stateAfter (T.stateAfter s as) bs := by
  simp only [stateAfter, run_append]

/-- Two streams in a row give their outputs one after the other. -/
theorem outputs_append (s : σ) (as bs : List ι) :
    T.outputs s (as ++ bs) = T.outputs s as ++ T.outputs (T.stateAfter s as) bs := by
  simp only [outputs, stateAfter, run_append]

/-- Two states that read a word alike read everything after it alike. -/
theorem run_append_congr {s₁ s₂ : σ} {as : List ι} (h : T.run s₁ as = T.run s₂ as)
    (bs : List ι) : T.run s₁ (as ++ bs) = T.run s₂ (as ++ bs) := by
  rw [run_append, run_append, h]

@[simp] theorem stateAfter_singleton (s : σ) (b : ι) :
    T.stateAfter s [b] = (T.advance s b).1 :=
  rfl

@[simp] theorem outputs_singleton (s : σ) (b : ι) :
    T.outputs s [b] = (T.advance s b).2 := by
  rw [outputs_cons, outputs_nil, List.append_nil]

/-- The invariant rule: what every step preserves, every run preserves. -/
theorem run_induct {motive : σ → Prop} (hstep : ∀ s b, motive s → motive (T.advance s b).1)
    {s : σ} (hs : motive s) (bs : List ι) : motive (T.stateAfter s bs) := by
  induction bs generalizing s with
  | nil => exact hs
  | cons b bs ih => exact ih (hstep s b hs)

/-- The simulation rule: two machines that answer every symbol alike in related
states, and go to related states, answer every word alike. -/
theorem run_simulates {τ : Type} (U : Transducer τ ι ο) {related : σ → τ → Prop}
    (hstep : ∀ s u b, related s u →
      (T.advance s b).2 = (U.advance u b).2 ∧ related (T.advance s b).1 (U.advance u b).1)
    {s : σ} {u : τ} (h : related s u) (bs : List ι) :
    T.outputs s bs = U.outputs u bs ∧ related (T.stateAfter s bs) (U.stateAfter u bs) := by
  induction bs generalizing s u with
  | nil => exact ⟨rfl, h⟩
  | cons b bs ih =>
      obtain ⟨hout, hnext⟩ := hstep s u b h
      obtain ⟨hrest, hlast⟩ := ih hnext
      refine ⟨?_, hlast⟩
      rw [outputs_cons, outputs_cons, hout, hrest]

/-! ## Runs whose steps meet a condition -/

/-- Every step of the run meets a condition on the state before it and the
symbol it reads. -/
def Along (ok : σ → ι → Prop) : σ → List ι → Prop
  | _, [] => True
  | s, b :: bs => ok s b ∧ Along ok (T.advance s b).1 bs

instance decidableAlong (ok : σ → ι → Prop) [∀ s b, Decidable (ok s b)] :
    ∀ (s : σ) (bs : List ι), Decidable (T.Along ok s bs)
  | _, [] => inferInstanceAs (Decidable True)
  | s, b :: bs =>
      have := decidableAlong ok (T.advance s b).1 bs
      inferInstanceAs (Decidable (ok s b ∧ T.Along ok (T.advance s b).1 bs))

/-- A condition holds along two streams in a row iff it holds along each. -/
theorem along_append (ok : σ → ι → Prop) (s : σ) (as bs : List ι) :
    T.Along ok s (as ++ bs) ↔ T.Along ok s as ∧ T.Along ok (T.stateAfter s as) bs := by
  induction as generalizing s with
  | nil => simp [Along]
  | cons a as ih =>
      simp only [List.cons_append, Along, stateAfter_cons, ih, and_assoc]

/-- The invariant rule for conditional runs, over a value accumulated from the
outputs: what every step that meets the condition preserves holds after every
run whose steps all meet it. -/
theorem along_induct {ρ : Type} {ok : σ → ι → Prop} {motive : σ → ρ → Prop}
    (apply : ρ → List ο → ρ)
    (happly_nil : ∀ r, apply r [] = r)
    (happly : ∀ r xs ys, apply r (xs ++ ys) = apply (apply r xs) ys)
    (hstep : ∀ s r b, motive s r → ok s b → motive (T.advance s b).1 (apply r (T.advance s b).2))
    {s : σ} {r : ρ} (hs : motive s r) {bs : List ι} (hbs : T.Along ok s bs) :
    motive (T.stateAfter s bs) (apply r (T.outputs s bs)) := by
  induction bs generalizing s r with
  | nil =>
      rw [stateAfter_nil, outputs_nil, happly_nil]
      exact hs
  | cons b bs ih =>
      rw [stateAfter_cons, outputs_cons, happly]
      exact ih (hstep s r b hs hbs.1) hbs.2

end Transducer

end JftermMuxer.Foundation
