import Mathlib.Data.List.Induction
import Mathlib.Logic.Function.Basic

/-!
# Assignments

A store gives every variable a value of its own type, and a list of assignments is
executed from left to right.  Of the assignments to a variable only the last matters,
so two lists have the same effect when they agree on the last value of each variable.

Main results:

- Definition {lit}`Assignment.execute`: the store after a list of assignments.
- Theorem {lit}`Assignment.execute_apply`: a variable holds its last value.
- Theorem {lit}`Assignment.execute_eq_iff`: two lists have the same effect iff they
  leave the same value in every variable.
-/

namespace JftermMuxer.Foundation

/-- A value for one variable of a store. -/
structure Assignment {ι : Type} (V : ι → Type) where
  target : ι
  value : V target

namespace Assignment

variable {ι : Type} [DecidableEq ι] {V : ι → Type}

/-- Execute a list of assignments in order. -/
def execute (s : ∀ i, V i) (xs : List (Assignment V)) : ∀ i, V i :=
  xs.foldl (fun s x => Function.update s x.target x.value) s

/-- The value that an assignment is about, when it is about the variable. -/
def valueAt (i : ι) (x : Assignment V) : Option (V i) :=
  if h : x.target = i then some (h ▸ x.value) else none

/-- The last value that a variable is given. -/
def last (i : ι) (xs : List (Assignment V)) : Option (V i) := (xs.filterMap (valueAt i)).getLast?

@[simp] theorem execute_nil (s : ∀ i, V i) : execute s [] = s := rfl

/-- Assignments are executed one list after the other. -/
theorem execute_append (s : ∀ i, V i) (xs ys : List (Assignment V)) :
    execute s (xs ++ ys) = execute (execute s xs) ys := by
  simp [execute, List.foldl_append]

/-- The newest assignment to a place counts. -/
theorem last_snoc (i : ι) (xs : List (Assignment V)) (x : Assignment V) :
    last i (xs ++ [x]) = (valueAt i x).or (last i xs) := by
  rw [last, List.filterMap_append, List.getLast?_append, last]
  cases hx : valueAt i x with
  | none => simp [hx]
  | some v => simp [hx]

/-- After a list of assignments a variable holds its last value. -/
theorem execute_apply (s : ∀ i, V i) (xs : List (Assignment V)) (i : ι) :
    execute s xs i = (last i xs).getD (s i) := by
  induction xs using List.reverseRecOn with
  | nil => rfl
  | append_singleton xs x ih =>
      have hstep : execute s (xs ++ [x]) = Function.update (execute s xs) x.target x.value :=
        execute_append s xs [x]
      rw [hstep, last_snoc]
      rcases x with ⟨target, value⟩
      by_cases htarget : target = i
      · subst htarget
        simp [valueAt]
      · have hne : i ≠ target := fun heq => htarget heq.symm
        simp [valueAt, htarget, Function.update_of_ne hne, ih]

/-- Two lists have the same effect exactly when every variable ends with the same
value. -/
theorem execute_eq_iff (s : ∀ i, V i) (xs ys : List (Assignment V)) :
    execute s xs = execute s ys ↔ ∀ i, (last i xs).getD (s i) = (last i ys).getD (s i) := by
  constructor
  · intro h i
    rw [← execute_apply, ← execute_apply, h]
  · intro h
    ext i
    rw [execute_apply, execute_apply, h i]

end Assignment

end JftermMuxer.Foundation
