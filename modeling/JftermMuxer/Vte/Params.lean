import Mathlib.Data.List.Basic
import Mathlib.Data.List.Flatten

/-!
# Callbacks and parameters of the terminal parser

The data a terminal parser hands to its performer: the callback alphabet and
the two-level parameter list, with the capacity limits of the vte 0.15 parser
(32 values, 2 intermediates, 16 OSC fields).

Main results:

- Definition {lit}`Params`: semicolon groups of colon-separated values, filled
  by {lit}`Params.push` and {lit}`Params.extend` up to 32 values.
- Definition {lit}`Callback`: everything a performer can observe.
-/

namespace JftermMuxer.Vte

/-- Capacity of a parameter list, subparameters included. -/
def maxParams : Nat := 32

/-- Capacity of the intermediate bytes. -/
def maxIntermediates : Nat := 2

/-- Capacity of the OSC field list. -/
def maxOscParams : Nat := 16

/-- Parameters collected so far: the finished groups and the values of the
group that a colon has left open. -/
structure Params where
  closed : List (List UInt16)
  opened : List UInt16
deriving DecidableEq, Repr

namespace Params

/-- No parameter yet. -/
def empty : Params := ⟨[], []⟩

/-- Number of values stored, subparameters included. -/
def count (p : Params) : Nat := p.closed.flatten.length + p.opened.length

/-- The list holds {lit}`maxParams` values. -/
def isFull (p : Params) : Bool := p.count == maxParams

/-- Finish the open group with one more value. -/
def push (p : Params) (item : UInt16) : Params :=
  ⟨p.closed ++ [p.opened ++ [item]], []⟩

/-- Add one value to the open group. -/
def extend (p : Params) (item : UInt16) : Params :=
  ⟨p.closed, p.opened ++ [item]⟩

/-- The groups in order, as the parser's iterator yields them. -/
def groups (p : Params) : List (List UInt16) :=
  if p.opened = [] then p.closed else p.closed ++ [p.opened]

@[simp] theorem count_empty : empty.count = 0 := rfl

@[simp] theorem count_push (p : Params) (item : UInt16) : (p.push item).count = p.count + 1 := by
  simp [count, push]
  omega

@[simp] theorem count_extend (p : Params) (item : UInt16) :
    (p.extend item).count = p.count + 1 := by
  simp [count, extend]
  omega

/-- The groups hold exactly the stored values. -/
theorem length_flatten_groups (p : Params) : p.groups.flatten.length = p.count := by
  unfold groups count
  split <;> simp_all

/-- The first value, in the open group while no group is finished. -/
def first (p : Params) : Option UInt16 := (p.closed ++ [p.opened]).head?.bind List.head?

/-- A later parameter leaves the first one. -/
theorem first_push {p : Params} {v : UInt16} (h : p.first = some v) (item : UInt16) :
    (p.push item).first = some v := by
  rcases p with ⟨closed, opened⟩
  cases closed with
  | nil =>
      have hopened : opened.head? = some v := h
      simp [first, push, List.head?_append, hopened]
  | cons group closed => exact h

/-- A later subparameter leaves the first parameter. -/
theorem first_extend {p : Params} {v : UInt16} (h : p.first = some v) (item : UInt16) :
    (p.extend item).first = some v := by
  rcases p with ⟨closed, opened⟩
  cases closed with
  | nil =>
      have hopened : opened.head? = some v := h
      simp [first, extend, List.head?_append, hopened]
  | cons group closed => exact h

/-- The iterator begins with the first value. -/
theorem head_groups {p : Params} {v : UInt16} (h : p.first = some v) :
    p.groups[0]?.bind List.head? = some v := by
  rcases p with ⟨closed, opened⟩
  cases closed with
  | nil =>
      have hopened : opened.head? = some v := h
      have hne : opened ≠ [] := by
        rintro rfl
        simp at hopened
      simp [groups, hne, hopened]
  | cons group closed =>
      unfold groups
      split
      · exact h
      · exact h

end Params

/-- What the parser reports to its performer. -/
inductive Callback where
  | print (c : Char)
  | execute (byte : UInt8)
  | hook (params : List (List UInt16)) (intermediates : List UInt8) (ignore : Bool)
      (action : UInt8)
  | put (byte : UInt8)
  | unhook
  | oscDispatch (params : List (List UInt8)) (bellTerminated : Bool)
  | csiDispatch (params : List (List UInt16)) (intermediates : List UInt8) (ignore : Bool)
      (action : UInt8)
  | escDispatch (intermediates : List UInt8) (ignore : Bool) (byte : UInt8)
deriving DecidableEq, Repr

/-- Callbacks made inside a DCS string. -/
def isQuiet : Callback → Bool
  | .hook _ _ _ _ => true
  | .put _ => true
  | _ => false

end JftermMuxer.Vte
