import JftermMuxer.Vte.Items

/-!
# Reference terminals

What a byte stream looks like to its reader.  A terminal reads its bytes with the
parser and folds the callbacks into its own state; two of them are given here,
one that shows cells and a cursor and one that holds the graphic rendition.

Main results:

- Definition {lit}`Terminal.render`: the state of a cold terminal after a stream.
- Theorem {lit}`Terminal.render_append_item`: rendering goes on item by item.
- Definitions {lit}`Screen.terminal` and {lit}`Rendition.terminal`: the two
  reference terminals.
-/

namespace JftermMuxer.Vte

open Foundation

/-! ## Terminals -/

/-- A terminal: the state it starts in and its reaction to a callback.  The bytes
inside a DCS string leave it as it is. -/
structure Terminal (τ : Type) where
  cold : τ
  perform : τ → Callback → τ
  quiet : ∀ t cb, isQuiet cb = true → perform t cb = t

namespace Terminal

variable {τ : Type} (D : Terminal τ)

/-- The callbacks of a word, in order. -/
def performAll (t : τ) (cbs : List Callback) : τ := cbs.foldl D.perform t

/-- A cold terminal after a byte stream. -/
def render (bytes : List UInt8) : τ := D.performAll D.cold (table.outputs (.ground []) bytes)

@[simp] theorem performAll_nil (t : τ) : D.performAll t [] = t := rfl

@[simp] theorem performAll_cons (t : τ) (cb : Callback) (cbs : List Callback) :
    D.performAll t (cb :: cbs) = D.performAll (D.perform t cb) cbs :=
  rfl

/-- Callbacks are performed one list after the other. -/
theorem performAll_append (t : τ) (as bs : List Callback) :
    D.performAll t (as ++ bs) = D.performAll (D.performAll t as) bs := by
  simp [performAll, List.foldl_append]

/-- Quiet callbacks leave the terminal as it is. -/
theorem performAll_quiet (t : τ) {cbs : List Callback} (h : ∀ cb ∈ cbs, isQuiet cb = true) :
    D.performAll t cbs = t := by
  induction cbs with
  | nil => rfl
  | cons cb cbs ih =>
      rw [performAll_cons, D.quiet t cb (h cb (by simp))]
      exact ih (fun x hx => h x (List.mem_cons_of_mem cb hx))

/-- A stream that ends between two items is rendered first, what follows after. -/
theorem render_append {as : List UInt8} (h : table.stateAfter (.ground []) as = .ground [])
    (bs : List UInt8) :
    D.render (as ++ bs) = D.performAll (D.render as) (table.outputs (.ground []) bs) := by
  rw [render, Transducer.outputs_append, h, performAll_append]
  rfl

/-- An item without an ST shows as its callback. -/
theorem render_append_item {bytes : List UInt8}
    (h : table.stateAfter (.ground []) bytes = .ground []) {i : Item} (htail : i.hasTail = false) :
    D.render (bytes ++ i.bytes) = D.perform (D.render bytes) i.callback := by
  obtain ⟨quiet, hquiet, hrun⟩ := i.run_bytes
  have hout : table.outputs (.ground []) i.bytes = quiet ++ [i.callback] := by
    rw [Transducer.outputs, hrun]
    simp [Item.tailCallbacks, htail]
  rw [D.render_append h, hout, performAll_append, D.performAll_quiet _ hquiet]
  rfl

/-- One more item without a tail is one more callback. -/
theorem render_stream_snoc (items : List Item) {i : Item} (htail : i.hasTail = false) :
    D.render (Item.stream (items ++ [i])) =
      D.perform (D.render (Item.stream items)) i.callback := by
  have hword : Item.stream (items ++ [i]) = Item.stream items ++ i.bytes := by
    simp
  rw [hword, D.render_append_item (Item.stateAfter_stream items) htail]

end Terminal

/-- The value of a parameter, 0 when it is absent. -/
def paramValue (params : List (List UInt16)) (k : Nat) : Nat :=
  ((params[k]?.bind List.head?).getD 0).toNat

/-! ## Cells and cursor -/

/-- An unbounded grid of cells and a cursor, both counted from zero; a cell that
holds nothing is blank. -/
structure Screen where
  cells : Nat → Nat → Option Char
  row : Nat
  column : Nat

namespace Screen

def blank : Screen := ⟨fun _ _ => none, 0, 0⟩

/-- Write a character and step to the right. -/
def print (s : Screen) (c : Char) : Screen :=
  { s with
    cells := fun r k => if r = s.row ∧ k = s.column then some c else s.cells r k
    column := s.column + 1 }

def carriageReturn (s : Screen) : Screen := { s with column := 0 }

def lineFeed (s : Screen) : Screen := { s with row := s.row + 1 }

/-- Move the cursor; the parameters count from one, and zero stands for one. -/
def cursorPosition (s : Screen) (row column : Nat) : Screen :=
  { s with row := row - 1, column := column - 1 }

/-- Blank the selected cells. -/
def erase (s : Screen) (selected : Nat → Nat → Bool) : Screen :=
  { s with cells := fun r k => if selected r k then none else s.cells r k }

/-- Erase from the cursor on (0), up to the cursor (1) or everywhere (2), without
moving the cursor; mode 3 concerns the scrollback, which a grid does not have. -/
def eraseInDisplay (s : Screen) : Nat → Screen
  | 0 => s.erase fun r k => s.row < r || r == s.row && s.column ≤ k
  | 1 => s.erase fun r k => r < s.row || r == s.row && k ≤ s.column
  | 2 => s.erase fun _ _ => true
  | _ => s

/-- Characters, CR, LF, cursor position and erase in display; all else leaves
cells and cursor alone. -/
def perform (s : Screen) : Callback → Screen
  | .print c => s.print c
  | .execute byte =>
      if byte = 0x0D then s.carriageReturn else if byte = 0x0A then s.lineFeed else s
  | .csiDispatch params intermediates _ action =>
      if intermediates ≠ [] then s
      else if action = 0x48 then s.cursorPosition (paramValue params 0) (paramValue params 1)
      else if action = 0x4A then s.eraseInDisplay (paramValue params 0)
      else s
  | _ => s

/-- The terminal that shows cells and a cursor. -/
def terminal : Terminal Screen where
  cold := blank
  perform := perform
  quiet := by
    intro t cb h
    cases cb <;> first | rfl | contradiction

/-- The cursor is in the top left corner. -/
def AtHome (s : Screen) : Prop := s.row = 0 ∧ s.column = 0

/-- No cell holds anything. -/
def IsBlank (s : Screen) : Prop := ∀ r k, s.cells r k = none

/-- A blank screen has its cursor at home and no cell set. -/
theorem eq_blank_iff (s : Screen) : s = blank ↔ s.AtHome ∧ s.IsBlank := by
  constructor
  · rintro rfl
    exact ⟨⟨rfl, rfl⟩, fun _ _ => rfl⟩
  · rintro ⟨⟨hrow, hcolumn⟩, hcells⟩
    have hfun : s.cells = fun _ _ => none := by
      ext r k : 2
      exact hcells r k
    cases s
    simp_all [blank]

/-- A full erase leaves a blank screen exactly when the cursor is at home. -/
theorem erase_all_eq_blank_iff (s : Screen) : s.eraseInDisplay 2 = blank ↔ s.AtHome := by
  rw [eq_blank_iff]
  constructor
  · rintro ⟨hhome, -⟩
    exact hhome
  · intro hhome
    exact ⟨hhome, fun _ _ => rfl⟩

end Screen

/-! ## Graphic rendition -/

/-- A colour: the terminal's own, one of the palette, or a direct one. -/
inductive Color where
  | default
  | palette (n : Nat)
  | rgb (red green blue : Nat)
deriving DecidableEq, Repr

/-- The graphic rendition in force. -/
structure Rendition where
  bold : Bool
  faint : Bool
  italic : Bool
  underline : Bool
  blink : Bool
  inverse : Bool
  invisible : Bool
  crossedOut : Bool
  foreground : Color
  background : Color
deriving DecidableEq, Repr

namespace Rendition

def default : Rendition :=
  ⟨false, false, false, false, false, false, false, false, .default, .default⟩

/-- A parameter that stands alone: 0 resets, unknown ones do nothing. -/
def single (r : Rendition) (p : UInt16) : Rendition :=
  match p.toNat with
  | 0 => default
  | 1 => { r with bold := true }
  | 2 => { r with faint := true }
  | 3 => { r with italic := true }
  | 4 => { r with underline := true }
  | 5 | 6 => { r with blink := true }
  | 7 => { r with inverse := true }
  | 8 => { r with invisible := true }
  | 9 => { r with crossedOut := true }
  | 21 => { r with underline := true }
  | 22 => { r with bold := false, faint := false }
  | 23 => { r with italic := false }
  | 24 => { r with underline := false }
  | 25 => { r with blink := false }
  | 27 => { r with inverse := false }
  | 28 => { r with invisible := false }
  | 29 => { r with crossedOut := false }
  | 39 => { r with foreground := .default }
  | 49 => { r with background := .default }
  | n =>
      if 30 ≤ n ∧ n ≤ 37 then { r with foreground := .palette (n - 30) }
      else if 40 ≤ n ∧ n ≤ 47 then { r with background := .palette (n - 40) }
      else if 90 ≤ n ∧ n ≤ 97 then { r with foreground := .palette (n - 82) }
      else if 100 ≤ n ∧ n ≤ 107 then { r with background := .palette (n - 92) }
      else r

/-- The parameters of one SGR sequence, in order; 38 and 48 take a palette index
or three components with them. -/
def sgr (r : Rendition) : List UInt16 → Rendition
  | [] => r
  | 38 :: 5 :: n :: ps => sgr { r with foreground := .palette n.toNat } ps
  | 38 :: 2 :: red :: green :: blue :: ps =>
      sgr { r with foreground := .rgb red.toNat green.toNat blue.toNat } ps
  | 48 :: 5 :: n :: ps => sgr { r with background := .palette n.toNat } ps
  | 48 :: 2 :: red :: green :: blue :: ps =>
      sgr { r with background := .rgb red.toNat green.toNat blue.toNat } ps
  | p :: ps => sgr (r.single p) ps

/-- Only SGR sequences change the rendition; an overlong one counts with the values
the parser has kept. -/
def perform (r : Rendition) : Callback → Rendition
  | .csiDispatch params intermediates _ action =>
      if intermediates = [] ∧ action = 0x6D then r.sgr params.flatten else r
  | _ => r

/-- The terminal that holds the graphic rendition.  Of a sequence it reads the at most 32
values that the parser has kept.  It ignores fonts (10 to 20), 26, 50, frames and overlines
(51 to 55), ideogram marks (60 to 65), super- and subscripts (73 to 75) and all values
without a meaning; it has no underline colour, so 58 is ignored and what follows it is read
as parameters of their own, and 59 is ignored. -/
def terminal : Terminal Rendition where
  cold := default
  perform := perform
  quiet := by
    intro t cb h
    cases cb <;> first | rfl | contradiction

@[simp] theorem sgr_nil (r : Rendition) : r.sgr [] = r := rfl

@[simp] theorem sgr_reset (r : Rendition) : r.sgr [0] = default := rfl

end Rendition

end JftermMuxer.Vte
