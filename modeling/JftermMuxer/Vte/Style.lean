import JftermMuxer.Foundation.Assignment
import JftermMuxer.Vte.Terminal

/-!
# Graphic rendition with subparameters

A terminal for which the values of a colon group belong together: {lit}`4:3` is one
underline style and {lit}`38:2::r:g:b` is one colour.  A sequence assigns values to
attributes, so the rendition it leaves is the last value of every attribute.

Main results:

- Definition {lit}`settings`: what the parameters of a sequence assign.
- Definition {lit}`Style.terminal`: the terminal that holds the attributes.
- Theorem {lit}`Style.execute_reset`: a reset leaves the plain style.
-/

namespace JftermMuxer.Vte

open Foundation

/-! ## Attributes -/

inductive Underline where
  | none
  | single
  | double
  | curly
  | dotted
  | dashed
deriving DecidableEq, Repr

inductive Attribute where
  | bold
  | faint
  | italic
  | underline
  | blink
  | inverse
  | invisible
  | crossedOut
  | foreground
  | background
  | underlineColor
deriving DecidableEq, Repr

/-- What an attribute ranges over. -/
@[reducible] def Attribute.Value : Attribute → Type
  | .bold | .faint | .italic | .blink | .inverse | .invisible | .crossedOut => Bool
  | .underline => Underline
  | .foreground | .background | .underlineColor => Color

/-- The value of every attribute. -/
abbrev Style : Type := ∀ a : Attribute, a.Value

/-- A value for one attribute. -/
abbrev Setting : Type := Assignment Attribute.Value

/-- No attribute is set. -/
def Style.plain : Style
  | .bold | .faint | .italic | .blink | .inverse | .invisible | .crossedOut => false
  | .underline => .none
  | .foreground | .background | .underlineColor => .default

/-! ## Parameters -/

/-- Every attribute takes its plain value. -/
def reset : List Setting :=
  [⟨.bold, false⟩, ⟨.faint, false⟩, ⟨.italic, false⟩, ⟨.underline, .none⟩, ⟨.blink, false⟩,
    ⟨.inverse, false⟩, ⟨.invisible, false⟩, ⟨.crossedOut, false⟩, ⟨.foreground, .default⟩,
    ⟨.background, .default⟩, ⟨.underlineColor, .default⟩]

/-- A parameter that stands alone; unknown ones do nothing. -/
def settingsOne (p : UInt16) : List Setting :=
  match p.toNat with
  | 0 => reset
  | 1 => [⟨.bold, true⟩]
  | 2 => [⟨.faint, true⟩]
  | 3 => [⟨.italic, true⟩]
  | 4 => [⟨.underline, .single⟩]
  | 5 | 6 => [⟨.blink, true⟩]
  | 7 => [⟨.inverse, true⟩]
  | 8 => [⟨.invisible, true⟩]
  | 9 => [⟨.crossedOut, true⟩]
  | 21 => [⟨.underline, .double⟩]
  | 22 => [⟨.bold, false⟩, ⟨.faint, false⟩]
  | 23 => [⟨.italic, false⟩]
  | 24 => [⟨.underline, .none⟩]
  | 25 => [⟨.blink, false⟩]
  | 27 => [⟨.inverse, false⟩]
  | 28 => [⟨.invisible, false⟩]
  | 29 => [⟨.crossedOut, false⟩]
  | 39 => [⟨.foreground, .default⟩]
  | 49 => [⟨.background, .default⟩]
  | 59 => [⟨.underlineColor, .default⟩]
  | n =>
      if 30 ≤ n ∧ n ≤ 37 then [⟨.foreground, .palette (n - 30)⟩]
      else if 40 ≤ n ∧ n ≤ 47 then [⟨.background, .palette (n - 40)⟩]
      else if 90 ≤ n ∧ n ≤ 97 then [⟨.foreground, .palette (n - 82)⟩]
      else if 100 ≤ n ∧ n ≤ 107 then [⟨.background, .palette (n - 92)⟩]
      else []

/-- The underline styles of {lit}`4:k`. -/
def underlineStyle (k : UInt16) : List Setting :=
  match k.toNat with
  | 0 => [⟨.underline, .none⟩]
  | 1 => [⟨.underline, .single⟩]
  | 2 => [⟨.underline, .double⟩]
  | 3 => [⟨.underline, .curly⟩]
  | 4 => [⟨.underline, .dotted⟩]
  | 5 => [⟨.underline, .dashed⟩]
  | _ => []

/-- The attribute of 38, 48 and 58 takes a colour. -/
def settingsColor (p : UInt16) (c : Color) : List Setting :=
  match p.toNat with
  | 38 => [⟨.foreground, c⟩]
  | 48 => [⟨.background, c⟩]
  | 58 => [⟨.underlineColor, c⟩]
  | _ => []

/-- A parameter with subparameters; a direct colour may name its colour space before
the components. -/
def settingsGroup : List UInt16 → List Setting
  | [4, k] => underlineStyle k
  | [p, 5, n] => settingsColor p (.palette n.toNat)
  | [p, 2, red, green, blue] => settingsColor p (.rgb red.toNat green.toNat blue.toNat)
  | p :: 2 :: _ :: red :: green :: blue :: _ =>
      settingsColor p (.rgb red.toNat green.toNat blue.toNat)
  | _ => []

/-- The parameters of one sequence, in order; 38, 48 and 58 without subparameters take
the parameters of their colour with them. -/
def settings : List (List UInt16) → List Setting
  | [] => []
  | [38] :: [5] :: [n] :: ps => settingsColor 38 (.palette n.toNat) ++ settings ps
  | [38] :: [2] :: [red] :: [green] :: [blue] :: ps =>
      settingsColor 38 (.rgb red.toNat green.toNat blue.toNat) ++ settings ps
  | [48] :: [5] :: [n] :: ps => settingsColor 48 (.palette n.toNat) ++ settings ps
  | [48] :: [2] :: [red] :: [green] :: [blue] :: ps =>
      settingsColor 48 (.rgb red.toNat green.toNat blue.toNat) ++ settings ps
  | [58] :: [5] :: [n] :: ps => settingsColor 58 (.palette n.toNat) ++ settings ps
  | [58] :: [2] :: [red] :: [green] :: [blue] :: ps =>
      settingsColor 58 (.rgb red.toNat green.toNat blue.toNat) ++ settings ps
  | [p] :: ps => settingsOne p ++ settings ps
  | p :: ps => settingsGroup p ++ settings ps

/-! ## The terminal -/

namespace Style

/-- Only SGR sequences without a private byte and without intermediates change the
style; an overlong one counts with the values the parser has kept. -/
def perform (s : Style) : Callback → Style
  | .csiDispatch params intermediates _ action =>
      if intermediates = [] ∧ action = 0x6D then Assignment.execute s (settings params) else s
  | _ => s

/-- The terminal that holds the attributes.  Of a sequence it reads the at most 32 values
that the parser has kept.  It ignores fonts (10 to 20), 26, 50, frames and overlines (51 to
55), ideogram marks (60 to 65), super- and subscripts (73 to 75) and all values without a
meaning. -/
def terminal : Terminal Style where
  cold := plain
  perform := perform
  quiet := by
    intro t cb h
    cases cb <;> first | rfl | contradiction

/-- A reset leaves the plain style, whatever was set. -/
theorem execute_reset (s : Style) : Assignment.execute s reset = plain := by
  ext a
  cases a <;> rfl

end Style

end JftermMuxer.Vte
