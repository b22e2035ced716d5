import Mathlib.Data.List.Basic

/-!
# Descriptor tables

The table of one process maps descriptor numbers to open files.  An `open` takes
the lowest number that is free, `dup2` makes one number stand for the file of
another, a fork copies the table, and an `exec` closes what is marked to close.

Main results:

- Theorem {lit}`Descriptors.get_lowest`: the number that an `open` takes was free.
- Theorem {lit}`Descriptors.get_set`: a table after one number has changed.
- Theorem {lit}`Descriptors.get_exec`: what survives an `exec`.
- Theorem {lit}`Descriptors.dupOnto_of_open`: a table after one file has been put
  under several numbers.
-/

namespace JftermMuxer.Foundation

/-- What a descriptor number stands for: an open file, and whether an `exec`
closes the number. -/
structure Descriptor (φ : Type) where
  file : φ
  closeOnExec : Bool
deriving DecidableEq, Repr

/-- The descriptors of a process; a number past the end of the list is free. -/
structure Descriptors (φ : Type) where
  slots : List (Option (Descriptor φ))
deriving DecidableEq, Repr

namespace Descriptors

variable {φ : Type}

def empty : Descriptors φ := ⟨[]⟩

/-- What a number stands for. -/
def get (t : Descriptors φ) (fd : Nat) : Option (Descriptor φ) := t.slots.getD fd none

/-- Change what a number stands for. -/
def set (t : Descriptors φ) (fd : Nat) (d : Option (Descriptor φ)) : Descriptors φ :=
  ⟨(t.slots ++ List.replicate (fd + 1 - t.slots.length) none).set fd d⟩

/-- The lowest free number. -/
def lowest (t : Descriptors φ) : Nat := t.slots.findIdx Option.isNone

/-- The table after an `open`, which answers {lit}`t.lowest`. -/
def opened (t : Descriptors φ) (file : φ) (closeOnExec : Bool) : Descriptors φ :=
  t.set t.lowest (some ⟨file, closeOnExec⟩)

def close (t : Descriptors φ) (fd : Nat) : Descriptors φ := t.set fd none

/-- {lit}`dup2`: an error when the source is not open, nothing when the two numbers
are the same; the copy does not close on exec. -/
def dup2 (t : Descriptors φ) (source target : Nat) : Option (Descriptors φ) :=
  (t.get source).map fun d =>
    if source = target then t else t.set target (some { d with closeOnExec := false })

/-- {lit}`dup2` of one source onto several numbers, in order. -/
def dupOnto (t : Descriptors φ) (source : Nat) (targets : List Nat) : Option (Descriptors φ) :=
  targets.foldlM (fun t target => t.dup2 source target) t

/-- {lit}`fcntl(F_SETFD, FD_CLOEXEC)`. -/
def setCloseOnExec (t : Descriptors φ) (fd : Nat) : Descriptors φ :=
  t.set fd ((t.get fd).map fun d => { d with closeOnExec := true })

/-- The table after an `exec`. -/
def exec (t : Descriptors φ) : Descriptors φ :=
  ⟨t.slots.map fun slot => slot.filter fun d => !d.closeOnExec⟩

/-- The process has the file open. -/
def Holds (t : Descriptors φ) (file : φ) : Prop := ∃ fd d, t.get fd = some d ∧ d.file = file

/-! ## Reading a changed table -/

/-- What a table has at a descriptor is one of its slots. -/
theorem mem_of_get {t : Descriptors φ} {fd : Nat} {d : Descriptor φ} (h : t.get fd = some d) :
    some d ∈ t.slots := by
  rw [get, List.getD_eq_getElem?_getD, Option.getD_eq_iff] at h
  rcases h with h | ⟨-, h⟩
  · exact List.mem_of_getElem? h
  · cases h

private theorem getD_append_replicate (slots : List (Option (Descriptor φ))) (n fd : Nat) :
    (slots ++ List.replicate n none).getD fd none = slots.getD fd none := by
  rw [List.getD_eq_getElem?_getD, List.getD_eq_getElem?_getD]
  by_cases hfd : fd < slots.length
  · rw [List.getElem?_append_left hfd]
  · rw [List.getElem?_append_right (by omega), List.getElem?_replicate,
      List.getElem?_eq_none (by omega)]
    split
    · rfl
    · rfl

/-- A table after one number has changed. -/
@[simp] theorem get_set (t : Descriptors φ) (fd n : Nat) (d : Option (Descriptor φ)) :
    (t.set fd d).get n = if n = fd then d else t.get n := by
  have hpadded := getD_append_replicate t.slots (fd + 1 - t.slots.length) n
  rw [get, get, set]
  by_cases hn : n = fd
  · subst hn
    have hlength : n < (t.slots ++ List.replicate (n + 1 - t.slots.length) none).length := by
      rw [List.length_append, List.length_replicate]
      omega
    rw [List.getD_eq_getElem?_getD, List.getElem?_set_self hlength, if_pos rfl]
    rfl
  · rw [if_neg hn, ← hpadded, List.getD_eq_getElem?_getD, List.getD_eq_getElem?_getD,
      List.getElem?_set_ne (Ne.symm hn)]

/-- The number that an `open` takes was free. -/
theorem get_lowest (t : Descriptors φ) : t.get t.lowest = none := by
  rw [get, lowest, List.getD_eq_getElem?_getD]
  by_cases hfound : t.slots.findIdx Option.isNone < t.slots.length
  · rw [List.getElem?_eq_getElem hfound]
    exact Option.isNone_iff_eq_none.mp (List.findIdx_getElem (w := hfound))
  · rw [List.getElem?_eq_none (by omega)]
    rfl

@[simp] theorem get_opened (t : Descriptors φ) (file : φ) (closeOnExec : Bool) (n : Nat) :
    (t.opened file closeOnExec).get n =
      if n = t.lowest then some ⟨file, closeOnExec⟩ else t.get n :=
  t.get_set t.lowest n _

@[simp] theorem get_close (t : Descriptors φ) (fd n : Nat) :
    (t.close fd).get n = if n = fd then none else t.get n :=
  t.get_set fd n none

@[simp] theorem get_setCloseOnExec (t : Descriptors φ) (fd n : Nat) :
    (t.setCloseOnExec fd).get n =
      if n = fd then (t.get fd).map fun d => { d with closeOnExec := true } else t.get n :=
  t.get_set fd n _

/-- What survives an `exec`. -/
@[simp] theorem get_exec (t : Descriptors φ) (n : Nat) :
    t.exec.get n = (t.get n).filter fun d => !d.closeOnExec := by
  rw [get, get, exec, List.getD_eq_getElem?_getD, List.getD_eq_getElem?_getD, List.getElem?_map]
  cases t.slots[n]? with
  | none => rfl
  | some slot => rfl

/-- {lit}`dup2` of an open file onto several numbers: they all stand for the file, the
source as it was. -/
theorem dupOnto_of_open {t : Descriptors φ} {source : Nat} {d : Descriptor φ}
    (hopen : t.get source = some d) (targets : List Nat) :
    ∃ u, t.dupOnto source targets = some u ∧ ∀ fd, u.get fd =
      if fd ∈ targets ∧ fd ≠ source then some { d with closeOnExec := false } else t.get fd := by
  induction targets generalizing t with
  | nil => exact ⟨t, rfl, fun fd => by simp⟩
  | cons target targets ih =>
      have hfirst : t.dup2 source target = some
          (if source = target then t
          else t.set target (some { d with closeOnExec := false })) := by
        rw [dup2, hopen, Option.map_some]
      by_cases hsame : source = target
      · rw [if_pos hsame] at hfirst
        obtain ⟨u, hrest, hget⟩ := ih hopen
        refine ⟨u, ?_, ?_⟩
        · rw [dupOnto, List.foldlM_cons, hfirst]
          exact hrest
        · intro fd
          rw [hget, hsame]
          refine if_congr ?_ rfl rfl
          rw [List.mem_cons]
          exact and_congr_left fun hne => (or_iff_right hne).symm
      · rw [if_neg hsame] at hfirst
        obtain ⟨u, hrest, hget⟩ := ih (t := t.set target (some { d with closeOnExec := false }))
          (by rw [get_set, if_neg hsame, hopen])
        refine ⟨u, ?_, ?_⟩
        · rw [dupOnto, List.foldlM_cons, hfirst]
          exact hrest
        · intro fd
          rw [hget, get_set]
          by_cases hfd : fd = target
          · simp [hfd, Ne.symm hsame]
          · simp [hfd]

end Descriptors

end JftermMuxer.Foundation
