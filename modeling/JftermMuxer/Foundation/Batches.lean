import Mathlib.Algebra.GroupWithZero.Nat
import Mathlib.Data.List.Basic
import Mathlib.Data.List.Flatten

/-!
# Batches

Items of various sizes arrive one at a time and go to an open batch, which is sealed
as soon as its total size reaches a limit.  The limit is soft: an item is never split,
so a sealed batch may exceed the limit, but only by a part of its last item.

Main results:

- Definition {lit}`Batches.push`: one more item, with the bounds kept as fields.
- Theorem {lit}`Batches.items_push`: no item is lost, repeated or moved.
- Theorem {lit}`Filled.total_lt`: a sealed batch exceeds the limit by less than its
  last item.
- Theorem {lit}`mul_le_total`: the sealed batches hold at least the limit each.
-/

namespace JftermMuxer.Foundation

variable {α : Type} {size : α → Nat} {limit : Nat}

/-- Total size of a list of items. -/
def total (size : α → Nat) (items : List α) : Nat := (items.map size).sum

@[simp] theorem total_nil : total size ([] : List α) = 0 := rfl

@[simp] theorem total_append (xs ys : List α) :
    total size (xs ++ ys) = total size xs + total size ys := by
  simp [total]

@[simp] theorem total_singleton (x : α) : total size [x] = size x := by
  simp [total]

/-- The size of lists is their length: their total is the length of what they hold. -/
theorem total_length {β : Type} (pieces : List (List β)) :
    total List.length pieces = pieces.flatten.length := by
  rw [total, List.length_flatten]

/-! ## Full batches -/

/-- A batch that has reached the limit, and had not before its last item. -/
structure Filled (size : α → Nat) (limit : Nat) (batch : List α) : Prop where
  le_total : limit ≤ total size batch
  total_dropLast_lt : total size batch.dropLast < limit

/-- The item that fills a batch. -/
theorem Filled.snoc {batch : List α} {x : α} (hbefore : total size batch < limit)
    (hreached : limit ≤ total size (batch ++ [x])) : Filled size limit (batch ++ [x]) := by
  constructor
  · exact hreached
  · rw [List.dropLast_concat]
    exact hbefore

/-- A full batch exceeds the limit by less than its last item. -/
theorem Filled.total_lt {batch : List α} (h : Filled size limit batch) (hne : batch ≠ []) :
    total size batch < limit + size (batch.getLast hne) := by
  have hlast : total size batch = total size batch.dropLast + size (batch.getLast hne) := by
    calc
      total size batch = total size (batch.dropLast ++ [batch.getLast hne]) := by
        rw [List.dropLast_append_getLast]
      _ = total size batch.dropLast + size (batch.getLast hne) := by
        rw [total_append, total_singleton]
  have hbefore := h.total_dropLast_lt
  omega

/-- Full batches hold at least the limit each. -/
theorem mul_le_total {batches : List (List α)} (h : ∀ batch ∈ batches, Filled size limit batch) :
    batches.length * limit ≤ total size batches.flatten := by
  induction batches with
  | nil => simp
  | cons batch batches ih =>
      have hfirst := (h batch (by simp)).le_total
      have hrest := ih (fun b hb => h b (List.mem_cons_of_mem batch hb))
      rw [List.length_cons, List.flatten_cons, total_append, Nat.add_mul, Nat.one_mul]
      omega

/-! ## One item at a time -/

/-- Full batches, in order, and the open one, which has not reached the limit. -/
structure Batches (size : α → Nat) (limit : Nat) where
  full : List (List α)
  opened : List α
  filled : ∀ batch ∈ full, Filled size limit batch
  opened_lt : total size opened < limit

namespace Batches

/-- No item yet; a limit of zero is reached before the first. -/
def empty (hlimit : 0 < limit) : Batches size limit where
  full := []
  opened := []
  filled := by simp
  opened_lt := hlimit

/-- Add an item to the open batch, and seal it when that reaches the limit. -/
def push (b : Batches size limit) (x : α) : Batches size limit :=
  if h : total size (b.opened ++ [x]) < limit then
    { b with opened := b.opened ++ [x], opened_lt := h }
  else
    { full := b.full ++ [b.opened ++ [x]]
      opened := []
      filled := by
        intro batch hbatch
        rcases List.mem_append.mp hbatch with hfull | hlast
        · exact b.filled batch hfull
        · rw [List.mem_singleton.mp hlast]
          exact Filled.snoc b.opened_lt (Nat.le_of_not_lt h)
      opened_lt := Nat.lt_of_le_of_lt (Nat.zero_le _) b.opened_lt }

/-- All batches, the open one last. -/
def all (b : Batches size limit) : List (List α) := b.full ++ [b.opened]

/-- All items. -/
def items (b : Batches size limit) : List α := b.all.flatten

@[simp] theorem dropLast_all (b : Batches size limit) : b.all.dropLast = b.full := by
  simp [all]

/-- Below the limit an item only makes the open batch longer. -/
theorem all_push_of_lt {b : Batches size limit} {x : α}
    (h : total size (b.opened ++ [x]) < limit) :
    (b.push x).all = b.full ++ [b.opened ++ [x]] := by
  rw [push, dif_pos h]
  rfl

/-- At the limit a new batch is opened behind it. -/
theorem all_push_of_le {b : Batches size limit} {x : α}
    (h : limit ≤ total size (b.opened ++ [x])) :
    (b.push x).all = b.full ++ [b.opened ++ [x]] ++ [[]] := by
  rw [push, dif_neg (Nat.not_lt.mpr h)]
  rfl

/-- The items are the old ones and the new one. -/
theorem items_push (b : Batches size limit) (x : α) : (b.push x).items = b.items ++ [x] := by
  by_cases h : total size (b.opened ++ [x]) < limit
  · rw [items, all_push_of_lt h]
    simp [items, all]
  · rw [items, all_push_of_le (Nat.le_of_not_lt h)]
    simp [items, all]

end Batches

end JftermMuxer.Foundation
