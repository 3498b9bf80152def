import Mathlib.Data.List.Basic

/-!
# Append-only sequences with a base offset

What a commit log is for, with nothing said about files: items are numbered
consecutively from `base`, new ones go to the end, and old ones may be
forgotten from the front. An item never changes its offset.
-/

namespace DistributedLog

structure AppendOnly (α : Type) where
  base : Nat
  items : List α
deriving DecidableEq, Repr

namespace AppendOnly

variable {α : Type}

/-- The offset that the next item gets. -/
def next (a : AppendOnly α) : Nat := a.base + a.items.length

def get? (a : AppendOnly α) (off : Nat) : Option α :=
  if a.base ≤ off then a.items[off - a.base]? else none

def push (a : AppendOnly α) (x : α) : AppendOnly α := ⟨a.base, a.items ++ [x]⟩

def pushAll (a : AppendOnly α) (xs : List α) : AppendOnly α := ⟨a.base, a.items ++ xs⟩

/-- Forget the first `k` items. -/
def dropFront (a : AppendOnly α) (k : Nat) : AppendOnly α := ⟨a.base + k, a.items.drop k⟩

@[simp] theorem next_push (a : AppendOnly α) (x : α) : (a.push x).next = a.next + 1 := by
  simp only [push, next, List.length_append, List.length_singleton]
  omega

theorem get?_of_le {a : AppendOnly α} {off : Nat} (h : a.base ≤ off) :
    a.get? off = a.items[off - a.base]? :=
  if_pos h

theorem get?_of_lt {a : AppendOnly α} {off : Nat} (h : off < a.base) : a.get? off = none :=
  if_neg (by omega)

theorem get?_eq_none_iff {a : AppendOnly α} {off : Nat} :
    a.get? off = none ↔ off < a.base ∨ a.next ≤ off := by
  unfold next
  by_cases hlo : a.base ≤ off
  · rw [get?_of_le hlo, List.getElem?_eq_none_iff]
    omega
  · rw [get?_of_lt (by omega)]
    simp only [true_iff]
    omega

theorem lt_next_of_get? {a : AppendOnly α} {off : Nat} {x : α} (h : a.get? off = some x) :
    off < a.next := by
  by_contra hge
  rw [get?_eq_none_iff.mpr (.inr (by omega))] at h
  cases h

@[simp] theorem pushAll_nil (a : AppendOnly α) : a.pushAll [] = a := by
  simp [pushAll]

theorem pushAll_cons (a : AppendOnly α) (x : α) (xs : List α) :
    a.pushAll (x :: xs) = (a.push x).pushAll xs := by
  simp [pushAll, push]

theorem pushAll_append (a : AppendOnly α) (xs ys : List α) :
    a.pushAll (xs ++ ys) = (a.pushAll xs).pushAll ys := by
  simp [pushAll]

@[simp] theorem next_pushAll (a : AppendOnly α) (xs : List α) :
    (a.pushAll xs).next = a.next + xs.length := by
  simp only [pushAll, next, List.length_append]
  omega

/-- What was there before is not touched. -/
theorem get?_pushAll_of_lt {a : AppendOnly α} {off : Nat} (h : off < a.next) (xs : List α) :
    (a.pushAll xs).get? off = a.get? off := by
  unfold next at h
  by_cases hlo : a.base ≤ off
  · have hlt : off - a.base < a.items.length := by omega
    rw [get?_of_le hlo, get?_of_le (a := a.pushAll xs) hlo]
    exact List.getElem?_append_left hlt
  · have hlt : off < a.base := by omega
    rw [get?_of_lt hlt, get?_of_lt (a := a.pushAll xs) hlt]

theorem get?_pushAll_next (a : AppendOnly α) (xs : List α) (i : Nat) :
    (a.pushAll xs).get? (a.next + i) = xs[i]? := by
  have hle : (a.pushAll xs).base ≤ a.next + i := by
    simp only [pushAll, next]
    omega
  have hsub : a.next + i - a.base = a.items.length + i := by
    unfold next
    omega
  rw [get?_of_le hle]
  change (a.items ++ xs)[a.next + i - a.base]? = xs[i]?
  rw [hsub, List.getElem?_append_right (by omega), Nat.add_sub_cancel_left]

theorem next_dropFront {a : AppendOnly α} {k : Nat} (h : k ≤ a.items.length) :
    (a.dropFront k).next = a.next := by
  simp only [dropFront, next, List.length_drop]
  omega

theorem dropFront_pushAll {a : AppendOnly α} {k : Nat} (h : k ≤ a.items.length) (xs : List α) :
    (a.pushAll xs).dropFront k = (a.dropFront k).pushAll xs := by
  simp only [pushAll, dropFront, List.drop_append_of_le_length h]

/-- What is left keeps its offset. -/
theorem get?_dropFront_of_le {a : AppendOnly α} {k off : Nat} (h : a.base + k ≤ off) :
    (a.dropFront k).get? off = a.get? off := by
  rw [get?_of_le (a := a.dropFront k) h, get?_of_le (a := a) (by omega)]
  change (a.items.drop k)[off - (a.base + k)]? = _
  rw [List.getElem?_drop]
  congr 1
  omega

end AppendOnly

end DistributedLog
