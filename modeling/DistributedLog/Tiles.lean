import Mathlib.Data.List.Basic

/-!
# Ranges tiled by consecutive blocks

A list of non-empty blocks, each starting where the one before it ended,
covers a range of naturals. `Tiles start len a xs b` says that the blocks
`xs` tile `[a, b)`; what is stored in the blocks is irrelevant here, only
where each starts (`start`) and how many items it holds (`len`).

The lemmas are the three things a segmented sequence is asked: which block
covers an index (`exists_cover`), what the concatenated items are at that
index (`getElem?_flatMap`), and what is left when the blocks that end at or
before a bound are discarded (`filter_end`).
-/

namespace DistributedLog

inductive Tiles {α : Type} (start len : α → Nat) : Nat → List α → Nat → Prop where
  | nil (a : Nat) : Tiles start len a [] a
  | cons {x : α} {xs : List α} {b : Nat} :
      0 < len x → Tiles start len (start x + len x) xs b → Tiles start len (start x) (x :: xs) b

namespace Tiles

variable {α β : Type} {start len : α → Nat} {a b c : Nat} {xs ys : List α}

theorem le (h : Tiles start len a xs b) : a ≤ b := by
  induction h with
  | nil => exact Nat.le_refl _
  | cons _ _ ih => omega

theorem eq_of_nil (h : Tiles start len a [] b) : a = b := by
  cases h
  rfl

theorem eq_of_cons {x : α} (h : Tiles start len a (x :: xs) b) : a = start x := by
  cases h
  rfl

theorem append (h : Tiles start len a xs b) (h' : Tiles start len b ys c) :
    Tiles start len a (xs ++ ys) c := by
  induction h with
  | nil => exact h'
  | cons hpos _ ih => exact .cons hpos (ih h')

theorem single {x : α} (h : 0 < len x) : Tiles start len (start x) [x] (start x + len x) :=
  .cons h (.nil _)

/-- Every block is non-empty and lies inside the range. -/
theorem mem_bounds (h : Tiles start len a xs b) :
    ∀ x ∈ xs, a ≤ start x ∧ 0 < len x ∧ start x + len x ≤ b := by
  induction h with
  | nil => intro x hx; cases hx
  | @cons y ys b hpos hys ih =>
      intro x hx
      rcases List.mem_cons.mp hx with rfl | hx
      · exact ⟨Nat.le_refl _, hpos, hys.le⟩
      · obtain ⟨hlo, hlen, hhi⟩ := ih x hx
        exact ⟨by omega, hlen, hhi⟩

/-- Each block starts where the one before it ends, and so does what follows
the last. -/
theorem end_eq (h : Tiles start len a xs b) {i : Nat} {x : α} (hx : xs[i]? = some x) :
    start x + len x = (xs[i + 1]?).elim b start := by
  induction h generalizing i with
  | nil => cases hx
  | @cons y ys b _ hys ih =>
      cases i with
      | succ i => exact ih hx
      | zero =>
          obtain rfl : y = x := Option.some.inj hx
          cases ys with
          | nil => exact hys.eq_of_nil
          | cons z zs => exact hys.eq_of_cons

theorem pairwise_start (h : Tiles start len a xs b) :
    (xs.map start).Pairwise (· < ·) := by
  induction h with
  | nil => exact .nil
  | cons hpos hys ih =>
      refine List.Pairwise.cons ?_ ih
      intro s hs
      obtain ⟨y, hy, rfl⟩ := List.mem_map.mp hs
      have := (hys.mem_bounds y hy).1
      omega

/-- Each block ends before every later one starts. -/
theorem pairwise_end (h : Tiles start len a xs b) :
    xs.Pairwise fun x y => start x + len x ≤ start y := by
  induction h with
  | nil => exact .nil
  | cons _ hys ih => exact .cons (fun y hy => (hys.mem_bounds y hy).1) ih

/-- The first block that covers an index of the range. -/
theorem exists_cover (h : Tiles start len a xs b) {i : Nat} (hai : a ≤ i) (hib : i < b) :
    ∃ pre x post, xs = pre ++ x :: post ∧ Tiles start len a pre (start x) ∧
      start x ≤ i ∧ i < start x + len x ∧ ∀ y ∈ pre, start y + len y ≤ i := by
  induction h with
  | nil => omega
  | @cons y ys b hpos hys ih =>
      by_cases hi : i < start y + len y
      · exact ⟨[], y, ys, rfl, .nil _, hai, hi, fun _ hz => by cases hz⟩
      · obtain ⟨pre, x, post, rfl, hpre, hlo, hhi, hbefore⟩ := ih (by omega) hib
        refine ⟨y :: pre, x, post, rfl, .cons hpos hpre, hlo, hhi, fun z hz => ?_⟩
        rcases List.mem_cons.mp hz with rfl | hz
        · omega
        · exact hbefore z hz

theorem length_flatMap (items : α → List β) (hlen : ∀ x, len x = (items x).length)
    (h : Tiles start len a xs b) : a + (xs.flatMap items).length = b := by
  induction h with
  | nil => simp
  | cons _ _ ih => rw [List.flatMap_cons, List.length_append, ← hlen]; omega

/-- The item at an index, read from the block that covers it. -/
theorem getElem?_flatMap (items : α → List β) (hlen : ∀ x, len x = (items x).length)
    {pre : List α} (post : List α) {x : α} (hpre : Tiles start len a pre (start x)) {i : Nat}
    (hlo : start x ≤ i) (hhi : i < start x + len x) :
    ((pre ++ x :: post).flatMap items)[i - a]? = (items x)[i - start x]? := by
  have hl := hpre.length_flatMap items hlen
  rw [List.flatMap_append, List.flatMap_cons, List.getElem?_append_right (by omega),
    List.getElem?_append_left (by rw [← hlen]; omega)]
  congr 1
  omega

/-- Discarding the blocks that end at or before `m` discards a run of blocks
from the front; the rest tiles what is left. -/
theorem filter_end (h : Tiles start len a xs b) (m : Nat) :
    ∃ dropped kept mid, xs = dropped ++ kept ∧
      xs.filter (fun x => decide (m < start x + len x)) = kept ∧
      Tiles start len a dropped mid ∧ Tiles start len mid kept b ∧
      (∀ x ∈ dropped, start x + len x ≤ m) ∧ (∀ x ∈ kept, m < start x + len x) ∧
      (dropped ≠ [] → mid ≤ m) := by
  induction h with
  | nil a => exact ⟨[], [], a, rfl, rfl, .nil _, .nil _, by simp, by simp, by simp⟩
  | @cons y ys b hpos hys ih =>
      by_cases hy : m < start y + len y
      · -- The first block already ends past `m`, and every later one ends later still.
        have hall : ∀ x ∈ y :: ys, m < start x + len x := by
          intro x hx
          rcases List.mem_cons.mp hx with rfl | hx
          · exact hy
          · have := (hys.mem_bounds x hx).1
            omega
        refine ⟨[], y :: ys, start y, rfl, ?_, .nil _, .cons hpos hys, by simp, hall, by simp⟩
        exact List.filter_eq_self.mpr fun x hx => decide_eq_true (hall x hx)
      · obtain ⟨dropped, kept, mid, rfl, hf, hd, hk, hdm, hkm, hmid⟩ := ih
        refine ⟨y :: dropped, kept, mid, rfl, ?_, .cons hpos hd, hk, ?_, hkm, ?_⟩
        · rw [List.filter_cons_of_neg (by simpa using hy), hf]
        · intro x hx
          rcases List.mem_cons.mp hx with rfl | hx
          · omega
          · exact hdm x hx
        · intro _
          by_cases hne : dropped = []
          · subst hne
            have := hd.eq_of_nil
            omega
          · exact hmid hne

end Tiles

end DistributedLog
