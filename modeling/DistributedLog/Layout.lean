import DistributedLog.Segment
import DistributedLog.Tiles
import DistributedLog.AppendOnly

/-!
# Layouts: what the segments of a log stand for

Between the files and the append-only sequence lies the layout: blocks of
records, each with its base offset, in which only the last, the one that the
active segment stands for, may be empty. `Layout` carries that as a field,
so that consecutive offsets need not be proved again for every operation.
`Layout.abs` is the append-only sequence that a layout stands for.
-/

namespace DistributedLog

structure Block where
  base : UInt64
  records : List Record
deriving DecidableEq, Repr

namespace Block

def start (b : Block) : Nat := b.base.toNat
def len (b : Block) : Nat := b.records.length
def files (b : Block) : List Name := segmentFiles b.base

/-- `Log.Truncate` keeps the blocks that end past `lowest + 1`. -/
def keptBy (lowest : Nat) (b : Block) : Bool := decide (lowest + 1 < b.start + b.len)

/-- `segment.IsMaxed` of the segment that stands for the block. -/
def isMaxed (E : Env) (c : Config) (b : Block) : Bool :=
  decide (c.maxStoreBytes ≤ UInt64.ofNat (frames E b.base b.records).length) ||
    decide (c.maxIndexBytes.toNat ≤ 12 * b.len)

theorem files_disjoint {b b' : Block} (h : b.base ≠ b'.base) : ∀ n ∈ b.files, n ∉ b'.files :=
  segmentFiles_disjoint h

theorem keptBy_iff {lowest : UInt64} (h : lowest.toNat + 1 < 2 ^ 64) (b : Block) :
    b.keptBy lowest.toNat = true ↔ (lowest + 1).toNat < b.start + b.len := by
  have hone : (1 : UInt64).toNat = 1 := rfl
  rw [keptBy, decide_eq_true_eq, UInt64.toNat_add, hone, Nat.mod_eq_of_lt h]

theorem base_ne_of_start_lt {b b' : Block} (h : b.start < b'.start) : b.base ≠ b'.base := by
  intro heq
  rw [start, start, heq] at h
  omega

end Block

structure Layout where
  lowest : Nat
  full : List Block
  act : Block
  tiles : Tiles Block.start Block.len lowest full act.start
  bounded : act.start + act.len < 2 ^ 64

namespace Layout

def blocks (L : Layout) : List Block := L.full ++ [L.act]

def records (L : Layout) : List Record := L.blocks.flatMap Block.records

theorem length_blocks (L : Layout) : L.blocks.length = L.full.length + 1 := by
  simp [blocks]

/-- The next offset to be assigned. -/
def next (L : Layout) : Nat := L.act.start + L.act.len

/-- The sequence that a layout stands for. -/
def abs (L : Layout) : AppendOnly Record := ⟨L.lowest, L.records⟩

/-- The frames of every block fit in a file. -/
def Fits (E : Env) (L : Layout) : Prop :=
  ∀ b ∈ L.blocks, (frames E b.base b.records).length < 2 ^ 63

/-- The layout of a log without records. -/
def fresh (base : UInt64) : Layout where
  lowest := base.toNat
  full := []
  act := ⟨base, []⟩
  tiles := .nil _
  bounded := base.toNat_lt

/-- A record more in the last block. -/
def push (L : Layout) (r : Record) (h : L.next + 1 < 2 ^ 64) : Layout where
  lowest := L.lowest
  full := L.full
  act := ⟨L.act.base, L.act.records ++ [r]⟩
  tiles := L.tiles
  bounded := by
    simp only [Block.start, Block.len, List.length_append, List.length_singleton]
    exact h

/-- The last block is full and an empty one follows. -/
def roll (L : Layout) (h : 0 < L.act.len) : Layout where
  lowest := L.lowest
  full := L.full ++ [L.act]
  act := ⟨UInt64.ofNat L.next, []⟩
  tiles := by
    have hstart : Block.start ⟨UInt64.ofNat L.next, []⟩ = L.act.start + L.act.len := by
      rw [Block.start, UInt64.toNat_ofNat']
      exact Nat.mod_eq_of_lt L.bounded
    rw [hstart]
    exact L.tiles.append (.single h)
  bounded := (UInt64.ofNat L.next).toNat_lt

/-- A new segment follows when the last block has grown to its limits. -/
def grow (E : Env) (c : Config) (L : Layout) (r : Record) (h : L.next + 1 < 2 ^ 64) : Layout :=
  if (L.push r h).act.isMaxed E c then
    (L.push r h).roll (by simp [push, Block.len])
  else L.push r h

theorem abs_next (L : Layout) : L.abs.next = L.next := by
  have hlen := L.tiles.length_flatMap Block.records fun _ => rfl
  simp only [abs, AppendOnly.next, records, blocks, next, List.flatMap_append, List.length_append,
    List.flatMap_cons, List.flatMap_nil, List.append_nil, Block.len]
  omega

@[simp] theorem abs_push (L : Layout) (r : Record) (h : L.next + 1 < 2 ^ 64) :
    (L.push r h).abs = L.abs.push r := by
  simp [abs, push, AppendOnly.push, records, blocks]

@[simp] theorem abs_roll (L : Layout) (h : 0 < L.act.len) : (L.roll h).abs = L.abs := by
  simp [abs, roll, records, blocks]

@[simp] theorem abs_grow (E : Env) (c : Config) (L : Layout) (r : Record)
    (h : L.next + 1 < 2 ^ 64) : (L.grow E c r h).abs = L.abs.push r := by
  unfold grow
  split
  · rw [abs_roll, abs_push]
  · rw [abs_push]

theorem next_grow (E : Env) (c : Config) (L : Layout) (r : Record) (h : L.next + 1 < 2 ^ 64) :
    (L.grow E c r h).next = L.next + 1 := by
  rw [← abs_next, abs_grow, AppendOnly.next_push, abs_next]

/-- The active index of a log that has just been appended to is not full. -/
theorem len_grow_lt {E : Env} {c : Config} {L : Layout} {r : Record} {h : L.next + 1 < 2 ^ 64}
    (hpos : 0 < c.maxIndexBytes.toNat) :
    12 * (L.grow E c r h).act.len < c.maxIndexBytes.toNat := by
  unfold grow
  split
  case isTrue => exact hpos
  case isFalse hmax =>
    rw [Block.isMaxed, Bool.or_eq_true, decide_eq_true_eq, decide_eq_true_eq, not_or] at hmax
    exact Nat.not_le.mp hmax.2

theorem fits_fresh (E : Env) (base : UInt64) : (fresh base).Fits E := by
  intro b hb
  rw [blocks, fresh, List.nil_append, List.mem_singleton] at hb
  simp [hb, frames]

theorem Fits.of_filter {E : Env} {L L' : Layout} {p : Block → Bool} (h : L.Fits E)
    (hblocks : L'.blocks = L.blocks.filter p) : L'.Fits E := by
  intro b hb
  rw [hblocks] at hb
  exact h b (List.mem_of_mem_filter hb)

theorem len_push (L : Layout) (r : Record) (h : L.next + 1 < 2 ^ 64) :
    0 < (L.push r h).act.len := by
  simp [push, Block.len]

theorem start_lt_act (L : Layout) : ∀ b ∈ L.full, b.start < L.act.start := by
  intro b hb
  obtain ⟨-, hpos, hle⟩ := L.tiles.mem_bounds b hb
  omega

theorem pairwise_start (L : Layout) : (L.blocks.map Block.start).Pairwise (· < ·) := by
  rw [blocks, List.map_append, List.pairwise_append]
  refine ⟨L.tiles.pairwise_start, List.pairwise_singleton _ _, ?_⟩
  intro x hx y hy
  obtain ⟨b, hb, rfl⟩ := List.mem_map.mp hx
  rw [List.map_singleton, List.mem_singleton] at hy
  rw [hy]
  exact L.start_lt_act b hb

/-- No block starts inside another. -/
theorem not_inside (L : Layout) {b b' : Block} (hb : b ∈ L.blocks) (hb' : b' ∈ L.blocks)
    (hlt : b.start < b'.start) : b.start + b.len ≤ b'.start := by
  have hpair : L.blocks.Pairwise fun b b' => b.start + b.len ≤ b'.start := by
    rw [blocks, List.pairwise_append]
    refine ⟨L.tiles.pairwise_end, List.pairwise_singleton _ _, fun x hx y hy => ?_⟩
    rw [List.mem_singleton.mp hy]
    exact (L.tiles.mem_bounds x hx).2.2
  obtain ⟨i, hi, rfl⟩ := List.getElem_of_mem hb
  obtain ⟨j, hj, rfl⟩ := List.getElem_of_mem hb'
  rcases Nat.lt_trichotomy i j with hij | rfl | hij
  · exact List.pairwise_iff_getElem.mp hpair i j hi hj hij
  · omega
  · have := List.pairwise_iff_getElem.mp hpair j i hj hi hij
    omega

theorem head?_base (L : Layout) : L.blocks.head?.map Block.base = some (UInt64.ofNat L.lowest) := by
  have ht := L.tiles
  unfold blocks
  cases hfull : L.full with
  | nil =>
      rw [hfull] at ht
      simp [ht.eq_of_nil, Block.start]
  | cons b bs =>
      rw [hfull] at ht
      simp [ht.eq_of_cons, Block.start]

/-- Every block ends at or before the next offset. -/
theorem mem_blocks_bounds (L : Layout) :
    ∀ b ∈ L.blocks, L.lowest ≤ b.start ∧ b.start + b.len ≤ L.next := by
  intro b hb
  rcases List.mem_append.mp hb with hb | hb
  · obtain ⟨hlo, -, hhi⟩ := L.tiles.mem_bounds b hb
    exact ⟨hlo, by unfold next; omega⟩
  · rw [List.mem_singleton] at hb
    subst hb
    exact ⟨L.tiles.le, Nat.le_refl _⟩

/-- Each block ends where the next one starts. -/
theorem end_eq (L : Layout) {i : Nat} {b b' : Block} (hb : L.blocks[i]? = some b)
    (hb' : L.blocks[i + 1]? = some b') : b.start + b.len = b'.start := by
  have hlt : i + 1 < L.blocks.length := (List.getElem?_eq_some_iff.mp hb').1
  rw [length_blocks] at hlt
  rw [blocks, List.getElem?_append_left (by omega)] at hb
  have hend := L.tiles.end_eq hb
  rcases Nat.lt_or_ge (i + 1) L.full.length with hi | hi
  · rw [blocks, List.getElem?_append_left hi] at hb'
    rw [hb'] at hend
    exact hend
  · obtain rfl : b' = L.act := by
      have hi : i + 1 = L.full.length := by omega
      rw [blocks, hi, List.getElem?_concat_length, Option.some.injEq] at hb'
      exact hb'.symm
    rw [List.getElem?_eq_none hi] at hend
    exact hend

/-- The block in which an offset is found. -/
theorem exists_cover (L : Layout) {off : Nat} (hlo : L.lowest ≤ off) (hhi : off < L.next) :
    ∃ pre b post r, L.blocks = pre ++ b :: post ∧ b.start ≤ off ∧ off < b.start + b.len ∧
      (∀ y ∈ pre, y.start + y.len ≤ off) ∧ b.records[off - b.start]? = some r ∧
      L.abs.get? off = some r := by
  have hcover : ∃ pre b post, L.blocks = pre ++ b :: post ∧
      Tiles Block.start Block.len L.lowest pre b.start ∧
      b.start ≤ off ∧ off < b.start + b.len ∧ ∀ y ∈ pre, y.start + y.len ≤ off := by
    by_cases hact : off < L.act.start
    · obtain ⟨pre, b, post, hfull, hpre, h⟩ := L.tiles.exists_cover hlo hact
      exact ⟨pre, b, post ++ [L.act], by rw [blocks, hfull]; simp, hpre, h⟩
    · refine ⟨L.full, L.act, [], rfl, L.tiles, by omega, hhi, fun y hy => ?_⟩
      have := (L.tiles.mem_bounds y hy).2.2
      omega
  obtain ⟨pre, b, post, hblocks, hpre, hb, hb', hbefore⟩ := hcover
  have hget := hpre.getElem?_flatMap Block.records (fun _ => rfl) post hb hb'
  have hlt : off - b.start < b.records.length := by
    have : off < b.start + b.records.length := hb'
    omega
  refine ⟨pre, b, post, b.records[off - b.start], hblocks, hb, hb', hbefore,
    List.getElem?_eq_getElem hlt, ?_⟩
  rw [AppendOnly.get?, abs, if_pos hlo, records, hblocks, hget, List.getElem?_eq_getElem hlt]

/-- Truncating below the highest offset keeps the last block and forgets
records from the front, none of them past `lowest`. The first block left
still has a record past it, if there was any record at all. -/
theorem exists_truncate (L : Layout) {lowest : Nat} (h : lowest + 1 < L.next) :
    ∃ (L' : Layout) (k : Nat), L'.blocks = L.blocks.filter (Block.keptBy lowest) ∧
      L'.act = L.act ∧ L'.abs = L.abs.dropFront k ∧ k ≤ L.records.length ∧
      (k = 0 ∨ L.lowest + k ≤ lowest + 1) ∧
      (L.records ≠ [] → ∃ b ∈ L'.blocks.head?, 0 < b.len ∧ lowest + 1 < b.start + b.len) := by
  obtain ⟨dropped, kept, mid, hfull, hfilter, hdrop, hkept, -, hpast, hmid⟩ :=
    L.tiles.filter_end (lowest + 1)
  have hlen := hdrop.length_flatMap Block.records fun _ => rfl
  have hrecords : L.records = dropped.flatMap Block.records ++
      (kept ++ [L.act]).flatMap Block.records := by
    rw [records, blocks, hfull, List.append_assoc, List.flatMap_append]
  refine ⟨⟨mid, kept, L.act, hkept, L.bounded⟩, (dropped.flatMap Block.records).length,
    ?_, rfl, ?_, ?_, ?_, ?_⟩
  · have hact : [L.act].filter (Block.keptBy lowest) = [L.act] := by
      simp [Block.keptBy, show lowest + 1 < L.act.start + L.act.len from h]
    rw [blocks, blocks, List.filter_append, hact]
    exact congrArg (· ++ [L.act]) hfilter.symm
  · simp only [abs, AppendOnly.dropFront, hrecords, List.drop_left, hlen]
    rfl
  · rw [hrecords, List.length_append]
    omega
  · cases hd : dropped with
    | nil => exact .inl (by simp)
    | cons x xs =>
        refine .inr ?_
        rw [← hd]
        have := hmid (by simp [hd])
        omega
  · intro hne
    change ∃ b ∈ (kept ++ [L.act]).head?, 0 < b.len ∧ lowest + 1 < b.start + b.len
    cases hk : kept with
    | cons b bs =>
        refine ⟨b, by simp, ?_, hpast b (by simp [hk])⟩
        exact (hkept.mem_bounds b (by simp [hk])).2.1
    | nil =>
        refine ⟨L.act, by simp, ?_, h⟩
        rw [hk] at hkept
        have hact := hkept.eq_of_nil
        unfold next at h
        -- Only the last block is left. Were it empty, the block before it would end where it
        -- starts, past `lowest + 1`, and would have been kept.
        by_contra hzero
        have hdne : dropped ≠ [] := by
          intro hdnil
          apply hne
          have hrs : L.act.records = [] :=
            List.eq_nil_of_length_eq_zero (Nat.eq_zero_of_not_pos hzero)
          simp [hrecords, hdnil, hk, hrs]
        have := hmid hdne
        omega

theorem not_cover (L : Layout) {off : Nat} (h : off < L.lowest ∨ L.next ≤ off) :
    ∀ b ∈ L.blocks, ¬ (b.start ≤ off ∧ off < b.start + b.len) := by
  intro b hb
  have := L.mem_blocks_bounds b hb
  omega

end Layout

end DistributedLog
