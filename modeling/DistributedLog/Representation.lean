import DistributedLog.Log
import DistributedLog.Layout

/-!
# The layout that a log stands for

`Log.Rep E c d l L` says that the log `l` on the directory `d` stands for
the layout `L`: its segments stand for the blocks of `L` one by one, and the
directory lists their files and no others.

Each operation gets one lemma: on a represented log it succeeds, and the new
log stands for the new layout. The loops over segments are proved first, for
any list of blocks with distinct base offsets.
-/

namespace DistributedLog

variable {E : Env} {c : Config}

/-- `s` is an open segment that stands for the block `b`. -/
structure Segment.Holds (E : Env) (c : Config) (d : Dir) (s : Segment) (b : Block) : Prop where
  base : s.baseOffset = b.base
  rep : s.Rep E c d b.records

namespace Segment.Holds

variable {d : Dir} {s : Segment} {b : Block}

theorem next (h : s.Holds E c d b) : s.nextOffset.toNat = b.start + b.len := by
  rw [h.rep.next, h.base]
  rfl

theorem isMaxed (h : s.Holds E c d b) : s.isMaxed = b.isMaxed E c := by
  rw [Segment.isMaxed, Block.isMaxed, h.rep.config, h.rep.size, h.base]
  congr 1
  rw [decide_eq_decide, UInt64.le_iff_toNat_le, h.rep.index_size]
  rfl

theorem covers_iff (h : s.Holds E c d b) (off : UInt64) :
    (s.baseOffset ≤ off ∧ off < s.nextOffset) ↔
      (b.start ≤ off.toNat ∧ off.toNat < b.start + b.len) := by
  rw [UInt64.le_iff_toNat_le, UInt64.lt_iff_toNat_lt, h.next, h.base]
  rfl

theorem frame {d' : Dir} (h : s.Holds E c d b)
    (hd : ∀ n ∈ b.files, d'.content? n = d.content? n) : s.Holds E c d' b :=
  ⟨h.base, h.rep.frame (by rw [h.base]; exact hd)⟩

theorem read (h : s.Holds E c d b) {off : UInt64} {r : Record} (hlo : b.start ≤ off.toNat)
    (hr : b.records[off.toNat - b.start]? = some r) (h32 : b.len ≤ 2 ^ 32)
    (hfit : (frames E b.base b.records).length < 2 ^ 63) :
    ∃ s' d', s.read E d off = (.ok { r with offset := off }, s', d') ∧ s'.Holds E c d' b ∧
      Directory.Touches b.files d d' := by
  have hlt : off.toNat - b.start < b.len := (List.getElem?_eq_some_iff.mp hr).1
  obtain ⟨s', d', hread, hrep, hb, -, ht⟩ := Segment.read_spec h.rep off hr
    (by rw [h.base]; unfold Block.start at *; omega) (by omega) (by rw [h.base]; exact hfit)
  rw [h.base] at ht
  exact ⟨s', d', hread, ⟨hb.trans h.base, hrep⟩, ht⟩

end Segment.Holds

/-! ## Lists of segments -/

/-- The segments `ss` stand for the blocks `bs`. -/
abbrev AllHold (E : Env) (c : Config) (d : Dir) (ss : List Segment) (bs : List Block) : Prop :=
  List.Forall₂ (Segment.Holds E c d) ss bs

/-- No two blocks have the same base offset. -/
def Distinct (bs : List Block) : Prop := (bs.map Block.base).Nodup

theorem Distinct.head_ne {b : Block} {bs : List Block} (h : Distinct (b :: bs)) :
    ∀ b' ∈ bs, b.base ≠ b'.base := by
  intro b' hb' heq
  exact (List.nodup_cons.mp h).1 (List.mem_map.mpr ⟨b', hb', heq.symm⟩)

theorem Distinct.tail {b : Block} {bs : List Block} (h : Distinct (b :: bs)) : Distinct bs :=
  (List.nodup_cons.mp h).2

/-- A file of one block is no file of the others. -/
theorem Distinct.not_mem_files {b : Block} {bs : List Block} (h : Distinct (b :: bs)) :
    ∀ n ∈ b.files, n ∉ bs.flatMap Block.files := by
  intro n hn hmem
  obtain ⟨b', hb', hn'⟩ := List.mem_flatMap.mp hmem
  exact Block.files_disjoint (h.head_ne b' hb') n hn hn'

theorem Layout.distinct (L : Layout) : Distinct L.blocks := by
  have h := L.pairwise_start
  rw [List.pairwise_map] at h
  exact List.pairwise_map.mpr (h.imp Block.base_ne_of_start_lt)

theorem Layout.distinct_full (L : Layout) : Distinct L.full := by
  have h := L.distinct
  rw [Distinct, Layout.blocks, List.map_append] at h
  exact (List.nodup_append.mp h).1

theorem forall₂_getElem? {α β : Type} {R : α → β → Prop} {xs : List α} {ys : List β}
    (h : List.Forall₂ R xs ys) {i : Nat} {x : α} (hx : xs[i]? = some x) :
    ∃ y, ys[i]? = some y ∧ R x y := by
  induction h generalizing i with
  | nil => cases hx
  | cons hhead _ ih =>
      cases i with
      | zero =>
          rw [List.getElem?_cons_zero, Option.some.injEq] at hx
          subst hx
          exact ⟨_, rfl, hhead⟩
      | succ i => exact ih hx

section lists

variable {d d' : Dir} {ss : List Segment} {b : Block} {bs : List Block}

theorem AllHold.frame (h : AllHold E c d ss bs)
    (hd : ∀ b ∈ bs, ∀ n ∈ b.files, d'.content? n = d.content? n) : AllHold E c d' ss bs := by
  induction h with
  | nil => exact .nil
  | cons hs _ ih =>
      exact .cons (hs.frame (hd _ List.mem_cons_self))
        (ih fun b hb => hd b (List.mem_cons_of_mem _ hb))

/-- What happens in the files of one block does not concern the others. -/
theorem AllHold.frame_of_ne (h : AllHold E c d ss bs)
    (hd : ∀ n, n ∉ b.files → d'.content? n = d.content? n) (hne : ∀ b' ∈ bs, b.base ≠ b'.base) :
    AllHold E c d' ss bs :=
  h.frame fun b' hb' n hn => hd n (Block.files_disjoint (hne b' hb').symm n hn)

theorem AllHold.getElem? (h : AllHold E c d ss bs) {i : Nat} {s : Segment}
    (hs : ss[i]? = some s) : ∃ b, bs[i]? = some b ∧ s.Holds E c d b :=
  forall₂_getElem? h hs

theorem AllHold.of_mem (h : AllHold E c d ss bs) {s : Segment} (hs : s ∈ ss) :
    ∃ b ∈ bs, s.Holds E c d b := by
  obtain ⟨i, hi⟩ := List.getElem?_of_mem hs
  obtain ⟨b, hb, hhold⟩ := AllHold.getElem? h hi
  exact ⟨b, List.mem_of_getElem? hb, hhold⟩

theorem AllHold.append {ss' : List Segment} {bs' : List Block} (h : AllHold E c d ss bs)
    (h' : AllHold E c d ss' bs') : AllHold E c d (ss ++ ss') (bs ++ bs') :=
  List.rel_append h h'

/-- The segment of a block in the middle of the list. -/
theorem AllHold.split {pre post : List Block} (h : AllHold E c d ss (pre ++ b :: post)) :
    ∃ ss₁ s ss₂, ss = ss₁ ++ s :: ss₂ ∧ AllHold E c d ss₁ pre ∧ s.Holds E c d b ∧
      AllHold E c d ss₂ post := by
  induction pre generalizing ss with
  | nil =>
      obtain ⟨s, ss₂, hs, hss, rfl⟩ := List.forall₂_cons_right_iff.mp h
      exact ⟨[], s, ss₂, rfl, .nil, hs, hss⟩
  | cons p pre ih =>
      obtain ⟨s₀, ss₀, hs₀, hss₀, rfl⟩ := List.forall₂_cons_right_iff.mp h
      obtain ⟨ss₁, s, ss₂, rfl, h₁, hs, h₂⟩ := ih hss₀
      exact ⟨s₀ :: ss₁, s, ss₂, rfl, .cons hs₀ h₁, hs, h₂⟩

theorem AllHold.bases (h : AllHold E c d ss bs) :
    ss.map Segment.baseOffset = bs.map Block.base := by
  induction h with
  | nil => rfl
  | cons hs _ ih => rw [List.map_cons, List.map_cons, hs.base, ih]

/-! ### Reading -/

theorem readIn_missing (h : AllHold E c d ss bs) (off : UInt64)
    (hoff : ∀ b ∈ bs, ¬ (b.start ≤ off.toNat ∧ off.toNat < b.start + b.len)) :
    Log.readIn E d off ss = (.error (.err (.offsetOutOfRange off)), ss, d) := by
  induction h with
  | nil => rfl
  | cons hs _ ih =>
      rw [Log.readIn, if_neg (by rw [hs.covers_iff]; exact hoff _ List.mem_cons_self),
        ih fun b hb => hoff b (List.mem_cons_of_mem _ hb)]

/-- The first block that covers the offset is the one that is read. -/
theorem readIn_found {pre post : List Block} (h : AllHold E c d ss (pre ++ b :: post))
    (hdist : Distinct (pre ++ b :: post)) {off : UInt64} {r : Record}
    (hpre : ∀ y ∈ pre, y.start + y.len ≤ off.toNat) (hlo : b.start ≤ off.toNat)
    (hr : b.records[off.toNat - b.start]? = some r) (h32 : b.len ≤ 2 ^ 32)
    (hfit : (frames E b.base b.records).length < 2 ^ 63) :
    ∃ ss' d', Log.readIn E d off ss = (.ok { r with offset := off }, ss', d') ∧
      AllHold E c d' ss' (pre ++ b :: post) ∧ Directory.Touches b.files d d' := by
  induction pre generalizing ss with
  | nil =>
      obtain ⟨s, ss, hs, hss, rfl⟩ := List.forall₂_cons_right_iff.mp h
      have hlt : off.toNat - b.start < b.len := (List.getElem?_eq_some_iff.mp hr).1
      have hcov : s.baseOffset ≤ off ∧ off < s.nextOffset :=
        (hs.covers_iff off).mpr ⟨hlo, by omega⟩
      obtain ⟨s', d', hread, hs', ht⟩ := hs.read hlo hr h32 hfit
      refine ⟨s' :: ss, d', by rw [Log.readIn, if_pos hcov, hread], .cons hs' ?_, ht⟩
      exact AllHold.frame_of_ne hss ht.others hdist.head_ne
  | cons p pre ih =>
      obtain ⟨s, ss, hs, hss, rfl⟩ := List.forall₂_cons_right_iff.mp h
      obtain ⟨ss', d', hread, hss', ht⟩ := ih hss hdist.tail
        fun y hy => hpre y (List.mem_cons_of_mem _ hy)
      have hend := hpre p List.mem_cons_self
      have hcov : ¬ (s.baseOffset ≤ off ∧ off < s.nextOffset) := by
        rw [hs.covers_iff]
        omega
      refine ⟨s :: ss', d', by rw [Log.readIn, if_neg hcov, hread], .cons (hs.frame ?_) hss', ht⟩
      intro n hn
      exact ht.others n (Block.files_disjoint
        (Distinct.head_ne hdist b (List.mem_append_right _ List.mem_cons_self)) n hn)

/-! ### Closing and opening -/

/-- Every block of the list is in its closed files. -/
def AllStored (E : Env) (d : Dir) (bs : List Block) : Prop :=
  ∀ b ∈ bs, Segment.Stored E d b.base b.records

theorem Segment.Stored.frame {base : UInt64} {rs : List Record} (h : Segment.Stored E d base rs)
    (hd : ∀ n ∈ segmentFiles base, d'.content? n = d.content? n) :
    Segment.Stored E d' base rs :=
  ⟨by rw [hd _ (by simp [segmentFiles])]; exact h.store,
    by rw [hd _ (by simp [segmentFiles])]; exact h.index⟩

theorem closeAll_spec (h : AllHold E c d ss bs) (hdist : Distinct bs) :
    ∃ ss' d', Log.closeAll d ss = (.ok (), ss', d') ∧ AllStored E d' bs ∧
      Directory.Touches (bs.flatMap Block.files) d d' := by
  induction bs generalizing ss d with
  | nil =>
      obtain rfl := List.forall₂_nil_right_iff.mp h
      exact ⟨[], d, rfl, fun _ hb => (List.not_mem_nil hb).elim, .refl _ _⟩
  | cons b bs ih =>
      obtain ⟨s, ss, hs, hss, rfl⟩ := List.forall₂_cons_right_iff.mp h
      obtain ⟨s', d₁, hclose, hstored, -, -, -, -, ht₁⟩ := Segment.close_spec hs.rep
      rw [hs.base] at hstored ht₁
      obtain ⟨ss', d₂, hcloses, hstoreds, ht₂⟩ :=
        ih (AllHold.frame_of_ne hss ht₁.others hdist.head_ne) hdist.tail
      refine ⟨s' :: ss', d₂, by simp only [Log.closeAll, hclose, hcloses], ?_, ?_⟩
      · intro b' hb'
        rcases List.mem_cons.mp hb' with rfl | hb'
        · exact hstored.frame fun n hn => ht₂.others n (hdist.not_mem_files n hn)
        · exact hstoreds b' hb'
      · rw [List.flatMap_cons]
        exact (ht₁.mono (List.subset_append_left ..)).trans
          (ht₂.mono (List.subset_append_right ..))

/-- Limits that the code's conversions put on a block: relative offsets are
32-bit numbers, and its index entries must fit. -/
structure Block.Openable (c : Config) (b : Block) : Prop where
  room : 12 * b.len ≤ c.maxIndexBytes.toNat
  entries : b.len ≤ 2 ^ 32
  next : b.start + b.len < 2 ^ 64

theorem openAll_spec {l : Log} (hl : l.config = c) (hd : d.present = true) (hc : c.Mappable)
    (hstored : AllStored E d bs) (hdist : Distinct bs) (hopen : ∀ b ∈ bs, b.Openable c) :
    ∃ ss' d', l.openAll d (bs.flatMap fun b => [b.base, b.base]) =
        (.ok (), { l with
          segments := l.segments ++ ss', detached := if bs = [] then l.detached else none }, d') ∧
      AllHold E c d' ss' bs ∧ Directory.Touches (bs.flatMap Block.files) d d' := by
  induction bs generalizing l d with
  | nil => exact ⟨[], d, by simp [Log.openAll], .nil, .refl _ _⟩
  | cons b bs ih =>
      obtain ⟨hroom, h32, hnext⟩ := hopen b List.mem_cons_self
      obtain ⟨s, d₁, hnew, hbase, hrep, ht₁⟩ :=
        newSegment_stored hd hc (hstored b List.mem_cons_self) hroom h32 hnext
      have hstored₁ : AllStored E d₁ bs := fun b' hb' =>
        (hstored b' (List.mem_cons_of_mem _ hb')).frame fun n hn =>
          ht₁.others n (Block.files_disjoint (hdist.head_ne b' hb').symm n hn)
      obtain ⟨ss', d₂, hopens, hss', ht₂⟩ := ih
        (l := { l with segments := l.segments ++ [s], detached := none }) hl
        (ht₁.present.trans hd) hstored₁ hdist.tail
        fun b' hb' => hopen b' (List.mem_cons_of_mem _ hb')
      refine ⟨s :: ss', d₂, ?_, .cons ⟨hbase, hrep.frame ?_⟩ hss', ?_⟩
      · have hfirst : l.newSegment d b.base =
            (.ok (), { l with segments := l.segments ++ [s], detached := none }, d₁) := by
          rw [Log.newSegment, hl, hnew]
        simp only [List.flatMap_cons, List.cons_append, List.nil_append, Log.openAll, hfirst,
          hopens, List.append_assoc, List.cons_ne_nil, if_false, ite_self]
      · intro n hn
        rw [hbase] at hn
        exact ht₂.others n (hdist.not_mem_files n hn)
      · rw [List.flatMap_cons]
        exact (ht₁.mono (List.subset_append_left ..)).trans
          (ht₂.mono (List.subset_append_right ..))

/-! ### Truncating -/

theorem truncateAll_spec (h : AllHold E c d ss bs) (hdist : Distinct bs) (lowest : UInt64)
    {keep : Block → Bool} (hkeep : ∀ b ∈ bs, keep b = true ↔ (lowest + 1).toNat < b.start + b.len) :
    ∃ ps d', Log.truncateAll lowest d ss = (.ok (), ps, d') ∧
      AllHold E c d' ((ps.filter (·.2)).map (·.1)) (bs.filter keep) ∧
      ps.map (·.2) = bs.map keep ∧ d'.present = d.present ∧
      (∀ n, n ∉ bs.flatMap Block.files → d'.content? n = d.content? n) ∧
      ∀ rest, d.names.Perm (bs.flatMap Block.files ++ rest) →
        d'.names.Perm ((bs.filter keep).flatMap Block.files ++ rest) := by
  induction bs generalizing ss d with
  | nil =>
      obtain rfl := List.forall₂_nil_right_iff.mp h
      exact ⟨[], d, rfl, .nil, rfl, rfl, fun _ _ => rfl, fun _ hrest => hrest⟩
  | cons b bs ih =>
      obtain ⟨s, ss, hs, hss, rfl⟩ := List.forall₂_cons_right_iff.mp h
      have hcond : s.nextOffset ≤ lowest + 1 ↔ keep b = false := by
        rw [UInt64.le_iff_toNat_le, hs.next, ← Nat.not_lt, ← hkeep b List.mem_cons_self,
          Bool.not_eq_true]
      have hkeep' := fun b hb => hkeep b (List.mem_cons_of_mem _ hb)
      by_cases hkept : keep b = false
      · obtain ⟨s', d₁, hrem, hp₁, ho₁, hn₁⟩ := Segment.remove_spec hs.rep
        rw [hs.base] at ho₁ hn₁
        obtain ⟨ps, d₂, htr, hss', hflags, hp₂, ho₂, hn₂⟩ :=
          ih (AllHold.frame_of_ne hss ho₁ hdist.head_ne) hdist.tail hkeep'
        have hfilter : (b :: bs).filter keep =
            bs.filter keep := List.filter_cons_of_neg (by simp [hkept])
        refine ⟨(s', false) :: ps, d₂, ?_, ?_, ?_, hp₂.trans hp₁, ?_, ?_⟩
        · rw [Log.truncateAll, if_pos (hcond.mpr hkept), hrem]
          simp only [htr]
        · rw [hfilter]
          exact hss'
        · rw [List.map_cons, List.map_cons, hflags, hkept]
        · intro n hn
          rw [List.flatMap_cons, List.mem_append, not_or] at hn
          rw [ho₂ n hn.2, ho₁ n hn.1]
        · intro rest hrest
          rw [List.flatMap_cons, List.append_assoc] at hrest
          rw [hfilter]
          exact hn₂ rest (hn₁ _ hrest)
      · obtain ⟨ps, d₂, htr, hss', hflags, hp₂, ho₂, hn₂⟩ := ih hss hdist.tail hkeep'
        rw [Bool.not_eq_false] at hkept
        have hfilter : (b :: bs).filter keep =
            b :: bs.filter keep := List.filter_cons_of_pos hkept
        refine ⟨(s, true) :: ps, d₂, ?_, ?_, ?_, hp₂, ?_, ?_⟩
        · rw [Log.truncateAll, if_neg (by rw [hcond, hkept]; simp)]
          simp only [htr]
        · rw [hfilter]
          exact .cons (hs.frame fun n hn => ho₂ n (hdist.not_mem_files n hn)) hss'
        · rw [List.map_cons, List.map_cons, hflags, hkept]
        · intro n hn
          rw [List.flatMap_cons, List.mem_append, not_or] at hn
          exact ho₂ n hn.2
        · intro rest hrest
          rw [hfilter, List.flatMap_cons, List.append_assoc]
          have hswap : d.names.Perm (bs.flatMap Block.files ++ (b.files ++ rest)) := by
            refine hrest.trans ?_
            rw [List.flatMap_cons, List.append_assoc]
            exact List.perm_append_comm_assoc ..
          exact (hn₂ _ hswap).trans (List.perm_append_comm_assoc ..)

end lists

/-! ## The whole log -/

namespace Log

structure Rep (E : Env) (c : Config) (d : Dir) (l : Log) (L : Layout) : Prop where
  config : l.config = c
  mappable : c.Mappable
  present : d.present = true
  detached : l.detached = none
  segments : AllHold E c d l.segments L.blocks
  names : d.names.Perm (L.blocks.flatMap Block.files)

variable {d : Dir} {l : Log} {L : Layout}

/-- The active segment, and the segments before it. -/
theorem Rep.active (h : l.Rep E c d L) :
    ∃ ss s, l.segments = ss ++ [s] ∧ AllHold E c d ss L.full ∧ s.Holds E c d L.act ∧
      l.activeSegment = some s := by
  have hblocks : AllHold E c d l.segments (L.full ++ L.act :: []) := h.segments
  obtain ⟨ss, s, ss₂, hseg, hss, hs, hnil⟩ := AllHold.split hblocks
  obtain rfl := List.forall₂_nil_right_iff.mp hnil
  exact ⟨ss, s, hseg, hss, hs, by simp [activeSegment, h.detached, hseg]⟩

/-- The first base offset is the lowest one. -/
theorem lowestOffset_of_bases (h : l.segments.map Segment.baseOffset = L.blocks.map Block.base) :
    l.lowestOffset = .ok (UInt64.ofNat L.lowest) := by
  have hhead : l.segments.head?.map Segment.baseOffset = L.blocks.head?.map Block.base := by
    rw [← List.head?_map, ← List.head?_map, h]
  rw [L.head?_base] at hhead
  unfold Log.lowestOffset
  cases hseg : l.segments.head? with
  | none =>
      rw [hseg] at hhead
      cases hhead
  | some s =>
      rw [hseg, Option.map_some, Option.some.injEq] at hhead
      simp [hhead]

/-- The highest offset is the one before the next. -/
theorem highestOffset_of_next {s : Segment} {n : Nat} (hlast : l.segments.getLast? = some s)
    (hnext : s.nextOffset.toNat = n) :
    l.highestOffset = .ok (UInt64.ofNat (n - 1)) := by
  have hlt := s.nextOffset.toNat_lt
  unfold Log.highestOffset
  rw [hlast]
  simp only
  congr 1
  apply UInt64.toNat_inj.mp
  rw [UInt64.toNat_ofNat', Nat.mod_eq_of_lt (by omega)]
  split
  · rename_i h0
    rw [h0] at hnext
    rw [← hnext]
    rfl
  · rename_i h0
    have hpos : (1 : UInt64).toNat ≤ s.nextOffset.toNat := by
      have : s.nextOffset.toNat ≠ (0 : UInt64).toNat := fun he => h0 (UInt64.toNat_inj.mp he)
      have hz : (0 : UInt64).toNat = 0 := rfl
      have hone : (1 : UInt64).toNat = 1 := rfl
      omega
    rw [UInt64.toNat_sub_of_le _ _ (UInt64.le_iff_toNat_le.mpr hpos), hnext]
    rfl

theorem Rep.lowestOffset (h : l.Rep E c d L) : l.lowestOffset = .ok (UInt64.ofNat L.lowest) :=
  lowestOffset_of_bases (AllHold.bases h.segments)

theorem Rep.highestOffset (h : l.Rep E c d L) :
    l.highestOffset = .ok (UInt64.ofNat (L.next - 1)) := by
  obtain ⟨ss, s, hseg, -, hs, -⟩ := h.active
  exact highestOffset_of_next (by rw [hseg, List.getLast?_concat]) hs.next

end Log

end DistributedLog
