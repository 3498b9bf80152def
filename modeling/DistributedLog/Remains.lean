import DistributedLog.Padding
import Mathlib.Data.List.Infix

/-!
# What is left of a log that was not closed

A log whose process ends without `Close` leaves index files padded with
zeros, and stores whose last bytes never left the buffer. `newIndex` takes
the length of a file for the size of its entries, so the last entry that
`index.Read(-1)` finds is the last the file has room for: twelve zeros,
unless the index was full. They stand for the first offset of the segment,
and whatever else was in the segment is behind its next offset
(`Block.seen`, `newSegment_unclosed`).

`Block.Matches` is what can have become of a store: it has lost the end of
what was written, or has got more behind it. A record that can still be read
is the one that was stored all the same (`Segment.Remains.read_ok`).
-/

namespace DistributedLog

/-! ## Frames at the front -/

/-- No frame is the front of another. -/
theorem frame_unique {p q bs : Bytes} (hp : frame p <+: bs) (hq : frame q <+: bs)
    (hlp : p.length < 2 ^ 64) (hlq : q.length < 2 ^ 64) : p = q := by
  obtain ⟨x, hx⟩ := hp
  obtain ⟨y, hy⟩ := hq
  rw [frame, List.append_assoc] at hx hy
  have heq := hx.trans hy.symm
  have hhead := List.append_inj_left heq (by simp)
  have hlen : p.length = q.length := by
    have h := congrArg (fun bs => (getUint64 bs).toNat) hhead
    simp only [getUint64_putUint64, UInt64.toNat_ofNat'] at h
    rwa [Nat.mod_eq_of_lt hlp, Nat.mod_eq_of_lt hlq] at h
  exact List.append_inj_left (List.append_inj_right heq (by simp)) hlen

theorem frames_take (E : Env) (base : UInt64) (rs : List Record) (k : Nat) :
    frames E base (rs.take k) <+: frames E base rs := by
  conv_rhs => rw [← List.take_append_drop k rs, frames_append]
  exact List.prefix_append _ _

namespace Store

variable {s : Store} {d : Dir} {bs : Bytes}

theorem readFull_ok (hopen : s.closed = false) {f : Bytes} (hf : d.content? s.name = some f)
    {n : Nat} {pos : UInt64} {out : Bytes} (h : s.readFull d n pos = .ok out) :
    pos.toNat < 2 ^ 63 ∧ out.length = n ∧ out = (f.drop pos.toNat).take n := by
  unfold readFull at h
  split at h
  · cases h
  · next hpos =>
    rw [fileReadAt_of_open hopen (by rw [hf, Option.getD_some])] at h
    by_cases hshort : (f.drop pos.toNat).length < n
    · simp only [hshort, if_true] at h
      cases h
    · simp only [hshort, if_false, Except.ok.injEq] at h
      refine ⟨by omega, ?_, h.symm⟩
      rw [← h, List.length_take]
      omega

/-- What a read returns is framed where it was read. -/
theorem read_ok (h : s.Carries d bs) {pos : UInt64} {p : Bytes}
    (hread : (s.read d pos).1 = .ok p) :
    p.length < 2 ^ 63 ∧ frame p <+: bs.drop pos.toNat := by
  obtain ⟨s', d', hfl, hc, hf, hn, -⟩ := flush_spec h
  rw [← hn] at hf
  simp only [read, hfl] at hread
  split at hread
  · cases hread
  · next size hsize =>
    obtain ⟨hpos, hlen, hhead⟩ := readFull_ok hc.isOpen hf hsize
    split at hread
    · cases hread
    · next hsmall =>
      obtain ⟨-, hlen', hbody⟩ := readFull_ok hc.isOpen hf hread
      have hadd : (pos + UInt64.ofNat lenWidth).toNat = pos.toNat + lenWidth := by
        rw [UInt64.toNat_add, UInt64.toNat_ofNat', lenWidth]
        omega
      refine ⟨by omega, (bs.drop pos.toNat).drop lenWidth |>.drop p.length, ?_⟩
      rw [hadd, ← List.drop_drop, ← hlen'] at hbody
      have hput : putUint64 (UInt64.ofNat p.length) = size := by
        rw [hlen', UInt64.ofNat_toNat]
        exact putUint64_getUint64 hlen
      rw [frame, hput, List.append_assoc]
      conv_lhs => rw [hhead]; enter [2, 1]; rw [hbody]
      rw [List.take_append_drop, List.take_append_drop]

end Store

/-! ## Opening -/

variable {E : Env} {c : Config} {d d' : Dir} {b : Block}

/-- How many records a block is left with. -/
def Block.seen (c : Config) (b : Block) : Nat :=
  if 12 * (b.len + 1) ≤ c.maxIndexBytes.toNat then 1 else b.len

namespace Index

variable {i : Index}

/-- The size of an index matters only for where its entries end. -/
theorem entryAt_of_size {size : UInt64} {out : UInt32} {e : UInt32 × UInt64}
    (h : { i with size := size }.entryAt d out = .ok e) (hle : size ≤ i.size) :
    i.entryAt d out = .ok e := by
  by_cases hlt : size < out.toUInt64 * entryWidth + entryWidth
  · simp only [entryAt, if_pos hlt] at h
    cases h
  · have hlt' : ¬ i.size < out.toUInt64 * entryWidth + entryWidth := fun h' =>
      hlt (UInt64.lt_of_le_of_lt hle h')
    simp only [entryAt, if_neg hlt] at h
    rw [entryAt, if_neg hlt']
    exact h

/-- An index whose file is taken to be full. -/
structure Padded (i : Index) (d : Dir) (M : UInt64) (es : List (UInt32 × UInt64)) : Prop where
  mapped : i.mapped = true
  mmapLen : i.mmapLen = M
  size : i.size = M
  pos : 0 < M.toNat
  limit : M.toNat ≤ 12 * 2 ^ 32
  room : 12 * es.length ≤ M.toNat
  file : d.content? i.name = some (resize M.toNat (encodeEntries es))

variable {M : UInt64} {es : List (UInt32 × UInt64)}

theorem Padded.entryAt (h : i.Padded d M es) {out : UInt32} {e : UInt32 × UInt64}
    (he : (padEntries M.toNat es)[out.toNat]? = some e) : i.entryAt d out = .ok e := by
  have hlimit := h.limit
  have hcount := length_padEntries h.room
  have hholds : { i with size := UInt64.ofNat (12 * (M.toNat / 12)) }.Holds d M
      (padEntries M.toNat es) := by
    refine ⟨h.mapped, h.mmapLen, h.pos, by omega, ?_, by omega, _, h.file, length_resize .., ?_⟩
    · rw [UInt64.toNat_ofNat', hcount, Nat.mod_eq_of_lt (by omega)]
    · exact take_resize_entries h.room
  refine entryAt_of_size (entryAt_spec hholds he) ?_
  rw [UInt64.le_iff_toNat_le, h.size, UInt64.toNat_ofNat', Nat.mod_eq_of_lt (by omega)]
  omega

theorem Padded.size_ne_zero (h : i.Padded d M es) : i.size ≠ 0 := by
  intro h0
  have hpos := h.pos
  rw [← h.size, h0] at hpos
  exact absurd hpos (by decide)

/-- `index.Read(-1)`. -/
theorem Padded.read_last (h : i.Padded d M es) :
    i.read d (-1) =
      match (padEntries M.toNat es).getLast? with
      | some e => .ok e
      | none => .error (.err .eof) := by
  have hlimit := h.limit
  have hcount := length_padEntries h.room
  have hdiv : (i.size / entryWidth).toNat = M.toNat / 12 := by
    rw [UInt64.toNat_div, h.size, toNat_entryWidth]
  have hone : (1 : UInt64).toNat = 1 := rfl
  rw [read, if_neg h.size_ne_zero, if_pos rfl]
  rcases Nat.eq_zero_or_pos (M.toNat / 12) with h0 | h0
  · -- not even one entry fits, and the number of the last one wraps
    have hnil : padEntries M.toNat es = [] := List.length_eq_zero_iff.mp (hcount.trans h0)
    have hz : i.size / entryWidth = 0 := UInt64.toNat_inj.mp (by rw [hdiv, h0]; rfl)
    rw [hnil, hz, Index.entryAt, if_pos]
    · rfl
    · rw [UInt64.lt_iff_toNat_lt, toNat_entryPos_entryWidth, h.size]
      have : ((0 : UInt64) - 1).toUInt32.toNat = 2 ^ 32 - 1 := by decide
      omega
  · have hout : (i.size / entryWidth - 1).toUInt32.toNat = M.toNat / 12 - 1 := by
      have hle : (1 : UInt64) ≤ i.size / entryWidth := by
        rw [UInt64.le_iff_toNat_le, hdiv, hone]
        exact h0
      rw [UInt64.toNat_toUInt32, UInt64.toNat_sub_of_le _ _ hle, hdiv, hone]
      exact Nat.mod_eq_of_lt (by omega)
    have hlast : (padEntries M.toNat es)[M.toNat / 12 - 1]? = (padEntries M.toNat es).getLast? := by
      rw [List.getLast?_eq_getElem?, hcount]
    cases he : (padEntries M.toNat es).getLast? with
    | none =>
        rw [List.getLast?_eq_none_iff.mp he] at hcount
        simp at hcount
        omega
    | some e => exact h.entryAt (by rw [hout, hlast, he])

/-- `index.Read` of an entry that is not the last. -/
theorem Padded.read (h : i.Padded d M es) {x : UInt64} (hx : x.toNat < 2 ^ 32)
    {e : UInt32 × UInt64} (he : (padEntries M.toNat es)[x.toNat]? = some e) :
    i.read d x.toInt64 = .ok e := by
  have hne : x.toInt64 ≠ -1 := by
    rw [Ne, toInt64_eq_neg_one_iff]
    omega
  rw [Index.read, if_neg h.size_ne_zero, if_neg hne, UInt64.toUInt64_toInt64]
  refine h.entryAt ?_
  rw [UInt64.toNat_toUInt32, Nat.mod_eq_of_lt hx]
  exact he

end Index

/-- A segment opened on an index file that was not closed. -/
structure Segment.Reopened (c : Config) (s : Segment) (b : Block) : Prop where
  base : s.baseOffset = b.base
  full : s.index.size = c.maxIndexBytes
  next : s.nextOffset = b.base + UInt64.ofNat (b.seen c)

/-- The last entry of a file taken to be full gives the number of records
seen. -/
theorem padEntries_last (hM : c.maxIndexBytes.toNat ≤ 12 * 2 ^ 32)
    (hroom : 12 * b.len ≤ c.maxIndexBytes.toNat) :
    match (padEntries c.maxIndexBytes.toNat (entriesOf E b.base b.records)).getLast? with
      | some e => e.1.toUInt64 + 1 = UInt64.ofNat (b.seen c)
      | none => b.seen c = 0 := by
  rw [padEntries, length_entriesOf, Block.seen]
  by_cases hmore : 12 * (b.len + 1) ≤ c.maxIndexBytes.toNat
  · obtain ⟨k, hk⟩ : ∃ k, c.maxIndexBytes.toNat / 12 - b.records.length = k + 1 :=
      ⟨c.maxIndexBytes.toNat / 12 - b.records.length - 1, by unfold Block.len at hmore; omega⟩
    rw [if_pos hmore, hk, List.replicate_succ', ← List.append_assoc, List.getLast?_concat]
    rfl
  · have hk : c.maxIndexBytes.toNat / 12 - b.records.length = 0 := by
      unfold Block.len at hmore
      omega
    rw [if_neg hmore, hk, List.replicate_zero, List.append_nil]
    rcases List.eq_nil_or_concat b.records with hnil | ⟨rs, r, hrs⟩
    · rw [hnil, Block.len, hnil]
      rfl
    · have hlen : b.len = rs.length + 1 := by rw [Block.len, hrs]; simp
      rw [hrs, List.concat_eq_append, entriesOf_append, List.getLast?_concat, hlen]
      apply UInt64.toNat_inj.mp
      have hone : (1 : UInt64).toNat = 1 := rfl
      rw [UInt64.toNat_add, UInt32.toNat_toUInt64, UInt32.toNat_ofNat', UInt64.toNat_ofNat', hone,
        Nat.mod_eq_of_lt (by omega : rs.length < 2 ^ 32)]

/-- Opening a segment whose files are both there changes none. -/
theorem newSegment_unclosed (hd : d.present = true) (hc : c.Mappable)
    (hM : c.maxIndexBytes.toNat ≤ 12 * 2 ^ 32) (hroom : 12 * b.len ≤ c.maxIndexBytes.toNat)
    (h : Unclosed E c d b) (hf : (d.content? (storeName b.base)).isSome) :
    ∃ s d', newSegment d b.base c = (.ok s, d') ∧ s.Reopened c b ∧
      s.store = newStore d (storeName b.base) ∧ Directory.Touches [] d d' := by
  have hst : d.create (storeName b.base) = d := Directory.create_of_mem (Directory.mem_names.mpr hf)
  have hix : d.create (indexName b.base) = d :=
    Directory.create_of_mem (Directory.mem_names.mpr (by rw [h]; rfl))
  have hi := Index.newIndex_eq hc.pos hc.limit h
  have hfile := Directory.content?_modify_of_some h (resize c.maxIndexBytes.toNat)
  rw [resize_of_le (Nat.le_of_eq (length_resize ..)), length_resize, Nat.sub_self,
    List.replicate_zero, List.append_nil] at hfile
  rw [length_resize, UInt64.ofNat_toNat] at hi
  have ht : Directory.Touches [] d
      (d.modify (indexName b.base) (resize c.maxIndexBytes.toNat)) := by
    refine ⟨by simp, fun n _ => ?_, Directory.names_modify_perm ..⟩
    by_cases hn : n = indexName b.base
    · rw [hn, hfile, h]
    · exact Directory.content?_modify_of_ne _ hn _
  generalize d.modify (indexName b.base) (resize c.maxIndexBytes.toNat) = d' at hi hfile ht
  have hread := Index.Padded.read_last
    (i := ⟨indexName b.base, true, c.maxIndexBytes, c.maxIndexBytes⟩)
    ⟨rfl, rfl, rfl, hc.pos, hM, by rw [length_entriesOf]; exact hroom, hfile⟩
  have hlast := padEntries_last (E := E) hM hroom
  cases he : (padEntries c.maxIndexBytes.toNat (entriesOf E b.base b.records)).getLast? with
  | none =>
      rw [he] at hread hlast
      refine ⟨⟨newStore d (storeName b.base),
        ⟨indexName b.base, true, c.maxIndexBytes, c.maxIndexBytes⟩, b.base, b.base, c⟩, d', ?_,
        ⟨rfl, rfl, by simp [hlast]⟩, rfl, ht⟩
      simp only [newSegment, hd, Bool.not_true, Bool.false_eq_true, if_false, hst, hix, hi, hread]
  | some e =>
      rw [he] at hread hlast
      refine ⟨⟨newStore d (storeName b.base),
        ⟨indexName b.base, true, c.maxIndexBytes, c.maxIndexBytes⟩, b.base,
        b.base + e.1.toUInt64 + 1, c⟩, d', ?_, ⟨rfl, rfl, by rw [← hlast, UInt64.add_assoc]⟩,
        rfl, ht⟩
      simp only [newSegment, hd, Bool.not_true, Bool.false_eq_true, if_false, hst, hix, hi, hread]

/-! ## What the stores hold -/

/-- The frames of the records that are seen. -/
def Block.visible (E : Env) (c : Config) (b : Block) : Bytes :=
  frames E b.base (b.records.take (b.seen c))

/-- What the store of a block can hold by now: a part of these frames, or all
of them and perhaps more. -/
def Block.Matches (E : Env) (c : Config) (b : Block) (bs : Bytes) : Prop :=
  bs <+: b.visible E c ∨ b.seen c ≤ b.len ∧ b.visible E c <+: bs

/-- A buffer that is lost leaves no more than a part. -/
theorem Block.Matches.front {bs bs' : Bytes} (h : b.Matches E c bs) (hle : bs' <+: bs) :
    b.Matches E c bs' := by
  rcases h with h | ⟨hseen, h⟩
  · exact .inl (hle.trans h)
  · rcases List.prefix_or_prefix_of_prefix hle h with h' | h'
    · exact .inl h'
    · exact .inr ⟨hseen, h'⟩

/-- The store of a log that has not been opened on such files. -/
theorem Block.matches_frames {orphans : Bytes}
    (hstuck : orphans ≠ [] → c.maxIndexBytes.toNat < 12 * (b.len + 1)) :
    b.Matches E c (frames E b.base b.records ++ orphans) := by
  by_cases hroom : 12 * (b.len + 1) ≤ c.maxIndexBytes.toNat
  · have hnil : orphans = [] := by
      by_contra hne
      have := hstuck hne
      omega
    rw [hnil, List.append_nil]
    by_cases hlen : b.len = 0
    · left
      rw [List.eq_nil_of_length_eq_zero hlen]
      exact List.nil_prefix
    · right
      refine ⟨?_, frames_take ..⟩
      rw [Block.seen, if_pos hroom]
      omega
  · right
    rw [Block.visible, Block.seen, if_neg hroom, Block.len, List.take_length]
    exact ⟨Nat.le_refl _, List.prefix_append _ _⟩

/-- The frame of a record that is seen. -/
theorem Block.frame_visible {j : Nat} {r : Record} (hr : b.records[j]? = some r)
    (hj : j < b.seen c) :
    frame (E.marshal { r with offset := b.base + UInt64.ofNat j }) <+:
      (b.visible E c).drop (frames E b.base (b.records.take j)).length := by
  have htake : (b.records.take (b.seen c))[j]? = some r := by
    rw [List.getElem?_take_of_lt hj, hr]
  rw [Block.visible, frames_split b.base htake, List.take_take, Nat.min_eq_left (by omega),
    List.append_assoc, List.drop_left]
  exact List.prefix_append _ _

/-- What is framed in the place of a record is that record. -/
theorem Block.Matches.payload {bs p : Bytes} (h : b.Matches E c bs)
    (hfit : (frames E b.base b.records).length < 2 ^ 63) {j : Nat} {r : Record}
    (hr : b.records[j]? = some r) (hj : j < b.seen c) (hlen : p.length < 2 ^ 63)
    (hp : frame p <+: bs.drop (frames E b.base (b.records.take j)).length) :
    p = E.marshal { r with offset := b.base + UInt64.ofNat j } := by
  have hframe := Block.frame_visible (E := E) hr hj
  have hle := hframe.length_le
  have hvis : (b.visible E c).length ≤ (frames E b.base b.records).length :=
    (frames_take E b.base b.records _).length_le
  rw [length_frame, List.length_drop] at hle
  rcases h with h | ⟨-, h⟩
  · exact frame_unique (hp.trans (h.drop _)) hframe (by omega) (by omega)
  · exact frame_unique hp (hframe.trans (h.drop _)) (by omega) (by omega)

/-- A store that still has the last of the frames has them all. -/
theorem Block.Matches.whole {bs : Bytes} (h : b.Matches E c bs) {j : Nat} {r : Record}
    (hr : b.records[j]? = some r) (hj : b.seen c = j + 1)
    (hp : frame (E.marshal { r with offset := b.base + UInt64.ofNat j }) <+:
      bs.drop (frames E b.base (b.records.take j)).length) : b.visible E c <+: bs := by
  rcases h with h | ⟨-, h⟩
  · have hsplit : b.visible E c = frames E b.base (b.records.take j) ++
        frame (E.marshal { r with offset := b.base + UInt64.ofNat j }) := by
      obtain ⟨hlt, -⟩ := List.getElem?_eq_some_iff.mp hr
      rw [Block.visible, hj, List.take_add_one, hr, Option.toList_some, frames_append,
        List.length_take, Nat.min_eq_left (by omega), frames, frames, List.append_nil]
    have hle := hp.length_le
    rw [List.length_drop, length_frame, lenWidth] at hle
    have hlen : bs.length = (b.visible E c).length := by
      refine Nat.le_antisymm h.length_le ?_
      rw [hsplit, List.length_append, length_frame, lenWidth]
      omega
    rw [h.eq_of_length hlen]
  · exact h

/-- Nothing is read from an empty store. -/
theorem Segment.Sound.read_empty {s : Segment} (hs : s.Sound c d) (hempty : s.store.bytes d = [])
    (off : UInt64) (r : Record) : (s.read E d off).1 ≠ .ok r := by
  intro hread
  obtain ⟨f, hf, hcar⟩ := hs.carries
  rw [← hcar.bytes, hempty] at hcar
  unfold Segment.read at hread
  split at hread
  · cases hread
  · split at hread
    · cases hread
    · next hstore =>
      obtain ⟨-, hframe⟩ := Store.read_ok hcar (by rw [hstore])
      have := hframe.length_le
      rw [length_frame, List.drop_nil, List.length_nil, lenWidth] at this
      omega

structure Segment.Remains (E : Env) (c : Config) (d : Dir) (s : Segment) (b : Block) : Prop
    extends s.Reopened c b where
  store : b.Matches E c (s.store.bytes d)

namespace Segment.Remains

variable {s : Segment}

theorem seen_le (hM : c.maxIndexBytes.toNat ≤ 12 * 2 ^ 32)
    (hroom : 12 * b.len ≤ c.maxIndexBytes.toNat) : b.seen c ≤ 2 ^ 32 := by
  unfold Block.seen
  split <;> omega

theorem frame (h : s.Remains E c d b) (hd : s.store.bytes d' = s.store.bytes d) :
    s.Remains E c d' b :=
  ⟨h.toReopened, by rw [hd]; exact h.store⟩

/-- What can be read of a segment is a record that was stored, with its frame
in its place. -/
theorem read_ok (h : s.Remains E c d b) (hs : s.Sound c d) (hc : c.Mappable)
    (hu : Unclosed E c d b) (hM : c.maxIndexBytes.toNat ≤ 12 * 2 ^ 32)
    (hroom : 12 * b.len ≤ c.maxIndexBytes.toNat)
    (hfit : (frames E b.base b.records).length < 2 ^ 63) {off : UInt64} {j : Nat}
    (hoff : off = b.base + UInt64.ofNat j) (hj : j < b.seen c) {r : Record}
    (hread : (s.read E d off).1 = .ok r) :
    ∃ r', b.records[j]? = some r' ∧ r = { r' with offset := off } ∧
      DistributedLog.frame (E.marshal r) <+:
        (s.store.bytes d).drop (frames E b.base (b.records.take j)).length := by
  have hsmall := seen_le hM hroom
  have hpad : s.index.Padded d c.maxIndexBytes (entriesOf E b.base b.records) := by
    refine ⟨hs.mapped, hs.mmapLen, h.full, hc.pos, hM, by rw [length_entriesOf]; exact hroom, ?_⟩
    rw [hs.indexName, h.base]
    exact hu
  obtain ⟨f, hf, hcar⟩ := hs.carries
  rw [← hcar.bytes] at hcar
  have hrel : (off - s.baseOffset).toNat = j := by
    rw [h.base, hoff, UInt64.add_comm, UInt64.add_sub_cancel, UInt64.toNat_ofNat',
      Nat.mod_eq_of_lt (by omega)]
  by_cases hlt : j < b.len
  · -- one of the entries that were written
    have hentry : s.index.read d (off - s.baseOffset).toInt64 =
        .ok (UInt32.ofNat j, UInt64.ofNat (frames E b.base (b.records.take j)).length) := by
      refine hpad.read (by rw [hrel]; omega) ?_
      rw [hrel, padEntries, List.getElem?_append_left (by rw [length_entriesOf]; exact hlt)]
      exact getElem?_entriesOf _ _ hlt
    have hpos : (UInt64.ofNat (frames E b.base (b.records.take j)).length).toNat =
        (frames E b.base (b.records.take j)).length := by
      have := (frames_take E b.base b.records j).length_le
      rw [UInt64.toNat_ofNat', Nat.mod_eq_of_lt (by omega)]
    obtain ⟨r', hr'⟩ : ∃ r', b.records[j]? = some r' := ⟨_, List.getElem?_eq_getElem hlt⟩
    simp only [Segment.read, hentry] at hread
    split at hread
    · cases hread
    · next p _ _ hstore =>
      obtain ⟨hlen, hframe⟩ := Store.read_ok hcar (by rw [hstore])
      rw [hpos] at hframe
      have hp := h.store.payload hfit hr' hj hlen hframe
      rw [hp, E.unmarshal_marshal] at hread
      cases hread
      rw [hp] at hframe
      exact ⟨r', hr', by rw [hoff], hframe⟩
  · -- twelve zeros, in a segment that never had an entry
    have hseen : b.len = 0 ∧ b.seen c = 1 := by
      by_cases hmore : 12 * (b.len + 1) ≤ c.maxIndexBytes.toNat
      · rw [Block.seen, if_pos hmore] at hj ⊢
        omega
      · rw [Block.seen, if_neg hmore] at hj
        omega
    have hempty : s.store.bytes d = [] := by
      rcases h.store with hle | ⟨hle, -⟩
      · rw [Block.visible, List.eq_nil_of_length_eq_zero hseen.1, List.take_nil] at hle
        exact List.prefix_nil.mp hle
      · omega
    exact absurd hread (hs.read_empty hempty off r)

end Segment.Remains

end DistributedLog
