import DistributedLog.Concurrent

/-!
# Concurrent calls are linearizable

The steps of `Concurrent` against the append-only sequence on which every
call takes effect at once: an append when it is done with the segments, a
query when it has its answer. `Pc.Asserts` is what a goroutine may rely on
at each point of its call, given the layout that the log stands for. Whoever
holds the lock for itself may change the layout and is alone with its
assertion; what those that share it rely on is about the layout only, and a
reader, which takes no lock, changes neither.
-/

namespace DistributedLog

/-! ## A log in the middle of an append -/

namespace Log

variable {E : Env} {c : Config} {d d' : Dir} {l : Log} {L : Layout} {orphans : Bytes}

/-- The log stands for `L` and the active store has more bytes than that. -/
structure PartWith (E : Env) (c : Config) (d : Dir) (l : Log) (L : Layout) (orphans : Bytes) :
    Prop where
  config : l.config = c
  mappable : c.Mappable
  present : d.present = true
  detached : l.detached = none
  segments : ∃ ss s, l.segments = ss ++ [s] ∧ AllHold E c d ss L.full ∧
    s.HoldsWith E c d L.act orphans
  names : d.names.Perm (L.blocks.flatMap Block.files)

theorem RepWith.part (h : l.RepWith E c d L orphans) : l.PartWith E c d L orphans :=
  ⟨h.config, h.mappable, h.present, h.detached, h.segments, h.names⟩

theorem PartWith.repWith (h : l.PartWith E c d L orphans)
    (hstuck : orphans ≠ [] → c.maxIndexBytes.toNat < 12 * (L.act.len + 1)) :
    l.RepWith E c d L orphans :=
  ⟨h.config, h.mappable, h.present, h.detached, h.segments, h.names, hstuck⟩

theorem PartWith.active (h : l.PartWith E c d L orphans) :
    ∃ s, l.activeSegment = some s ∧ s.HoldsWith E c d L.act orphans := by
  obtain ⟨ss, s, hseg, -, hs⟩ := h.segments
  exact ⟨s, by simp [activeSegment, h.detached, hseg], hs⟩

/-- The active segment has changed, in its own files. -/
theorem PartWith.setActive (h : l.PartWith E c d L orphans) {L' : Layout} {s' : Segment}
    {orphans' : Bytes} (hfull : L'.full = L.full) (hbase : L'.act.base = L.act.base)
    (hs' : s'.HoldsWith E c d' L'.act orphans') (ht : Directory.Touches L.act.files d d') :
    (l.setActive s').PartWith E c d' L' orphans' := by
  obtain ⟨ss, s, hseg, hss, -⟩ := h.segments
  have hset : l.setActive s' = { l with segments := ss ++ [s'] } := by
    simp [Log.setActive, h.detached, hseg]
  rw [hset]
  refine ⟨h.config, h.mappable, ht.present.trans h.present, h.detached, ⟨ss, s', rfl, ?_, hs'⟩,
    ht.names.trans (h.names.trans (.of_eq ?_))⟩
  · rw [hfull]
    exact AllHold.frame_of_ne hss ht.others fun b hb =>
      (Block.base_ne_of_start_lt (L.start_lt_act b hb)).symm
  · simp [Layout.blocks, Block.files, hfull, hbase]

theorem PartWith.flush (h : l.PartWith E c d L orphans) {i : Nat} {s : Segment}
    (hi : l.segments[i]? = some s) :
    ∃ st d', s.store.flush d = (.ok (), st, d') ∧ (l.setStore i st).PartWith E c d' L orphans := by
  obtain ⟨ss, t, hseg, hss, ht⟩ := h.segments
  rw [hseg] at hi
  rcases Nat.lt_or_ge i ss.length with hlt | hge
  · rw [List.getElem?_append_left hlt] at hi
    obtain ⟨b, hb, hhold⟩ := AllHold.getElem? hss hi
    obtain ⟨st, d', hfl, hrep, -, htouch⟩ := (Segment.repWith_nil.mpr hhold.rep).flush
    rw [hhold.base] at htouch
    have hmem : b ∈ L.full := List.mem_of_getElem? hb
    refine ⟨st, d', hfl, h.config, h.mappable, htouch.present.trans h.present, h.detached,
      ⟨ss.modify i fun s => { s with store := st }, t, ?_, ?_, ?_⟩, htouch.names.trans h.names⟩
    · rw [setStore, hseg, modify_append_left _ hlt]
    · exact AllHold.modify hss L.distinct_full hi hb ⟨hhold.base, Segment.repWith_nil.mp hrep⟩
        htouch.others
    · refine ht.frame fun n hn => htouch.others n (Block.files_disjoint ?_ n hn)
      exact (Block.base_ne_of_start_lt (L.start_lt_act b hmem)).symm
  · obtain rfl : i = ss.length := by
      have hlt := (List.getElem?_eq_some_iff.mp hi).1
      rw [List.length_append, List.length_singleton] at hlt
      omega
    rw [List.getElem?_concat_length, Option.some.injEq] at hi
    subst hi
    obtain ⟨st, d', hfl, hrep, -, htouch⟩ := ht.rep.flush
    rw [ht.base] at htouch
    have hset : l.setStore ss.length st = l.setActive { t with store := st } := by
      simp [setStore, Log.setActive, h.detached, hseg, modify_concat]
    refine ⟨st, d', hfl, ?_⟩
    rw [hset]
    exact h.setActive rfl rfl ⟨ht.base, hrep⟩ htouch

theorem flushStable_partWith (E : Env) (c : Config) (L : Layout) (orphans : Bytes) :
    Reader.FlushStable fun l d => l.PartWith E c d L orphans := by
  constructor
  · intro l d h s hs
    obtain ⟨ss, t, hseg, hss, ht⟩ := h.segments
    rw [hseg, List.mem_append, List.mem_singleton] at hs
    rcases hs with hs | rfl
    · obtain ⟨b, -, hhold⟩ := AllHold.of_mem hss hs
      exact ⟨hhold.rep.store.isOpen, hhold.rep.store.sound⟩
    · exact ⟨ht.rep.store.isOpen, ht.rep.store.sound⟩
  · intro l d d' i s st h hs hfl
    obtain ⟨st', d'', hfl', hpart⟩ := h.flush hs
    rw [hfl, Prod.mk.injEq, Prod.mk.injEq] at hfl'
    obtain ⟨-, rfl, rfl⟩ := hfl'
    exact hpart

/-- Every block has its segment, at the same position. -/
theorem RepWith.getElem?_block (h : l.RepWith E c d L orphans) {i : Nat} {b : Block}
    (hb : L.blocks[i]? = some b) :
    ∃ s o, l.segments[i]? = some s ∧ s.HoldsWith E c d b o := by
  obtain ⟨ss, t, hseg, hss, ht⟩ := h.segments
  have hlen : ss.length = L.full.length := List.Forall₂.length_eq hss
  rw [hseg]
  rcases Nat.lt_or_ge i L.full.length with hlt | hge
  · have hi : ss[i]? = some ss[i] := List.getElem?_eq_getElem (by omega)
    obtain ⟨b', hb', hhold⟩ := AllHold.getElem? hss hi
    rw [Layout.blocks, List.getElem?_append_left hlt, hb', Option.some.injEq] at hb
    subst hb
    refine ⟨_, [], ?_, hhold.base, Segment.repWith_nil.mpr hhold.rep⟩
    rw [List.getElem?_append_left (by omega), hi]
  · have hlt := (List.getElem?_eq_some_iff.mp hb).1
    rw [L.length_blocks] at hlt
    obtain rfl : i = L.full.length := by omega
    rw [Layout.blocks, List.getElem?_concat_length, Option.some.injEq] at hb
    subst hb
    refine ⟨t, orphans, ?_, ht⟩
    rw [← hlen, List.getElem?_concat_length]

theorem RepWith.block_of_segment (h : l.RepWith E c d L orphans) {s : Segment}
    (hs : s ∈ l.segments) : ∃ b ∈ L.blocks, ∃ o, s.HoldsWith E c d b o := by
  obtain ⟨ss, t, hseg, hss, ht⟩ := h.segments
  rw [hseg, List.mem_append, List.mem_singleton] at hs
  rcases hs with hs | rfl
  · obtain ⟨b, hb, hhold⟩ := AllHold.of_mem hss hs
    exact ⟨b, List.mem_append_left _ hb, [], hhold.base, Segment.repWith_nil.mpr hhold.rep⟩
  · exact ⟨L.act, List.mem_append_right _ (List.mem_singleton_self _), orphans, ht⟩

end Log

namespace Reader.FlushStable

variable {P : Log → Dir → Prop} {l : Log} {d d' : Dir} {i : Nat} {s : Segment} {st : Store}

/-- A store that has been read from has been flushed. -/
theorem readAt (hP : FlushStable P) (h : P l d) (hs : l.segments[i]? = some s) {n off : Nat}
    {res : Result (Bytes × Option Err)} (hread : s.store.readAt d n off = (res, st, d')) :
    P (l.setStore i st) d' := by
  obtain ⟨st', d'', hfl, -⟩ := Store.flush_ready (hP.ready h s (List.mem_of_getElem? hs)) d
  simp only [Store.readAt, hfl, Prod.mk.injEq] at hread
  obtain ⟨-, rfl, rfl⟩ := hread
  exact hP.flush h hs hfl

theorem storeRead (hP : FlushStable P) (h : P l d) (hs : l.segments[i]? = some s) {pos : UInt64}
    {res : Result Bytes} (hread : s.store.read d pos = (res, st, d')) :
    P (l.setStore i st) d' := by
  obtain ⟨st', d'', hfl, -⟩ := Store.flush_ready (hP.ready h s (List.mem_of_getElem? hs)) d
  have hstate : (s.store.read d pos).2 = (st', d'') := by
    simp only [Store.read, hfl]
    split
    · rfl
    · split <;> rfl
  rw [hread, Prod.mk.injEq] at hstate
  obtain ⟨rfl, rfl⟩ := hstate
  exact hP.flush h hs hfl

end Reader.FlushStable

namespace Segment

variable {E : Env} {c : Config} {d : Dir} {s : Segment} {rs : List Record} {orphans : Bytes}

/-- Where the index says that a record is. -/
theorem RepWith.lookup (h : s.RepWith E c d rs orphans) (off : UInt64) {k : Nat}
    (hk : k < rs.length) (hoff : off.toNat = s.baseOffset.toNat + k) (hk32 : k < 2 ^ 32) :
    s.index.read d (off - s.baseOffset).toInt64 =
      .ok (UInt32.ofNat k, UInt64.ofNat (frames E s.baseOffset (rs.take k)).length) := by
  have hroom := h.index.room
  have hlim := h.index.limit
  rw [length_entriesOf] at hroom
  have hrel : (off - s.baseOffset).toNat = k := by
    rw [UInt64.toNat_sub_of_le _ _ (UInt64.le_iff_toNat_le.mpr (by omega)), hoff]
    omega
  refine Index.read_mod h.index ?_ (by omega)
  rw [hrel, Nat.mod_eq_of_lt hk32]
  exact getElem?_entriesOf _ _ hk

/-- The second half of an append: the index gets the entry of the frame that
the store has already. -/
theorem RepWith.write_index {r : Record} (h : s.RepWith E c d rs
      (DistributedLog.frame (E.marshal { r with offset := s.nextOffset }))) {pos : UInt64}
    (hpos : pos = UInt64.ofNat (frames E s.baseOffset rs).length)
    (hroom : 12 * (rs.length + 1) ≤ c.maxIndexBytes.toNat) :
    ∃ ix d', s.index.write d (s.nextOffset - s.baseOffset).toUInt32 pos = (.ok (), ix, d') ∧
      Directory.Touches (segmentFiles s.baseOffset) d d' ∧
      (s.baseOffset.toNat + rs.length + 1 < 2 ^ 64 →
        Rep E c d' { s with index := ix, nextOffset := s.nextOffset + 1 } (rs ++ [r])) := by
  have hone : (1 : UInt64).toNat = 1 := rfl
  have hnext : s.nextOffset = s.baseOffset + UInt64.ofNat rs.length := by
    refine UInt64.toNat_inj.mp ?_
    have hlt := s.nextOffset.toNat_lt
    have hn := h.next
    rw [UInt64.toNat_add, UInt64.toNat_ofNat', hn]
    omega
  have hrel : (s.nextOffset - s.baseOffset).toUInt32 = UInt32.ofNat rs.length := by
    rw [hnext, UInt64.add_comm, UInt64.add_sub_cancel, UInt64.toUInt32_ofNat']
  have hframes : frames E s.baseOffset rs ++
      DistributedLog.frame (E.marshal { r with offset := s.nextOffset }) =
      frames E s.baseOffset (rs ++ [r]) := by
    rw [frames_append, ← hnext, frames, frames, List.append_nil]
  obtain ⟨d', hw, hix, ht⟩ := Index.write_spec h.index
    (s.nextOffset - s.baseOffset).toUInt32 pos (by rw [length_entriesOf]; exact hroom)
  rw [h.indexName] at ht
  refine ⟨_, d', hw, ht.mono (by simp [segmentFiles]), fun hlt => ?_⟩
  have hcar := h.store
  have hsize := h.size
  rw [hframes] at hcar hsize
  refine ⟨h.storeName, h.indexName, h.config, ?_, hcar.frame (ht.others _ ?_), hsize, ?_⟩
  · rw [UInt64.toNat_add, h.next, hone, List.length_append, List.length_singleton]
    exact Nat.mod_eq_of_lt hlt
  · rw [h.storeName, List.mem_singleton]
    exact storeName_ne_indexName _ _
  · rw [hrel, hpos] at hix
    rw [entriesOf_append]
    exact hix

end Segment

namespace Concurrent

variable {E : Env} {c : Config} {L : Layout} {l : Log} {d : Dir}

/-! ## What holds at each point of a call -/

/-- The entry that the index has given for an offset. -/
def Located (E : Env) (L : Layout) (off : UInt64) (i : Nat) (pos : UInt64) : Prop :=
  ∃ b k r, L.blocks[i]? = some b ∧ b.records[k]? = some r ∧ off.toNat = b.start + k ∧
    pos = UInt64.ofNat (frames E b.base (b.records.take k)).length ∧
    L.abs.get? off.toNat = some r

/-- The frame of a record that is about to be appended. -/
def pendingFrame (E : Env) (L : Layout) (r : Record) : Bytes :=
  frame (E.marshal { r with offset := UInt64.ofNat L.next })

def Pc.Asserts (E : Env) (c : Config) (L : Layout) (l : Log) (d : Dir) : Pc → Prop
  | .locked _ | .unlocking _ => ∃ o, l.RepWith E c d L o
  | .stored r pos => ∃ o, l.PartWith E c d L (o ++ pendingFrame E L r) ∧
      pos = UInt64.ofNat (frames E L.act.base L.act.records ++ o).length ∧
      (o ≠ [] → c.maxIndexBytes.toNat < 12 * (L.act.len + 1))
  | .indexed r off => off = UInt64.ofNat L.next ∧
      ∃ hnext : L.next + 1 < 2 ^ 64, l.Rep E c d (L.push r hnext)
  | .located off i pos => Located E L off i pos
  | _ => True

theorem asserts_of_nothing {k : Pc} (h : k.hold = .nothing) : k.Asserts E c L l d := by
  cases k
  case locked | stored | indexed | unlocking | located => cases h
  all_goals exact trivial

/-- Without the lock to itself a goroutine relies on the layout only. -/
theorem asserts_of_shared {k : Pc} (hk : k.hold ≠ .exclusive) (h : k.Asserts E c L l d)
    (l' : Log) (d' : Dir) : k.Asserts E c L l' d' := by
  cases k
  case locked | stored | indexed | unlocking => exact absurd rfl hk
  all_goals exact h

theorem nextOffset_eq {s : Segment} {o : Bytes} (hs : s.HoldsWith E c d L.act o) :
    s.nextOffset = UInt64.ofNat L.next := by
  refine UInt64.toNat_inj.mp ?_
  rw [hs.next, UInt64.toNat_ofNat']
  exact (Nat.mod_eq_of_lt L.bounded).symm

/-! ### Appending -/

theorem advance_locked {o : Bytes} (h : l.RepWith E c d L o) (r : Record) :
    ∃ pos l' d', (Pc.locked (some r)).advance E l d = some (.stored r pos, l', d') ∧
      (Pc.stored r pos).Asserts E c L l' d' := by
  obtain ⟨s, hact, hs⟩ := h.part.active
  have hoff := nextOffset_eq hs
  obtain ⟨st, d', happ, hname, hcar, hsize, hindex, ht⟩ :=
    hs.rep.append_store (E.marshal { r with offset := s.nextOffset })
  have hs' : Segment.HoldsWith E c d' { s with store := st } L.act (o ++ pendingFrame E L r) := by
    rw [pendingFrame, ← hoff]
    exact ⟨hs.base, ⟨hname, hs.rep.indexName, hs.rep.config, hcar, hsize, hindex⟩, hs.rep.next⟩
  rw [hs.base] at ht
  refine ⟨s.store.size, l.setActive { s with store := st }, d',
    by simp only [Pc.advance, Pc.writeStore, hact, happ], o, ?_, ?_, h.stuck⟩
  · exact h.part.setActive rfl rfl hs' (ht.mono (by simp [Block.files, segmentFiles]))
  · rw [hs.rep.size, hs.base]

/-- The index takes the entry, or it is full and the frame is left over. -/
theorem advance_stored {r : Record} {pos : UInt64} (h : (Pc.stored r pos).Asserts E c L l d) :
    ∃ k l' d', (Pc.stored r pos).advance E l d = some (k, l', d') ∧
      ((k = .indexed r (UInt64.ofNat L.next) ∧
        ∀ hnext : L.next + 1 < 2 ^ 64, l'.Rep E c d' (L.push r hnext)) ∨
      (k = .unlocking (.offset (.error (.err .eof))) ∧ ∃ o, l'.RepWith E c d' L o)) := by
  obtain ⟨o, hpart, hpos, hstuck⟩ := h
  obtain ⟨s, hact, hs⟩ := hpart.active
  have hoff := nextOffset_eq hs
  rcases Nat.lt_or_ge c.maxIndexBytes.toNat (12 * (L.act.len + 1)) with hfull | hroom
  · have hw := Index.write_full hs.rep.index (s.nextOffset - s.baseOffset).toUInt32 pos
      (by rw [length_entriesOf]; exact hfull)
    refine ⟨_, l, d, ?_, .inr ⟨rfl, _, hpart.repWith fun _ => hfull⟩⟩
    simp only [Pc.advance, Pc.writeIndex, hact, hw, Log.setActive_self hact]
  · obtain rfl : o = [] := by
      by_contra hne
      have := hstuck hne
      omega
    rw [List.nil_append, pendingFrame, ← hoff] at hs
    rw [List.append_nil, ← hs.base] at hpos
    obtain ⟨ix, d', hw, ht, hrep⟩ := hs.rep.write_index hpos hroom
    rw [hs.base] at ht
    refine ⟨_, _, d', by simp only [Pc.advance, Pc.writeIndex, hact, hw]; rfl,
      .inl ⟨by rw [hoff], ?_⟩⟩
    intro hnext
    have hs' : Segment.HoldsWith E c d'
        { s with index := ix, nextOffset := s.nextOffset + 1 } (L.push r hnext).act [] :=
      ⟨hs.base, Segment.repWith_nil.mpr (hrep (by rw [hs.base]; exact hnext))⟩
    have hpart' : (l.setActive _).PartWith E c d' (L.push r hnext) [] :=
      hpart.setActive rfl rfl hs' ht
    exact (hpart'.repWith fun hne => absurd rfl hne).rep

/-- A new segment follows when the active one is full. -/
theorem advance_indexed {r : Record} {hnext : L.next + 1 < 2 ^ 64}
    (h : l.Rep E c d (L.push r hnext)) :
    ∃ l' d', (Pc.indexed r (UInt64.ofNat L.next)).advance E l d =
        some (.unlocking (.offset (.ok (UInt64.ofNat L.next))), l', d') ∧
      l'.Rep E c d' (L.grow E c r hnext) := by
  obtain ⟨ss, s, hseg, -, hs, hact⟩ := h.active
  unfold Layout.grow
  split
  case isTrue hmax =>
    have hnextoff : UInt64.ofNat L.next + 1 = UInt64.ofNat (L.push r hnext).next := by
      rw [← UInt64.ofNat_one, ← UInt64.ofNat_add, ← (L.push r hnext).abs_next, L.abs_push,
        AppendOnly.next_push, L.abs_next]
    obtain ⟨l', d', hnew, hrep⟩ := h.newSegment (L.len_push r hnext)
    refine ⟨l', d', ?_, hrep⟩
    simp only [Pc.advance, Pc.rollOver, hact, hs.isMaxed, hmax, if_true, hnextoff, hnew]
  case isFalse hmax =>
    refine ⟨l, d, ?_, h⟩
    simp only [Pc.advance, Pc.rollOver, hact, hs.isMaxed, if_neg hmax]

/-! ### Reading -/

theorem advance_read {o : Bytes} (h : l.RepWith E c d L o)
    (hM : c.maxIndexBytes.toNat ≤ 12 * 2 ^ 32) (off : UInt64) :
    ∃ k, (Pc.querying (.read off)).advance E l d = some (k, l, d) ∧
      ((∃ i pos, k = .located off i pos ∧ Located E L off i pos) ∨
        k = .runlocking (.record (Log.readOf L.abs off))) := by
  by_cases hin : L.lowest ≤ off.toNat ∧ off.toNat < L.next
  · obtain ⟨pre, b, post, r, hblocks, hlo, hhi, hbefore, hr, habs⟩ := L.exists_cover hin.1 hin.2
    have hb : L.blocks[pre.length]? = some b := by simp [hblocks]
    obtain ⟨s, o', hseg, hs⟩ := h.getElem?_block hb
    obtain ⟨hlt, hget⟩ := List.getElem?_eq_some_iff.mp hseg
    have hidx : l.segments.findIdx? (fun s => decide (s.baseOffset ≤ off ∧ off < s.nextOffset)) =
        some pre.length := by
      refine List.findIdx?_eq_some_iff_getElem.mpr ⟨hlt, ?_, fun j hj hcov => ?_⟩
      · rw [hget]
        exact decide_eq_true ((hs.covers_iff off).mpr ⟨hlo, hhi⟩)
      · have hbj : L.blocks[j]? = some pre[j] := by
          rw [hblocks, List.getElem?_append_left hj, List.getElem?_eq_getElem hj]
        obtain ⟨t, o'', hsegj, ht⟩ := h.getElem?_block hbj
        rw [(List.getElem?_eq_some_iff.mp hsegj).2, decide_eq_true_eq] at hcov
        have hend := hbefore pre[j] (List.getElem_mem hj)
        have := (ht.covers_iff off).mp hcov
        omega
    have hk : off.toNat - b.start < b.records.length := (List.getElem?_eq_some_iff.mp hr).1
    have h32 := h.entries_le hM b (List.mem_of_getElem? hb)
    have hlook := hs.rep.lookup off hk (by rw [hs.base]; unfold Block.start at *; omega)
      (by unfold Block.len at h32; omega)
    refine ⟨_, by simp only [Pc.advance, Pc.readIndex, hidx, hseg, hlook]; rfl, .inl ⟨_, _, rfl, b,
      off.toNat - b.start, r, hb, hr, by omega, by rw [hs.base], habs⟩⟩
  · have hout : off.toNat < L.lowest ∨ L.next ≤ off.toNat := by omega
    have hidx : l.segments.findIdx? (fun s => decide (s.baseOffset ≤ off ∧ off < s.nextOffset)) =
        none := by
      refine List.findIdx?_eq_none_iff.mpr fun s hs => decide_eq_false fun hcov => ?_
      obtain ⟨b, hb, o', hhold⟩ := h.block_of_segment hs
      exact L.not_cover hout b hb ((hhold.covers_iff off).mp hcov)
    have hnone : L.abs.get? off.toNat = none :=
      AppendOnly.get?_eq_none_iff.mpr (by rw [L.abs_next]; exact hout)
    refine ⟨_, by simp only [Pc.advance, Pc.readIndex, hidx]; rfl, .inr ?_⟩
    simp only [Log.readOf, hnone]

theorem advance_located {o : Bytes} (h : l.RepWith E c d L o) (hfit : L.Fits E)
    (hM : c.maxIndexBytes.toNat ≤ 12 * 2 ^ 32) {off : UInt64} {i : Nat} {pos : UInt64}
    (hloc : Located E L off i pos) :
    ∃ l' d', (Pc.located off i pos).advance E l d =
        some (.runlocking (.record (Log.readOf L.abs off)), l', d') ∧ l'.RepWith E c d' L o := by
  obtain ⟨b, k, r, hb, hk, hoff, hpos, habs⟩ := hloc
  have hmem := List.mem_of_getElem? hb
  obtain ⟨s, o', hseg, hs⟩ := h.getElem?_block hb
  have hlt : k < b.records.length := (List.getElem?_eq_some_iff.mp hk).1
  have h32 := h.entries_le hM b hmem
  have hbase : off.toNat = s.baseOffset.toNat + k := by rw [hs.base]; exact hoff
  have hlook := hs.rep.lookup off hlt hbase (by unfold Block.len at h32; omega)
  rw [hs.base, ← hpos] at hlook
  obtain ⟨s', d', hread, -⟩ := hs.rep.read_spec off hk hbase (by unfold Block.len at h32; omega)
    (by rw [hs.base]; exact hfit b hmem)
  rw [← hs.base] at hlook
  have hok : Log.readOf L.abs off = .ok { r with offset := off } := by
    simp only [Log.readOf, habs]
  rcases hst : s.store.read d pos with ⟨e | p, st, d₁⟩
  · simp only [Segment.read, hlook, hst] at hread
    cases hread
  · cases hun : E.unmarshal p with
    | none =>
        simp only [Segment.read, hlook, hst, hun] at hread
        cases hread
    | some r' =>
        simp only [Segment.read, hlook, hst, hun] at hread
        cases hread
        refine ⟨l.setStore i st, d',
          by simp only [Pc.advance, Pc.readStore, hseg, hst, hun, hok], ?_⟩
        exact (Log.flushStable_repWith E c L o).storeRead h hseg hst

/-! ## The simulation -/

/-- The log stands for `L` as far as the goroutines have got. -/
structure Coherent {τ : Type} (E : Env) (c : Config) (L : Layout) (s : State τ) : Prop where
  asserts : ∀ t, (s.pc t).Asserts E c L s.log s.dir
  unlocked : (∀ t, (s.pc t).hold ≠ .exclusive) → ∃ o, s.log.RepWith E c s.dir L o

variable {τ : Type} [DecidableEq τ] {pc : τ → Pc} {t : τ} {k : Pc} {l' : Log} {d' : Dir}

/-- Whoever holds the lock for itself may change everything. -/
theorem coherent_of_exclusive (hex : Exclusion (Pc.hold ∘ pc)) (ht : (pc t).hold = .exclusive)
    (hk : k.hold = .exclusive) (h : k.Asserts E c L l d) :
    Coherent E c L ⟨l, d, Function.update pc t k⟩ := by
  refine ⟨fun u => ?_, fun hno => absurd hk ?_⟩
  · by_cases hu : u = t
    · subst hu
      simp only [Function.update_self]
      exact h
    · simp only [Function.update_of_ne hu]
      exact asserts_of_nothing (hex t ht u hu)
  · have := hno t
    simp only [Function.update_self] at this
    exact this

/-- The others leave the layout as it is. -/
theorem Coherent.update (h : Coherent E c L ⟨l, d, pc⟩) (hno : ∀ u, (pc u).hold ≠ .exclusive)
    {o : Bytes} (hrep : l'.RepWith E c d' L o) (hk : k.Asserts E c L l' d') :
    Coherent E c L ⟨l', d', Function.update pc t k⟩ := by
  refine ⟨fun u => ?_, fun _ => ⟨o, hrep⟩⟩
  by_cases hu : u = t
  · subst hu
    simp only [Function.update_self]
    exact hk
  · simp only [Function.update_of_ne hu]
    exact asserts_of_shared (hno u) (h.asserts u) l' d'

/-- A goroutine goes on with what it holds. -/
theorem Coherent.keep (h : Coherent E c L ⟨l, d, pc⟩) (hhold : k.hold = (pc t).hold)
    (hk : k.Asserts E c L l d) : Coherent E c L ⟨l, d, Function.update pc t k⟩ := by
  refine ⟨fun u => ?_, fun hno => h.unlocked fun u => ?_⟩
  · by_cases hu : u = t
    · subst hu
      simp only [Function.update_self]
      exact hk
    · simp only [Function.update_of_ne hu]
      exact h.asserts u
  · have := hno u
    by_cases hu : u = t
    · subst hu
      simp only [Function.update_self, hhold] at this
      exact this
    · simp only [Function.update_of_ne hu] at this
      exact this

/-- Reading from a store keeps every assertion. -/
theorem asserts_readAt {i n off : Nat} {s : Segment} {st : Store}
    {res : Result (Bytes × Option Err)} (hs : l.segments[i]? = some s)
    (hread : s.store.readAt d n off = (res, st, d'))
    (h : k.Asserts E c L l d) : k.Asserts E c L (l.setStore i st) d' := by
  cases k
  case locked | unlocking =>
    obtain ⟨o, hrep⟩ := h
    exact ⟨o, (Log.flushStable_repWith E c L o).readAt hrep hs hread⟩
  case stored =>
    obtain ⟨o, hpart, hrest⟩ := h
    exact ⟨o, (Log.flushStable_partWith E c L _).readAt hpart hs hread, hrest⟩
  case indexed r off' =>
    obtain ⟨hoff, hnext, hrep⟩ := h
    exact ⟨hoff, hnext, (Log.flushStable_rep E c _).readAt hrep hs hread⟩
  all_goals exact h

/-- Who shares the lock shares it with nobody that has it for itself. -/
theorem not_exclusive_of_shared (hex : Exclusion (Pc.hold ∘ pc)) (ht : (pc t).hold = .shared)
    (u : τ) : (pc u).hold ≠ .exclusive := by
  intro hu
  by_cases hut : t = u
  · subst hut
    rw [ht] at hu
    cases hu
  · have hnothing : (pc t).hold = .nothing := hex u hu t hut
    rw [ht] at hnothing
    cases hnothing

/-- The goroutines have seen of the log what the clients of the atomic
sequence have. -/
structure Sim (E : Env) (c : Config) (s : State τ)
    (x : Atomic.State τ (AppendOnly Record) Op Reply) : Prop where
  exclusion : Exclusion (Pc.hold ∘ s.pc)
  status : x.status = Pc.status ∘ s.pc
  layout : ∃ L : Layout, L.abs = x.object ∧ L.Fits E ∧ Coherent E c L s

variable {x : Atomic.State τ (AppendOnly Record) Op Reply}

/-- A step that no client can have seen. -/
theorem Sim.silent (h : Sim E c ⟨l, d, pc⟩ x) (hstatus : k.status = (pc t).status)
    (hhold : Grants (Pc.hold ∘ pc) t k.hold ∨ k.hold = (pc t).hold)
    (hlayout : ∃ L : Layout, L.abs = x.object ∧ L.Fits E ∧
      Coherent E c L ⟨l', d', Function.update pc t k⟩) :
    ∃ es x', Trace (Atomic.Step Spec) x es x' ∧ es.reduceOption = [] ∧
      Sim E c ⟨l', d', Function.update pc t k⟩ x' := by
  refine ⟨[], x, .init, rfl, ?_, ?_, hlayout⟩
  · rw [Function.comp_update]
    exact h.exclusion.update hhold
  · rw [Function.comp_update, hstatus, h.status]
    exact (Function.update_eq_self t (Pc.status ∘ pc)).symm

/-- The step in which a call takes effect. -/
theorem Sim.perform (h : Sim E c ⟨l, d, pc⟩ x) {op : Op} {res : Reply} {L : Layout}
    (hop : (pc t).status = .pending op) (hres : k.status = .done res)
    (hspec : Spec x.object op res L.abs) (hhold : k.hold = (pc t).hold) (hfit : L.Fits E)
    (hcoh : Coherent E c L ⟨l', d', Function.update pc t k⟩) :
    ∃ es x', Trace (Atomic.Step Spec) x es x' ∧ es.reduceOption = [] ∧
      Sim E c ⟨l', d', Function.update pc t k⟩ x' := by
  obtain ⟨a, status⟩ := x
  obtain rfl : status = Pc.status ∘ pc := h.status
  refine ⟨[none], ⟨L.abs, Function.update (Pc.status ∘ pc) t (.done res)⟩,
    Trace.init.snoc (.perform hop hspec), rfl, ?_, ?_, L, rfl, hfit, hcoh⟩
  · rw [Function.comp_update]
    exact h.exclusion.update (.inr hhold)
  · rw [Function.comp_update, hres]

/-- One step under the lock. -/
theorem Sim.advance (hM : c.maxIndexBytes.toNat ≤ 12 * 2 ^ 32) (h : Sim E c ⟨l, d, pc⟩ x)
    (hadv : (pc t).advance E l d = some (k, l', d')) (hfiles : l'.FilesFit d')
    (hoff : k.inBounds = true) :
    ∃ es x', Trace (Atomic.Step Spec) x es x' ∧ es.reduceOption = [] ∧
      Sim E c ⟨l', d', Function.update pc t k⟩ x' := by
  obtain ⟨L, habs, hfit, hcoh⟩ := h.layout
  have hA := hcoh.asserts t
  simp only at hA
  cases hpc : pc t with
  | idle | called | unlocking | runlocking | returned =>
      rw [hpc] at hadv
      cases hadv
  | locked record =>
      have hhold : (pc t).hold = .exclusive := by rw [hpc]; rfl
      rw [hpc] at hadv hA
      obtain ⟨o, hrep⟩ := hA
      cases record with
      | none =>
          cases hadv
          refine h.perform (L := L) (by rw [hpc]; rfl) rfl (by rw [habs]; exact .nil _)
            hhold.symm hfit ?_
          exact coherent_of_exclusive h.exclusion hhold rfl ⟨o, hrep⟩
      | some r =>
          obtain ⟨pos, l₁, d₁, hadv₁, hA₁⟩ := advance_locked hrep r
          rw [hadv₁] at hadv
          cases hadv
          refine h.silent (by rw [hpc]; rfl) (.inr hhold.symm) ⟨L, habs, hfit, ?_⟩
          exact coherent_of_exclusive h.exclusion hhold rfl hA₁
  | stored r pos =>
      have hhold : (pc t).hold = .exclusive := by rw [hpc]; rfl
      rw [hpc] at hadv hA
      obtain ⟨k₁, l₁, d₁, hadv₁, hk⟩ := advance_stored hA
      rw [hadv₁] at hadv
      cases hadv
      rcases hk with ⟨rfl, hrep⟩ | ⟨rfl, ho⟩
      · have hbound : L.next < 2 ^ 64 := L.bounded
        have hlt := of_decide_eq_true hoff
        rw [UInt64.toNat_ofNat', Nat.mod_eq_of_lt hbound] at hlt
        refine h.silent (by rw [hpc]; rfl) (.inr hhold.symm) ⟨L, habs, hfit, ?_⟩
        exact coherent_of_exclusive h.exclusion hhold rfl ⟨rfl, by omega, hrep _⟩
      · refine h.perform (by rw [hpc]; rfl) rfl (by rw [habs]; exact .full _ r) hhold.symm hfit ?_
        exact coherent_of_exclusive h.exclusion hhold rfl ho
  | indexed r off =>
      have hhold : (pc t).hold = .exclusive := by rw [hpc]; rfl
      rw [hpc] at hadv hA
      obtain ⟨rfl, hnext, hrep⟩ := hA
      obtain ⟨l₁, d₁, hadv₁, hrep₁⟩ := advance_indexed hrep
      rw [hadv₁] at hadv
      cases hadv
      refine h.perform (L := L.grow E c r hnext) (by rw [hpc]; rfl) rfl ?_ hhold.symm
        (hrep₁.fits hfiles) (coherent_of_exclusive h.exclusion hhold rfl ⟨[], hrep₁.repWith⟩)
      rw [L.abs_grow, habs, ← L.abs_next, habs]
      exact .append _ r
  | querying q =>
      have hhold : (pc t).hold = .shared := by rw [hpc]; rfl
      have hno := not_exclusive_of_shared h.exclusion hhold
      obtain ⟨o, hrep⟩ := hcoh.unlocked hno
      rw [hpc] at hadv
      cases q with
      | read off =>
          obtain ⟨k₁, hadv₁, hk⟩ := advance_read hrep hM off
          rw [hadv₁] at hadv
          cases hadv
          rcases hk with ⟨i, pos, rfl, hloc⟩ | rfl
          · exact h.silent (by rw [hpc]; rfl) (.inr hhold.symm)
              ⟨L, habs, hfit, hcoh.update hno hrep hloc⟩
          · refine h.perform (L := L) (by rw [hpc]; rfl) rfl ?_ hhold.symm hfit
              (hcoh.update hno hrep trivial)
            rw [habs]
            exact .read _ off
      | lowestOffset =>
          rw [Pc.advance, hrep.lowestOffset] at hadv
          cases hadv
          refine h.perform (L := L) (by rw [hpc]; rfl) rfl ?_ hhold.symm hfit
            (hcoh.update hno hrep trivial)
          rw [show L.lowest = L.abs.base from rfl, habs]
          exact .lowestOffset _
      | highestOffset =>
          rw [Pc.advance, hrep.highestOffset] at hadv
          cases hadv
          refine h.perform (L := L) (by rw [hpc]; rfl) rfl ?_ hhold.symm hfit
            (hcoh.update hno hrep trivial)
          rw [← L.abs_next, habs]
          exact .highestOffset _
  | located off i pos =>
      have hhold : (pc t).hold = .shared := by rw [hpc]; rfl
      have hno := not_exclusive_of_shared h.exclusion hhold
      obtain ⟨o, hrep⟩ := hcoh.unlocked hno
      rw [hpc] at hadv hA
      obtain ⟨l₁, d₁, hadv₁, hrep₁⟩ := advance_located hrep hfit hM hA
      rw [hadv₁] at hadv
      cases hadv
      refine h.perform (L := L) (by rw [hpc]; rfl) rfl ?_ hhold.symm hfit
        (hcoh.update hno hrep₁ trivial)
      rw [habs]
      exact .read _ off

/-- Getting the lock: a writer is then alone, a reader finds no writer. -/
theorem Sim.lock (h : Sim E c ⟨l, d, pc⟩ x) {op : Op} (hpc : pc t = .called op)
    (hgrants : Grants (Pc.hold ∘ pc) t (Pc.enter op).hold) :
    ∃ es x', Trace (Atomic.Step Spec) x es x' ∧ es.reduceOption = [] ∧
      Sim E c ⟨l, d, Function.update pc t (.enter op)⟩ x' := by
  obtain ⟨L, habs, hfit, hcoh⟩ := h.layout
  have hstatus : (Pc.enter op).status = (pc t).status := by
    rw [hpc]
    cases op <;> rfl
  refine h.silent hstatus (.inl hgrants) ⟨L, habs, hfit, ?_⟩
  cases op with
  | append record =>
      have hothers : ∀ u, u ≠ t → (pc u).hold = .nothing := hgrants
      have hno : ∀ u, (pc u).hold ≠ .exclusive := by
        intro u hu
        by_cases hut : u = t
        · subst hut
          rw [hpc] at hu
          cases hu
        · rw [hothers u hut] at hu
          cases hu
      obtain ⟨o, hrep⟩ := hcoh.unlocked hno
      exact hcoh.update hno hrep ⟨o, hrep⟩
  | query q =>
      obtain ⟨o, hrep⟩ := hcoh.unlocked hgrants
      exact hcoh.update hgrants hrep trivial

/-- Releasing it. -/
theorem Sim.unlock (h : Sim E c ⟨l, d, pc⟩ x) (hrel : (pc t).release = some k) :
    ∃ es x', Trace (Atomic.Step Spec) x es x' ∧ es.reduceOption = [] ∧
      Sim E c ⟨l, d, Function.update pc t k⟩ x' := by
  obtain ⟨L, habs, hfit, hcoh⟩ := h.layout
  cases hpc : pc t with
  | idle | called | locked | stored | indexed | querying | located | returned =>
      rw [hpc] at hrel
      cases hrel
  | unlocking res =>
      have hhold : (pc t).hold = .exclusive := by rw [hpc]; rfl
      have hA := hcoh.asserts t
      simp only [hpc] at hA
      rw [hpc] at hrel
      cases hrel
      obtain ⟨o, hrep⟩ := hA
      refine h.silent (by rw [hpc]; rfl) (.inl trivial) ⟨L, habs, hfit, fun u => ?_,
        fun _ => ⟨o, hrep⟩⟩
      by_cases hu : u = t
      · subst hu
        simp only [Function.update_self]
        exact trivial
      · simp only [Function.update_of_ne hu]
        exact hcoh.asserts u
  | runlocking res =>
      have hhold : (pc t).hold = .shared := by rw [hpc]; rfl
      have hno := not_exclusive_of_shared h.exclusion hhold
      obtain ⟨o, hrep⟩ := hcoh.unlocked hno
      rw [hpc] at hrel
      cases hrel
      exact h.silent (by rw [hpc]; rfl) (.inl trivial)
        ⟨L, habs, hfit, hcoh.update hno hrep trivial⟩

/-- Every step is matched by what the atomic sequence does. -/
theorem Sim.step (hM : c.maxIndexBytes.toNat ≤ 12 * 2 ^ 32) {s s' : State τ}
    {e : Option (Action τ Op Reply)} (h : Sim E c s x) (hstep : Step E s e s') :
    ∃ es x', Trace (Atomic.Step Spec) x es x' ∧ es.reduceOption = e.toList ∧ Sim E c s' x' := by
  cases hstep with
  | @call l d pc t op hpc =>
      obtain ⟨a, status⟩ := x
      obtain rfl : status = Pc.status ∘ pc := h.status
      obtain ⟨L, habs, hfit, hcoh⟩ := h.layout
      have hidle : (Pc.status ∘ pc) t = .idle := by rw [Function.comp_apply, hpc]; rfl
      refine ⟨_, _, Trace.init.snoc (.call op hidle), rfl, ?_, ?_, L, habs, hfit, ?_⟩
      · rw [Function.comp_update]
        exact h.exclusion.update (.inl trivial)
      · rw [Function.comp_update]
        rfl
      · exact hcoh.keep (by rw [hpc]; rfl) trivial
  | lock hpc hgrants => exact h.lock hpc hgrants
  | advance hadv hfiles hoff => exact h.advance hM hadv hfiles hoff
  | unlock hrel => exact h.unlock hrel
  | @reply l d pc t res hpc =>
      obtain ⟨a, status⟩ := x
      obtain rfl : status = Pc.status ∘ pc := h.status
      obtain ⟨L, habs, hfit, hcoh⟩ := h.layout
      have hdone : (Pc.status ∘ pc) t = .done res := by rw [Function.comp_apply, hpc]; rfl
      refine ⟨_, _, Trace.init.snoc (.reply hdone), rfl, ?_, ?_, L, habs, hfit, ?_⟩
      · rw [Function.comp_update]
        exact h.exclusion.update (.inl trivial)
      · rw [Function.comp_update]
        rfl
      · exact hcoh.keep (by rw [hpc]; rfl) trivial
  | readAt hseg hread =>
      obtain ⟨L, habs, hfit, hcoh⟩ := h.layout
      refine ⟨[], x, .init, rfl, h.exclusion, h.status, L, habs, hfit,
        fun u => asserts_readAt hseg hread (hcoh.asserts u), fun hno => ?_⟩
      obtain ⟨o, hrep⟩ := hcoh.unlocked hno
      exact ⟨o, (Log.flushStable_repWith E c L o).readAt hrep hseg hread⟩

/-- **Linearizability.** Whatever the goroutines do and however their steps
interleave, with each other and with those of readers, the clients see the
calls of an append-only sequence, each taking effect at once. Whenever
nobody is appending the log shows that sequence. -/
theorem log_linearizable (E : Env) (c : Config) (hM : c.maxIndexBytes.toNat ≤ 12 * 2 ^ 32) :
    ∃ l₀ d₀, newLog Directory.empty c = (.ok (), l₀, d₀) ∧
      Linearizable (Step E) (⟨l₀, d₀, fun _ => .idle⟩ : State τ) Spec
        ⟨c.initialOffset.toNat, []⟩ fun s x =>
          (∀ t, (s.pc t).hold ≠ .exclusive) → Shows E (s.log, s.dir) x.object := by
  have hM' := Config.withDefaults_le hM
  obtain ⟨l₀, d₀, hnew, L, hrep, hfit, habs⟩ := Simulates.start E c (by omega)
  refine ⟨l₀, d₀, hnew, linearizable_of_simulation (R := Sim E c.withDefaults) ?_
    (fun s x e s' h hstep => h.step hM' hstep) ?_⟩
  · refine ⟨fun t ht => ?_, rfl, L, habs, hfit, fun _ => trivial, fun _ => ⟨[], hrep.repWith⟩⟩
    cases ht
  · intro s x h hno
    obtain ⟨L, habs, hfit, hcoh⟩ := h.layout
    obtain ⟨o, hrep⟩ := hcoh.unlocked hno
    rw [← habs]
    exact hrep.shows hM' hfit

/-- Two goroutines: `false` appends, and while its frame is in the store but
not in the index a reader reads that store; then `true` reads the record. -/
theorem trace_interleaved :
    ∃ es s, Trace (Step goEnv) (⟨(newLog Directory.empty ⟨64, 12, 5⟩).2.1,
        (newLog Directory.empty ⟨64, 12, 5⟩).2.2, fun _ => .idle⟩ : State Bool) es s ∧
      es.reduceOption = [.call false (.append (some ⟨[7], 0, 1, 0⟩)), .call true (.query (.read 5)),
        .reply false (.offset (.ok 5)), .reply true (.record (.ok ⟨[7], 5, 1, 0⟩))] ∧
      ∀ t, (s.pc t).hold ≠ .exclusive := by
  have h₁ : Trace (Step goEnv) (⟨(newLog Directory.empty ⟨64, 12, 5⟩).2.1,
      (newLog Directory.empty ⟨64, 12, 5⟩).2.2, fun _ => .idle⟩ : State Bool) _ _ :=
    Trace.init.snoc (.call (t := false) (.append (some ⟨[7], 0, 1, 0⟩)) rfl)
  have h₂ := h₁.snoc (.call (t := true) (.query (.read 5)) rfl)
  have h₃ := h₂.snoc (.lock (t := false) rfl (by decide))
  have h₄ := h₃.snoc (.advance_of false (by decide +kernel) (by decide +kernel) (by decide +kernel))
  have h₅ := h₄.snoc (.readAt_of 0 32 0 (by decide +kernel))
  have h₆ := h₅.snoc (.advance_of false (by decide +kernel) (by decide +kernel) (by decide +kernel))
  have h₇ := h₆.snoc (.advance_of false (by decide +kernel) (by decide +kernel) (by decide +kernel))
  have h₈ := h₇.snoc (.unlock (t := false) (k := .returned (.offset (.ok 5))) (by decide +kernel))
  have h₉ := h₈.snoc (.lock (t := true) rfl (by decide +kernel))
  have h₁₀ := h₉.snoc (.advance_of true (by decide +kernel) (by decide +kernel) (by decide +kernel))
  have h₁₁ := h₁₀.snoc
    (.advance_of true (by decide +kernel) (by decide +kernel) (by decide +kernel))
  have h₁₂ := h₁₁.snoc (.unlock (t := true) (k := .returned (.record (.ok ⟨[7], 5, 1, 0⟩)))
    (by decide +kernel))
  have h₁₃ := h₁₂.snoc (.reply (t := false) rfl)
  have h₁₄ := h₁₃.snoc (.reply (t := true) rfl)
  exact ⟨_, _, h₁₄, rfl, by decide +kernel⟩

theorem log_linearizable_interleaved :
    ∃ es es' x, es.reduceOption =
        [.call false (.append (some ⟨[7], 0, 1, 0⟩)), .call true (.query (.read 5)),
          .reply false (.offset (.ok 5)), .reply true (.record (.ok ⟨[7], 5, 1, 0⟩))] ∧
      Trace (Atomic.Step Spec) (Atomic.start ⟨5, []⟩) es' x ∧
      es'.reduceOption = es.reduceOption ∧
      ∃ s : State Bool, Trace (Step goEnv) ⟨(newLog Directory.empty ⟨64, 12, 5⟩).2.1,
        (newLog Directory.empty ⟨64, 12, 5⟩).2.2, fun _ => .idle⟩ es s ∧
        Shows goEnv (s.log, s.dir) x.object := by
  obtain ⟨l₀, d₀, hnew, hlin⟩ := log_linearizable (τ := Bool) goEnv ⟨64, 12, 5⟩ (by decide)
  obtain ⟨es, s, htr, hvis, hfree⟩ := trace_interleaved
  rw [hnew] at htr ⊢
  obtain ⟨es', x, htr', hvis', hshows⟩ := hlin es s htr
  exact ⟨es, es', x, hvis, htr', hvis', s, htr, hshows hfree⟩

end Concurrent

end DistributedLog
