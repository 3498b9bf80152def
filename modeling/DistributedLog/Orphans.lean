import DistributedLog.Reader
import DistributedLog.Refinement

/-!
# Logs after a failed append

`segment.Append` writes the store before the index. When the index is full
it fails in between, and the frame that it has written stays behind: an
orphan that no index entry points at. `Log.RepWith` is `Log.Rep` with such
bytes at the end of the active store. They are only there when the active
index has no room, and then for good, since no append gets past it.

Nothing that a log shows depends on the orphans (`Log.RepWith.shows`). The
loops over segments need not be gone through again for that: the segments
before the active one are as they were, and a loop over a list that has been
put together is the loop over its parts (`readIn_append_left` and the like).
-/

namespace DistributedLog

variable {E : Env} {c : Config}

/-! ## Loops over the parts of a list -/

theorem modify_append_left {α : Type} (f : α → α) {xs ys : List α} {i : Nat} (h : i < xs.length) :
    (xs ++ ys).modify i f = xs.modify i f ++ ys := by
  induction xs generalizing i with
  | nil => cases h
  | cons x xs ih =>
      cases i with
      | zero => rfl
      | succ i =>
          rw [List.cons_append, List.modify_succ_cons, List.modify_succ_cons,
            ih (Nat.lt_of_succ_lt_succ h), List.cons_append]

theorem modify_concat {α : Type} (f : α → α) (xs : List α) (x : α) :
    (xs ++ [x]).modify xs.length f = xs ++ [f x] := by
  induction xs with
  | nil => rfl
  | cons y ys ih => rw [List.cons_append, List.length_cons, List.modify_succ_cons, ih,
      List.cons_append]

namespace Log

variable {d d' : Dir} {ss ts : List Segment}

/-- The segment covers the offset. -/
def covers (off : UInt64) (s : Segment) : Prop := s.baseOffset ≤ off ∧ off < s.nextOffset

/-- What a read returns comes from a segment that covers the offset. -/
theorem readIn_result {off : UInt64} {P : Result Record → Prop}
    (hout : P (.error (.err (.offsetOutOfRange off))))
    (h : ∀ s ∈ ss, covers off s → P (s.read E d off).1) : P (readIn E d off ss).1 := by
  induction ss with
  | nil => exact hout
  | cons s ss ih =>
      by_cases hcov : s.baseOffset ≤ off ∧ off < s.nextOffset
      · rw [readIn, if_pos hcov]
        exact h s List.mem_cons_self hcov
      · rw [readIn, if_neg hcov]
        exact ih fun t ht => h t (List.mem_cons_of_mem _ ht)

theorem readIn_append_left {off : UInt64} (h : ∃ s ∈ ss, covers off s) :
    readIn E d off (ss ++ ts) = ((readIn E d off ss).1, (readIn E d off ss).2.1 ++ ts,
      (readIn E d off ss).2.2) := by
  induction ss with
  | nil =>
      obtain ⟨s, hs, -⟩ := h
      cases hs
  | cons s ss ih =>
      by_cases hs : s.baseOffset ≤ off ∧ off < s.nextOffset
      · rw [List.cons_append, readIn, readIn, if_pos hs, if_pos hs]
        rfl
      · have hrest : ∃ t ∈ ss, covers off t := by
          obtain ⟨t, ht, hcov⟩ := h
          rcases List.mem_cons.mp ht with rfl | ht
          · exact absurd hcov hs
          · exact ⟨t, ht, hcov⟩
        rw [List.cons_append, readIn, readIn, if_neg hs, if_neg hs, ih hrest]
        rfl

theorem readIn_append_right {off : UInt64} (h : ∀ s ∈ ss, ¬ covers off s) :
    readIn E d off (ss ++ ts) = ((readIn E d off ts).1, ss ++ (readIn E d off ts).2.1,
      (readIn E d off ts).2.2) := by
  induction ss with
  | nil => rfl
  | cons s ss ih =>
      have hs : ¬ (s.baseOffset ≤ off ∧ off < s.nextOffset) := h s List.mem_cons_self
      rw [List.cons_append, readIn, if_neg hs, ih fun t ht => h t (List.mem_cons_of_mem _ ht)]
      rfl

/-- An offset that no segment covers. -/
theorem read_outside {l : Log} {off : UInt64} (h : ∀ s ∈ l.segments, ¬ covers off s) :
    (l.read E d off).1 = .error (.err (.offsetOutOfRange off)) := by
  have hin : readIn E d off (l.segments ++ []) = _ := readIn_append_right h
  rw [List.append_nil] at hin
  rw [Log.read, hin]
  rfl

theorem closeAll_append {ss' : List Segment} (h : closeAll d ss = (.ok (), ss', d')) :
    closeAll d (ss ++ ts) =
      ((closeAll d' ts).1, ss' ++ (closeAll d' ts).2.1, (closeAll d' ts).2.2) := by
  induction ss generalizing d ss' with
  | nil =>
      cases h
      rfl
  | cons s ss ih =>
      rw [closeAll] at h
      rw [List.cons_append, closeAll]
      rcases hs : s.close d with ⟨_ | _, s', d₁⟩
      · rw [hs] at h
        cases h
      · rw [hs] at h
        rcases hss : closeAll d₁ ss with ⟨res, ss₁, d₂⟩
        simp only [hss, Prod.mk.injEq] at h
        obtain ⟨rfl, rfl, rfl⟩ := h
        simp only [ih hss, List.cons_append]

theorem truncateAll_append {lowest : UInt64} {ps : List (Segment × Bool)}
    (h : truncateAll lowest d ss = (.ok (), ps, d')) :
    truncateAll lowest d (ss ++ ts) = ((truncateAll lowest d' ts).1,
      ps ++ (truncateAll lowest d' ts).2.1, (truncateAll lowest d' ts).2.2) := by
  induction ss generalizing d ps with
  | nil =>
      cases h
      rfl
  | cons s ss ih =>
      rw [truncateAll] at h
      rw [List.cons_append, truncateAll]
      split at h
      · rename_i hgone
        rw [if_pos hgone]
        rcases hs : s.remove d with ⟨_ | _, s', d₁⟩
        · rw [hs] at h
          cases h
        · rw [hs] at h
          rcases hss : truncateAll lowest d₁ ss with ⟨res, ps₁, d₂⟩
          simp only [hss, Prod.mk.injEq] at h
          obtain ⟨rfl, rfl, rfl⟩ := h
          simp only [ih hss, List.cons_append]
      · rename_i hkept
        rw [if_neg hkept]
        rcases hss : truncateAll lowest d ss with ⟨res, ps₁, d₂⟩
        simp only [hss, Prod.mk.injEq] at h
        obtain ⟨rfl, rfl, rfl⟩ := h
        simp only [ih hss, List.cons_append]

/-- The base offsets come in pairs, so the second list starts at its start. -/
theorem openAll_append {l l' : Log} {bs : List Block} {offs : List UInt64}
    (h : l.openAll d (bs.flatMap fun b => [b.base, b.base]) = (.ok (), l', d')) :
    l.openAll d ((bs.flatMap fun b => [b.base, b.base]) ++ offs) = l'.openAll d' offs := by
  induction bs generalizing l d with
  | nil =>
      cases h
      rfl
  | cons b bs ih =>
      simp only [List.flatMap_cons, List.cons_append, List.nil_append, openAll] at h ⊢
      rcases hnew : l.newSegment d b.base with ⟨_ | _, l₁, d₁⟩
      · rw [hnew] at h
        cases h
      · rw [hnew] at h
        exact ih h

end Log

/-! ## The log -/

structure Segment.HoldsWith (E : Env) (c : Config) (d : Dir) (s : Segment) (b : Block)
    (orphans : Bytes) : Prop where
  base : s.baseOffset = b.base
  rep : s.RepWith E c d b.records orphans

namespace Segment.HoldsWith

variable {d : Dir} {s : Segment} {b : Block} {orphans : Bytes}

theorem next (h : s.HoldsWith E c d b orphans) : s.nextOffset.toNat = b.start + b.len := by
  rw [h.rep.next, h.base]
  rfl

theorem covers_iff (h : s.HoldsWith E c d b orphans) (off : UInt64) :
    Log.covers off s ↔ b.start ≤ off.toNat ∧ off.toNat < b.start + b.len := by
  rw [Log.covers, UInt64.le_iff_toNat_le, UInt64.lt_iff_toNat_lt, h.next, h.base]
  rfl

theorem frame {d' : Dir} (h : s.HoldsWith E c d b orphans)
    (hd : ∀ n ∈ b.files, d'.content? n = d.content? n) : s.HoldsWith E c d' b orphans :=
  ⟨h.base, h.rep.frame (by rw [h.base]; exact hd)⟩

end Segment.HoldsWith

namespace Log

/-- The log stands for `L`, with orphans at the end of the active store. -/
structure RepWith (E : Env) (c : Config) (d : Dir) (l : Log) (L : Layout) (orphans : Bytes) :
    Prop where
  config : l.config = c
  mappable : c.Mappable
  present : d.present = true
  detached : l.detached = none
  segments : ∃ ss s, l.segments = ss ++ [s] ∧ AllHold E c d ss L.full ∧
    s.HoldsWith E c d L.act orphans
  names : d.names.Perm (L.blocks.flatMap Block.files)
  stuck : orphans ≠ [] → c.maxIndexBytes.toNat < 12 * (L.act.len + 1)

variable {d : Dir} {l : Log} {L : Layout} {orphans : Bytes}

theorem Rep.repWith (h : l.Rep E c d L) : l.RepWith E c d L [] := by
  obtain ⟨ss, s, hseg, hss, hs, -⟩ := h.active
  exact ⟨h.config, h.mappable, h.present, h.detached,
    ⟨ss, s, hseg, hss, hs.base, Segment.repWith_nil.mpr hs.rep⟩, h.names, fun hne => absurd rfl hne⟩

theorem RepWith.rep (h : l.RepWith E c d L []) : l.Rep E c d L := by
  obtain ⟨ss, s, hseg, hss, hs⟩ := h.segments
  refine ⟨h.config, h.mappable, h.present, h.detached, ?_, h.names⟩
  rw [hseg]
  exact AllHold.append hss (.cons ⟨hs.base, Segment.repWith_nil.mp hs.rep⟩ .nil)

/-- As long as another entry fits there are no orphans. -/
theorem RepWith.rep_of_room (h : l.RepWith E c d L orphans)
    (hroom : 12 * (L.act.len + 1) ≤ c.maxIndexBytes.toNat) : l.Rep E c d L := by
  rcases eq_or_ne orphans [] with rfl | hne
  · exact h.rep
  · have := h.stuck hne
    omega

theorem RepWith.active (h : l.RepWith E c d L orphans) :
    ∃ s, l.activeSegment = some s ∧ s.HoldsWith E c d L.act orphans := by
  obtain ⟨ss, s, hseg, -, hs⟩ := h.segments
  exact ⟨s, by simp [activeSegment, h.detached, hseg], hs⟩

theorem RepWith.lowestOffset (h : l.RepWith E c d L orphans) :
    l.lowestOffset = .ok (UInt64.ofNat L.lowest) := by
  obtain ⟨ss, s, hseg, hss, hs⟩ := h.segments
  refine lowestOffset_of_bases ?_
  rw [hseg, Layout.blocks, List.map_append, List.map_append, AllHold.bases hss, List.map_singleton,
    List.map_singleton, hs.base]

theorem RepWith.highestOffset (h : l.RepWith E c d L orphans) :
    l.highestOffset = .ok (UInt64.ofNat (L.next - 1)) := by
  obtain ⟨ss, s, hseg, -, hs⟩ := h.segments
  exact highestOffset_of_next (by rw [hseg, List.getLast?_concat]) hs.next

/-! ### Appending -/

/-- The frame of a record that finds no room in the index stays behind. -/
theorem RepWith.append_orphan (h : l.RepWith E c d L orphans) (r : Record)
    (hroom : c.maxIndexBytes.toNat < 12 * (L.act.len + 1)) :
    ∃ l' d' p, l.append E d (some r) = (.error (.err .eof), l', d') ∧
      l'.RepWith E c d' L (orphans ++ frame p) := by
  obtain ⟨ss, s, hseg, hss, hs⟩ := h.segments
  have hact : l.activeSegment = some s := by simp [activeSegment, h.detached, hseg]
  obtain ⟨s', d', happ, hrep, hbase, -, -, ht⟩ := hs.rep.append_full r hroom
  rw [hs.base] at ht
  have hset : l.setActive s' = { l with segments := ss ++ [s'] } := by
    simp [setActive, h.detached, hseg]
  refine ⟨l.setActive s', d', E.marshal { r with offset := s.nextOffset },
    by simp only [Log.append, hact, happ], ?_⟩
  rw [hset]
  refine ⟨h.config, h.mappable, ht.present.trans h.present, h.detached, ⟨ss, s', rfl, ?_, ?_⟩,
    ht.names.trans h.names, fun _ => hroom⟩
  · exact AllHold.frame_of_ne hss ht.others fun b hb =>
      (Block.base_ne_of_start_lt (L.start_lt_act b hb)).symm
  · exact ⟨hbase.trans hs.base, hrep⟩

theorem RepWith.append_full (h : l.RepWith E c d L orphans) (r : Record)
    (hroom : c.maxIndexBytes.toNat < 12 * (L.act.len + 1)) :
    ∃ l' d' orphans', l.append E d (some r) = (.error (.err .eof), l', d') ∧
      l'.RepWith E c d' L orphans' := by
  obtain ⟨l', d', p, happ, hrep⟩ := h.append_orphan r hroom
  exact ⟨l', d', _, happ, hrep⟩

/-! ### Reading -/

end Log

/-- What the store at a position holds, the orphans included. -/
def Layout.bytesWith (E : Env) (L : Layout) (orphans : Bytes) (i : Nat) : Bytes :=
  L.bytes E i ++ if i = L.full.length then orphans else []

/-- What a reader has left to read. -/
def Layout.leftWith (E : Env) (L : Layout) (orphans : Bytes) (rd : Reader) : Bytes :=
  rd.flatMap fun p => (L.bytesWith E orphans p.1).drop p.2

theorem Layout.bytesWith_of_lt {L : Layout} {orphans : Bytes} {i : Nat} (h : i < L.full.length) :
    L.bytesWith E orphans i = L.bytes E i := by
  rw [bytesWith, if_neg (by omega), List.append_nil]

theorem Layout.bytesWith_nil {L : Layout} {i : Nat} : L.bytesWith E [] i = L.bytes E i := by
  rw [bytesWith, ite_self, List.append_nil]

theorem Layout.bytesWith_act {L : Layout} {orphans : Bytes} :
    L.bytesWith E orphans L.full.length = frames E L.act.base L.act.records ++ orphans := by
  simp [bytesWith, bytes, blocks]

namespace Log

variable {d : Dir} {l : Log} {L : Layout} {orphans : Bytes}

theorem RepWith.length_segments (h : l.RepWith E c d L orphans) :
    l.segments.length = L.full.length + 1 := by
  obtain ⟨ss, s, hseg, hss, -⟩ := h.segments
  rw [hseg, List.length_append, hss.length_eq, List.length_singleton]

/-- A segment of a block before the active one, or the active one. -/
theorem RepWith.carries (h : l.RepWith E c d L orphans) {i : Nat} {s : Segment}
    (hi : l.segments[i]? = some s) : s.store.Carries d (L.bytesWith E orphans i) := by
  obtain ⟨ss, t, hseg, hss, ht⟩ := h.segments
  have hlen := hss.length_eq
  rw [hseg] at hi
  rcases Nat.lt_or_ge i ss.length with hlt | hge
  · rw [List.getElem?_append_left hlt] at hi
    obtain ⟨b, hb, hhold⟩ := AllHold.getElem? hss hi
    have hbytes : L.bytes E i = frames E s.baseOffset b.records := by
      rw [Layout.bytes, Layout.blocks, List.getElem?_append_left (by omega), hb,
        Option.elim_some, hhold.base]
    rw [Layout.bytesWith_of_lt (by omega), hbytes]
    exact hhold.rep.store
  · have hend : i = ss.length := by
      have hlt := (List.getElem?_eq_some_iff.mp hi).1
      rw [List.length_append, List.length_singleton] at hlt
      omega
    subst hend
    rw [List.getElem?_concat_length, Option.some.injEq] at hi
    subst hi
    rw [hlen, Layout.bytesWith_act, ← ht.base]
    exact ht.rep.store

/-- A segment of a block before the active one, or the active one, has been
flushed. -/
theorem RepWith.flush (h : l.RepWith E c d L orphans) {i : Nat} {s : Segment}
    (hi : l.segments[i]? = some s) :
    ∃ st d', s.store.flush d = (.ok (), st, d') ∧ (l.setStore i st).RepWith E c d' L orphans := by
  obtain ⟨ss, t, hseg, hss, ht⟩ := h.segments
  rw [hseg] at hi
  rcases Nat.lt_or_ge i ss.length with hlt | hge
  · rw [List.getElem?_append_left hlt] at hi
    obtain ⟨b, hb, hhold⟩ := AllHold.getElem? hss hi
    obtain ⟨st, d', hfl, hrep, -, htouch⟩ := (Segment.repWith_nil.mpr hhold.rep).flush
    rw [hhold.base] at htouch
    have hmem : b ∈ L.full := List.mem_of_getElem? hb
    refine ⟨st, d', hfl, h.config, h.mappable, htouch.present.trans h.present, h.detached,
      ⟨ss.modify i fun s => { s with store := st }, t, ?_, ?_, ?_⟩,
      htouch.names.trans h.names, h.stuck⟩
    · rw [setStore, hseg, modify_append_left _ hlt]
    · exact AllHold.modify hss L.distinct_full hi hb ⟨hhold.base, Segment.repWith_nil.mp hrep⟩
        htouch.others
    · refine ht.frame fun n hn => htouch.others n (Block.files_disjoint ?_ n hn)
      exact (Block.base_ne_of_start_lt (L.start_lt_act b hmem)).symm
  · have hend : i = ss.length := by
      have hlt := (List.getElem?_eq_some_iff.mp hi).1
      rw [List.length_append, List.length_singleton] at hlt
      omega
    subst hend
    rw [List.getElem?_concat_length, Option.some.injEq] at hi
    subst hi
    obtain ⟨st, d', hfl, hrep, -, htouch⟩ := ht.rep.flush
    rw [ht.base] at htouch
    refine ⟨st, d', hfl, h.config, h.mappable, htouch.present.trans h.present, h.detached,
      ⟨ss, { t with store := st }, ?_, ?_, ht.base, hrep⟩, htouch.names.trans h.names, h.stuck⟩
    · rw [setStore, hseg, modify_concat]
    · exact AllHold.frame_of_ne hss htouch.others fun b hb =>
        (Block.base_ne_of_start_lt (L.start_lt_act b hb)).symm

theorem flushStable_repWith (E : Env) (c : Config) (L : Layout) (orphans : Bytes) :
    Reader.FlushStable fun l d => l.RepWith E c d L orphans := by
  constructor
  · intro l d h s hs
    obtain ⟨ss, t, hseg, hss, ht⟩ := h.segments
    rw [hseg, List.mem_append, List.mem_singleton] at hs
    rcases hs with hs | rfl
    · obtain ⟨b, -, hhold⟩ := AllHold.of_mem hss hs
      exact ⟨hhold.rep.store.isOpen, hhold.rep.store.sound⟩
    · exact ⟨ht.rep.store.isOpen, ht.rep.store.sound⟩
  · intro l d d' i s st h hs hfl
    obtain ⟨st', d'', hfl', hrep⟩ := h.flush hs
    rw [hfl, Prod.mk.injEq, Prod.mk.injEq] at hfl'
    obtain ⟨-, rfl, rfl⟩ := hfl'
    exact hrep

theorem RepWith.rest {rd : Reader} : ∀ {l : Log} {d : Dir}, l.RepWith E c d L orphans →
    Reader.Valid rd l → rd.rest l d = L.leftWith E orphans rd := by
  induction rd with
  | nil => exact fun _ _ => rfl
  | cons p rs ih =>
      obtain ⟨i, off⟩ := p
      intro l d h hv
      obtain ⟨s, hseg⟩ := hv.head
      obtain ⟨st, d', hfl, hrep⟩ := h.flush hseg
      obtain ⟨st', d'', hfl', -, hcont, hname, -⟩ := Store.flush_spec (h.carries hseg)
      rw [hfl, Prod.mk.injEq, Prod.mk.injEq] at hfl'
      obtain ⟨-, rfl, rfl⟩ := hfl'
      rw [← hname] at hcont
      simp only [Reader.rest, hseg, hfl, hcont, Option.getD_some, ih hrep (hv.tail.setStore i st),
        Layout.leftWith, List.flatMap_cons]

/-- What is in a store file is the front of what the store holds. -/
theorem RepWith.length_file (h : l.RepWith E c d L orphans) {i : Nat} {s : Segment}
    (hs : l.segments[i]? = some s) :
    ((d.content? s.store.name).getD []).length ≤ (L.bytesWith E orphans i).length := by
  obtain ⟨f, hf, hbs⟩ := (h.carries hs).file
  rw [hf, Option.getD_some, ← hbs, List.length_append]
  omega

/-- Every block has its segment, the last perhaps with orphans. -/
theorem RepWith.segment_of_block (h : l.RepWith E c d L orphans) {b : Block} (hb : b ∈ L.blocks) :
    ∃ s ∈ l.segments, ∃ o, s.HoldsWith E c d b o ∧
      (o ≠ [] → c.maxIndexBytes.toNat < 12 * (b.len + 1)) := by
  obtain ⟨ss, t, hseg, hss, ht⟩ := h.segments
  rcases List.mem_append.mp hb with hb | hb
  · obtain ⟨pre, post, hfull⟩ := List.append_of_mem hb
    rw [hfull] at hss
    obtain ⟨ss₁, s, ss₂, hss', -, hs, -⟩ := AllHold.split hss
    exact ⟨s, by rw [hseg, hss']; simp, [], ⟨hs.base, Segment.repWith_nil.mpr hs.rep⟩,
      fun hne => absurd rfl hne⟩
  · rw [List.mem_singleton.mp hb]
    exact ⟨t, by rw [hseg]; simp, orphans, ht, h.stuck⟩

theorem RepWith.fits (h : l.RepWith E c d L orphans) (hfit : l.FilesFit d) : L.Fits E := by
  intro b hb
  obtain ⟨s, hmem, o, hs, -⟩ := h.segment_of_block hb
  obtain ⟨f, hf, hbs⟩ := hs.rep.store.file
  have hlen := hfit s hmem
  rw [hf, Option.getD_some, ← List.length_append, hbs, List.length_append, hs.base] at hlen
  omega

/-- An index that is not too large counts its entries in 32 bits. -/
theorem RepWith.entries_le (h : l.RepWith E c d L orphans)
    (hM : c.maxIndexBytes.toNat ≤ 12 * 2 ^ 32) : ∀ b ∈ L.blocks, b.len ≤ 2 ^ 32 := by
  intro b hb
  obtain ⟨s, -, o, hs, -⟩ := h.segment_of_block hb
  have hroom : 12 * b.len ≤ c.maxIndexBytes.toNat := by
    have hroom := hs.rep.index.room
    rw [length_entriesOf] at hroom
    exact hroom
  omega

theorem RepWith.read (h : l.RepWith E c d L orphans) (hM : c.maxIndexBytes.toNat ≤ 12 * 2 ^ 32)
    (hfit : L.Fits E) (off : UInt64) : (l.read E d off).1 = readOf L.abs off := by
  obtain ⟨ss, t, hseg, hss, ht⟩ := h.segments
  by_cases hin : L.lowest ≤ off.toNat ∧ off.toNat < L.next
  · obtain ⟨pre, b, post, r, hblocks, hlo, hhi, hbefore, hr, habs⟩ := L.exists_cover hin.1 hin.2
    have hmem : b ∈ L.blocks := by rw [hblocks]; simp
    have h32 := h.entries_le hM b hmem
    have hok : readOf L.abs off = .ok { r with offset := off } := by simp only [readOf, habs]
    rw [hok, Log.read, hseg]
    rcases snoc_eq_split hblocks with ⟨rfl, rfl⟩ | ⟨post', hfull⟩
    · -- the active segment: no segment before it covers the offset
      have hnone : ∀ s ∈ ss, ¬ covers off s := by
        intro s hs hcov
        obtain ⟨b, hb, hhold⟩ := AllHold.of_mem hss hs
        have hend := hbefore b hb
        have := (hhold.covers_iff off).mp hcov
        omega
      have hlt : off.toNat - L.act.start < L.act.records.length :=
        (List.getElem?_eq_some_iff.mp hr).1
      obtain ⟨t', d', hread, -⟩ := ht.rep.read_spec off hr
        (by rw [ht.base]; unfold Block.start at *; omega) (by unfold Block.len at h32; omega)
        (by rw [ht.base]; exact hfit L.act hmem)
      have hcov : t.baseOffset ≤ off ∧ off < t.nextOffset := (ht.covers_iff off).mpr ⟨hlo, hhi⟩
      rw [readIn_append_right hnone, readIn, if_pos hcov, hread]
    · have hss' := hss
      have hdist := L.distinct_full
      rw [hfull] at hss' hdist
      obtain ⟨ss', d', hread, -⟩ := readIn_found hss' hdist hbefore hlo hr h32 (hfit b hmem)
      have hcov : ∃ s ∈ ss, covers off s := by
        obtain ⟨ss₁, s, ss₂, rfl, -, hs, -⟩ := AllHold.split hss'
        exact ⟨s, by simp, (hs.covers_iff off).mpr ⟨hlo, hhi⟩⟩
      rw [readIn_append_left hcov, hread]
  · have hout : off.toNat < L.lowest ∨ L.next ≤ off.toNat := by omega
    have hnone : ∀ s ∈ ss, ¬ covers off s := by
      intro s hs hcov
      obtain ⟨b, hb, hhold⟩ := AllHold.of_mem hss hs
      exact L.not_cover hout b (List.mem_append_left _ hb)
        ((hhold.covers_iff off).mp hcov)
    have hlast : ¬ (t.baseOffset ≤ off ∧ off < t.nextOffset) := fun hcov =>
      L.not_cover hout L.act (List.mem_append_right _ (List.mem_singleton_self _))
        ((ht.covers_iff off).mp hcov)
    have hget : L.abs.get? off.toNat = none :=
      AppendOnly.get?_eq_none_iff.mpr (by rw [L.abs_next]; exact hout)
    rw [Log.read, hseg, readIn_append_right hnone, readIn, if_neg hlast]
    simp only [readIn, readOf, hget]

/-- **Orphans are not seen.** -/
theorem RepWith.shows (h : l.RepWith E c d L orphans) (hM : c.maxIndexBytes.toNat ≤ 12 * 2 ^ 32)
    (hfit : L.Fits E) : Shows E (l, d) L.abs where
  bounded := by
    rw [L.abs_next]
    exact L.bounded
  lowest := h.lowestOffset
  highest := by
    rw [L.abs_next]
    exact h.highestOffset
  read off := h.read hM hfit off
  append r off l' d' happ := by
    obtain ⟨s, hact, hs⟩ := h.active
    obtain ⟨s', hact', hoff⟩ := append_returns happ
    obtain rfl : s = s' := Option.some.inj (hact.symm.trans hact')
    rw [L.abs_next, hoff]
    apply UInt64.toNat_inj.mp
    rw [hs.next, UInt64.toNat_ofNat']
    exact (Nat.mod_eq_of_lt L.bounded).symm

/-! ### Truncating -/

theorem RepWith.truncate (h : l.RepWith E c d L orphans) {lowest : UInt64} {L' : Layout}
    (hlow : lowest.toNat + 1 < L.next)
    (hblocks : L'.blocks = L.blocks.filter (Block.keptBy lowest.toNat)) (hact : L'.act = L.act) :
    ∃ l' d', l.truncate d lowest = (.ok (), l', d') ∧ l'.RepWith E c d' L' orphans := by
  have hbound : L.next < 2 ^ 64 := L.bounded
  obtain ⟨ss, t, hseg, hss, ht⟩ := h.segments
  obtain ⟨ps, d', htr, hps, -, hp, ho, hn⟩ :=
    truncateAll_spec hss L.distinct_full lowest fun b _ => Block.keptBy_iff (by omega) b
  have hkept : [L.act].filter (Block.keptBy lowest.toNat) = [L.act] := by
    simp [Block.keptBy, show lowest.toNat + 1 < L.act.start + L.act.len from hlow]
  have hfull : L'.full = L.full.filter (Block.keptBy lowest.toNat) := by
    rw [Layout.blocks, Layout.blocks, List.filter_append, hkept, hact] at hblocks
    exact List.append_cancel_right hblocks
  have hlast : truncateAll lowest d' [t] = (.ok (), [(t, true)], d') := by
    have hone : (1 : UInt64).toNat = 1 := rfl
    have hnot : ¬ t.nextOffset ≤ lowest + 1 := by
      rw [UInt64.le_iff_toNat_le, ht.next, UInt64.toNat_add, hone, Nat.mod_eq_of_lt (by omega)]
      exact Nat.not_le.mpr hlow
    rw [truncateAll, if_neg hnot]
    rfl
  have hall : truncateAll lowest d l.segments = (.ok (), ps ++ [(t, true)], d') := by
    rw [hseg, truncateAll_append htr, hlast]
  refine ⟨{ l with segments := (ps.filter (·.2)).map (·.1) ++ [t], detached := none }, d', ?_,
    h.config, h.mappable, hp.trans h.present, rfl, ⟨_, t, rfl, ?_, ?_⟩, ?_, ?_⟩
  · simp [Log.truncate, hall, h.detached]
  · rw [hfull]
    exact hps
  · rw [hact]
    exact ht.frame fun n hn => ho n fun hmem => by
      obtain ⟨b, hb, hn'⟩ := List.mem_flatMap.mp hmem
      exact Block.files_disjoint (Block.base_ne_of_start_lt (L.start_lt_act b hb)) n hn' hn
  · rw [hblocks, Layout.blocks, List.filter_append, hkept, List.flatMap_append]
    refine hn _ (h.names.trans (.of_eq ?_))
    rw [Layout.blocks, List.flatMap_append]
  · rw [hact]
    exact h.stuck

/-! ### Reopening -/

theorem RepWith.openable (h : l.RepWith E c d L orphans)
    (hM : c.maxIndexBytes.toNat ≤ 12 * 2 ^ 32) : ∀ b ∈ L.blocks, b.Openable c := by
  intro b hb
  obtain ⟨s, -, o, hs, -⟩ := h.segment_of_block hb
  have hroom := hs.rep.index.room
  rw [length_entriesOf] at hroom
  refine ⟨hroom, h.entries_le hM b hb, ?_⟩
  rw [← hs.next]
  exact s.nextOffset.toNat_lt

/-- The closed files of the segments, the last with its orphans. -/
structure StoredWith (E : Env) (d : Dir) (L : Layout) (orphans : Bytes) : Prop where
  present : d.present = true
  full : AllStored E d L.full
  act : Segment.StoredWith E d L.act.base L.act.records orphans
  names : d.names.Perm (L.blocks.flatMap Block.files)

theorem RepWith.close (h : l.RepWith E c d L orphans) :
    ∃ l' d', l.close d = (.ok (), l', d') ∧ StoredWith E d' L orphans := by
  obtain ⟨ss, t, hseg, hss, ht⟩ := h.segments
  obtain ⟨ss', d₁, hclose₁, hst₁, ht₁⟩ := closeAll_spec hss L.distinct_full
  have hne : ∀ b ∈ L.full, b.base ≠ L.act.base := fun b hb =>
    Block.base_ne_of_start_lt (L.start_lt_act b hb)
  have hact₁ : t.HoldsWith E c d₁ L.act orphans := by
    refine ht.frame fun n hn => ht₁.others n fun hmem => ?_
    obtain ⟨b, hb, hn'⟩ := List.mem_flatMap.mp hmem
    exact Block.files_disjoint (hne b hb) n hn' hn
  obtain ⟨t', d₂, hclose₂, hst₂, -, -, -, -, ht₂⟩ := hact₁.rep.close
  rw [hact₁.base] at hst₂ ht₂
  have hall : closeAll d l.segments = (.ok (), ss' ++ [t'], d₂) := by
    rw [hseg, closeAll_append hclose₁, closeAll, hclose₂]
    rfl
  refine ⟨{ l with segments := ss' ++ [t'] }, d₂, by simp only [Log.close, hall],
    ht₂.present.trans (ht₁.present.trans h.present), ?_, hst₂,
    ht₂.names.trans (ht₁.names.trans h.names)⟩
  exact fun b hb => (hst₁ b hb).frame fun n hn =>
    ht₂.others n (segmentFiles_disjoint (hne b hb) n hn)

theorem StoredWith.newLog {c₀ : Config} (h : StoredWith E d L orphans) (hc₀ : c₀.withDefaults = c)
    (hc : c.Mappable) (hopen : ∀ b ∈ L.blocks, b.Openable c)
    (hstuck : orphans ≠ [] → c.maxIndexBytes.toNat < 12 * (L.act.len + 1)) :
    ∃ l' d', newLog d c₀ = (.ok (), l', d') ∧ l'.RepWith E c d' L orphans := by
  obtain ⟨ss, d₁, hopen₁, hss, ht₁⟩ := openAll_spec (l := ⟨c, [], none⟩) rfl h.present hc h.full
    L.distinct_full fun b hb => hopen b (List.mem_append_left _ hb)
  rw [List.nil_append, ite_self] at hopen₁
  have hne : ∀ b ∈ L.full, b.base ≠ L.act.base := fun b hb =>
    Block.base_ne_of_start_lt (L.start_lt_act b hb)
  have hact : Segment.StoredWith E d₁ L.act.base L.act.records orphans := by
    have hsame : ∀ n ∈ L.act.files, d₁.content? n = d.content? n := by
      refine fun n hn => ht₁.others n fun hmem => ?_
      obtain ⟨b, hb, hn'⟩ := List.mem_flatMap.mp hmem
      exact Block.files_disjoint (hne b hb) n hn' hn
    exact ⟨by rw [hsame _ (by simp [Block.files, segmentFiles])]; exact h.act.store,
      by rw [hsame _ (by simp [Block.files, segmentFiles])]; exact h.act.index⟩
  obtain ⟨hroom, h32, hnext⟩ := hopen L.act (List.mem_append_right _ (List.mem_singleton_self _))
  obtain ⟨s, d₂, hnew, hbase, hrep, ht₂⟩ :=
    newSegment_storedWith (ht₁.present.trans h.present) hc hact hroom h32 hnext
  have hall : Log.openAll ⟨c, [], none⟩ d (L.blocks.flatMap fun b => [b.base, b.base]) =
      (.ok (), ⟨c, ss ++ [s], none⟩, d₂) := by
    rw [Layout.blocks, List.flatMap_append, openAll_append hopen₁]
    simp only [List.flatMap_cons, List.flatMap_nil, List.append_nil, openAll, Log.newSegment, hnew]
  refine ⟨⟨c, ss ++ [s], none⟩, d₂, ?_, rfl, hc, ht₂.present.trans (ht₁.present.trans h.present),
    rfl, ⟨ss, s, rfl, ?_, hbase, hrep⟩, ht₂.names.trans (ht₁.names.trans h.names), hstuck⟩
  · simp only [DistributedLog.newLog, hc₀, Log.setup, h.present, Log.sorted_bases h.names, hall]
    simp
  · exact AllHold.frame_of_ne (b := L.act) hss ht₂.others fun b hb => (hne b hb).symm

theorem RepWith.reopen (h : l.RepWith E c d L orphans) {c₀ : Config} (hc₀ : c₀.withDefaults = c)
    (hM : c.maxIndexBytes.toNat ≤ 12 * 2 ^ 32) :
    ∃ l₁ d₁ l₂ d₂, l.close d = (.ok (), l₁, d₁) ∧ newLog d₁ c₀ = (.ok (), l₂, d₂) ∧
      l₂.RepWith E c d₂ L orphans := by
  obtain ⟨l₁, d₁, hclose, hst⟩ := h.close
  obtain ⟨l₂, d₂, hnew, hrep⟩ := hst.newLog hc₀ h.mappable (h.openable hM) h.stuck
  exact ⟨l₁, d₁, l₂, d₂, hclose, hnew, hrep⟩

end Log

end DistributedLog
