import DistributedLog.Index

/-!
# Segments: a store and its index

A segment (`internal/log/segment.go`) assigns consecutive offsets from its
base offset and keeps each record as a frame of its store, with an index
entry pointing at it. Everything a segment knows is recomputed from its two
files when it is opened.

`Rep E c d s rs` relates a segment to the records `rs` it stands for: the
store carries the frames of `rs`, stamped with consecutive offsets, and the
index holds one entry for each, with the frame's position. Whatever else the
store carries behind these frames is never looked at, so most of what holds
under `Rep` holds under `RepWith`, where there are such bytes.
-/

namespace DistributedLog

def storeName (base : UInt64) : Name := formatUint base ++ '.' :: ['s', 't', 'o', 'r', 'e']

def indexName (base : UInt64) : Name := formatUint base ++ '.' :: ['i', 'n', 'd', 'e', 'x']

structure Segment where
  store : Store
  index : Index
  baseOffset : UInt64
  nextOffset : UInt64
  config : Config
deriving DecidableEq, Repr

/-- `newSegment`. An error of `index.Read(-1)` means an empty index. -/
def newSegment (d : Dir) (baseOffset : UInt64) (c : Config) : Result Segment × Dir :=
  if !d.present then (.error (.err .notExist), d)
  else
    let d := d.create (storeName baseOffset)
    let store := newStore d (storeName baseOffset)
    let d := d.create (indexName baseOffset)
    match newIndex d (indexName baseOffset) c with
    | (.error e, d) => (.error e, d)
    | (.ok index, d) =>
        match index.read d (-1) with
        | .error .panic => (.error .panic, d)
        | .error (.err _) => (.ok ⟨store, index, baseOffset, baseOffset, c⟩, d)
        | .ok (off, _) => (.ok ⟨store, index, baseOffset, baseOffset + off.toUInt64 + 1, c⟩, d)

namespace Segment

/-- `segment.Append`. The record is a pointer, and its offset is set first. -/
def append (E : Env) (s : Segment) (d : Dir) (record : Option Record) :
    Result UInt64 × Segment × Dir :=
  match record with
  | none => (.error .panic, s, d)
  | some r =>
      let cur := s.nextOffset
      let p := E.marshal { r with offset := cur }
      match s.store.append E d p with
      | (.error e, store, d) => (.error e, { s with store := store }, d)
      | (.ok (_, pos), store, d) =>
          match s.index.write d (s.nextOffset - s.baseOffset).toUInt32 pos with
          | (.error e, index, d) => (.error e, { s with store := store, index := index }, d)
          | (.ok _, index, d) =>
              (.ok cur, { s with store := store, index := index, nextOffset := cur + 1 }, d)

/-- `segment.Read`. -/
def read (E : Env) (s : Segment) (d : Dir) (off : UInt64) : Result Record × Segment × Dir :=
  match s.index.read d (off - s.baseOffset).toInt64 with
  | .error e => (.error e, s, d)
  | .ok (_, pos) =>
      match s.store.read d pos with
      | (.error e, store, d) => (.error e, { s with store := store }, d)
      | (.ok p, store, d) =>
          match E.unmarshal p with
          | none => (.error (.err .unmarshal), { s with store := store }, d)
          | some r => (.ok r, { s with store := store }, d)

/-- `segment.IsMaxed`. -/
def isMaxed (s : Segment) : Bool :=
  decide (s.config.maxStoreBytes ≤ s.store.size) || decide (s.config.maxIndexBytes ≤ s.index.size)

/-- `segment.Close`. -/
def close (s : Segment) (d : Dir) : Result Unit × Segment × Dir :=
  match s.index.close d with
  | (.error e, index, d) => (.error e, { s with index := index }, d)
  | (.ok _, index, d) =>
      match s.store.close d with
      | (r, store, d) => (r, { s with index := index, store := store }, d)

/-- `segment.Remove`. -/
def remove (s : Segment) (d : Dir) : Result Unit × Segment × Dir :=
  match s.close d with
  | (.error e, s, d) => (.error e, s, d)
  | (.ok _, s, d) =>
      if (d.content? s.index.name).isNone then (.error (.err .notExist), s, d)
      else
        let d := d.remove s.index.name
        if (d.content? s.store.name).isNone then (.error (.err .notExist), s, d)
        else (.ok (), s, d.remove s.store.name)

end Segment

/-! ## File names -/

@[simp] theorem baseOfName_storeName (base : UInt64) : baseOfName (storeName base) = base :=
  baseOfName_numbered base (by simp [inElement])

@[simp] theorem baseOfName_indexName (base : UInt64) : baseOfName (indexName base) = base :=
  baseOfName_numbered base (by simp [inElement])

theorem storeName_ne_indexName (a b : UInt64) : storeName a ≠ indexName b := by
  intro h
  have he := congrArg ext h
  rw [storeName, indexName, ext_append _ (by simp [inElement]),
    ext_append _ (by simp [inElement])] at he
  exact absurd he (by decide)

/-- The two files of a segment. -/
def segmentFiles (base : UInt64) : List Name := [storeName base, indexName base]

theorem segmentFiles_disjoint {a b : UInt64} (h : a ≠ b) :
    ∀ n ∈ segmentFiles a, n ∉ segmentFiles b := by
  intro n hn hn'
  have ha : baseOfName n = a := by
    rcases List.mem_pair.mp hn with rfl | rfl <;> simp
  have hb : baseOfName n = b := by
    rcases List.mem_pair.mp hn' with rfl | rfl <;> simp
  exact h (ha.symm.trans hb)

/-! ## Frames and entries of a run of records -/

/-- The frames of consecutive records, the first of them at offset `base`. -/
def frames (E : Env) (base : UInt64) : List Record → Bytes
  | [] => []
  | r :: rs => frame (E.marshal { r with offset := base }) ++ frames E (base + 1) rs

/-- The index entries of these records. -/
def entriesOf (E : Env) (base : UInt64) (rs : List Record) : List (UInt32 × UInt64) :=
  (List.range rs.length).map fun i =>
    (UInt32.ofNat i, UInt64.ofNat (frames E base (rs.take i)).length)

variable {E : Env} {c : Config} {d : Dir}

theorem frames_append (base : UInt64) (xs ys : List Record) :
    frames E base (xs ++ ys) = frames E base xs ++ frames E (base + UInt64.ofNat xs.length) ys := by
  induction xs generalizing base with
  | nil => simp [frames]
  | cons x xs ih =>
      rw [List.cons_append, frames, frames, ih, List.length_cons, List.append_assoc,
        UInt64.ofNat_add, UInt64.add_assoc, UInt64.add_comm 1]
      rfl

@[simp] theorem length_entriesOf (base : UInt64) (rs : List Record) :
    (entriesOf E base rs).length = rs.length := by
  simp [entriesOf]

theorem entriesOf_append (base : UInt64) (rs : List Record) (r : Record) :
    entriesOf E base (rs ++ [r]) = entriesOf E base rs ++
      [(UInt32.ofNat rs.length, UInt64.ofNat (frames E base rs).length)] := by
  have hrange : (rs ++ [r]).length = rs.length + 1 := by simp
  rw [entriesOf, hrange, List.range_succ, List.map_append, entriesOf]
  congr 1
  · refine List.map_congr_left fun i hi => ?_
    rw [List.take_append_of_le_length (Nat.le_of_lt (List.mem_range.mp hi))]
  · simp

theorem getElem?_entriesOf (base : UInt64) (rs : List Record) {i : Nat} (hi : i < rs.length) :
    (entriesOf E base rs)[i]? =
      some (UInt32.ofNat i, UInt64.ofNat (frames E base (rs.take i)).length) := by
  simp [entriesOf, hi]

/-- The frame of one record among the frames of all. -/
theorem frames_split (base : UInt64) {rs : List Record} {i : Nat} {r : Record}
    (h : rs[i]? = some r) :
    frames E base rs = frames E base (rs.take i) ++
      frame (E.marshal { r with offset := base + UInt64.ofNat i }) ++
      frames E (base + UInt64.ofNat i + 1) (rs.drop (i + 1)) := by
  obtain ⟨hi, hr⟩ := List.getElem?_eq_some_iff.mp h
  have hrs : rs = rs.take i ++ r :: rs.drop (i + 1) := by
    rw [← hr, ← List.drop_eq_getElem_cons hi, List.take_append_drop]
  have hlen : (rs.take i).length = i := by rw [List.length_take]; omega
  calc frames E base rs = frames E base (rs.take i ++ r :: rs.drop (i + 1)) := by rw [← hrs]
    _ = _ := by rw [frames_append, hlen, frames, List.append_assoc]

/-- Fewer than 2^64 offsets from one on are all different. -/
theorem add_ofNat_inj {first : UInt64} {k m : Nat} (hk : k < 2 ^ 64) (hm : m < 2 ^ 64)
    (h : first + UInt64.ofNat k = first + UInt64.ofNat m) : k = m := by
  have hnat := congrArg UInt64.toNat h
  have hfirst := first.toNat_lt
  rw [UInt64.toNat_add, UInt64.toNat_add, UInt64.toNat_ofNat', UInt64.toNat_ofNat'] at hnat
  omega

/-! ## The records a segment stands for -/

/-- Limits under which files can be sized and mapped. -/
structure Config.Mappable (c : Config) : Prop where
  pos : 0 < c.maxIndexBytes.toNat
  limit : c.maxIndexBytes.toNat < 2 ^ 63

namespace Segment

structure Rep (E : Env) (c : Config) (d : Dir) (s : Segment) (rs : List Record) : Prop where
  storeName : s.store.name = storeName s.baseOffset
  indexName : s.index.name = indexName s.baseOffset
  config : s.config = c
  next : s.nextOffset.toNat = s.baseOffset.toNat + rs.length
  store : s.store.Carries d (frames E s.baseOffset rs)
  size : s.store.size = UInt64.ofNat (frames E s.baseOffset rs).length
  index : s.index.Holds d c.maxIndexBytes (entriesOf E s.baseOffset rs)

variable {s : Segment} {rs : List Record}

/-- A segment stands for its records whatever happens to other files. -/
theorem Rep.frame {d' : Dir} (h : s.Rep E c d rs)
    (hd : ∀ n ∈ segmentFiles s.baseOffset, d'.content? n = d.content? n) :
    s.Rep E c d' rs :=
  { h with
    store := h.store.frame (by rw [h.storeName]; exact hd _ (by simp [segmentFiles]))
    index := h.index.frame (by rw [h.indexName]; exact hd _ (by simp [segmentFiles])) }

theorem Rep.nextOffset_eq (h : s.Rep E c d rs) :
    s.nextOffset = s.baseOffset + UInt64.ofNat rs.length := by
  apply UInt64.toNat_inj.mp
  have hlt := s.nextOffset.toNat_lt
  have hn := h.next
  rw [UInt64.toNat_add, UInt64.toNat_ofNat', hn]
  omega

theorem Rep.index_size (h : s.Rep E c d rs) : s.index.size.toNat = 12 * rs.length := by
  rw [h.index.size, length_entriesOf]

/-- The files of a segment, whatever its next offset is. Behind the frames
there may be orphaned bytes: an append that fails at the index has already
written its frame. -/
structure Keeps (E : Env) (c : Config) (d : Dir) (s : Segment) (rs : List Record)
    (orphans : Bytes) : Prop where
  storeName : s.store.name = DistributedLog.storeName s.baseOffset
  indexName : s.index.name = DistributedLog.indexName s.baseOffset
  config : s.config = c
  store : s.store.Carries d (frames E s.baseOffset rs ++ orphans)
  size : s.store.size = UInt64.ofNat (frames E s.baseOffset rs ++ orphans).length
  index : s.index.Holds d c.maxIndexBytes (entriesOf E s.baseOffset rs)

/-- As `Rep`, with orphaned bytes. -/
structure RepWith (E : Env) (c : Config) (d : Dir) (s : Segment) (rs : List Record)
    (orphans : Bytes) : Prop extends s.Keeps E c d rs orphans where
  next : s.nextOffset.toNat = s.baseOffset.toNat + rs.length

variable {orphans : Bytes}

theorem repWith_nil : s.RepWith E c d rs [] ↔ s.Rep E c d rs := by
  constructor
  · rintro ⟨⟨hst, hix, hc, hs, hz, hi⟩, hn⟩
    rw [List.append_nil] at hs hz
    exact ⟨hst, hix, hc, hn, hs, hz, hi⟩
  · intro h
    refine ⟨⟨h.storeName, h.indexName, h.config, ?_, ?_, h.index⟩, h.next⟩
    · rw [List.append_nil]
      exact h.store
    · rw [List.append_nil]
      exact h.size

theorem Keeps.frame {d' : Dir} (h : s.Keeps E c d rs orphans)
    (hd : ∀ n ∈ segmentFiles s.baseOffset, d'.content? n = d.content? n) :
    s.Keeps E c d' rs orphans :=
  { h with
    store := h.store.frame (by rw [h.storeName]; exact hd _ (by simp [segmentFiles]))
    index := h.index.frame (by rw [h.indexName]; exact hd _ (by simp [segmentFiles])) }

theorem RepWith.frame {d' : Dir} (h : s.RepWith E c d rs orphans)
    (hd : ∀ n ∈ segmentFiles s.baseOffset, d'.content? n = d.content? n) :
    s.RepWith E c d' rs orphans :=
  ⟨h.toKeeps.frame hd, h.next⟩

theorem Keeps.index_size (h : s.Keeps E c d rs orphans) :
    s.index.size.toNat = 12 * rs.length := by
  rw [h.index.size, length_entriesOf]

/-- The store write of an append happens whether or not the index has room
for the entry. -/
theorem Keeps.append_store (h : s.Keeps E c d rs orphans) (p : Bytes) :
    ∃ st d', s.store.append E d p =
        (.ok (UInt64.ofNat (p.length + lenWidth), s.store.size), st, d') ∧
      st.name = DistributedLog.storeName s.baseOffset ∧
      st.Carries d' (frames E s.baseOffset rs ++ (orphans ++ DistributedLog.frame p)) ∧
      st.size =
        UInt64.ofNat (frames E s.baseOffset rs ++ (orphans ++ DistributedLog.frame p)).length ∧
      s.index.Holds d' c.maxIndexBytes (entriesOf E s.baseOffset rs) ∧
      Directory.Touches [DistributedLog.storeName s.baseOffset] d d' := by
  obtain ⟨st, d', happ, hc, hn, hz, ht⟩ := Store.append_spec h.store E p
  rw [h.storeName] at hn ht
  rw [List.append_assoc] at hc
  refine ⟨st, d', happ, hn, hc, ?_, h.index.frame (ht.others _ ?_), ht⟩
  · rw [hz, h.size, ← UInt64.ofNat_add]
    simp only [List.length_append, length_frame]
    congr 1
    omega
  · rw [h.indexName, List.mem_singleton]
    exact (storeName_ne_indexName _ _).symm

/-- An append that succeeds has found room for its entry. -/
theorem Keeps.append_room (h : s.Keeps E c d rs orphans) {r : Record} {off : UInt64}
    {s' : Segment × Dir} (happ : s.append E d (some r) = (.ok off, s')) :
    12 * (rs.length + 1) ≤ c.maxIndexBytes.toNat := by
  by_contra hfull
  obtain ⟨st, d₁, hstore, -, -, -, hindex, -⟩ :=
    h.append_store (E.marshal { r with offset := s.nextOffset })
  have hw := Index.write_full hindex (s.nextOffset - s.baseOffset).toUInt32 s.store.size
    (by rw [length_entriesOf]; omega)
  simp only [Segment.append, hstore, hw] at happ
  cases happ

/-- A successful append, when the index has room for twelve more bytes. The
next offset may wrap. -/
theorem Keeps.append (h : s.Keeps E c d rs [])
    (hnext : s.nextOffset = s.baseOffset + UInt64.ofNat rs.length) (r : Record)
    (hroom : 12 * (rs.length + 1) ≤ c.maxIndexBytes.toNat) :
    ∃ s' d', s.append E d (some r) = (.ok s.nextOffset, s', d') ∧
      s'.Keeps E c d' (rs ++ [r]) [] ∧ s'.baseOffset = s.baseOffset ∧
      s'.nextOffset = s.nextOffset + 1 ∧ Directory.Touches (segmentFiles s.baseOffset) d d' := by
  obtain ⟨st, d₁, happ, hname, hcar, hsize, hindex, ht₁⟩ :=
    h.append_store (E.marshal { r with offset := s.nextOffset })
  have hframes : frames E s.baseOffset rs ++
      ([] ++ DistributedLog.frame (E.marshal { r with offset := s.nextOffset })) =
      frames E s.baseOffset (rs ++ [r]) ++ [] := by
    rw [frames_append, ← hnext, frames, frames, List.append_nil, List.append_nil, List.nil_append]
  rw [hframes] at hcar hsize
  obtain ⟨d₂, hw, hix, ht₂⟩ := Index.write_spec hindex
    (s.nextOffset - s.baseOffset).toUInt32 s.store.size (by rw [length_entriesOf]; exact hroom)
  rw [h.indexName] at ht₂
  have hrel : (s.nextOffset - s.baseOffset).toUInt32 = UInt32.ofNat rs.length := by
    rw [hnext, UInt64.add_comm, UInt64.add_sub_cancel, UInt64.toUInt32_ofNat']
  refine ⟨{ s with
    store := st, index := { s.index with size := s.index.size + entryWidth },
    nextOffset := s.nextOffset + 1 }, d₂, by simp only [Segment.append, happ, hw], ?_, rfl, rfl, ?_⟩
  · refine ⟨hname, h.indexName, h.config, hcar.frame (ht₂.others _ ?_), hsize, ?_⟩
    · rw [hname, List.mem_singleton]
      exact storeName_ne_indexName _ _
    · rw [hrel, h.size, List.append_nil] at hix
      rw [entriesOf_append]
      exact hix
  · exact (ht₁.mono (by simp [segmentFiles])).trans (ht₂.mono (by simp [segmentFiles]))

theorem append_spec (h : s.Rep E c d rs) (r : Record)
    (hroom : 12 * (rs.length + 1) ≤ c.maxIndexBytes.toNat)
    (hnext : s.baseOffset.toNat + rs.length + 1 < 2 ^ 64) :
    ∃ s' d', s.append E d (some r) = (.ok s.nextOffset, s', d') ∧ s'.Rep E c d' (rs ++ [r]) ∧
      s'.baseOffset = s.baseOffset ∧
      Directory.Touches (segmentFiles s.baseOffset) d d' := by
  obtain ⟨s', d', happ, hkeeps, hb, hn, ht⟩ :=
    (repWith_nil.mpr h).toKeeps.append h.nextOffset_eq r hroom
  have hone : (1 : UInt64).toNat = 1 := rfl
  refine ⟨s', d', happ, repWith_nil.mp ⟨hkeeps, ?_⟩, hb, ht⟩
  rw [hn, hb, UInt64.toNat_add, h.next, hone, List.length_append, List.length_singleton]
  exact Nat.mod_eq_of_lt hnext

/-- An append that succeeds returns the next offset. -/
theorem append_returns {record : Option Record} {off : UInt64} {s' : Segment} {d' : Dir}
    (h : s.append E d record = (.ok off, s', d')) : off = s.nextOffset := by
  cases record with
  | none => cases h
  | some r =>
      simp only [append] at h
      split at h
      · cases h
      · split at h
        · cases h
        · cases h
          rfl

/-- With a full index the append fails, but its frame is in the store. -/
theorem RepWith.append_full (h : s.RepWith E c d rs orphans) (r : Record)
    (hroom : c.maxIndexBytes.toNat < 12 * (rs.length + 1)) :
    ∃ s' d', s.append E d (some r) = (.error (.err .eof), s', d') ∧
      s'.RepWith E c d' rs
        (orphans ++ DistributedLog.frame (E.marshal { r with offset := s.nextOffset })) ∧
      s'.baseOffset = s.baseOffset ∧ s'.nextOffset = s.nextOffset ∧ s'.index = s.index ∧
      Directory.Touches (segmentFiles s.baseOffset) d d' := by
  obtain ⟨st, d₁, happ, hname, hcar, hsize, hindex, ht₁⟩ :=
    h.append_store (E.marshal { r with offset := s.nextOffset })
  have hw := Index.write_full hindex (s.nextOffset - s.baseOffset).toUInt32 s.store.size
    (by rw [length_entriesOf]; exact hroom)
  exact ⟨{ s with store := st }, d₁, by simp only [append, happ, hw],
    ⟨⟨hname, h.indexName, h.config, hcar, hsize, hindex⟩, h.next⟩, rfl, rfl, rfl,
    ht₁.mono (by simp [segmentFiles])⟩

theorem append_full (h : s.Rep E c d rs) (r : Record)
    (hroom : c.maxIndexBytes.toNat < 12 * (rs.length + 1)) :
    ∃ s' d', s.append E d (some r) = (.error (.err .eof), s', d') ∧
      s'.baseOffset = s.baseOffset ∧ s'.nextOffset = s.nextOffset ∧ s'.index = s.index ∧
      s'.store.Carries d' (frames E s.baseOffset (rs ++ [r])) ∧
      Directory.Touches (segmentFiles s.baseOffset) d d' := by
  obtain ⟨s', d', happ, hrep, hb, hn, hi, ht⟩ := (repWith_nil.mpr h).append_full r hroom
  have hcar := hrep.store
  rw [hb, List.nil_append] at hcar
  refine ⟨s', d', happ, hb, hn, hi, ?_, ht⟩
  rw [frames_append, ← h.nextOffset_eq, frames, frames, List.append_nil]
  exact hcar

/-- What is read once the index has named record `k`. -/
theorem Keeps.read_at (h : s.Keeps E c d rs orphans) {off : UInt64} {k : Nat} {r : Record}
    (hk : rs[k]? = some r) (hix : s.index.read d (off - s.baseOffset).toInt64 =
      .ok (UInt32.ofNat k, UInt64.ofNat (frames E s.baseOffset (rs.take k)).length))
    (hfit : (frames E s.baseOffset rs).length < 2 ^ 63) :
    ∃ s' d', s.read E d off =
        (.ok { r with offset := s.baseOffset + UInt64.ofNat k }, s', d') ∧
      s'.Keeps E c d' rs orphans ∧ s'.baseOffset = s.baseOffset ∧
      s'.nextOffset = s.nextOffset ∧ Directory.Touches (segmentFiles s.baseOffset) d d' := by
  have hsplit := frames_split (E := E) s.baseOffset hk
  have hlen := congrArg List.length hsplit
  simp only [List.length_append] at hlen
  have hpos : (UInt64.ofNat (frames E s.baseOffset (rs.take k)).length).toNat =
      (frames E s.baseOffset (rs.take k)).length := by
    rw [UInt64.toNat_ofNat', Nat.mod_eq_of_lt]
    omega
  obtain ⟨st, d', hrd, hcar, hn, hz, ht⟩ := Store.read_spec h.store
    (by rw [hsplit, List.append_assoc]) (by rw [List.length_append]; omega) hpos
  rw [h.storeName] at hn ht
  have hother : d'.content? s.index.name = d.content? s.index.name :=
    ht.others _ (by
      rw [h.indexName, List.mem_singleton]; exact (storeName_ne_indexName _ _).symm)
  refine ⟨{ s with store := st }, d', by simp only [Segment.read, hix, hrd, E.unmarshal_marshal],
    ?_, rfl, rfl, ht.mono (by simp [segmentFiles])⟩
  exact ⟨hn, h.indexName, h.config, hcar, hz.trans h.size, h.index.frame hother⟩

/-- Reading an offset of the segment returns a record appended there: the
one whose number is that of the offset modulo 2^32. -/
theorem RepWith.read (h : s.RepWith E c d rs orphans) (off : UInt64) {i : Nat} {r : Record}
    (hlt : i < rs.length) (hi : rs[i % 2 ^ 32]? = some r)
    (hoff : off.toNat = s.baseOffset.toNat + i)
    (hfit : (frames E s.baseOffset rs).length < 2 ^ 63) :
    ∃ s' d', s.read E d off =
        (.ok { r with offset := s.baseOffset + UInt64.ofNat (i % 2 ^ 32) }, s', d') ∧
      s'.RepWith E c d' rs orphans ∧ s'.baseOffset = s.baseOffset ∧
      s'.nextOffset = s.nextOffset ∧ Directory.Touches (segmentFiles s.baseOffset) d d' := by
  have hroom := h.index.room
  have hlim := h.index.limit
  rw [length_entriesOf] at hroom
  have hrel : (off - s.baseOffset).toNat = i := by
    rw [UInt64.toNat_sub_of_le _ _ (UInt64.le_iff_toNat_le.mpr (by omega)), hoff]
    omega
  have hj : i % 2 ^ 32 < rs.length := (List.getElem?_eq_some_iff.mp hi).1
  have hix : s.index.read d (off - s.baseOffset).toInt64 = .ok (UInt32.ofNat (i % 2 ^ 32),
      UInt64.ofNat (frames E s.baseOffset (rs.take (i % 2 ^ 32))).length) := by
    refine Index.read_mod h.index ?_ (by omega)
    rw [hrel]
    exact getElem?_entriesOf _ _ hj
  obtain ⟨s', d', hread, hkeeps, hb, hn, ht⟩ := h.toKeeps.read_at hi hix hfit
  refine ⟨s', d', hread, ⟨hkeeps, ?_⟩, hb, hn, ht⟩
  rw [hn, hb]
  exact h.next

/-- Fewer than 2^32 records: the one appended there. -/
theorem RepWith.read_spec (h : s.RepWith E c d rs orphans) (off : UInt64) {i : Nat} {r : Record}
    (hi : rs[i]? = some r) (hoff : off.toNat = s.baseOffset.toNat + i) (hi32 : i < 2 ^ 32)
    (hfit : (frames E s.baseOffset rs).length < 2 ^ 63) :
    ∃ s' d', s.read E d off = (.ok { r with offset := off }, s', d') ∧
      s'.RepWith E c d' rs orphans ∧ s'.baseOffset = s.baseOffset ∧
      s'.nextOffset = s.nextOffset ∧ Directory.Touches (segmentFiles s.baseOffset) d d' := by
  have hlt : i < rs.length := (List.getElem?_eq_some_iff.mp hi).1
  have hofflt := off.toNat_lt
  have hoff' : s.baseOffset + UInt64.ofNat i = off := by
    apply UInt64.toNat_inj.mp
    rw [UInt64.toNat_add, UInt64.toNat_ofNat', hoff]
    omega
  have hread := h.read off hlt (r := r) (by rw [Nat.mod_eq_of_lt hi32]; exact hi) hoff hfit
  rw [Nat.mod_eq_of_lt hi32, hoff'] at hread
  exact hread

theorem read_spec (h : s.Rep E c d rs) (off : UInt64) {i : Nat} {r : Record}
    (hi : rs[i]? = some r) (hoff : off.toNat = s.baseOffset.toNat + i) (hi32 : i < 2 ^ 32)
    (hfit : (frames E s.baseOffset rs).length < 2 ^ 63) :
    ∃ s' d', s.read E d off = (.ok { r with offset := off }, s', d') ∧ s'.Rep E c d' rs ∧
      s'.baseOffset = s.baseOffset ∧ s'.nextOffset = s.nextOffset ∧
      Directory.Touches (segmentFiles s.baseOffset) d d' := by
  obtain ⟨s', d', hread, hrep, hsame⟩ := (repWith_nil.mpr h).read_spec off hi hoff hi32 hfit
  exact ⟨s', d', hread, repWith_nil.mp hrep, hsame⟩

theorem Keeps.flush (h : s.Keeps E c d rs orphans) :
    ∃ st d', s.store.flush d = (.ok (), st, d') ∧
      Keeps E c d' { s with store := st } rs orphans ∧
      d'.content? st.name = some (frames E s.baseOffset rs ++ orphans) ∧
      Directory.Touches (segmentFiles s.baseOffset) d d' := by
  obtain ⟨st, d', hfl, hcar, hcont, hname, hsize, ht⟩ := Store.flush_spec h.store
  rw [h.storeName] at ht
  refine ⟨st, d', hfl, ?_, by rw [hname, hcont], ht.mono (by simp [segmentFiles])⟩
  refine ⟨hname.trans h.storeName, h.indexName, h.config, hcar, hsize.trans h.size,
    h.index.frame (ht.others _ ?_)⟩
  rw [h.indexName, List.mem_singleton]
  exact (storeName_ne_indexName _ _).symm

theorem RepWith.flush (h : s.RepWith E c d rs orphans) :
    ∃ st d', s.store.flush d = (.ok (), st, d') ∧
      RepWith E c d' { s with store := st } rs orphans ∧
      d'.content? st.name = some (frames E s.baseOffset rs ++ orphans) ∧
      Directory.Touches (segmentFiles s.baseOffset) d d' := by
  obtain ⟨st, d', hfl, hkeeps, hsame⟩ := h.toKeeps.flush
  exact ⟨st, d', hfl, ⟨hkeeps, h.next⟩, hsame⟩

/-- What a cleanly closed segment leaves in its two files. -/
structure Stored (E : Env) (d : Dir) (base : UInt64) (rs : List Record) : Prop where
  store : d.content? (DistributedLog.storeName base) = some (frames E base rs)
  index : d.content? (DistributedLog.indexName base) = some (encodeEntries (entriesOf E base rs))

/-- The same, with orphaned bytes. -/
structure StoredWith (E : Env) (d : Dir) (base : UInt64) (rs : List Record) (orphans : Bytes) :
    Prop where
  store : d.content? (DistributedLog.storeName base) = some (frames E base rs ++ orphans)
  index : d.content? (DistributedLog.indexName base) = some (encodeEntries (entriesOf E base rs))

theorem storedWith_nil {base : UInt64} : StoredWith E d base rs [] ↔ Stored E d base rs := by
  constructor
  · rintro ⟨hstore, hindex⟩
    rw [List.append_nil] at hstore
    exact ⟨hstore, hindex⟩
  · rintro ⟨hstore, hindex⟩
    exact ⟨by rw [List.append_nil]; exact hstore, hindex⟩

theorem RepWith.close (h : s.RepWith E c d rs orphans) :
    ∃ s' d', s.close d = (.ok (), s', d') ∧ StoredWith E d' s.baseOffset rs orphans ∧
      s'.baseOffset = s.baseOffset ∧ s'.nextOffset = s.nextOffset ∧
      s'.store.name = DistributedLog.storeName s.baseOffset ∧
      s'.index.name = DistributedLog.indexName s.baseOffset ∧
      Directory.Touches (segmentFiles s.baseOffset) d d' := by
  obtain ⟨d₁, hci, hfi, ht₁⟩ := Index.close_spec h.index
  rw [h.indexName] at ht₁ hfi
  have hstore : s.store.Carries d₁ (frames E s.baseOffset rs ++ orphans) :=
    h.store.frame (ht₁.others _ (by
      rw [h.storeName, List.mem_singleton]; exact storeName_ne_indexName _ _))
  obtain ⟨st, d₂, hcs, hn, hfs, ht₂⟩ := Store.close_spec hstore
  rw [h.storeName] at hn hfs ht₂
  refine ⟨{ s with index := { s.index with mapped := false }, store := st }, d₂,
    by simp only [Segment.close, hci, hcs], ⟨hfs, ?_⟩, rfl, rfl, hn, h.indexName, ?_⟩
  · rw [ht₂.others _ (by rw [List.mem_singleton]; exact (storeName_ne_indexName _ _).symm)]
    exact hfi
  · exact (ht₁.mono (by simp [segmentFiles])).trans (ht₂.mono (by simp [segmentFiles]))

theorem close_spec (h : s.Rep E c d rs) :
    ∃ s' d', s.close d = (.ok (), s', d') ∧ Stored E d' s.baseOffset rs ∧
      s'.baseOffset = s.baseOffset ∧ s'.nextOffset = s.nextOffset ∧
      s'.store.name = DistributedLog.storeName s.baseOffset ∧
      s'.index.name = DistributedLog.indexName s.baseOffset ∧
      Directory.Touches (segmentFiles s.baseOffset) d d' := by
  obtain ⟨s', d', hclose, hst, hsame⟩ := (repWith_nil.mpr h).close
  exact ⟨s', d', hclose, storedWith_nil.mp hst, hsame⟩

/-- Removing a segment deletes its two files and nothing else. -/
theorem remove_spec (h : s.Rep E c d rs) :
    ∃ s' d', s.remove d = (.ok (), s', d') ∧ d'.present = d.present ∧
      (∀ n, n ∉ segmentFiles s.baseOffset → d'.content? n = d.content? n) ∧
      ∀ rest, d.names.Perm (segmentFiles s.baseOffset ++ rest) → d'.names.Perm rest := by
  obtain ⟨s', d₁, hcl, hst, -, -, hsn, hin, ht⟩ := close_spec h
  have hne := storeName_ne_indexName s.baseOffset s.baseOffset
  have hstore : (d₁.remove (DistributedLog.indexName s.baseOffset)).content?
      (DistributedLog.storeName s.baseOffset) = some (frames E s.baseOffset rs) := by
    rw [Directory.content?_remove_of_ne _ hne]; exact hst.store
  refine ⟨s', (d₁.remove (DistributedLog.indexName s.baseOffset)).remove
    (DistributedLog.storeName s.baseOffset), ?_, ?_, ?_, ?_⟩
  · simp [remove, hcl, hsn, hin, hst.index, hstore]
  · simp [ht.present]
  · intro n hn
    have hn' := hn
    simp only [segmentFiles, List.mem_cons, List.not_mem_nil, or_false, not_or] at hn'
    rw [Directory.content?_remove_of_ne _ hn'.1, Directory.content?_remove_of_ne _ hn'.2,
      ht.others n hn]
  · intro rest hrest
    refine Directory.names_remove_of_perm (Directory.names_remove_of_perm ?_)
    exact (ht.names.trans hrest).trans (.swap ..)

end Segment

/-! ## Opening -/

theorem newStore_congr {d d' : Dir} {name : Name} (h : d.content? name = d'.content? name) :
    newStore d name = newStore d' name := by
  simp [newStore, h]

theorem last_entriesOf (base : UInt64) {rs : List Record} (h : rs ≠ []) :
    (entriesOf E base rs).getLast? =
      some (UInt32.ofNat (rs.length - 1), UInt64.ofNat (frames E base rs.dropLast).length) := by
  have hpos := List.length_pos_iff.mpr h
  rw [List.getLast?_eq_getElem?, length_entriesOf, getElem?_entriesOf _ _ (by omega),
    List.dropLast_eq_take]

/-- What has been opened: store and index at the base offset, and a next
offset that is the base offset or the one after the last entry's. -/
theorem newSegment_cases {d' : Dir} {base : UInt64} {s : Segment}
    (h : newSegment d base c = (.ok s, d')) :
    d.present = true ∧ s.baseOffset = base ∧
      (s.nextOffset = base ∨ ∃ off : UInt32, s.nextOffset = base + off.toUInt64 + 1) ∧
      newIndex ((d.create (storeName base)).create (indexName base)) (indexName base) c =
        (.ok s.index, d') := by
  unfold newSegment at h
  split at h
  · cases h
  · next hd =>
    refine ⟨by simpa using hd, ?_⟩
    simp only at h
    split at h
    · cases h
    · next i d₁ hi =>
      split at h
      · cases h
      · cases h
        exact ⟨rfl, .inl rfl, hi⟩
      · next off _ _ =>
        cases h
        exact ⟨rfl, .inr ⟨off, rfl⟩, hi⟩

/-- Opening succeeds only in a directory, and under limits that can be mapped. -/
theorem newSegment_ok {d' : Dir} {base : UInt64} {s : Segment}
    (h : newSegment d base c = (.ok s, d')) : d.present = true ∧ c.Mappable := by
  obtain ⟨hd, -, -, hi⟩ := newSegment_cases h
  refine ⟨hd, ?_⟩
  unfold newIndex at hi
  split at hi
  · cases hi
  · next hlim =>
    simp only at hi
    split at hi
    · cases hi
    · next hzero =>
      exact ⟨Nat.pos_of_ne_zero fun h0 => hzero (UInt64.toNat_inj.mp h0), by omega⟩

/-- The files are there already. -/
theorem Segment.StoredWith.create {base : UInt64} {rs : List Record} {orphans : Bytes}
    (h : Segment.StoredWith E d base rs orphans) :
    d.create (DistributedLog.storeName base) = d ∧ d.create (DistributedLog.indexName base) = d :=
  ⟨Directory.create_of_mem (Directory.mem_names.mpr (by simp [h.store])),
    Directory.create_of_mem (Directory.mem_names.mpr (by simp [h.index]))⟩

/-- Opening the files of a closed segment brings back its records. The last
entry's relative offset is a 32-bit number, so there may be at most 2^32. -/
theorem newSegment_storedWith {base : UInt64} {rs : List Record} {orphans : Bytes}
    (hd : d.present = true) (hc : c.Mappable) (h : Segment.StoredWith E d base rs orphans)
    (hroom : 12 * rs.length ≤ c.maxIndexBytes.toNat) (h32 : rs.length ≤ 2 ^ 32)
    (hnext : base.toNat + rs.length < 2 ^ 64) :
    ∃ s d', newSegment d base c = (.ok s, d') ∧ s.baseOffset = base ∧ s.RepWith E c d' rs orphans ∧
      Directory.Touches (segmentFiles base) d d' := by
  obtain ⟨hst, hix⟩ := h.create
  obtain ⟨i, d', hi, hname, hholds, ht⟩ := Index.newIndex_spec hc.pos hc.limit h.index
    (by rw [length_entriesOf]; exact hroom)
  have hstore : d'.content? (storeName base) = some (frames E base rs ++ orphans) := by
    rw [ht.others _ (by rw [List.mem_singleton]; exact storeName_ne_indexName _ _)]
    exact h.store
  have hrep : ∀ next : UInt64, next.toNat = base.toNat + rs.length →
      Segment.RepWith E c d' ⟨newStore d (storeName base), i, base, next, c⟩ rs orphans := by
    intro next hn
    refine ⟨⟨rfl, hname, rfl, ?_, ?_, hholds⟩, hn⟩
    · rw [newStore_congr (h.store.trans hstore.symm)]
      exact Store.newStore_carries hstore
    · simp [newStore, h.store]
  have hmono : Directory.Touches (segmentFiles base) d d' := ht.mono (by simp [segmentFiles])
  by_cases hrs : rs = []
  · subst hrs
    have hread := Index.read_nil_spec hholds (-1)
    exact ⟨⟨newStore d (storeName base), i, base, base, c⟩, d',
      by simp [newSegment, hd, hst, hix, hi, hread], rfl, hrep base rfl, hmono⟩
  · have hread := Index.read_last_spec hholds (last_entriesOf base hrs)
      (by rw [length_entriesOf]; exact h32)
    have hpos := List.length_pos_iff.mpr hrs
    refine ⟨⟨newStore d (storeName base), i, base,
      base + (UInt32.ofNat (rs.length - 1)).toUInt64 + 1, c⟩, d',
      by simp [newSegment, hd, hst, hix, hi, hread], rfl, hrep _ ?_, hmono⟩
    have hone : (1 : UInt64).toNat = 1 := rfl
    rw [UInt64.toNat_add, UInt64.toNat_add, UInt32.toNat_toUInt64, UInt32.toNat_ofNat', hone]
    omega

/-- Opening an index that has been cut back to less than its entries: `size`
is still that of the file before, and the last entry is no longer mapped. -/
theorem newSegment_panics {base : UInt64} {rs : List Record} {orphans : Bytes}
    (hd : d.present = true) (hc : c.Mappable) (h : Segment.StoredWith E d base rs orphans)
    (hlarge : c.maxIndexBytes.toNat < 12 * rs.length) (h32 : rs.length ≤ 2 ^ 32) :
    ∃ d', newSegment d base c = (.error .panic, d') := by
  obtain ⟨hst, hix⟩ := h.create
  have hi := Index.newIndex_eq hc.pos hc.limit h.index
  have hsize : (UInt64.ofNat (encodeEntries (entriesOf E base rs)).length).toNat =
      12 * rs.length := by
    rw [length_encodeEntries, length_entriesOf, UInt64.toNat_ofNat', Nat.mod_eq_of_lt (by omega)]
  have hread := Index.read_last_unmapped
    (i := ⟨indexName base, true, c.maxIndexBytes, UInt64.ofNat _⟩)
    (d := d.modify (indexName base) (resize c.maxIndexBytes.toNat))
    (by rw [hsize]; exact hlarge) hsize h32
  refine ⟨d.modify (indexName base) (resize c.maxIndexBytes.toNat), ?_⟩
  simp only [newSegment, hd, hst, hix, hi, hread, Bool.not_true, Bool.false_eq_true, if_false]

theorem newSegment_stored {base : UInt64} {rs : List Record} (hd : d.present = true)
    (hc : c.Mappable) (h : Segment.Stored E d base rs)
    (hroom : 12 * rs.length ≤ c.maxIndexBytes.toNat) (h32 : rs.length ≤ 2 ^ 32)
    (hnext : base.toNat + rs.length < 2 ^ 64) :
    ∃ s d', newSegment d base c = (.ok s, d') ∧ s.baseOffset = base ∧ s.Rep E c d' rs ∧
      Directory.Touches (segmentFiles base) d d' := by
  obtain ⟨s, d', hnew, hb, hrep, ht⟩ :=
    newSegment_storedWith hd hc (Segment.storedWith_nil.mpr h) hroom h32 hnext
  exact ⟨s, d', hnew, hb, Segment.repWith_nil.mp hrep, ht⟩

/-- Opening creates the two files that are missing. -/
theorem newSegment_create (hd : d.present = true) (base : UInt64) (c : Config) :
    newSegment d base c =
      newSegment ((d.create (storeName base)).create (indexName base)) base c := by
  have hne := storeName_ne_indexName base base
  have hst : ((d.create (storeName base)).create (indexName base)).create (storeName base) =
      (d.create (storeName base)).create (indexName base) :=
    Directory.create_of_mem (Directory.mem_names.mpr (by simp [hne]))
  have hix : ((d.create (storeName base)).create (indexName base)).create (indexName base) =
      (d.create (storeName base)).create (indexName base) :=
    Directory.create_of_mem (Directory.mem_names.mpr (by simp))
  have hstore : newStore (d.create (storeName base)) (storeName base) =
      newStore ((d.create (storeName base)).create (indexName base)) (storeName base) :=
    newStore_congr (by simp [hne])
  simp only [newSegment, hd, Directory.present_create, hst, hix, hstore, Bool.not_true,
    Bool.false_eq_true, if_false]

/-- The files of a fresh base offset, once they are created. -/
theorem Segment.stored_create {base : UInt64} (hfresh : ∀ n ∈ segmentFiles base, n ∉ d.names) :
    Segment.Stored E ((d.create (storeName base)).create (indexName base)) base [] := by
  have hne := storeName_ne_indexName base base
  have hnone : ∀ n ∈ segmentFiles base, d.content? n = none := by
    intro n hn
    simpa [Directory.mem_names] using hfresh n hn
  constructor
  · simp [hne, hnone (storeName base) (by simp [segmentFiles]), frames]
  · simp [hne.symm, hnone (indexName base) (by simp [segmentFiles]), entriesOf, encodeEntries]

/-- A segment with a fresh base offset starts out empty. -/
theorem newSegment_fresh (base : UInt64) (hd : d.present = true) (hc : c.Mappable)
    (hfresh : ∀ n ∈ segmentFiles base, n ∉ d.names) :
    ∃ s d', newSegment d base c = (.ok s, d') ∧ s.baseOffset = base ∧ s.Rep E c d' [] ∧
      d'.present = true ∧ (∀ n, n ∉ segmentFiles base → d'.content? n = d.content? n) ∧
      d'.names.Perm (segmentFiles base ++ d.names) := by
  have hne := storeName_ne_indexName base base
  have hs : storeName base ∉ d.names := hfresh _ (by simp [segmentFiles])
  have hi : indexName base ∉ d.names := hfresh _ (by simp [segmentFiles])
  have hns : (d.create (storeName base)).names.Perm (storeName base :: d.names) :=
    Directory.names_create_perm d hs
  have hi' : indexName base ∉ (d.create (storeName base)).names := by
    rw [hns.mem_iff, List.mem_cons, not_or]
    exact ⟨hne.symm, hi⟩
  obtain ⟨s, d', hnew, hb, hrep, ht⟩ := newSegment_stored (c := c) (by simpa using hd) hc
    (Segment.stored_create (E := E) hfresh)
    (by simp) (by simp) (by simpa using base.toNat_lt)
  rw [← newSegment_create hd] at hnew
  refine ⟨s, d', hnew, hb, hrep, by rw [ht.present]; simpa using hd, ?_, ?_⟩
  · intro n hn
    have hn' := hn
    simp only [segmentFiles, List.mem_cons, List.not_mem_nil, or_false, not_or] at hn'
    rw [ht.others n hn, Directory.content?_create_of_ne _ hn'.2,
      Directory.content?_create_of_ne _ hn'.1]
  · exact ht.names.trans ((Directory.names_create_perm _ hi').trans
      ((hns.cons _).trans (.swap ..)))

end DistributedLog
