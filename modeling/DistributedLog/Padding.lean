import DistributedLog.Calls

/-!
# Index files that have not been closed

While a log is open, each index file is as long as `MaxIndexBytes` allows,
with zeros behind the entries (`Unclosed`). Every call but `Close` keeps it
so (`Padding.call`). What comes of such files when they are opened again is
the subject of `Remains`.
-/

namespace DistributedLog

/-! ## Zeros behind the entries -/

theorem resize_of_le {n : Nat} {bs : Bytes} (h : bs.length ≤ n) :
    resize n bs = bs ++ List.replicate (n - bs.length) 0 := by
  rw [resize, List.take_of_length_le h]

theorem splice_resize {M : Nat} {bs p : Bytes} (h : bs.length + p.length ≤ M) :
    splice bs.length p (resize M bs) = resize M (bs ++ p) := by
  have hsplit : List.replicate (M - bs.length) (0 : UInt8) =
      List.replicate p.length 0 ++ List.replicate (M - (bs.length + p.length)) 0 := by
    rw [← List.replicate_add]
    congr 1
    omega
  have hlen : bs.length + p.length = (bs ++ List.replicate p.length 0).length := by simp
  rw [splice, resize_of_le (by omega), resize_of_le (by rw [List.length_append]; exact h),
    List.take_left, hsplit, ← List.append_assoc bs, List.length_append]
  conv_lhs => rw [hlen, List.drop_left]
  rw [← hlen]

/-- Twelve zeros are an entry like any other. -/
theorem encodeEntries_zeros (k : Nat) :
    encodeEntries (List.replicate k (0, 0)) = List.replicate (12 * k) 0 := by
  induction k with
  | zero => rfl
  | succ k ih =>
      rw [List.replicate_succ', encodeEntries_append, ih, Nat.mul_succ, List.replicate_add]
      rfl

/-- The entries that a padded file seems to have. -/
def padEntries (M : Nat) (es : List (UInt32 × UInt64)) : List (UInt32 × UInt64) :=
  es ++ List.replicate (M / 12 - es.length) (0, 0)

theorem length_padEntries {M : Nat} {es : List (UInt32 × UInt64)} (h : 12 * es.length ≤ M) :
    (padEntries M es).length = M / 12 := by
  rw [padEntries, List.length_append, List.length_replicate]
  omega

theorem take_resize_entries {M : Nat} {es : List (UInt32 × UInt64)} (h : 12 * es.length ≤ M) :
    (resize M (encodeEntries es)).take (12 * (padEntries M es).length) =
      encodeEntries (padEntries M es) := by
  have hsplit : List.replicate (M - (encodeEntries es).length) (0 : UInt8) =
      List.replicate (12 * (M / 12 - es.length)) 0 ++ List.replicate (M % 12) 0 := by
    rw [← List.replicate_add, length_encodeEntries]
    congr 1
    omega
  have hpad : encodeEntries (padEntries M es) =
      encodeEntries es ++ List.replicate (12 * (M / 12 - es.length)) 0 := by
    rw [← encodeEntries_zeros, padEntries, encodeEntries, List.flatMap_append]
    rfl
  rw [← length_encodeEntries, resize_of_le (by rw [length_encodeEntries]; exact h), hsplit,
    ← List.append_assoc, ← hpad, List.take_left]

/-! ## Segments -/

variable {E : Env} {c : Config} {d d' : Dir} {b : Block}

/-- The index file of a block as an open segment keeps it. -/
def Unclosed (E : Env) (c : Config) (d : Dir) (b : Block) : Prop :=
  d.content? (indexName b.base) =
    some (resize c.maxIndexBytes.toNat (encodeEntries (entriesOf E b.base b.records)))

theorem Unclosed.frame (h : Unclosed E c d b)
    (hd : d'.content? (indexName b.base) = d.content? (indexName b.base)) : Unclosed E c d' b :=
  hd.trans h

/-- Changes to other segments' files leave an index file alone. -/
theorem Unclosed.frame_of_ne {base : UInt64} (h : Unclosed E c d b) (hne : b.base ≠ base)
    (hd : ∀ n, n ∉ segmentFiles base → d'.content? n = d.content? n) : Unclosed E c d' b :=
  h.frame (hd _ (segmentFiles_disjoint hne _ (by simp [segmentFiles])))

/-- An append that succeeds overwrites twelve of the zeros. -/
theorem Unclosed.append {s s' : Segment} {off : UInt64} {r : Record} (hs : s.Holds E c d b)
    (h : Unclosed E c d b) (happ : s.append E d (some r) = (.ok off, s', d')) :
    Unclosed E c d' ⟨b.base, b.records ++ [r]⟩ := by
  have hkeeps := (Segment.repWith_nil.mpr hs.rep).toKeeps
  have hroom := hkeeps.append_room happ
  obtain ⟨st, d₁, hstore, -, -, -, hindex, ht⟩ :=
    hkeeps.append_store (E.marshal { r with offset := s.nextOffset })
  have hfile : d₁.content? s.index.name =
      some (resize c.maxIndexBytes.toNat (encodeEntries (entriesOf E b.base b.records))) := by
    rw [ht.others _ (by
      rw [List.mem_singleton, hs.rep.indexName]; exact (storeName_ne_indexName _ _).symm),
      hs.rep.indexName, hs.base]
    exact h
  have hrel : (s.nextOffset - s.baseOffset).toUInt32 = UInt32.ofNat b.records.length := by
    rw [hs.rep.nextOffset_eq, UInt64.add_comm, UInt64.add_sub_cancel, UInt64.toUInt32_ofNat']
  have hsize : s.index.size.toNat = (encodeEntries (entriesOf E b.base b.records)).length := by
    rw [hs.rep.index_size, length_encodeEntries, length_entriesOf]
  have hd' : d' = d₁.modify s.index.name (splice s.index.size.toNat
      (putUint32 (s.nextOffset - s.baseOffset).toUInt32 ++ putUint64 s.store.size)) := by
    simp only [Segment.append, hstore] at happ
    split at happ
    · cases happ
    · next hw =>
      cases happ
      unfold Index.write at hw
      split at hw
      · cases hw
      · split at hw
        · cases hw
        · cases hw
          rfl
  rw [Unclosed, hd', ← hs.base, ← hs.rep.indexName, Directory.content?_modify_of_some hfile, hsize,
    splice_resize, hrel, hs.rep.size, hs.base, entriesOf_append, encodeEntries_append]
  · rfl
  · rw [length_encodeEntries, length_entriesOf]
    simp
    omega

/-- What opening a segment does to the files. -/
theorem newSegment_files {base : UInt64} {s : Segment} (h : newSegment d base c = (.ok s, d')) :
    d'.present = d.present ∧ d'.content? (indexName base) =
        some (resize c.maxIndexBytes.toNat ((d.content? (indexName base)).getD [])) ∧
      ∀ n, n ∉ segmentFiles base → d'.content? n = d.content? n := by
  have hc := (newSegment_ok h).2
  have hne := storeName_ne_indexName base base
  obtain ⟨-, -, -, hi⟩ := newSegment_cases h
  have hfile : ((d.create (storeName base)).create (indexName base)).content? (indexName base) =
      some ((d.content? (indexName base)).getD []) := by
    rw [Directory.content?_create_self, Directory.content?_create_of_ne _ hne.symm]
  rw [Index.newIndex_eq hc.pos hc.limit hfile, Prod.mk.injEq] at hi
  rw [← hi.2]
  refine ⟨by simp, Directory.content?_modify_of_some hfile _, fun n hn => ?_⟩
  simp only [segmentFiles, List.mem_cons, List.not_mem_nil, or_false, not_or] at hn
  rw [Directory.content?_modify_of_ne _ hn.2, Directory.content?_create_of_ne _ hn.2,
    Directory.content?_create_of_ne _ hn.1]

/-! ## Logs -/

namespace Padding

/-- No index file of a layout has been closed. -/
def All (E : Env) (c : Config) (d : Dir) (L : Layout) : Prop := ∀ b ∈ L.blocks, Unclosed E c d b

variable {l l' : Log} {L : Layout} {orphans : Bytes}

/-- No block has the offset that comes next for its base. -/
theorem next_ne_base (hpos : 0 < L.act.len) : ∀ b ∈ L.blocks, b.base ≠ UInt64.ofNat L.next := by
  intro b hb heq
  have hstart : b.start = L.next := by
    rw [Block.start, heq, UInt64.toNat_ofNat']
    exact Nat.mod_eq_of_lt L.bounded
  unfold Layout.next at hstart
  rcases List.mem_append.mp hb with hb | hb
  · have := L.start_lt_act b hb
    omega
  · rw [List.mem_singleton.mp hb] at hstart
    omega

/-- The file of a new segment has nothing but zeros. -/
theorem All.newSegment {s : Segment} (h : l.Rep E c d L) (hu : All E c d L) (hpos : 0 < L.act.len)
    (hnew : newSegment d (UInt64.ofNat L.next) c = (.ok s, d')) : All E c d' (L.roll hpos) := by
  have hne := next_ne_base hpos
  obtain ⟨-, hfile, hother⟩ := newSegment_files hnew
  have hfresh : d.content? (indexName (UInt64.ofNat L.next)) = none := by
    rw [← Option.not_isSome_iff_eq_none, ← Directory.mem_names, h.names.mem_iff, List.mem_flatMap]
    rintro ⟨b, hb, hn⟩
    exact segmentFiles_disjoint (hne b hb) _ hn (by simp [segmentFiles])
  intro b hb
  rcases List.mem_append.mp hb with hb | hb
  · exact (hu b hb).frame_of_ne (hne b hb) hother
  · rw [List.mem_singleton.mp hb]
    rw [hfresh] at hfile
    exact hfile

theorem All.append {r : Record} {off : UInt64} (h : l.Rep E c d L) (hu : All E c d L)
    (happ : l.append E d (some r) = (.ok off, l', d')) (hnext : L.next + 1 < 2 ^ 64) :
    All E c d' (L.grow E c r hnext) := by
  obtain ⟨hroom, -⟩ := h.append_ok happ hnext
  obtain ⟨ss, s, -, -, hs, hact⟩ := h.active
  obtain ⟨s', d₁, happ₁, hrep, hbase, ht⟩ := Segment.append_spec hs.rep r hroom
    (by rw [hs.base]; exact hnext)
  rw [hs.base] at ht
  have hs' : s'.Holds E c d₁ (L.push r hnext).act := ⟨hbase.trans hs.base, hrep⟩
  have hmid := h.setActive r hnext hs' ht
  have hpush : All E c d₁ (L.push r hnext) := by
    intro b hb
    rcases List.mem_append.mp hb with hb | hb
    · exact (hu b (List.mem_append_left _ hb)).frame_of_ne
        (Block.base_ne_of_start_lt (L.start_lt_act b hb)) ht.others
    · rw [List.mem_singleton.mp hb]
      exact (hu L.act (List.mem_append_right _ (List.mem_singleton_self _))).append hs happ₁
  simp only [Log.append, hact, happ₁, hs'.isMaxed] at happ
  unfold Layout.grow
  split
  case isTrue hmax =>
    have hoff : s.nextOffset + 1 = UInt64.ofNat (L.push r hnext).next := by
      have hlen : (L.push r hnext).next = L.next + 1 := by
        rw [← Layout.abs_next, Layout.abs_push, AppendOnly.next_push, Layout.abs_next]
      have hone : (1 : UInt64).toNat = 1 := rfl
      have hn : s.nextOffset.toNat = L.next := hs.next
      apply UInt64.toNat_inj.mp
      rw [hlen, UInt64.toNat_add, UInt64.toNat_ofNat', hn, hone]
    rw [if_pos hmax, hoff] at happ
    rcases hnew : DistributedLog.newSegment d₁ (UInt64.ofNat (L.push r hnext).next) c with
      ⟨_ | s₂, d₂⟩
    · simp [Log.newSegment, hmid.config, hnew] at happ
    · simp only [Log.newSegment, hmid.config, hnew] at happ
      cases happ
      exact hpush.newSegment hmid _ hnew
  case isFalse hmax =>
    rw [if_neg hmax] at happ
    cases happ
    exact hpush

/-- An append that fails at the index has written to the store only. -/
theorem All.append_full {r : Record} {res : Result UInt64} (h : l.RepWith E c d L orphans)
    (hu : All E c d L) (hroom : c.maxIndexBytes.toNat < 12 * (L.act.len + 1))
    (happ : l.append E d (some r) = (res, l', d')) : All E c d' L := by
  obtain ⟨s, hact, hs⟩ := h.active
  obtain ⟨st, d₁, hstore, -, -, -, hindex, ht⟩ :=
    hs.rep.append_store (E.marshal { r with offset := s.nextOffset })
  have hw := Index.write_full hindex (s.nextOffset - s.baseOffset).toUInt32 s.store.size
    (by rw [length_entriesOf]; exact hroom)
  simp only [Log.append, hact, Segment.append, hstore, hw] at happ
  cases happ
  exact fun b hb => (hu b hb).frame
    (ht.others _ (by rw [List.mem_singleton]; exact (storeName_ne_indexName _ _).symm))

theorem flushStable (E : Env) (c : Config) (L : Layout) (orphans : Bytes) :
    Reader.FlushStable fun l d => l.RepWith E c d L orphans ∧ All E c d L := by
  have hstable := Log.flushStable_repWith E c L orphans
  refine ⟨fun h => hstable.ready h.1, ?_⟩
  intro l d d' i s st h hs hfl
  refine ⟨hstable.flush h.1 hs hfl, fun b hb => (h.2 b hb).frame ?_⟩
  have hsound := h.1.sound.segments s (List.mem_of_getElem? hs)
  obtain ⟨f, -, hcar⟩ := hsound.carries
  obtain ⟨st', d'', hfl', -, -, -, -, ht⟩ := Store.flush_spec hcar
  rw [hfl, Prod.mk.injEq, Prod.mk.injEq] at hfl'
  obtain ⟨-, rfl, rfl⟩ := hfl'
  refine ht.others _ ?_
  rw [List.mem_singleton, hsound.storeName]
  exact (storeName_ne_indexName _ _).symm

/-- A truncation removes files and changes none. -/
theorem All.truncate {L' : Layout} {lowest : UInt64} {res : Result Unit}
    (h : l.RepWith E c d L orphans) (hu : All E c d L) (h' : l'.RepWith E c d' L' orphans)
    (hnd : (l.segments.map Segment.baseOffset).Nodup)
    (htr : l.truncate d lowest = (res, l', d')) (hsub : L'.blocks ⊆ L.blocks) :
    All E c d' L' := by
  obtain ⟨ps, d₁, hall, -, hold, -⟩ :=
    Log.truncateAll_sound h.mappable lowest (fun s hs => h.sound.segments s hs) hnd
  simp only [Log.truncate, hall] at htr
  cases htr
  intro b hb
  obtain ⟨s, -, o, hs, -⟩ := h'.segment_of_block hb
  obtain ⟨f, hf, -⟩ := hs.rep.index.file
  rw [hs.rep.indexName, hs.base] at hf
  rw [Unclosed, hf, ← hold _ _ hf]
  exact hu b (hsub hb)

end Padding

/-- A log within the bounds of the layouts that has not been closed. -/
def Log.Unclosed (E : Env) (c : Config) (s : LogState) : Prop :=
  ∃ L orphans, s.1.RepWith E c s.2 L orphans ∧ Padding.All E c s.2 L ∧
    c.initialOffset.toNat ≤ L.lowest

namespace Padding

theorem all_of_newLog (E : Env) {s : LogState}
    (hnew : newLog Directory.empty c = (.ok (), s)) :
    All E c.withDefaults s.2 (Layout.fresh c.withDefaults.initialOffset) := by
  intro b hb
  rw [List.mem_singleton.mp hb]
  rcases hseg : newSegment Directory.empty c.withDefaults.initialOffset c.withDefaults with
    ⟨_ | seg, d'⟩
  · simp [newLog, Log.setup, Log.openAll, Log.newSegment, hseg,
      show (Directory.empty : Dir).present = true from rfl] at hnew
  · have hd : s.2 = d' := by
      simp [newLog, Log.setup, Log.openAll, Log.newSegment, hseg,
        show (Directory.empty : Dir).present = true from rfl] at hnew
      rw [← hnew]
    rw [hd]
    exact (newSegment_files hseg).2.1

theorem unclosed_of_newLog (E : Env) {s : LogState}
    (hnew : newLog Directory.empty c = (.ok (), s)) : Log.Unclosed E c.withDefaults s :=
  ⟨_, [], (Log.Rep.of_newLog E hnew).repWith, all_of_newLog E hnew, Nat.le_refl _⟩

/-- An append, whatever it returns. -/
theorem append {l l' : Log} {L : Layout} {orphans : Bytes} {r : Record} {res : Result UInt64}
    (h : l.RepWith E c d L orphans) (hall : All E c d L)
    (happ : l.append E d (some r) = (res, l', d'))
    (hoff : ∀ off, res = .ok off → off.toNat < 2 ^ 64 - 1) :
    ∃ L' orphans', l'.RepWith E c d' L' orphans' ∧ All E c d' L' ∧
      (res = .error (.err .eof) ∧ L' = L ∧ c.maxIndexBytes.toNat < 12 * (L.act.len + 1) ∨
        (∃ off, res = .ok off) ∧ L'.abs = L.abs.push r) := by
  rcases Nat.lt_or_ge c.maxIndexBytes.toNat (12 * (L.act.len + 1)) with hroom | hroom
  · obtain ⟨l₁, d₁, orphans', herr, hrep'⟩ := h.append_full r hroom
    rw [happ, Prod.mk.injEq, Prod.mk.injEq] at herr
    obtain ⟨hres, rfl, rfl⟩ := herr
    exact ⟨L, orphans', hrep', hall.append_full h hroom happ, .inl ⟨hres, rfl, hroom⟩⟩
  · obtain ⟨hplain, off, rfl, hnext⟩ := h.append_room hroom happ hoff
    exact ⟨_, [], (hplain.append_ok happ hnext).2.repWith, hall.append hplain happ hnext,
      .inr ⟨⟨off, rfl⟩, L.abs_grow E c r hnext⟩⟩

/-- One call other than `Close` and `NewLog`. -/
theorem call {s s' : LogState} {u : Call} (h : Log.Unclosed E c.withDefaults s)
    (hcall : Calls E c s u s') (hu : u.Bounded) (hne : u ≠ .reopen) :
    Log.Unclosed E c.withDefaults s' := by
  obtain ⟨L, orphans, hrep, hall, hlow⟩ := h
  have hstable := flushStable E c.withDefaults L orphans
  cases hcall with
  | append happ =>
      obtain ⟨L', orphans', hrep', hall', hcases⟩ :=
        append hrep hall happ (by rintro off rfl; exact hu)
      refine ⟨L', orphans', hrep', hall', ?_⟩
      rcases hcases with ⟨-, rfl, -⟩ | ⟨-, habs⟩
      · exact hlow
      · have hbase : L'.lowest = L.lowest := congrArg AppendOnly.base habs
        omega
  | read hread =>
      obtain ⟨hrep', hall'⟩ := hstable.read ⟨hrep, hall⟩ hread
      exact ⟨L, orphans, hrep', hall', hlow⟩
  | drain hdrain =>
      obtain ⟨hrep', hall'⟩ := (hdrain.gives hstable ⟨hrep, hall⟩ (Reader.valid_reader _)).2
      exact ⟨L, orphans, hrep', hall', hlow⟩
  | @truncate l l' d d' lowest highest hnd hhigh hbelow htr =>
      have hnext : lowest.toNat + 1 < L.next := by
        have hbound : L.next < 2 ^ 64 := L.bounded
        rw [hrep.highestOffset, Except.ok.injEq] at hhigh
        rw [UInt64.lt_iff_toNat_lt, ← hhigh, UInt64.toNat_ofNat',
          Nat.mod_eq_of_lt (by omega)] at hbelow
        omega
      obtain ⟨L', k, hblocks, hact, habs, -⟩ := L.exists_truncate hnext
      obtain ⟨l₁, d₁, htr₁, hrep'⟩ := hrep.truncate hnext hblocks hact
      rw [htr, Prod.mk.injEq, Prod.mk.injEq] at htr₁
      obtain ⟨-, rfl, rfl⟩ := htr₁
      refine ⟨L', orphans, hrep', hall.truncate hrep hrep' hnd htr ?_, ?_⟩
      · rw [hblocks]
        exact List.filter_subset_self _
      · have hbase : L'.lowest = L.lowest + k := congrArg AppendOnly.base habs
        omega
  | reopen => exact absurd rfl hne

end Padding

end DistributedLog
