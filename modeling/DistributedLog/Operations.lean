import DistributedLog.Representation

/-!
# What the operations do to the layout

One lemma for each operation of `log.Log`: on a log that stands for a layout
the operation succeeds, and the log it leaves stands for the layout that the
abstract operation gives. Whether an append rolls over to a new segment is
left open here; it makes no difference to the sequence of records.
-/

namespace DistributedLog

variable {E : Env} {c : Config} {d : Dir} {l : Log} {L : Layout}

namespace Log

/-! ## Appending -/

theorem Rep.setActive (h : l.Rep E c d L) (r : Record) (hnext : L.next + 1 < 2 ^ 64)
    {s' : Segment} {d' : Dir} (hs' : s'.Holds E c d' ⟨L.act.base, L.act.records ++ [r]⟩)
    (ht : Directory.Touches L.act.files d d') :
    (l.setActive s').Rep E c d' (L.push r hnext) := by
  obtain ⟨ss, s, hseg, hss, -, -⟩ := h.active
  have hset : l.setActive s' = { l with segments := ss ++ [s'] } := by
    simp [Log.setActive, h.detached, hseg]
  have hss' : AllHold E c d' ss L.full :=
    AllHold.frame_of_ne hss ht.others fun b hb =>
      (Block.base_ne_of_start_lt (L.start_lt_act b hb)).symm
  rw [hset]
  refine ⟨h.config, h.mappable, ht.present.trans h.present, h.detached, ?_, ?_⟩
  · exact AllHold.append hss' (.cons hs' .nil)
  · refine ht.names.trans (h.names.trans (.of_eq ?_))
    simp [Layout.blocks, Layout.push, Block.files]

/-- The next segment gets a base offset that no file bears yet. -/
theorem Rep.newSegment (h : l.Rep E c d L) (hpos : 0 < L.act.len) :
    ∃ l' d', l.newSegment d (UInt64.ofNat L.next) = (.ok (), l', d') ∧
      l'.Rep E c d' (L.roll hpos) := by
  have hbase : (UInt64.ofNat L.next).toNat = L.next := by
    rw [UInt64.toNat_ofNat']
    exact Nat.mod_eq_of_lt L.bounded
  have hne : ∀ b ∈ L.blocks, UInt64.ofNat L.next ≠ b.base := by
    intro b hb heq
    have hstart : b.start = L.next := by rw [← hbase, heq]; rfl
    unfold Layout.next at hstart
    rcases List.mem_append.mp hb with hb | hb
    · have := L.start_lt_act b hb
      omega
    · rw [List.mem_singleton.mp hb] at hstart
      omega
  have hfresh : ∀ n ∈ segmentFiles (UInt64.ofNat L.next), n ∉ d.names := by
    intro n hn hmem
    obtain ⟨b, hb, hn'⟩ := List.mem_flatMap.mp (h.names.mem_iff.mp hmem)
    exact segmentFiles_disjoint (hne b hb) n hn hn'
  obtain ⟨s, d', hnew, hb, hrep, hp, ho, hn⟩ :=
    newSegment_fresh (E := E) _ h.present h.mappable hfresh
  refine ⟨{ l with segments := l.segments ++ [s], detached := none }, d',
    by rw [Log.newSegment, h.config, hnew], h.config, h.mappable, hp, rfl, ?_, ?_⟩
  · have hold : AllHold E c d' l.segments L.blocks :=
      AllHold.frame_of_ne (b := ⟨UInt64.ofNat L.next, []⟩) h.segments ho hne
    exact AllHold.append hold (.cons ⟨hb, hrep⟩ .nil)
  · refine hn.trans ((List.Perm.append_left _ h.names).trans ?_)
    simp only [Layout.blocks, Layout.roll, List.flatMap_append, List.flatMap_cons,
      List.flatMap_nil, List.append_nil, Block.files]
    exact List.perm_append_comm

/-- An append puts the record at the end. -/
theorem Rep.append (h : l.Rep E c d L) (r : Record)
    (hroom : 12 * (L.act.len + 1) ≤ c.maxIndexBytes.toNat) (hnext : L.next + 1 < 2 ^ 64) :
    ∃ l' d', l.append E d (some r) = (.ok (UInt64.ofNat L.next), l', d') ∧
      l'.Rep E c d' (L.grow E c r hnext) := by
  obtain ⟨ss, s, hseg, -, hs, hact⟩ := h.active
  obtain ⟨s', d₁, happ, hrep, hbase, ht⟩ := Segment.append_spec hs.rep r hroom
    (by rw [hs.base]; exact hnext)
  rw [hs.base] at ht
  have hs' : s'.Holds E c d₁ (L.push r hnext).act := ⟨hbase.trans hs.base, hrep⟩
  have hmid : (l.setActive s').Rep E c d₁ (L.push r hnext) := h.setActive r hnext hs' ht
  have hoff : s.nextOffset = UInt64.ofNat L.next := by
    apply UInt64.toNat_inj.mp
    rw [hs.next, UInt64.toNat_ofNat']
    exact (Nat.mod_eq_of_lt L.bounded).symm
  unfold Layout.grow
  split
  case isTrue hmax =>
    have hnextoff : s.nextOffset + 1 = UInt64.ofNat (L.push r hnext).next := by
      rw [hoff, ← UInt64.ofNat_one, ← UInt64.ofNat_add]
      congr 1
      simp only [Layout.next, Layout.push, Block.start, Block.len, List.length_append,
        List.length_singleton]
      omega
    obtain ⟨l', d', hnew, hrep'⟩ := hmid.newSegment (L.len_push r hnext)
    refine ⟨l', d', ?_, hrep'⟩
    simp only [Log.append, hact, happ, hs'.isMaxed, hmax, if_true, hnextoff, hnew]
    rw [hoff]
  case isFalse hmax =>
    refine ⟨l.setActive s', d₁, ?_, hmid⟩
    simp only [Log.append, hact, happ, hs'.isMaxed, hmax]
    rw [hoff]
    rfl

/-- Without room for another entry the append fails. -/
theorem Rep.append_full (h : l.Rep E c d L) (r : Record)
    (hroom : c.maxIndexBytes.toNat < 12 * (L.act.len + 1)) :
    (l.append E d (some r)).1 = .error (.err .eof) := by
  obtain ⟨ss, s, hseg, -, hs, hact⟩ := h.active
  obtain ⟨s', d', happ, -⟩ := Segment.append_full hs.rep r hroom
  simp only [Log.append, hact, happ]

/-- An append that succeeds has succeeded in the active segment, which a new
one follows if it is full. -/
theorem append_cases {record : Option Record} {off : UInt64} {l' : Log} {d' : Dir}
    (h : l.append E d record = (.ok off, l', d')) :
    ∃ s s' d₁, l.activeSegment = some s ∧ s.append E d record = (.ok off, s', d₁) ∧
      ((l.setActive s', d₁) = (l', d') ∨
        (l.setActive s').newSegment d₁ (off + 1) = (.ok (), l', d')) := by
  cases hact : l.activeSegment with
  | none => simp [Log.append, hact] at h
  | some s =>
      rcases happ : s.append E d record with ⟨_ | off', s', d₁⟩
      · simp [Log.append, hact, happ] at h
      · simp only [Log.append, hact, happ] at h
        split at h
        · split at h
          · cases h
          · next hnew =>
            cases h
            exact ⟨s, s', d₁, rfl, happ, .inr hnew⟩
        · cases h
          exact ⟨s, s', _, rfl, happ, .inl rfl⟩

theorem append_returns {record : Option Record} {off : UInt64} {l' : Log} {d' : Dir}
    (h : l.append E d record = (.ok off, l', d')) :
    ∃ s, l.activeSegment = some s ∧ off = s.nextOffset := by
  obtain ⟨s, s', d₁, hact, happ, -⟩ := append_cases h
  exact ⟨s, hact, Segment.append_returns happ⟩

theorem Rep.append_off (h : l.Rep E c d L) {r : Record} {off : UInt64} {l' : Log} {d' : Dir}
    (happ : l.append E d (some r) = (.ok off, l', d')) : off.toNat = L.next := by
  obtain ⟨ss, s, -, -, hs, hact⟩ := h.active
  obtain ⟨s₁, hact₁, hoff⟩ := append_returns happ
  rw [hact, Option.some.injEq] at hact₁
  subst hact₁
  rw [hoff]
  exact hs.next

theorem Rep.append_ok (h : l.Rep E c d L) {r : Record} {off : UInt64} {l' : Log} {d' : Dir}
    (happ : l.append E d (some r) = (.ok off, l', d')) (hnext : L.next + 1 < 2 ^ 64) :
    12 * (L.act.len + 1) ≤ c.maxIndexBytes.toNat ∧ l'.Rep E c d' (L.grow E c r hnext) := by
  rcases Nat.lt_or_ge c.maxIndexBytes.toNat (12 * (L.act.len + 1)) with hroom | hroom
  · have hfull := h.append_full r hroom
    rw [happ] at hfull
    cases hfull
  · obtain ⟨l₁, d₁, happ', hrep⟩ := h.append r hroom hnext
    rw [happ', Prod.mk.injEq, Except.ok.injEq, Prod.mk.injEq] at happ
    obtain ⟨rfl, rfl, rfl⟩ := happ
    exact ⟨hroom, hrep⟩

/-- New segment or not, the sequence is one record longer. -/
theorem Rep.append_abs (h : l.Rep E c d L) {r : Record} {off : UInt64} {l' : Log} {d' : Dir}
    (happ : l.append E d (some r) = (.ok off, l', d')) (hnext : L.next + 1 < 2 ^ 64) :
    ∃ L', l'.Rep E c d' L' ∧ L'.abs = L.abs.push r :=
  ⟨_, (h.append_ok happ hnext).2, L.abs_grow E c r hnext⟩

/-! ## Reading -/

/-- Every block has its segment. -/
theorem Rep.segment_of_block (h : l.Rep E c d L) {b : Block} (hb : b ∈ L.blocks) :
    ∃ s ∈ l.segments, s.Holds E c d b := by
  obtain ⟨pre, post, hblocks⟩ := List.append_of_mem hb
  have hseg := h.segments
  rw [hblocks] at hseg
  obtain ⟨ss₁, s, ss₂, hss, -, hs, -⟩ := AllHold.split hseg
  exact ⟨s, by rw [hss]; simp, hs⟩

/-- No store has outgrown what a file can hold. -/
def FilesFit (l : Log) (d : Dir) : Prop :=
  ∀ s ∈ l.segments, ((d.content? s.store.name).getD []).length + s.store.buf.length < 2 ^ 63

instance (l : Log) (d : Dir) : Decidable (l.FilesFit d) := by
  unfold FilesFit
  infer_instance

/-- No segment has more records than 32-bit entries can number. -/
def EntriesFit (l : Log) : Prop := ∀ s ∈ l.segments, s.index.size.toNat ≤ 12 * 2 ^ 32

instance (l : Log) : Decidable l.EntriesFit := by
  unfold EntriesFit
  infer_instance

theorem Rep.len_le (h : l.Rep E c d L) (hfit : l.EntriesFit) : ∀ b ∈ L.blocks, b.len ≤ 2 ^ 32 := by
  intro b hb
  obtain ⟨s, hs, hhold⟩ := h.segment_of_block hb
  have hsize := hfit s hs
  rw [hhold.rep.index_size] at hsize
  rw [Block.len]
  omega

theorem Rep.fits (h : l.Rep E c d L) (hfit : l.FilesFit d) : L.Fits E := by
  intro b hb
  obtain ⟨s, hmem, hs⟩ := h.segment_of_block hb
  obtain ⟨f, hf, hbs⟩ := hs.rep.store.file
  have hlen := hfit s hmem
  rw [hf, Option.getD_some, ← List.length_append, hbs, hs.base] at hlen
  exact hlen

/-- What is in an index fits in it. -/
theorem Rep.room (h : l.Rep E c d L) : ∀ b ∈ L.blocks, 12 * b.len ≤ c.maxIndexBytes.toNat := by
  intro b hb
  obtain ⟨s, -, hs⟩ := h.segment_of_block hb
  have hroom := hs.rep.index.room
  rw [length_entriesOf] at hroom
  exact hroom

theorem Rep.openable_of_entries (h : l.Rep E c d L) (h32 : ∀ b ∈ L.blocks, b.len ≤ 2 ^ 32) :
    ∀ b ∈ L.blocks, b.Openable c := by
  intro b hb
  refine ⟨h.room b hb, h32 b hb, ?_⟩
  exact Nat.lt_of_le_of_lt (L.mem_blocks_bounds b hb).2 L.bounded

theorem Rep.entries_le (h : l.Rep E c d L) (hM : c.maxIndexBytes.toNat ≤ 12 * 2 ^ 32) :
    ∀ b ∈ L.blocks, b.len ≤ 2 ^ 32 := by
  intro b hb
  have hroom := h.room b hb
  omega

/-- What `Log.Read` should return, given the sequence of records. -/
def readOf (a : AppendOnly Record) (off : UInt64) : Result Record :=
  match a.get? off.toNat with
  | some r => .ok { r with offset := off }
  | none => .error (.err (.offsetOutOfRange off))

theorem readOf_eq_error_iff {a : AppendOnly Record} {off : UInt64} :
    readOf a off = .error (.err (.offsetOutOfRange off)) ↔ a.get? off.toNat = none := by
  unfold readOf
  cases a.get? off.toNat <;> simp

/-- Outside the log no segment is read. -/
theorem Rep.read_missing (h : l.Rep E c d L) {off : UInt64}
    (hout : off.toNat < L.lowest ∨ L.next ≤ off.toNat) :
    l.read E d off = (.error (.err (.offsetOutOfRange off)), l, d) := by
  have hread := readIn_missing h.segments off (L.not_cover hout)
  simp only [Log.read, hread]

theorem Rep.read_of_entries (h : l.Rep E c d L) (h32 : ∀ b ∈ L.blocks, b.len ≤ 2 ^ 32)
    (hfit : L.Fits E) (off : UInt64) :
    ∃ l' d', l.read E d off = (readOf L.abs off, l', d') ∧ l'.Rep E c d' L := by
  by_cases hin : L.lowest ≤ off.toNat ∧ off.toNat < L.next
  · obtain ⟨pre, b, post, r, hblocks, hlo, -, hbefore, hr, habs⟩ := L.exists_cover hin.1 hin.2
    have hmem : b ∈ L.blocks := by rw [hblocks]; simp
    have hseg := h.segments
    have hdist := L.distinct
    rw [hblocks] at hseg hdist
    obtain ⟨ss', d', hread, hss', ht⟩ := readIn_found hseg hdist hbefore hlo hr
      (h32 b hmem) (hfit b hmem)
    rw [← hblocks] at hss'
    refine ⟨{ l with segments := ss' }, d', ?_, h.config, h.mappable,
      ht.present.trans h.present, h.detached, hss', ht.names.trans h.names⟩
    simp only [Log.read, hread, readOf, habs]
  · have hout : off.toNat < L.lowest ∨ L.next ≤ off.toNat := by omega
    have hnone : L.abs.get? off.toNat = none :=
      AppendOnly.get?_eq_none_iff.mpr (by rw [L.abs_next]; exact hout)
    refine ⟨l, d, ?_, h⟩
    simp only [h.read_missing hout, readOf, hnone]

theorem Rep.read (h : l.Rep E c d L) (hM : c.maxIndexBytes.toNat ≤ 12 * 2 ^ 32)
    (hfit : L.Fits E) (off : UInt64) :
    ∃ l' d', l.read E d off = (readOf L.abs off, l', d') ∧ l'.Rep E c d' L :=
  h.read_of_entries (h.entries_le hM) hfit off

/-! ## Truncating -/

/-- The last segment is kept, so the active segment stays in the list. -/
theorem Rep.truncate (h : l.Rep E c d L) {lowest : UInt64} {L' : Layout}
    (hlow : lowest.toNat + 1 < L.next)
    (hblocks : L'.blocks = L.blocks.filter (Block.keptBy lowest.toNat)) :
    ∃ l' d', l.truncate d lowest = (.ok (), l', d') ∧ l'.Rep E c d' L' := by
  have hbound : L.next < 2 ^ 64 := L.bounded
  obtain ⟨ps, d', htr, hss, hflags, hp, -, hn⟩ :=
    truncateAll_spec h.segments L.distinct lowest fun b _ => Block.keptBy_iff (by omega) b
  rw [← hblocks] at hss hn
  have hlast : (ps.map (·.2)).getLast? = some true := by
    rw [hflags, Layout.blocks, List.map_append, List.map_singleton, List.getLast?_concat]
    exact congrArg some (decide_eq_true hlow)
  have hgone : (ps.getLast?.bind fun p => if p.2 then none else some p.1) = none := by
    rw [List.getLast?_map] at hlast
    obtain ⟨p, hpl, hp2⟩ := Option.map_eq_some_iff.mp hlast
    simp [hpl, hp2]
  refine ⟨{ l with segments := (ps.filter (·.2)).map (·.1), detached := none }, d', ?_,
    h.config, h.mappable, hp.trans h.present, rfl, hss, ?_⟩
  · simp [Log.truncate, htr, hgone, h.detached]
  · have := hn [] (by rw [List.append_nil]; exact h.names)
    rwa [List.append_nil] at this

/-- Truncating at the highest offset or past it removes every segment, the
active one included. -/
theorem Rep.truncate_all (h : l.Rep E c d L) {lowest : UInt64}
    (hlow : L.next ≤ (lowest + 1).toNat) :
    ∃ l' d', l.truncate d lowest = (.ok (), l', d') ∧ l'.segments = [] := by
  have hnone : ∀ b ∈ L.blocks, (fun _ => false) b = true ↔
      (lowest + 1).toNat < b.start + b.len := by
    intro b hb
    have := (L.mem_blocks_bounds b hb).2
    simp only [Bool.false_eq_true, false_iff]
    omega
  obtain ⟨ps, d', htr, hss, -⟩ := truncateAll_spec h.segments L.distinct lowest hnone
  rw [List.filter_false] at hss
  refine ⟨(l.truncate d lowest).2.1, d', by simp only [Log.truncate, htr], ?_⟩
  simp only [Log.truncate, htr]
  exact List.forall₂_nil_right_iff.mp hss

/-! ## Closing and opening -/

theorem Rep.close (h : l.Rep E c d L) :
    ∃ l' d', l.close d = (.ok (), l', d') ∧ AllStored E d' L.blocks ∧
      Directory.Touches (L.blocks.flatMap Block.files) d d' := by
  obtain ⟨ss', d', hclose, hst, ht⟩ := closeAll_spec h.segments L.distinct
  exact ⟨{ l with segments := ss' }, d', by simp only [Log.close, hclose], hst, ht⟩

/-- The file names, sorted by base offset, come in pairs. -/
theorem sorted_bases (hnames : d.names.Perm (L.blocks.flatMap Block.files)) :
    (d.names.map baseOfName).insertionSort (· ≤ ·) =
      L.blocks.flatMap fun b => [b.base, b.base] := by
  have hmap : (L.blocks.flatMap Block.files).map baseOfName =
      L.blocks.flatMap fun b => [b.base, b.base] := by
    rw [List.map_flatMap]
    simp [Block.files, segmentFiles]
  have hsorted : (L.blocks.flatMap fun b => [b.base, b.base]).Pairwise (· ≤ ·) := by
    have hstart := L.pairwise_start
    rw [List.pairwise_map] at hstart
    rw [List.pairwise_flatMap]
    refine ⟨fun b _ => by simp, hstart.imp fun {b b'} hlt x hx y hy => ?_⟩
    simp only [List.mem_cons, List.not_mem_nil, or_false, or_self] at hx hy
    rw [hx, hy, UInt64.le_iff_toNat_le]
    exact Nat.le_of_lt hlt
  have hperm : ((d.names.map baseOfName).insertionSort (· ≤ ·)).Perm
      (L.blocks.flatMap fun b => [b.base, b.base]) := by
    rw [← hmap]
    exact (List.perm_insertionSort _ _).trans (hnames.map _)
  exact hperm.eq_of_pairwise' (List.pairwise_insertionSort _ _) hsorted

end Log

theorem Config.toNat_withDefaults (c : Config) :
    c.withDefaults.maxIndexBytes.toNat =
      if c.maxIndexBytes.toNat = 0 then 1024 else c.maxIndexBytes.toNat := by
  unfold Config.withDefaults
  by_cases h0 : c.maxIndexBytes = 0
  · simp [h0]
  · have hne : c.maxIndexBytes.toNat ≠ 0 := fun h => h0 (UInt64.toNat_inj.mp h)
    simp [h0, hne]

theorem Config.mappable_withDefaults {c : Config} (h : c.maxIndexBytes.toNat < 2 ^ 63) :
    c.withDefaults.Mappable := by
  constructor <;> rw [Config.toNat_withDefaults] <;> split <;> omega

/-- A log could be opened only if its index could be mapped. -/
theorem Config.mappable_of_newLog {c : Config} {s : LogState}
    (h : newLog Directory.empty c = (.ok (), s)) : c.withDefaults.Mappable := by
  by_cases hM : c.maxIndexBytes.toNat < 2 ^ 63
  · exact Config.mappable_withDefaults hM
  · have hlimit : 2 ^ 63 ≤ c.withDefaults.maxIndexBytes.toNat := by
      rw [Config.toNat_withDefaults]
      split <;> omega
    have hindex : ∀ d name, newIndex d name c.withDefaults = (.error (.err .invalid), d) :=
      fun d name => if_pos hlimit
    simp [newLog, Log.setup, Log.openAll, Log.newSegment, newSegment, hindex,
      show (Directory.empty : Dir).present = true from rfl] at h

/-- The default leaves room for far fewer than 2^32 entries. -/
theorem Config.withDefaults_le {c : Config} (h : c.maxIndexBytes.toNat ≤ 12 * 2 ^ 32) :
    c.withDefaults.maxIndexBytes.toNat ≤ 12 * 2 ^ 32 := by
  rw [Config.toNat_withDefaults]
  split <;> omega

/-- Opening a directory that holds exactly a closed log. -/
theorem newLog_stored {c₀ : Config} (hc₀ : c₀.withDefaults = c) (hc : c.Mappable)
    (hd : d.present = true) (hst : AllStored E d L.blocks) (hopen : ∀ b ∈ L.blocks, b.Openable c)
    (hnames : d.names.Perm (L.blocks.flatMap Block.files)) :
    ∃ l' d', newLog d c₀ = (.ok (), l', d') ∧ l'.Rep E c d' L := by
  obtain ⟨ss, d', hop, hss, ht⟩ := openAll_spec (l := ⟨c, [], none⟩) rfl hd hc hst L.distinct hopen
  have hne : ss.isEmpty = false := by
    cases ss with
    | nil => exact absurd (List.forall₂_nil_left_iff.mp hss) (by simp [Layout.blocks])
    | cons _ _ => rfl
  refine ⟨⟨c, ss, none⟩, d', ?_, rfl, hc, ht.present.trans hd, rfl, hss, ht.names.trans hnames⟩
  simp only [newLog, hc₀, Log.setup, hd, Log.sorted_bases hnames, hop]
  simp [hne]

/-- Closing and opening has one outcome. -/
theorem reopen_eq {l₁ l₁' : Log} {d₁ d₁' : Dir} {s s' : LogState} {c₀ : Config}
    (hclose : l.close d = (.ok (), l₁, d₁)) (hnew : newLog d₁ c₀ = (.ok (), s))
    (hclose' : l.close d = (.ok (), l₁', d₁')) (hnew' : newLog d₁' c₀ = (.ok (), s')) : s = s' := by
  rw [hclose, Prod.mk.injEq, Prod.mk.injEq] at hclose'
  obtain ⟨-, rfl, rfl⟩ := hclose'
  rw [hnew, Prod.mk.injEq] at hnew'
  exact hnew'.2

theorem Log.Rep.reopen_of_entries (h : l.Rep E c d L) {c₀ : Config} (hc₀ : c₀.withDefaults = c)
    (h32 : ∀ b ∈ L.blocks, b.len ≤ 2 ^ 32) :
    ∃ l₁ d₁ l₂ d₂, l.close d = (.ok (), l₁, d₁) ∧ newLog d₁ c₀ = (.ok (), l₂, d₂) ∧
      l₂.Rep E c d₂ L := by
  obtain ⟨l₁, d₁, hclose, hst, ht⟩ := h.close
  obtain ⟨l₂, d₂, hnew, hrep⟩ := newLog_stored hc₀ h.mappable (ht.present.trans h.present) hst
    (h.openable_of_entries h32) (ht.names.trans h.names)
  exact ⟨l₁, d₁, l₂, d₂, hclose, hnew, hrep⟩

theorem Log.Rep.reopen (h : l.Rep E c d L) {c₀ : Config} (hc₀ : c₀.withDefaults = c)
    (hM : c.maxIndexBytes.toNat ≤ 12 * 2 ^ 32) :
    ∃ l₁ d₁ l₂ d₂, l.close d = (.ok (), l₁, d₁) ∧ newLog d₁ c₀ = (.ok (), l₂, d₂) ∧
      l₂.Rep E c d₂ L :=
  h.reopen_of_entries hc₀ (h.entries_le hM)

/-- A log opened on an empty directory has one empty segment. -/
theorem newLog_empty (E : Env) (c₀ : Config) (hc₀ : c₀.withDefaults = c) (hc : c.Mappable) :
    ∃ l d, newLog Directory.empty c₀ = (.ok (), l, d) ∧
      l.Rep E c d (Layout.fresh c.initialOffset) := by
  obtain ⟨s, d, hnew, hb, hrep, hp, -, hn⟩ := newSegment_fresh (E := E) (d := Directory.empty)
    c.initialOffset rfl hc (by simp)
  refine ⟨⟨c, [s], none⟩, d, ?_, rfl, hc, hp, rfl, .cons ⟨hb, hrep⟩ .nil, ?_⟩
  · simp [newLog, hc₀, Log.setup, Log.openAll, Log.newSegment, hnew,
      show (Directory.empty : Dir).present = true from rfl]
  · exact hn.trans (.of_eq rfl)

theorem Log.Rep.of_newLog (E : Env) {c₀ : Config} {s : LogState}
    (hnew : newLog Directory.empty c₀ = (.ok (), s)) :
    s.1.Rep E c₀.withDefaults s.2 (Layout.fresh c₀.initialOffset) := by
  obtain ⟨l, d, hnew', hrep⟩ := newLog_empty E c₀ rfl (Config.mappable_of_newLog hnew)
  rw [hnew, Prod.mk.injEq] at hnew'
  rw [hnew'.2]
  exact hrep

end DistributedLog
