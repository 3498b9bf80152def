import DistributedLog.Orphans
import DistributedLog.Appends
import DistributedLog.Setup

/-!
# Opening a log under other limits

A log is written under one configuration, closed, opened under another,
closed again and opened under the first. `newIndex` sizes the index file to
the limit of the day but takes the number of its entries from the length
before, so a limit below what an index already holds cuts entries off that
are then looked for.

`survives_iff` says when nothing is lost: the new limit can be mapped and no
index holds more than it, no segment has more than 2^32 records, and the
last offset there is has not been assigned.
-/

namespace DistributedLog

variable {E : Env} {c : Config} {d d' : Dir}

/-! ## What opening a segment cannot do -/

/-- The next offset is taken from a 32-bit entry. -/
theorem OpenedAt.next_le {s : Segment} {b : UInt64} (h : OpenedAt c s b) :
    s.nextOffset.toNat ≤ s.baseOffset.toNat + 2 ^ 32 := by
  obtain ⟨d, d', h⟩ := h
  obtain ⟨-, hbase, hnext, -⟩ := newSegment_cases h
  rw [hbase]
  rcases hnext with hnext | ⟨off, hnext⟩
  · rw [hnext]
    exact Nat.le_add_right _ _
  · have hoff := off.toNat_lt
    have hone : (1 : UInt64).toNat = 1 := rfl
    rw [hnext, UInt64.toNat_add, UInt64.toNat_add, UInt32.toNat_toUInt64, hone]
    have hmod := Nat.mod_le ((b.toNat + off.toNat) % 2 ^ 64 + 1) (2 ^ 64)
    have hmod' := Nat.mod_le (b.toNat + off.toNat) (2 ^ 64)
    omega

theorem OpenedAt.mappable {s : Segment} {b : UInt64} (h : OpenedAt c s b) : c.Mappable := by
  obtain ⟨d, d', h⟩ := h
  exact (newSegment_ok h).2

/-- What is read is in a segment that covers the offset. -/
theorem Log.covered_of_read {l : Log} {off : UInt64} {r : Record}
    (h : (l.read E d off).1 = .ok r) : ∃ s ∈ l.segments, Log.covers off s := by
  by_contra hnone
  rw [Log.read_outside fun s hs hcov => hnone ⟨s, hs, hcov⟩] at h
  cases h

/-- The loop of setup stops at an index that has been cut. -/
theorem openAll_panics {bs : List Block} {l : Log} (hl : l.config = c) (hd : d.present = true)
    (hc : c.Mappable) (hstored : AllStored E d bs) (hdist : Distinct bs)
    (hbounds : ∀ b ∈ bs, b.len ≤ 2 ^ 32 ∧ b.start + b.len < 2 ^ 64)
    (hlarge : ∃ b ∈ bs, c.maxIndexBytes.toNat < 12 * b.len) :
    (l.openAll d (bs.flatMap fun b => [b.base, b.base])).1 = .error .panic := by
  induction bs generalizing l d with
  | nil =>
      obtain ⟨b, hb, -⟩ := hlarge
      cases hb
  | cons b bs ih =>
      obtain ⟨h32, hnext⟩ := hbounds b List.mem_cons_self
      have hb := hstored b List.mem_cons_self
      rw [List.flatMap_cons, List.cons_append, List.cons_append, List.nil_append, Log.openAll,
        Log.newSegment, hl]
      rcases Nat.lt_or_ge c.maxIndexBytes.toNat (12 * b.len) with hcut | hroom
      · obtain ⟨d₁, hpanic⟩ := newSegment_panics hd hc (Segment.storedWith_nil.mpr hb) hcut h32
        rw [hpanic]
      · obtain ⟨s, d₁, hnew, -, -, ht⟩ := newSegment_stored hd hc hb hroom h32 hnext
        rw [hnew]
        refine ih rfl (ht.present.trans hd) (fun b' hb' => ?_) hdist.tail
          (fun b' hb' => hbounds b' (List.mem_cons_of_mem _ hb')) ?_
        · exact (hstored b' (List.mem_cons_of_mem _ hb')).frame fun n hn =>
            ht.others n (Block.files_disjoint (hdist.head_ne b' hb').symm n hn)
        · obtain ⟨b', hb', hcut⟩ := hlarge
          rcases List.mem_cons.mp hb' with rfl | hb'
          · omega
          · exact ⟨b', hb', hcut⟩

/-! ## What a log opened on the files of another one can read -/

section opened

variable {L : Layout} {l : Log} {c₀ : Config}

/-- The segments are opened on the base offsets of blocks. -/
theorem opened_of_newLog (hnew : newLog d c₀ = (.ok (), l, d'))
    (hnames : d.names.Perm (L.blocks.flatMap Block.files)) :
    l.segments ≠ [] ∧ ∀ s ∈ l.segments, OpenedAt c₀.withDefaults s s.baseOffset ∧
      ∃ b ∈ L.blocks, b.base = s.baseOffset := by
  have hne : d.names ≠ [] := by
    intro hnil
    rw [hnil] at hnames
    have := hnames.length_eq
    simp [Layout.blocks, Block.files, segmentFiles] at this
  have hopened := (Log.setup_opened hnew).2
  rw [if_neg hne, Log.sorted_bases hnames] at hopened
  refine ⟨fun hnil => ?_, fun s hs => ?_⟩
  · rw [hnil] at hopened
    refine evens_ne_nil ?_ (List.forall₂_nil_left_iff.mp hopened)
    simp [Layout.blocks]
  · obtain ⟨hat, hmem⟩ := Log.opened_of_mem hopened s hs
    obtain ⟨b, hb, hbase⟩ := List.mem_flatMap.mp (mem_of_mem_evens hmem)
    refine ⟨hat, b, hb, ?_⟩
    rcases List.mem_pair.mp hbase with h | h <;> exact h.symm

/-- Past 2^32 records of a block nothing can be read: the segment ends there,
and no other one starts there. -/
theorem len_le_of_reads (hnew : newLog d c₀ = (.ok (), l, d'))
    (hnames : d.names.Perm (L.blocks.flatMap Block.files))
    (hreads : ∀ off : UInt64, L.lowest ≤ off.toNat → off.toNat < L.next →
      ∃ r, (l.read E d' off).1 = .ok r) : ∀ b ∈ L.blocks, b.len ≤ 2 ^ 32 := by
  intro b hb
  by_contra hlarge
  have hbounds := L.mem_blocks_bounds b hb
  have hnext : L.next < 2 ^ 64 := L.bounded
  have hoff : (UInt64.ofNat (b.start + 2 ^ 32)).toNat = b.start + 2 ^ 32 := by
    rw [UInt64.toNat_ofNat', Nat.mod_eq_of_lt (by omega)]
  obtain ⟨r, hr⟩ := hreads (UInt64.ofNat (b.start + 2 ^ 32)) (by omega) (by omega)
  obtain ⟨s, hs, hlo, hhi⟩ := Log.covered_of_read hr
  obtain ⟨hat, b', hb', hbase⟩ := (opened_of_newLog hnew hnames).2 s hs
  have hle := hat.next_le
  have hstart : b'.start = s.baseOffset.toNat := by rw [Block.start, hbase]
  rw [UInt64.le_iff_toNat_le, hoff] at hlo
  rw [UInt64.lt_iff_toNat_lt, hoff] at hhi
  have := L.not_inside hb hb' (by omega)
  omega

/-- The indexes have to fit the limit. -/
theorem room_of_newLog (hnew : newLog d c₀ = (.ok (), l, d')) (hd : d.present = true)
    (hstored : AllStored E d L.blocks) (hnames : d.names.Perm (L.blocks.flatMap Block.files))
    (h32 : ∀ b ∈ L.blocks, b.len ≤ 2 ^ 32) :
    c₀.withDefaults.Mappable ∧
      ∀ b ∈ L.blocks, 12 * b.len ≤ c₀.withDefaults.maxIndexBytes.toNat := by
  obtain ⟨hne, hopened⟩ := opened_of_newLog hnew hnames
  obtain ⟨s, hs⟩ := List.exists_mem_of_ne_nil _ hne
  have hc := (hopened s hs).1.mappable
  refine ⟨hc, fun b hb => ?_⟩
  by_contra hlarge
  have hpanic : (Log.openAll ⟨c₀.withDefaults, [], none⟩ d
      (L.blocks.flatMap fun b => [b.base, b.base])).1 = .error .panic :=
    openAll_panics rfl hd hc hstored L.distinct (fun b hb =>
      ⟨h32 b hb, Nat.lt_of_le_of_lt (L.mem_blocks_bounds b hb).2 L.bounded⟩)
      ⟨b, hb, Nat.not_le.mp hlarge⟩
  rcases hop : Log.openAll ⟨c₀.withDefaults, [], none⟩ d
    (L.blocks.flatMap fun b => [b.base, b.base]) with ⟨res, l₁, d₁⟩
  rw [hop] at hpanic
  simp only at hpanic
  subst hpanic
  simp only [newLog, Log.setup, hd, Log.sorted_bases hnames, hop] at hnew
  cases hnew

end opened

/-! ## Changing the limits -/

/-- Every record appended can be read at its offset. -/
def Keeps (E : Env) (es : List (Record × UInt64)) (s : LogState) : Prop :=
  ∀ e ∈ es, (s.1.read E s.2 e.2).1 = .ok { e.1 with offset := e.2 }

/-- The log `s`, closed in the directory `d`, has lost nothing when it is
opened under `c₂`, nor when it is closed again and opened under `c₁`. -/
def Survives (E : Env) (c₁ c₂ : Config) (es : List (Record × UInt64)) (s : LogState)
    (d : Dir) : Prop :=
  ∃ s₂, newLog d c₂ = (.ok (), s₂) ∧ Keeps E es s₂ ∧
    s₂.1.lowestOffset = s.1.lowestOffset ∧ s₂.1.highestOffset = s.1.highestOffset ∧
    ∃ l₃ d₃ s₄, s₂.1.close s₂.2 = (.ok (), l₃, d₃) ∧ newLog d₃ c₁ = (.ok (), s₄) ∧ Keeps E es s₄

variable {s s₀ : LogState} {es : List (Record × UInt64)} {c₁ c₂ : Config} {L : Layout}

/-- What a log reads that stands for the records appended. -/
theorem Log.Rep.keeps (h : s.1.Rep E c s.2 L) (h32 : ∀ b ∈ L.blocks, b.len ≤ 2 ^ 32)
    (hfit : L.Fits E) {first : Nat} {rs : List Record} (habs : L.abs = ⟨first, rs⟩) :
    Keeps E (numbered first rs) s := by
  intro e he
  obtain ⟨i, hi, hoff⟩ := mem_numbered.mp he
  have hlt : i < rs.length := (List.getElem?_eq_some_iff.mp hi).1
  have hnext : L.next = first + rs.length := by rw [← L.abs_next, habs]; rfl
  have hbound : L.next < 2 ^ 64 := L.bounded
  obtain ⟨l', d', hread, -⟩ := h.read_of_entries h32 hfit e.2
  have hget : L.abs.get? e.2.toNat = some e.1 := by
    rw [hoff, UInt64.toNat_ofNat', Nat.mod_eq_of_lt (by omega), habs,
      AppendOnly.get?_of_le (Nat.le_add_right _ _), Nat.add_sub_cancel_left]
    exact hi
  rw [hread, Log.readOf, hget]

/-- What closing leaves. -/
theorem Log.Rep.closed (h : s.1.Rep E c s.2 L) {l₁ : Log} {d₁ : Dir}
    (hclose : s.1.close s.2 = (.ok (), l₁, d₁)) :
    AllStored E d₁ L.blocks ∧ d₁.present = true ∧
      d₁.names.Perm (L.blocks.flatMap Block.files) := by
  obtain ⟨l', d', hclose', hst, ht⟩ := h.close
  rw [hclose, Prod.mk.injEq, Prod.mk.injEq] at hclose'
  obtain ⟨-, -, rfl⟩ := hclose'
  exact ⟨hst, ht.present.trans h.present, ht.names.trans h.names⟩

/-- The sizes of the indexes are those of the blocks. -/
theorem Log.Rep.forall_index_size (h : s.1.Rep E c s.2 L) {P : Nat → Prop} :
    (∀ t ∈ s.1.segments, P t.index.size.toNat) ↔ ∀ b ∈ L.blocks, P (12 * b.len) := by
  constructor
  · intro hP b hb
    obtain ⟨t, ht, hhold⟩ := h.segment_of_block hb
    rw [Block.len, ← hhold.rep.index_size]
    exact hP t ht
  · intro hP t ht
    obtain ⟨b, hb, hhold⟩ := AllHold.of_mem h.segments ht
    rw [hhold.rep.index_size]
    exact hP b hb

/-- Under limits that have room for its indexes a closed log can be opened. -/
theorem Log.Rep.reopened (h : s.1.Rep E c s.2 L) {l₁ : Log} {d₁ : Dir}
    (hclose : s.1.close s.2 = (.ok (), l₁, d₁)) (h32 : ∀ b ∈ L.blocks, b.len ≤ 2 ^ 32)
    {c₂ : Config} (hc₂ : c₂.withDefaults.Mappable)
    (hroom : ∀ b ∈ L.blocks, 12 * b.len ≤ c₂.withDefaults.maxIndexBytes.toNat) :
    ∃ s₂ : LogState, newLog d₁ c₂ = (.ok (), s₂) ∧ s₂.1.Rep E c₂.withDefaults s₂.2 L := by
  obtain ⟨hst, hd, hnames⟩ := h.closed hclose
  obtain ⟨l₂, d₂, hnew, hrep⟩ := newLog_stored rfl hc₂ hd hst
    (fun b hb => ⟨hroom b hb, h32 b hb,
      Nat.lt_of_le_of_lt (L.mem_blocks_bounds b hb).2 L.bounded⟩) hnames
  exact ⟨(l₂, d₂), hnew, hrep⟩

/-- Nothing is ever read at the last offset there is. -/
theorem Keeps.ne_last (h : Keeps E es s) : ∀ e ∈ es, e.2.toNat < 2 ^ 64 - 1 := by
  intro e he
  obtain ⟨t, -, -, hhi⟩ := Log.covered_of_read (h e he)
  have hlt := t.nextOffset.toNat_lt
  rw [UInt64.lt_iff_toNat_lt] at hhi
  omega

/-- **Changing the limits between runs.** -/
theorem survives_iff (hnew : newLog Directory.empty c₁ = (.ok (), s₀))
    (htr : Trace (Appends E) s₀ es s) (hfit : s.1.FilesFit s.2) {l₁ : Log} {d₁ : Dir}
    (hclose : s.1.close s.2 = (.ok (), l₁, d₁)) (c₂ : Config) :
    Survives E c₁ c₂ es s d₁ ↔
      (∀ e ∈ es, e.2.toNat < 2 ^ 64 - 1) ∧ c₂.withDefaults.maxIndexBytes.toNat < 2 ^ 63 ∧
        ∀ t ∈ s.1.segments, t.index.size.toNat ≤ 12 * 2 ^ 32 ∧
          t.index.size.toNat ≤ c₂.withDefaults.maxIndexBytes.toNat := by
  constructor
  · rintro ⟨s₂, hnew₂, hkeeps, -⟩
    have hes := hkeeps.ne_last
    obtain ⟨L, hrep, habs, hnum⟩ := Log.Rep.appends_abs hnew htr hes
    obtain ⟨hst, hd, hnames⟩ := hrep.closed hclose
    have h32 : ∀ b ∈ L.blocks, b.len ≤ 2 ^ 32 := by
      refine len_le_of_reads (E := E) hnew₂ hnames fun off hlo hhi => ?_
      obtain ⟨-, -, -, r, -, -, -, -, -, hr⟩ := L.exists_cover hlo hhi
      have hin : (r, off) ∈ es := by
        rw [hnum]
        exact mem_numbered_of_get? (habs ▸ hr)
      exact ⟨_, hkeeps _ hin⟩
    obtain ⟨hc₂, hroom⟩ := room_of_newLog hnew₂ hd hst hnames h32
    refine ⟨hes, hc₂.limit, (hrep.forall_index_size (P := fun n => n ≤ _ ∧ n ≤ _)).mpr ?_⟩
    exact fun b hb => ⟨Nat.mul_le_mul_left 12 (h32 b hb), hroom b hb⟩
  · rintro ⟨hes, hlim, hsize⟩
    obtain ⟨L, hrep, habs, hnum⟩ := Log.Rep.appends_abs hnew htr hes
    have hblocks := (hrep.forall_index_size (P := fun n => n ≤ _ ∧ n ≤ _)).mp hsize
    have h32 : ∀ b ∈ L.blocks, b.len ≤ 2 ^ 32 := fun b hb =>
      Nat.le_of_mul_le_mul_left (hblocks b hb).1 (by omega)
    have hc₂ : c₂.withDefaults.Mappable := by
      refine ⟨?_, hlim⟩
      rw [Config.toNat_withDefaults]
      split <;> omega
    obtain ⟨s₂, hnew₂, hrep₂⟩ := hrep.reopened hclose h32 hc₂ fun b hb => (hblocks b hb).2
    obtain ⟨l₃, d₃, hclose₃, -⟩ := hrep₂.close
    obtain ⟨s₄, hnew₄, hrep₄⟩ := hrep₂.reopened hclose₃ h32 hrep.mappable hrep.room
    have hfits := hrep.fits hfit
    refine ⟨s₂, hnew₂, ?_, ?_, ?_, l₃, d₃, s₄, hclose₃, hnew₄, ?_⟩
    · rw [hnum]
      exact hrep₂.keeps h32 hfits habs
    · rw [hrep₂.lowestOffset, hrep.lowestOffset]
    · rw [hrep₂.highestOffset, hrep.highestOffset]
    · rw [hnum]
      exact hrep₄.keeps h32 hfits habs

/-- Two records in one segment whose index has room for three. -/
theorem trace_two_records :
    ∃ s, Trace (Appends goEnv) (newLog Directory.empty ⟨1024, 36, 0⟩).2
        [(⟨[7], 0, 0, 0⟩, 0), (⟨[8], 0, 0, 0⟩, 1)] s ∧ s.1.FilesFit s.2 ∧
      (∀ t ∈ s.1.segments, t.index.size.toNat ≤ 24) ∧ (s.1.close s.2).1 = .ok () ∧
      (newLog (s.1.close s.2).2.2 ⟨1024, 12, 0⟩).1 = .error .panic := by
  have h₁ : Trace (Appends goEnv) (newLog Directory.empty ⟨1024, 36, 0⟩).2 _ _ :=
    Trace.init.snoc (.of ⟨[7], 0, 0, 0⟩ 0 (by decide +kernel))
  have h₂ := h₁.snoc (.of ⟨[8], 0, 0, 0⟩ 1 (by decide +kernel))
  exact ⟨_, h₂, by decide +kernel, by decide +kernel, by decide +kernel, by decide +kernel⟩

/-- They survive a limit of two entries. -/
theorem survives_two_entries :
    ∃ s l₁ d₁, Trace (Appends goEnv) (newLog Directory.empty ⟨1024, 36, 0⟩).2
        [(⟨[7], 0, 0, 0⟩, 0), (⟨[8], 0, 0, 0⟩, 1)] s ∧ s.1.close s.2 = (.ok (), l₁, d₁) ∧
      Survives goEnv ⟨1024, 36, 0⟩ ⟨1024, 24, 0⟩
        [(⟨[7], 0, 0, 0⟩, 0), (⟨[8], 0, 0, 0⟩, 1)] s d₁ := by
  obtain ⟨s, htr, hfit, hsize, hclose, -⟩ := trace_two_records
  have hnew : (newLog Directory.empty ⟨1024, 36, 0⟩).1 = .ok () := by decide +kernel
  refine ⟨s, _, _, htr, Prod.ext hclose rfl,
    (survives_iff (Prod.ext hnew rfl) htr hfit (Prod.ext hclose rfl) ⟨1024, 24, 0⟩).mpr
      ⟨by decide, by decide, fun t ht => ?_⟩⟩
  have hle := hsize t ht
  exact ⟨by omega, hle⟩

/-- Under a limit of one entry the log cannot be opened: `NewLog` panics. -/
theorem newLog_panics_one_entry :
    ∃ s l₁ d₁, (newLog Directory.empty ⟨1024, 36, 0⟩).1 = .ok () ∧
      Trace (Appends goEnv) (newLog Directory.empty ⟨1024, 36, 0⟩).2
        [(⟨[7], 0, 0, 0⟩, 0), (⟨[8], 0, 0, 0⟩, 1)] s ∧ s.1.close s.2 = (.ok (), l₁, d₁) ∧
      (newLog d₁ ⟨1024, 12, 0⟩).1 = .error .panic ∧
      ¬ Survives goEnv ⟨1024, 36, 0⟩ ⟨1024, 12, 0⟩
        [(⟨[7], 0, 0, 0⟩, 0), (⟨[8], 0, 0, 0⟩, 1)] s d₁ := by
  obtain ⟨s, htr, -, -, hclose, hpanic⟩ := trace_two_records
  refine ⟨s, (s.1.close s.2).2.1, (s.1.close s.2).2.2, by decide +kernel, htr,
    Prod.ext hclose rfl, hpanic, ?_⟩
  rintro ⟨s₂, hnew₂, -⟩
  rw [hnew₂] at hpanic
  cases hpanic

end DistributedLog
