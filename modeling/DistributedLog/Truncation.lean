import DistributedLog.Appends
import DistributedLog.Calls

/-!
# The log after a truncation

`Log.Truncate` removes the segments that end at or before `lowest + 1`, a
sum in `uint64`, without looking which of them is active. So a truncation at
or past the highest offset removes them all, the active one with them, and
one at the last offset there is, where the sum is 0, removes none.
`truncate_usable_iff` says for which values the log can be used afterwards.
-/

namespace DistributedLog

namespace Truncation

def isOpen (t : Segment) : Prop := t.store.closed = false ∧ t.index.mapped = true

/-- What can be asked of the log `s'` that a truncation of `s` leaves. -/
structure Usable (E : Env) (lowest : UInt64) (s s' : LogState) : Prop where
  /-- A segment with records has one past `lowest`. -/
  trimmed : ∀ t ∈ s'.1.segments, t.baseOffset ≠ t.nextOffset →
    ∃ off, t.baseOffset ≤ off ∧ off < t.nextOffset ∧ lowest < off
  lowest : ∃ off, s'.1.lowestOffset = .ok off
  highest : ∃ off, s'.1.highestOffset = .ok off
  read : ∀ off, (s'.1.read E s'.2 off).1 ≠ .error .panic
  segments : ∀ t ∈ s'.1.segments, isOpen t
  active : ∃ t ∈ s'.1.segments, s'.1.activeSegment = some t
  /-- The next append returns what it would have returned. -/
  append : ∀ r, ∃ off s'', s'.1.append E s'.2 (some r) = (.ok off, s'') ∧
    (s.1.append E s.2 (some r)).1 = .ok off

end Truncation

open Truncation

variable {E : Env} {c : Config}

/-! ## Reading does not panic -/

/-- However many entries the index has, an offset of the segment gives a
record of the segment. -/
theorem Segment.HoldsWith.read_ne_panic {d : Dir} {s : Segment} {b : Block} {orphans : Bytes}
    (h : s.HoldsWith E c d b orphans) (hfit : (frames E b.base b.records).length < 2 ^ 63)
    {off : UInt64} (hcov : Log.covers off s) : (s.read E d off).1 ≠ .error .panic := by
  obtain ⟨hlo, hhi⟩ := (h.covers_iff off).mp hcov
  have hlt : off.toNat - b.start < b.records.length := by
    unfold Block.len at hhi
    omega
  have hmod : (off.toNat - b.start) % 2 ^ 32 < b.records.length :=
    Nat.lt_of_le_of_lt (Nat.mod_le _ _) hlt
  obtain ⟨s', d', hread, -⟩ := h.rep.read off hlt (List.getElem?_eq_getElem hmod)
    (by rw [h.base]; unfold Block.start at *; omega) (by rw [h.base]; exact hfit)
  rw [hread]
  simp

theorem Log.RepWith.read_ne_panic {l : Log} {d : Dir} {L : Layout} {orphans : Bytes}
    (h : l.RepWith E c d L orphans) (hfit : L.Fits E) (off : UInt64) :
    (l.read E d off).1 ≠ .error .panic := by
  obtain ⟨ss, t, hseg, hss, ht⟩ := h.segments
  refine Log.readIn_result (P := (· ≠ .error .panic)) nofun fun s hs hcov => ?_
  rw [hseg] at hs
  rcases List.mem_append.mp hs with hs | hs
  · obtain ⟨b, hb, hhold⟩ := AllHold.of_mem hss hs
    have hmem : b ∈ L.blocks := List.mem_append_left _ hb
    exact Segment.HoldsWith.read_ne_panic ⟨hhold.base, Segment.repWith_nil.mpr hhold.rep⟩
      (hfit b hmem) hcov
  · rw [List.mem_singleton.mp hs] at hcov ⊢
    exact ht.read_ne_panic (hfit _ (by simp [Layout.blocks])) hcov

/-! ## What a truncation leaves -/

/-- The next append, also at the last offset there is. -/
theorem Log.RepWith.append_next {l : Log} {d : Dir} {L : Layout} {orphans : Bytes}
    (h : l.RepWith E c d L orphans) (hroom : 12 * (L.act.len + 1) ≤ c.maxIndexBytes.toNat)
    (r : Record) : ∃ s', l.append E d (some r) = (.ok (UInt64.ofNat L.next), s') := by
  obtain ⟨t, hact, ht⟩ := h.active
  have hsize := ht.rep.index_size
  obtain ⟨off, l', d', happ⟩ := (h.sound.append_ok_iff h.mappable E r hact).mpr (by
    rw [hsize]
    unfold Block.len at hroom
    omega)
  obtain ⟨t', hact', hoff⟩ := Log.append_returns happ
  obtain rfl : t = t' := Option.some.inj (hact.symm.trans hact')
  have hnext : off = UInt64.ofNat L.next := by
    rw [hoff, ← UInt64.ofNat_toNat (x := t.nextOffset), ht.next]
    rfl
  exact ⟨(l', d'), by rw [happ, hnext]⟩

/-- What stands for a layout with the same last block can be used. -/
theorem usable_of_rep {s s' : LogState} {L L' : Layout} {lowest : UInt64}
    (h : s.1.Rep E c s.2 L) (h' : s'.1.Rep E c s'.2 L') (hact : L'.act = L.act)
    (hfit : L'.Fits E) (hroom : 12 * (L.act.len + 1) ≤ c.maxIndexBytes.toNat)
    (htrim : ∀ b ∈ L'.blocks, 0 < b.len → lowest.toNat + 1 < b.start + b.len) :
    Usable E lowest s s' := by
  refine ⟨fun t ht hne => ?_, ⟨_, h'.lowestOffset⟩, ⟨_, h'.highestOffset⟩,
    h'.repWith.read_ne_panic hfit, fun t ht => ?_, ?_, fun r => ?_⟩
  · obtain ⟨b, hb, hhold⟩ := AllHold.of_mem h'.segments ht
    have hbase : t.baseOffset.toNat = b.start := by rw [hhold.base]; rfl
    have hnext := hhold.next
    have hpos : 0 < b.len := by
      by_contra hzero
      exact hne (UInt64.toNat_inj.mp (by omega))
    have hpast := htrim b hb hpos
    have hlast : (t.nextOffset - 1).toNat = b.start + b.len - 1 := by
      have hone : (1 : UInt64).toNat = 1 := rfl
      rw [UInt64.toNat_sub_of_le _ _ (UInt64.le_iff_toNat_le.mpr (by omega)), hnext, hone]
    refine ⟨t.nextOffset - 1, ?_, ?_, ?_⟩
    · rw [UInt64.le_iff_toNat_le, hlast]; omega
    · rw [UInt64.lt_iff_toNat_lt, hlast]; omega
    · rw [UInt64.lt_iff_toNat_lt, hlast]; omega
  · obtain ⟨b, -, hhold⟩ := AllHold.of_mem h'.segments ht
    exact ⟨hhold.rep.store.isOpen, hhold.rep.index.mapped⟩
  · obtain ⟨ss, t, hseg, -, -, hactive⟩ := h'.active
    exact ⟨t, by simp [hseg], hactive⟩
  · have hnext : L'.next = L.next := by rw [Layout.next, Layout.next, hact]
    obtain ⟨s₁, happ⟩ := h.repWith.append_next hroom r
    obtain ⟨s₂, happ'⟩ := h'.repWith.append_next (by rw [hact]; exact hroom) r
    exact ⟨_, s₂, happ', by rw [happ, hnext]⟩

theorem truncateAll_keeps {lowest : UInt64} {d : Dir} : ∀ {ss : List Segment},
    (∀ s ∈ ss, ¬ s.nextOffset ≤ lowest + 1) →
    Log.truncateAll lowest d ss = (.ok (), ss.map (·, true), d)
  | [], _ => rfl
  | s :: ss, h => by
      rw [Log.truncateAll, if_neg (h s List.mem_cons_self),
        truncateAll_keeps fun t ht => h t (List.mem_cons_of_mem _ ht)]
      rfl

/-- A truncation that removes no segment changes nothing. -/
theorem Log.truncate_keeps {l : Log} {d : Dir} {lowest : UInt64}
    (h : ∀ s ∈ l.segments, ¬ s.nextOffset ≤ lowest + 1) :
    l.truncate d lowest = (.ok (), l, d) := by
  have hgone : ((l.segments.map (·, true)).getLast?.bind fun p =>
      if p.2 then none else some p.1) = none := by
    rw [List.getLast?_map]
    cases l.segments.getLast? <;> rfl
  have hsame : ((l.segments.map (·, true)).filter (·.2)).map (·.1) = l.segments := by
    rw [List.filter_eq_self.mpr (by simp), List.map_map]
    exact List.map_id _
  simp only [Log.truncate, truncateAll_keeps h, hgone, hsame]
  rcases l with ⟨config, segments, _ | t⟩ <;> rfl

/-- A log without segments cannot be used. -/
theorem not_usable_of_nil {s s' : LogState} {lowest : UInt64} (h : s'.1.segments = []) :
    ¬ Usable E lowest s s' := by
  intro husable
  obtain ⟨off, hlow⟩ := husable.lowest
  simp [Log.lowestOffset, h] at hlow

theorem room_of_usable {s s' : LogState} {L : Layout} {lowest : UInt64} (h : s.1.Rep E c s.2 L)
    (husable : Usable E lowest s s') : 12 * (L.act.len + 1) ≤ c.maxIndexBytes.toNat := by
  by_contra hfull
  obtain ⟨off, s'', -, happ⟩ := husable.append ⟨[], 0, 0, 0⟩
  rw [h.append_full _ (by omega)] at happ
  cases happ

/-- Below the highest offset: the active segment is kept. -/
theorem truncate_below {s : LogState} {L : Layout} {lowest : UInt64} (h : s.1.Rep E c s.2 L)
    (hfit : L.Fits E) (hlow : lowest.toNat + 1 < L.next) :
    ∃ s', s.1.truncate s.2 lowest = (.ok (), s') ∧
      (Usable E lowest s s' ↔ 12 * (L.act.len + 1) ≤ c.maxIndexBytes.toNat) := by
  obtain ⟨L', k, hblocks, hact, -⟩ := L.exists_truncate hlow
  obtain ⟨l', d', htrunc, hrep'⟩ := h.truncate hlow hblocks
  refine ⟨(l', d'), htrunc, room_of_usable h, fun hroom => ?_⟩
  have hmem : ∀ b ∈ L'.blocks, lowest.toNat + 1 < b.start + b.len := by
    intro b hb
    rw [hblocks] at hb
    exact of_decide_eq_true (List.mem_filter.mp hb).2
  exact usable_of_rep h hrep' hact (hfit.of_filter hblocks) hroom fun b hb _ => hmem b hb

/-- At the last offset there is: the sum is 0, and no segment ends there. -/
theorem truncate_last {s : LogState} {L : Layout} {lowest : UInt64} (h : s.1.Rep E c s.2 L)
    (hfit : L.Fits E) (hmax : lowest.toNat + 1 = 2 ^ 64) (hpos : 0 < L.next) :
    s.1.truncate s.2 lowest = (.ok (), s) ∧
      (Usable E lowest s s ↔ 12 * (L.act.len + 1) ≤ c.maxIndexBytes.toNat ∧
        ∀ t ∈ s.1.segments, t.baseOffset = t.nextOffset) := by
  have hzero : (lowest + 1).toNat = 0 := by
    have hone : (1 : UInt64).toNat = 1 := rfl
    rw [UInt64.toNat_add, hone, hmax, Nat.mod_self]
  refine ⟨Log.truncate_keeps fun t ht => ?_, fun husable => ⟨room_of_usable h husable, ?_⟩, ?_⟩
  · obtain ⟨b, hb, hhold⟩ := AllHold.of_mem h.segments ht
    rw [UInt64.le_iff_toNat_le, hzero, hhold.next]
    rcases List.mem_append.mp hb with hb | hb
    · have := (L.tiles.mem_bounds b hb).2.1
      omega
    · rw [List.mem_singleton.mp hb]
      exact Nat.not_le.mpr hpos
  · intro t ht
    by_contra hne
    obtain ⟨off, -, -, hoff⟩ := husable.trimmed t ht hne
    have := off.toNat_lt
    rw [UInt64.lt_iff_toNat_lt] at hoff
    omega
  · rintro ⟨hroom, hempty⟩
    refine usable_of_rep h h rfl hfit hroom fun b hb hlen => ?_
    obtain ⟨t, ht, hhold⟩ := h.segment_of_block hb
    have hstart : t.baseOffset.toNat = b.start := by rw [hhold.base]; rfl
    have hend := hhold.next
    rw [← hempty t ht] at hend
    omega

/-- **When a truncated log can be used.** In every state that appends lead
to, the log that `Truncate` leaves can be used exactly if there is room in
the active index, which the truncation does not change, and either `lowest`
is below the highest offset or nothing has been appended, to a log that
starts past 0, and `lowest` is the last offset there is. -/
theorem truncate_usable_iff (E : Env) (c : Config) {s₀ s : LogState}
    {es : List (Record × UInt64)} (hnew : newLog Directory.empty c = (.ok (), s₀))
    (htr : Trace (Appends E) s₀ es s) (hes : ∀ e ∈ es, e.2.toNat < 2 ^ 64 - 1)
    (hfit : s.1.FilesFit s.2) (lowest : UInt64) :
    (∀ s', s.1.truncate s.2 lowest = (.ok (), s') → Usable E lowest s s') ↔
      ∃ active, s.1.activeSegment = some active ∧
        active.index.size.toNat + 12 ≤ c.withDefaults.maxIndexBytes.toNat ∧
        (lowest.toNat + 1 < active.nextOffset.toNat ∨
          lowest.toNat + 1 = 2 ^ 64 ∧ 0 < active.nextOffset.toNat ∧
            ∀ t ∈ s.1.segments, t.baseOffset = t.nextOffset) := by
  obtain ⟨L, hrep⟩ := Log.Rep.appends hnew htr hes
  obtain ⟨ss, active, -, -, hs, hact⟩ := hrep.active
  have hbound : L.next < 2 ^ 64 := L.bounded
  have hlowest := lowest.toNat_lt
  have hone : (1 : UInt64).toNat = 1 := rfl
  have hsum : (lowest + 1).toNat = (lowest.toNat + 1) % 2 ^ 64 := by
    rw [UInt64.toNat_add, hone]
  have hnext : active.nextOffset.toNat = L.next := hs.next
  have hroom : active.index.size.toNat + 12 ≤ c.withDefaults.maxIndexBytes.toNat ↔
      12 * (L.act.len + 1) ≤ c.withDefaults.maxIndexBytes.toNat := hrep.repWith.room_iff hact
  have hany : ∀ {s₁}, s.1.truncate s.2 lowest = (.ok (), s₁) →
      ((∀ s', s.1.truncate s.2 lowest = (.ok (), s') → Usable E lowest s s') ↔
        Usable E lowest s s₁) := by
    intro s₁ htrunc
    simp only [htrunc, Prod.mk.injEq, true_and, forall_eq']
  simp only [hact, Option.some.injEq, exists_eq_left', hroom, hnext]
  rcases Nat.lt_or_ge (lowest + 1).toNat L.next with hkept | hall
  · rcases Nat.lt_or_ge (lowest.toNat + 1) (2 ^ 64) with hlow | hlast
    · rw [hsum, Nat.mod_eq_of_lt hlow] at hkept
      obtain ⟨s₁, htrunc, husable⟩ := truncate_below hrep (hrep.fits hfit) hkept
      rw [hany htrunc, husable]
      exact ⟨fun h => ⟨h, .inl hkept⟩, And.left⟩
    · have hmax : lowest.toNat + 1 = 2 ^ 64 := by omega
      have hpos : 0 < L.next := Nat.zero_lt_of_lt hkept
      obtain ⟨htrunc, husable⟩ := truncate_last hrep (hrep.fits hfit) hmax hpos
      rw [hany htrunc, husable]
      refine ⟨fun h => ⟨h.1, .inr ⟨hmax, hpos, h.2⟩⟩, ?_⟩
      rintro ⟨h, hlow | ⟨-, -, hempty⟩⟩
      · omega
      · exact ⟨h, hempty⟩
  · obtain ⟨l', d', htrunc, hnil⟩ := hrep.truncate_all hall
    rw [hany htrunc]
    refine ⟨fun husable => absurd husable (not_usable_of_nil hnil), ?_⟩
    rintro ⟨-, hlow | ⟨hmax, hpos, -⟩⟩
    · rw [hsum, Nat.mod_eq_of_lt (by omega)] at hall
      omega
    · rw [hsum, hmax, Nat.mod_self] at hall
      omega

/-- Three records in segments of one; the first two are dropped. -/
theorem truncate_usable_two_of_three :
    ∃ s, Trace (Appends goEnv) (newLog Directory.empty ⟨64, 12, 0⟩).2
        [(⟨[7], 0, 0, 0⟩, 0), (⟨[8], 0, 0, 0⟩, 1), (⟨[9], 0, 0, 0⟩, 2)] s ∧
      ∀ s', s.1.truncate s.2 1 = (.ok (), s') → Usable goEnv 1 s s' := by
  have hnew : (newLog Directory.empty ⟨64, 12, 0⟩).1 = .ok () := by decide +kernel
  have h₁ : Trace (Appends goEnv) (newLog Directory.empty ⟨64, 12, 0⟩).2 _ _ :=
    Trace.init.snoc (.of ⟨[7], 0, 0, 0⟩ 0 (by decide +kernel))
  have h₂ := h₁.snoc (.of ⟨[8], 0, 0, 0⟩ 1 (by decide +kernel))
  have h₃ := h₂.snoc (.of ⟨[9], 0, 0, 0⟩ 2 (by decide +kernel))
  exact ⟨_, h₃, (truncate_usable_iff goEnv _ (Prod.ext hnew rfl) h₃ (by decide) (by decide +kernel)
    1).mpr ⟨_, rfl, by decide +kernel, .inl (by decide +kernel)⟩⟩

/-- One record, truncated at its offset: no segment is left, and the active
one, which the next append uses, is closed. -/
theorem truncate_at_highest_breaks :
    let s₀ := (newLog Directory.empty ⟨64, 24, 0⟩).2
    let s := (s₀.1.append goEnv s₀.2 (some ⟨[7], 0, 0, 0⟩)).2
    let s' := (s.1.truncate s.2 0).2
    (s₀.1.append goEnv s₀.2 (some ⟨[7], 0, 0, 0⟩)).1 = .ok 0 ∧
      (s.1.truncate s.2 0).1 = .ok () ∧ s'.1.lowestOffset = .error .panic ∧
      s'.1.highestOffset = .error .panic ∧
      s'.1.activeSegment.map (fun t => (t.store.closed, t.index.mapped)) = some (true, false) ∧
      (s'.1.append goEnv s'.2 (some ⟨[8], 0, 0, 0⟩)).1 = .error .panic := by
  decide +kernel

end DistributedLog
