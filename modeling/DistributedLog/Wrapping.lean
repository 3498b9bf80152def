import DistributedLog.Calls

/-!
# Offsets that wrap

Layouts need offsets that do not wrap. A segment whose next offset has
wrapped covers no offset at all, so a reader never sees it, and what the
other segments give does not depend on where the offsets end. `Accounted`
says that much of a log: each record in it is the one that was appended at
its offset, modulo 2^64. It holds after every run of appends and reads of
fewer than 2^64 records (`Log.Accounted.append`, `Log.flushStable_accounted`).
-/

namespace DistributedLog

/-- Every record of the segment is among those appended, at its offset. -/
def Segment.Accounted (E : Env) (c : Config) (d : Dir) (s : Segment)
    (ps : List (Record × UInt64)) : Prop :=
  ∃ rs, s.Keeps E c d rs [] ∧ s.nextOffset = s.baseOffset + UInt64.ofNat rs.length ∧
    ∀ i r, rs[i]? = some r → (r, s.baseOffset + UInt64.ofNat i) ∈ ps

/-- The log after the appends `ps`, the first of them at offset `first`. -/
structure Log.Accounted (E : Env) (c : Config) (d : Dir) (l : Log) (first : UInt64)
    (ps : List (Record × UInt64)) : Prop where
  config : l.config = c
  mappable : c.Mappable
  present : d.present = true
  detached : l.detached = none
  segments : ∀ s ∈ l.segments, s.Accounted E c d ps
  distinct : (l.segments.map Segment.baseOffset).Nodup
  bases : ∀ b ∈ l.segments.map Segment.baseOffset, ∃ k ≤ ps.length, b = first + UInt64.ofNat k
  names : ∀ n ∈ d.names, ∃ b ∈ l.segments.map Segment.baseOffset, n ∈ segmentFiles b
  active : l.segments.getLast?.map Segment.nextOffset = some (first + UInt64.ofNat ps.length)
  offsets : ps.map Prod.snd = (List.range ps.length).map fun k => first + UInt64.ofNat k

variable {E : Env} {c : Config} {d d' : Dir} {first : UInt64} {ps : List (Record × UInt64)}

namespace Segment

variable {s : Segment}

theorem Accounted.frame (h : s.Accounted E c d ps)
    (hd : ∀ n ∈ segmentFiles s.baseOffset, d'.content? n = d.content? n) :
    s.Accounted E c d' ps := by
  obtain ⟨rs, hkeeps, hrest⟩ := h
  exact ⟨rs, hkeeps.frame hd, hrest⟩

theorem Accounted.mono {ps' : List (Record × UInt64)} (h : s.Accounted E c d ps) (hsub : ps ⊆ ps') :
    s.Accounted E c d ps' := by
  obtain ⟨rs, hkeeps, hnext, hmem⟩ := h
  exact ⟨rs, hkeeps, hnext, fun i r hr => hsub (hmem i r hr)⟩

/-- An offset that the segment covers is that of one of its records. -/
theorem Accounted.read (h : s.Accounted E c d ps) (h32 : s.index.size.toNat ≤ 12 * 2 ^ 32)
    (hfit : ((d.content? s.store.name).getD []).length + s.store.buf.length < 2 ^ 63)
    {off : UInt64} (hcov : Log.covers off s) :
    ∃ r, (r, off) ∈ ps ∧ (s.read E d off).1 = .ok { r with offset := off } := by
  obtain ⟨rs, hkeeps, hnext, hmem⟩ := h
  obtain ⟨hlo, hhi⟩ := hcov
  rw [UInt64.le_iff_toNat_le] at hlo
  rw [UInt64.lt_iff_toNat_lt, hnext, UInt64.toNat_add, UInt64.toNat_ofNat'] at hhi
  rw [hkeeps.index.size, length_entriesOf] at h32
  have hbase := s.baseOffset.toNat_lt
  -- a next offset that has wrapped lies below the base offset
  have hwrap : s.baseOffset.toNat + rs.length < 2 ^ 64 := by omega
  have hlt : off.toNat - s.baseOffset.toNat < rs.length := by omega
  have hrep : s.RepWith E c d rs [] := by
    refine ⟨hkeeps, ?_⟩
    rw [hnext, UInt64.toNat_add, UInt64.toNat_ofNat']
    omega
  have hbytes : (frames E s.baseOffset rs).length < 2 ^ 63 := by
    obtain ⟨f, hf, hbs⟩ := hkeeps.store.file
    rw [hf, Option.getD_some, ← List.length_append, hbs, List.append_nil] at hfit
    exact hfit
  obtain ⟨s', d', hread, -⟩ := hrep.read_spec off (List.getElem?_eq_getElem hlt) (by omega)
    (by omega) hbytes
  have hoff : s.baseOffset + UInt64.ofNat (off.toNat - s.baseOffset.toNat) = off := by
    apply UInt64.toNat_inj.mp
    rw [UInt64.toNat_add, UInt64.toNat_ofNat']
    omega
  have hin := hmem _ _ (List.getElem?_eq_getElem hlt)
  rw [hoff] at hin
  exact ⟨_, hin, by rw [hread]⟩

/-- A segment that takes a record has room for its entry. -/
theorem Accounted.append (h : s.Accounted E c d ps) {r : Record} {off : UInt64} {s' : Segment}
    (happ : s.append E d (some r) = (.ok off, s', d')) :
    s'.Accounted E c d' (ps ++ [(r, off)]) ∧ s'.baseOffset = s.baseOffset ∧
      s'.nextOffset = s.nextOffset + 1 ∧ Directory.Touches (segmentFiles s.baseOffset) d d' := by
  obtain ⟨rs, hkeeps, hnext, hmem⟩ := h
  obtain ⟨s₁, d₁, happ₁, hkeeps', hb, hn, ht⟩ :=
    hkeeps.append hnext r (hkeeps.append_room happ)
  rw [happ, Prod.mk.injEq, Prod.mk.injEq] at happ₁
  obtain ⟨hoff, rfl, rfl⟩ := happ₁
  refine ⟨⟨rs ++ [r], hkeeps', ?_, fun i r' hr => ?_⟩, hb, hn, ht⟩
  · rw [hn, hnext, hb, List.length_append, List.length_singleton, UInt64.ofNat_add,
      UInt64.add_assoc]
    rfl
  · rw [hb]
    rcases Nat.lt_or_ge i rs.length with hi | hi
    · rw [List.getElem?_append_left hi] at hr
      exact List.mem_append_left _ (hmem i r' hr)
    · rw [List.getElem?_append_right hi, List.getElem?_singleton] at hr
      split at hr
      · obtain rfl : i = rs.length := by omega
        rw [← Option.some.inj hr, Except.ok.inj hoff, hnext]
        exact List.mem_append_right _ (List.mem_singleton_self _)
      · cases hr

end Segment

namespace Log

variable {l l' : Log}

/-- One segment has changed, and only its own files. -/
theorem accounted_replace {pre post : List Segment} {s s' : Segment}
    {ps' : List (Record × UInt64)} (h : ∀ t ∈ pre ++ s :: post, t.Accounted E c d ps)
    (hdist : ((pre ++ s :: post).map Segment.baseOffset).Nodup) (hsub : ps ⊆ ps')
    (ht : Directory.Touches (segmentFiles s.baseOffset) d d') (hs' : s'.Accounted E c d' ps') :
    ∀ t ∈ pre ++ s' :: post, t.Accounted E c d' ps' := by
  rw [List.map_append, List.map_cons, List.nodup_middle, List.nodup_cons,
    ← List.map_append] at hdist
  have hothers : ∀ t ∈ pre ++ post, t.Accounted E c d' ps' := by
    intro t hmem
    have hne : t.baseOffset ≠ s.baseOffset := by
      intro heq
      exact hdist.1 (heq ▸ List.mem_map_of_mem hmem)
    have ht' : t ∈ pre ++ s :: post :=
      List.perm_middle.mem_iff.mpr (List.mem_cons_of_mem _ hmem)
    exact ((h t ht').frame fun n hn => ht.others n (segmentFiles_disjoint hne n hn)).mono hsub
  intro t hmem
  rw [List.perm_middle.mem_iff, List.mem_cons] at hmem
  rcases hmem with rfl | hmem
  · exact hs'
  · exact hothers t hmem

/-! ## Reads -/

theorem Accounted.replace (h : l.Accounted E c d first ps) {pre post : List Segment}
    {s s' : Segment} (hseg : l.segments = pre ++ s :: post) (hs' : s'.Accounted E c d' ps)
    (hb : s'.baseOffset = s.baseOffset) (hn : s'.nextOffset = s.nextOffset)
    (ht : Directory.Touches (segmentFiles s.baseOffset) d d') :
    Accounted E c d' { l with segments := pre ++ s' :: post } first ps := by
  have hbases : (pre ++ s' :: post).map Segment.baseOffset = l.segments.map Segment.baseOffset := by
    simp only [hseg, List.map_append, List.map_cons, hb]
  have hnexts : (pre ++ s' :: post).map Segment.nextOffset = l.segments.map Segment.nextOffset := by
    simp only [hseg, List.map_append, List.map_cons, hn]
  have hsegs := h.segments
  have hdist := h.distinct
  rw [hseg] at hsegs hdist
  refine ⟨h.config, h.mappable, ht.present.trans h.present, h.detached,
    accounted_replace hsegs hdist (List.Subset.refl ps) ht hs', ?_, ?_, ?_, ?_, h.offsets⟩
  · rw [hbases]
    exact h.distinct
  · rw [hbases]
    exact h.bases
  · rw [hbases]
    exact fun n hn => h.names n (ht.names.mem_iff.mp hn)
  · rw [← List.getLast?_map, hnexts, List.getLast?_map]
    exact h.active

theorem flushStable_accounted (E : Env) (c : Config) (first : UInt64)
    (ps : List (Record × UInt64)) :
    Reader.FlushStable fun l d => l.Accounted E c d first ps := by
  constructor
  · intro l d h s hs
    obtain ⟨rs, hkeeps, -⟩ := h.segments s hs
    exact ⟨hkeeps.store.isOpen, hkeeps.store.sound⟩
  · intro l d d' i s st h hs hfl
    obtain ⟨hi, hget⟩ := List.getElem?_eq_some_iff.mp hs
    have hseg : l.segments = l.segments.take i ++ s :: l.segments.drop (i + 1) := by
      rw [← hget, ← List.drop_eq_getElem_cons hi, List.take_append_drop]
    obtain ⟨rs, hkeeps, hrest⟩ := h.segments s (List.mem_of_getElem? hs)
    obtain ⟨st', d'', hfl', hkeeps', -, ht⟩ := hkeeps.flush
    rw [hfl, Prod.mk.injEq, Prod.mk.injEq] at hfl'
    obtain ⟨-, rfl, rfl⟩ := hfl'
    rw [setStore, List.modify_eq_take_cons_drop hi, hget]
    exact h.replace hseg ⟨rs, hkeeps', hrest⟩ rfl rfl ht

theorem Accounted.read (h : l.Accounted E c d first ps)
    (h32 : l.EntriesFit) (hfit : l.FilesFit d) (off : UInt64) :
    (l.read E d off).1 = .error (.err (.offsetOutOfRange off)) ∨
      off.toNat + 1 < 2 ^ 64 ∧
        ∃ r, (r, off) ∈ ps ∧ (l.read E d off).1 = .ok { r with offset := off } := by
  refine readIn_result (P := fun res => res = .error (.err (.offsetOutOfRange off)) ∨
    off.toNat + 1 < 2 ^ 64 ∧ ∃ r, (r, off) ∈ ps ∧ res = .ok { r with offset := off }) (.inl rfl)
    fun s hs hcov => .inr ⟨?_, (h.segments s hs).read (h32 s hs) (hfit s hs) hcov⟩
  -- the last offset there is lies below no next offset
  have hlt := UInt64.lt_iff_toNat_lt.mp hcov.2
  have hbound := s.nextOffset.toNat_lt
  omega

theorem Accounted.entriesFit (h : l.Accounted E c d first ps)
    (hM : c.maxIndexBytes.toNat ≤ 12 * 2 ^ 32) : l.EntriesFit := by
  intro s hs
  obtain ⟨rs, hkeeps, -⟩ := h.segments s hs
  rw [hkeeps.index.size]
  exact hkeeps.index.room.trans hM

/-- No offset is given twice. -/
theorem Accounted.nodup (h : l.Accounted E c d first ps) (hlen : ps.length < 2 ^ 64) :
    (ps.map Prod.snd).Nodup := by
  rw [h.offsets]
  refine List.nodup_range.map_on fun k hk m hm heq => ?_
  rw [List.mem_range] at hk hm
  exact add_ofNat_inj (by omega) (by omega) heq

/-! ## Appends -/

/-- A new segment at the next offset, which is no base offset yet. -/
theorem Accounted.newSegment (h : l.Accounted E c d first ps) (hlen : ps.length < 2 ^ 64)
    (hbases : ∀ b ∈ l.segments.map Segment.baseOffset,
      ∃ k < ps.length, b = first + UInt64.ofNat k) :
    ∃ l' d', l.newSegment d (first + UInt64.ofNat ps.length) = (.ok (), l', d') ∧
      l'.Accounted E c d' first ps := by
  have hfresh : first + UInt64.ofNat ps.length ∉ l.segments.map Segment.baseOffset := by
    intro hmem
    obtain ⟨k, hk, heq⟩ := hbases _ hmem
    exact absurd (add_ofNat_inj hlen (by omega) heq) (by omega)
  have hfiles : ∀ n ∈ segmentFiles (first + UInt64.ofNat ps.length), n ∉ d.names := by
    intro n hn hmem
    obtain ⟨b, hb, hn'⟩ := h.names n hmem
    rw [← segmentFiles_base hn, segmentFiles_base hn'] at hfresh
    exact hfresh hb
  obtain ⟨s, d', hnew, hbase, hrep, hp, ho, hn⟩ := newSegment_fresh (E := E)
    (first + UInt64.ofNat ps.length) h.present h.mappable hfiles
  have hs : s.Accounted E c d' ps := by
    refine ⟨[], (Segment.repWith_nil.mpr hrep).toKeeps, hrep.nextOffset_eq, ?_⟩
    intro i r hr
    cases hr
  refine ⟨{ l with segments := l.segments ++ [s], detached := none }, d',
    by simp only [Log.newSegment, h.config, hnew],
    ⟨h.config, h.mappable, hp, rfl, ?_, ?_, ?_, ?_, ?_, h.offsets⟩⟩
  · intro t ht
    rcases List.mem_append.mp ht with ht | ht
    · refine (h.segments t ht).frame fun n hn => ho n (segmentFiles_disjoint ?_ n hn)
      rintro heq
      exact hfresh (heq ▸ List.mem_map_of_mem ht)
    · rw [List.mem_singleton.mp ht]
      exact hs
  · rw [List.map_append, List.map_singleton, hbase]
    rw [← List.concat_eq_append]
    exact h.distinct.concat hfresh
  · intro b hb
    rw [List.map_append, List.map_singleton, hbase] at hb
    rcases List.mem_append.mp hb with hb | hb
    · exact h.bases b hb
    · exact ⟨ps.length, Nat.le_refl _, List.mem_singleton.mp hb⟩
  · intro n hmem
    rw [List.map_append, List.map_singleton, hbase]
    rcases List.mem_append.mp (hn.mem_iff.mp hmem) with hmem | hmem
    · exact ⟨_, List.mem_append_right _ (List.mem_singleton_self _), hmem⟩
    · obtain ⟨b, hb, hfile⟩ := h.names n hmem
      exact ⟨b, List.mem_append_left _ hb, hfile⟩
  · rw [List.getLast?_concat, Option.map_some, hrep.nextOffset_eq, hbase]
    exact congrArg some (UInt64.add_zero _)

/-- The active segment has taken the record. -/
theorem Accounted.setActive (h : l.Accounted E c d first ps) {r : Record} {off : UInt64}
    {s s' : Segment} (hact : l.activeSegment = some s)
    (happ : s.append E d (some r) = (.ok off, s', d')) :
    off = first + UInt64.ofNat ps.length ∧
      (l.setActive s').Accounted E c d' first (ps ++ [(r, off)]) ∧
      (l.setActive s').segments.map Segment.baseOffset = l.segments.map Segment.baseOffset := by
  have hlast : l.segments.getLast? = some s := by
    rw [activeSegment, h.detached] at hact
    exact hact
  have hnext : s.nextOffset = first + UInt64.ofNat ps.length := by
    have := h.active
    rw [hlast] at this
    exact Option.some.inj this
  have hseg : l.segments = l.segments.dropLast ++ s :: [] :=
    (List.dropLast_append_getLast? s hlast).symm
  have hoff := Segment.append_returns happ
  obtain ⟨hs', hb, hn, ht⟩ :=
    (h.segments s (List.mem_of_getLast? hlast)).append happ
  have hset : l.setActive s' = { l with segments := l.segments.dropLast ++ s' :: [] } := by
    simp only [Log.setActive, h.detached]
  have hbases : (l.segments.dropLast ++ s' :: []).map Segment.baseOffset =
      l.segments.map Segment.baseOffset := by
    rw [hseg, List.dropLast_concat]
    simp only [List.map_append, List.map_cons, hb]
  have hsegs := h.segments
  have hdist := h.distinct
  rw [hseg] at hsegs hdist
  refine ⟨hoff.trans hnext, ?_⟩
  rw [hset]
  refine ⟨⟨h.config, h.mappable, ht.present.trans h.present, h.detached,
    accounted_replace hsegs hdist (List.subset_append_left _ _) ht hs', ?_, ?_, ?_, ?_, ?_⟩, hbases⟩
  · rw [hbases]
    exact h.distinct
  · rw [hbases]
    intro b hb
    obtain ⟨k, hk, heq⟩ := h.bases b hb
    exact ⟨k, by rw [List.length_append]; omega, heq⟩
  · rw [hbases]
    exact fun n hn => h.names n (ht.names.mem_iff.mp hn)
  · rw [List.getLast?_concat, Option.map_some, hn, hnext, List.length_append, List.length_singleton,
      UInt64.ofNat_add, UInt64.add_assoc]
    rfl
  · rw [List.map_append, h.offsets, List.length_append, List.length_singleton, List.range_succ,
      List.map_append, List.map_singleton, hoff, hnext]
    rfl

/-- An append that succeeds, whether or not a new segment follows. -/
theorem Accounted.append (h : l.Accounted E c d first ps) (hlen : ps.length + 1 < 2 ^ 64)
    {r : Record} {off : UInt64} (happ : l.append E d (some r) = (.ok off, l', d')) :
    l'.Accounted E c d' first (ps ++ [(r, off)]) := by
  obtain ⟨s, s', d₁, hact, happ', hrest⟩ := append_cases happ
  obtain ⟨hoff, hmid, hbases⟩ := h.setActive hact happ'
  rcases hrest with hrest | hrest
  · cases hrest
    exact hmid
  · have hnext : off + 1 = first + UInt64.ofNat (ps ++ [(r, off)]).length := by
      rw [hoff, List.length_append, List.length_singleton, UInt64.ofNat_add, UInt64.add_assoc]
      rfl
    obtain ⟨l₁, d₂, hnew, hacc⟩ := hmid.newSegment (by rw [List.length_append]; exact hlen) (by
      rw [hbases]
      intro b hb
      obtain ⟨k, hk, heq⟩ := h.bases b hb
      exact ⟨k, by rw [List.length_append, List.length_singleton]; omega, heq⟩)
    rw [hnext, hnew] at hrest
    cases hrest
    exact hacc

end Log

theorem newLog_accounted (E : Env) {c₀ : Config} {s : LogState}
    (hnew : newLog Directory.empty c₀ = (.ok (), s)) :
    s.1.Accounted E c₀.withDefaults s.2 c₀.initialOffset [] := by
  have hrep := Log.Rep.of_newLog E hnew
  obtain ⟨ss, t, hseg, hss, ht, -⟩ := hrep.active
  rw [List.forall₂_nil_right_iff.mp hss, List.nil_append] at hseg
  have hbase : t.baseOffset = c₀.initialOffset := ht.base
  have hacc : t.Accounted E c₀.withDefaults s.2 [] := by
    refine ⟨[], (Segment.repWith_nil.mpr ht.rep).toKeeps, ht.rep.nextOffset_eq, ?_⟩
    intro i r hr
    cases hr
  refine ⟨hrep.config, hrep.mappable, hrep.present, hrep.detached, ?_, ?_, ?_, ?_, ?_, rfl⟩
  · intro u hu
    rw [hseg] at hu
    rw [List.mem_singleton.mp hu]
    exact hacc
  · rw [hseg]
    exact List.nodup_singleton _
  · intro b hb
    rw [hseg, List.map_singleton, List.mem_singleton] at hb
    exact ⟨0, Nat.le_refl _, by rw [hb, hbase]; exact (UInt64.add_zero _).symm⟩
  · intro n hn
    rw [hseg, List.map_singleton, hbase]
    refine ⟨_, List.mem_singleton_self _, ?_⟩
    simpa [Layout.fresh, Layout.blocks, Block.files, Config.withDefaults] using
      hrep.names.mem_iff.mp hn
  · rw [hseg, List.getLast?_singleton, Option.map_some, ht.rep.nextOffset_eq, hbase]
    rfl

end DistributedLog
