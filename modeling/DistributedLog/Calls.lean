import DistributedLog.Orphans
import DistributedLog.Uses

/-!
# Calls that may fail

`Uses` has appends that succeed. `Calls` has them with whatever result, and
truncations below the highest offset as well, so its runs also go through
the states that a failed append leaves. Two things are said of one call: it
keeps the log in working order (`Log.Sound.call`), and, within the bounds of
the layouts, the log goes on standing for one (`Log.RepWith.call`).
-/

namespace DistributedLog

/-! ## Logs in working order -/

namespace Segment

variable {c : Config} {d : Dir} {s : Segment}

/-- Removing a segment takes its two files away and nothing else. -/
theorem Sound.remove (h : s.Sound c d) (hc : c.Mappable) :
    ∃ s' d', s.remove d = (.ok (), s', d') ∧ d'.present = d.present ∧
      (∀ n, n ∉ segmentFiles s.baseOffset → d'.content? n = d.content? n) ∧
      ∀ n ∈ segmentFiles s.baseOffset, d'.content? n = none := by
  have hne := storeName_ne_indexName s.baseOffset s.baseOffset
  have hlim := hc.limit
  have hsize := h.size
  have hmmap := h.toOpen.mmapLen_ne_zero hc
  obtain ⟨fi, hfi, -⟩ := h.padded
  obtain ⟨fs, hfs, hcar⟩ := h.carries
  have hclose₁ : s.index.close d = (.ok (), { s.index with mapped := false },
      d.modify (DistributedLog.indexName s.baseOffset) (resize s.index.size.toNat)) := by
    simp only [Index.close, if_neg hmmap, h.mapped, Bool.not_true, Bool.false_eq_true, if_false]
    rw [if_neg (by omega), h.indexName]
  have ht₁ := Directory.touches_modify d (DistributedLog.indexName s.baseOffset)
    (resize s.index.size.toNat)
  have hidx := Directory.content?_modify_of_some hfi (resize s.index.size.toNat)
  generalize d.modify (DistributedLog.indexName s.baseOffset) (resize s.index.size.toNat) = d₁
    at hclose₁ ht₁ hidx
  have hcar₁ : s.store.Carries d₁ (fs ++ s.store.buf) :=
    hcar.frame (ht₁.others _ (by rw [h.storeName, List.mem_singleton]; exact hne))
  obtain ⟨st, d₂, hclose₂, hname, hcont, ht₂⟩ := Store.close_spec hcar₁
  rw [h.storeName] at hname hcont ht₂
  have hidx₂ : d₂.content? (DistributedLog.indexName s.baseOffset) =
      some (resize s.index.size.toNat fi) := by
    rw [ht₂.others _ (by rw [List.mem_singleton]; exact hne.symm), hidx]
  have hclose : s.close d =
      (.ok (), { s with index := { s.index with mapped := false }, store := st }, d₂) := by
    simp only [Segment.close, hclose₁, hclose₂]
  refine ⟨{ s with index := { s.index with mapped := false }, store := st },
    (d₂.remove (DistributedLog.indexName s.baseOffset)).remove
      (DistributedLog.storeName s.baseOffset), ?_, ?_, ?_, ?_⟩
  · simp [Segment.remove, hclose, h.indexName, hname, hidx₂, hne, hcont]
  · simp [ht₂.present, ht₁.present]
  · intro n hn
    simp only [segmentFiles, List.mem_cons, List.not_mem_nil, or_false, not_or] at hn
    rw [Directory.content?_remove_of_ne _ hn.1, Directory.content?_remove_of_ne _ hn.2,
      ht₂.others n (by simp [hn.1]), ht₁.others n (by simp [hn.2])]
  · intro n hn
    rcases List.mem_pair.mp hn with rfl | rfl
    · simp
    · simp [hne.symm]

/-- What a segment needs of the directory is in its two files. -/
theorem Sound.frame {d' : Dir} (h : s.Sound c d)
    (hd : ∀ n ∈ segmentFiles s.baseOffset, d'.content? n = d.content? n) : s.Sound c d' :=
  { h with
    stored := by rw [hd _ (by simp [segmentFiles])]; exact h.stored
    padded := by rw [hd _ (by simp [segmentFiles])]; exact h.padded }

end Segment

namespace Log

variable {c : Config} {l : Log} {d : Dir}

/-- What a truncation leaves of segments with base offsets of their own. -/
theorem truncateAll_sound (hc : c.Mappable) (lowest : UInt64) : ∀ {ss : List Segment} {d : Dir},
    (∀ s ∈ ss, s.Sound c d) → (ss.map Segment.baseOffset).Nodup →
    ∃ ps d', truncateAll lowest d ss = (.ok (), ps, d') ∧ d'.present = d.present ∧
      (∀ n f, d'.content? n = some f → d.content? n = some f) ∧
      (∀ n, (∀ s ∈ ss, n ∉ segmentFiles s.baseOffset) → d'.content? n = d.content? n) ∧
      (∀ s ∈ (ps.filter (·.2)).map (·.1), s ∈ ss ∧ s.Sound c d') ∧
      ps.map (·.2) = ss.map fun s => !decide (s.nextOffset ≤ lowest + 1)
  | [], d, _, _ => by
      refine ⟨[], d, rfl, rfl, fun _ _ h => h, fun _ _ => rfl, ?_, rfl⟩
      intro s hs
      cases hs
  | s :: ss, d, hss, hnd => by
      rw [List.map_cons, List.nodup_cons] at hnd
      have hs := hss s List.mem_cons_self
      have hdisj : ∀ t ∈ ss, ∀ n ∈ segmentFiles t.baseOffset, n ∉ segmentFiles s.baseOffset := by
        intro t ht
        refine segmentFiles_disjoint fun heq => hnd.1 ?_
        exact List.mem_map.mpr ⟨t, ht, heq⟩
      by_cases hgone : s.nextOffset ≤ lowest + 1
      · obtain ⟨s', d₁, hrem, hp₁, ho₁, hn₁⟩ := hs.remove hc
        obtain ⟨ps, d₂, htr, hp₂, hsub₂, ho₂, hkept, hend⟩ := truncateAll_sound hc lowest
          (d := d₁) (fun t ht => (hss t (List.mem_cons_of_mem _ ht)).frame fun n hn =>
            ho₁ n (hdisj t ht n hn)) hnd.2
        refine ⟨(s', false) :: ps, d₂, ?_, hp₂.trans hp₁, ?_, ?_, ?_, ?_⟩
        · rw [truncateAll, if_pos hgone, hrem]
          simp only [htr]
        · intro n f hf
          have hf₁ := hsub₂ n f hf
          by_cases hn : n ∈ segmentFiles s.baseOffset
          · rw [hn₁ n hn] at hf₁
            cases hf₁
          · rw [← ho₁ n hn]
            exact hf₁
        · intro n hn
          rw [ho₂ n fun t ht => hn t (List.mem_cons_of_mem _ ht), ho₁ n (hn s List.mem_cons_self)]
        · intro t ht
          rw [List.filter_cons_of_neg (by simp)] at ht
          exact ⟨List.mem_cons_of_mem _ (hkept t ht).1, (hkept t ht).2⟩
        · rw [List.map_cons, List.map_cons, hend, decide_eq_true hgone]
          rfl
      · obtain ⟨ps, d₂, htr, hp₂, hsub₂, ho₂, hkept, hend⟩ := truncateAll_sound hc lowest
          (d := d) (fun t ht => hss t (List.mem_cons_of_mem _ ht)) hnd.2
        refine ⟨(s, true) :: ps, d₂, ?_, hp₂, hsub₂, ?_, ?_, ?_⟩
        · rw [truncateAll, if_neg hgone]
          simp only [htr]
        · intro n hn
          exact ho₂ n fun t ht => hn t (List.mem_cons_of_mem _ ht)
        · intro t ht
          rw [List.filter_cons_of_pos (by rfl), List.map_cons, List.mem_cons] at ht
          rcases ht with rfl | ht
          · refine ⟨List.mem_cons_self, hs.frame fun n hn => ho₂ n fun u hu hn' => ?_⟩
            exact hdisj u hu n hn' hn
          · exact ⟨List.mem_cons_of_mem _ (hkept t ht).1, (hkept t ht).2⟩
        · rw [List.map_cons, List.map_cons, hend, decide_eq_false hgone]
          rfl

/-- Below the highest offset the last segment is kept. -/
theorem Sound.truncate (h : l.Sound c d) (hc : c.Mappable)
    (hnd : (l.segments.map Segment.baseOffset).Nodup) {lowest highest : UInt64}
    (hhigh : l.highestOffset = .ok highest) (hlow : lowest < highest) :
    ∃ l' d', l.truncate d lowest = (.ok (), l', d') ∧ l'.Sound c d' ∧ l'.segments ≠ [] := by
  obtain ⟨ps, d', htr, hp, hsub, -, hkept, hflags⟩ :=
    truncateAll_sound hc lowest (fun s hs => h.segments s hs) hnd
  cases hseg : l.segments.getLast? with
  | none =>
      rw [highestOffset, hseg] at hhigh
      cases hhigh
  | some t =>
      -- `highest` is one below the last segment's next offset
      have hnot : ¬ t.nextOffset ≤ lowest + 1 := by
        rw [highestOffset, hseg, Except.ok.injEq] at hhigh
        rw [UInt64.lt_iff_toNat_lt, ← hhigh] at hlow
        rw [UInt64.le_iff_toNat_le, UInt64.toNat_add]
        have hone : (1 : UInt64).toNat = 1 := rfl
        have hlt := t.nextOffset.toNat_lt
        split at hlow
        · exact absurd hlow (Nat.not_lt_zero _)
        · rename_i h0
          have hpos : (1 : UInt64).toNat ≤ t.nextOffset.toNat := by
            have : t.nextOffset.toNat ≠ (0 : UInt64).toNat := fun he => h0 (UInt64.toNat_inj.mp he)
            have hz : (0 : UInt64).toNat = 0 := rfl
            omega
          rw [UInt64.toNat_sub_of_le _ _ (UInt64.le_iff_toNat_le.mpr hpos)] at hlow
          omega
      have hlast : (ps.map (·.2)).getLast? = some true := by
        rw [hflags, List.getLast?_map, hseg, Option.map_some, decide_eq_false hnot]
        rfl
      rw [List.getLast?_map] at hlast
      obtain ⟨p, hpl, hp2⟩ := Option.map_eq_some_iff.mp hlast
      have hmem : p.1 ∈ (ps.filter (·.2)).map (·.1) :=
        List.mem_map_of_mem (List.mem_filter.mpr ⟨List.mem_of_getLast? hpl, hp2⟩)
      refine ⟨{ l with segments := (ps.filter (·.2)).map (·.1), detached := none }, d', ?_,
        ⟨h.config, rfl, hp.trans h.present, fun b f hf => h.limited b f (hsub _ f hf),
          fun s hs => (hkept s hs).2⟩, List.ne_nil_of_mem hmem⟩
      simp [Log.truncate, htr, hpl, hp2, h.attached]

end Log

/-- A log that stands for a layout is in working order. -/
theorem Segment.Keeps.sound {E : Env} {c : Config} {d : Dir} {s : Segment} {rs : List Record}
    {orphans : Bytes} (h : s.Keeps E c d rs orphans) : s.Sound c d := by
  have hroom := h.index.room
  obtain ⟨f, hf, -⟩ := h.store.file
  obtain ⟨f', hf', hlen, -⟩ := h.index.file
  refine ⟨⟨h.storeName, h.indexName, h.config, ⟨h.store.isOpen, h.store.sound⟩, h.index.mapped,
    h.index.mmapLen, by rw [h.index.size]; exact hroom⟩, ⟨f, by rw [← h.storeName]; exact hf⟩,
    ⟨f', by rw [← h.indexName]; exact hf', hlen⟩⟩

theorem Log.RepWith.sound {E : Env} {c : Config} {d : Dir} {l : Log} {L : Layout}
    {orphans : Bytes} (h : l.RepWith E c d L orphans) : l.Sound c d := by
  obtain ⟨ss, s, hseg, hss, hs⟩ := h.segments
  have hsegments : ∀ t ∈ l.segments, t.Sound c d := by
    intro t ht
    rw [hseg] at ht
    rcases List.mem_append.mp ht with ht | ht
    · obtain ⟨b, -, hhold⟩ := AllHold.of_mem hss ht
      exact (Segment.repWith_nil.mpr hhold.rep).sound
    · rw [List.mem_singleton.mp ht]
      exact hs.rep.sound
  refine ⟨h.config, h.detached, h.present, fun b f hf => ?_, hsegments⟩
  -- a listed index file is that of some block, and so of some segment
  have hmem : indexName b ∈ d.names := Directory.mem_names.mpr (by rw [hf]; rfl)
  obtain ⟨b', hb', hfiles⟩ := List.mem_flatMap.mp (h.names.subset hmem)
  have hbase : b = b'.base := by
    rw [← baseOfName_indexName b]
    exact segmentFiles_base hfiles
  obtain ⟨t, ht, o, hhold, -⟩ := h.segment_of_block hb'
  obtain ⟨f', hf', hlen⟩ := (hsegments t ht).padded
  rw [hhold.base, ← hbase, hf, Option.some.injEq] at hf'
  rw [hf', hlen]

/-! ## One call -/

inductive Call where
  | append (r : Record) (res : Result UInt64)
  | read (off : UInt64)
  | drain
  | truncate (lowest : UInt64)
  | reopen

/-- An append or a read may also return an error. Two segments with the same
base offset share their files, which a truncation could remove under one of
them; the offsets have to wrap for that. -/
inductive Calls (E : Env) (c : Config) : LogState → Call → LogState → Prop where
  | append {l l' : Log} {d d' : Dir} {r : Record} {res : Result UInt64} :
      l.append E d (some r) = (res, l', d') → Calls E c (l, d) (.append r res) (l', d')
  | read {l l' : Log} {d d' : Dir} {off : UInt64} {res : Result Record} :
      l.read E d off = (res, l', d') → Calls E c (l, d) (.read off) (l', d')
  | drain {l l' : Log} {d d' : Dir} {out : Bytes} :
      Reader.Drain l.reader l d out l' d' → Calls E c (l, d) .drain (l', d')
  | truncate {l l' : Log} {d d' : Dir} {lowest highest : UInt64} :
      (l.segments.map Segment.baseOffset).Nodup → l.highestOffset = .ok highest →
      lowest < highest → l.truncate d lowest = (.ok (), l', d') →
      Calls E c (l, d) (.truncate lowest) (l', d')
  | reopen {l l₁ l' : Log} {d d₁ d' : Dir} :
      l.close d = (.ok (), l₁, d₁) → newLog d₁ c = (.ok (), l', d') →
      Calls E c (l, d) .reopen (l', d')

section executable

variable {E : Env} {c : Config} {s : LogState}

theorem Calls.append_of (r : Record) (res : Result UInt64)
    (h : (s.1.append E s.2 (some r)).1 = res) :
    Calls E c s (.append r res) (s.1.append E s.2 (some r)).2 :=
  .append (Prod.ext h rfl)

end executable

variable {E : Env} {c : Config} {s s' : LogState} {u : Call}

theorem Log.Sound.exists_active (h : s.1.Sound c s.2) (hne : s.1.segments ≠ []) :
    ∃ active, s.1.activeSegment = some active := by
  exact ⟨_, by rw [h.activeSegment, List.getLast?_eq_some_getLast hne]⟩

/-- A log in working order stays so. -/
theorem Log.Sound.call (hc : c.withDefaults.Mappable) (h : s.1.Sound c.withDefaults s.2)
    (hne : s.1.segments ≠ []) (hcall : Calls E c s u s') :
    s'.1.Sound c.withDefaults s'.2 ∧ s'.1.segments ≠ [] := by
  cases hcall with
  | @append l l' d d' r res happ =>
      cases res with
      | ok off =>
          obtain ⟨hsound, hne', -⟩ := Log.Sound.use hc h hne (.append happ)
          exact ⟨hsound, hne'⟩
      | error e =>
          obtain ⟨active, hact⟩ := h.exists_active hne
          have hfull : c.withDefaults.maxIndexBytes.toNat < active.index.size.toNat + 12 := by
            by_contra hroom
            obtain ⟨off, l₁, d₁, hok, -⟩ := h.append hc E r hact (by omega)
            rw [happ] at hok
            cases hok
          obtain ⟨st, d₁, herr, hsound, -⟩ := h.append_orphans hc E r hact hfull
          rw [happ, Prod.mk.injEq, Prod.mk.injEq] at herr
          obtain ⟨-, rfl, rfl⟩ := herr
          exact ⟨hsound, by simp⟩
  | read hread =>
      obtain ⟨hsound, hne', -⟩ := Log.Sound.use hc h hne (.read hread)
      exact ⟨hsound, hne'⟩
  | drain hdrain =>
      obtain ⟨hsound, hne', -⟩ := Log.Sound.use (E := E) hc h hne (.drain hdrain)
      exact ⟨hsound, hne'⟩
  | truncate hnd hhigh hlow htr =>
      obtain ⟨l₁, d₁, htr₁, hsound, hne'⟩ := h.truncate hc hnd hhigh hlow
      rw [htr, Prod.mk.injEq, Prod.mk.injEq] at htr₁
      obtain ⟨-, rfl, rfl⟩ := htr₁
      exact ⟨hsound, hne'⟩
  | reopen hclose hnew =>
      obtain ⟨hsound, hne', -⟩ := Log.Sound.use (E := E) hc h hne (.reopen hclose hnew)
      exact ⟨hsound, hne'⟩

theorem Log.Sound.calls (hc : c.withDefaults.Mappable) {s₀ : LogState}
    (hnew : newLog Directory.empty c = (.ok (), s₀)) {us : List Call}
    (htr : Trace (Calls E c) s₀ us s) : s.1.Sound c.withDefaults s.2 ∧ s.1.segments ≠ [] := by
  have hstart : s₀.1.Sound c.withDefaults s₀.2 ∧ s₀.1.segments ≠ [] :=
    Log.Sound.run (E := E) hc hnew .init
  exact htr.invariant (I := fun s => s.1.Sound c.withDefaults s.2 ∧ s.1.segments ≠ []) hstart
    fun _ _ _ h hcall => Log.Sound.call hc h.1 h.2 hcall

/-- The offset assigned, if any, is not the last one there is. -/
def Call.Bounded : Call → Prop
  | .append _ (.ok off) => off.toNat < 2 ^ 64 - 1
  | _ => True

/-- The active index has room for another entry. -/
theorem Log.RepWith.room_iff {L : Layout} {orphans : Bytes} {active : Segment}
    (h : s.1.RepWith E c s.2 L orphans) (hact : s.1.activeSegment = some active) :
    active.index.size.toNat + 12 ≤ c.maxIndexBytes.toNat ↔
      12 * (L.act.len + 1) ≤ c.maxIndexBytes.toNat := by
  obtain ⟨t, hact', ht⟩ := h.active
  obtain rfl : active = t := Option.some.inj (hact.symm.trans hact')
  rw [ht.rep.index_size, Block.len]
  omega

section append

variable {l l' : Log} {d d' : Dir} {L : Layout} {orphans : Bytes} {r : Record}
  {res : Result UInt64}

theorem Log.RepWith.append_off (h : l.RepWith E c d L orphans) {off : UInt64}
    (happ : l.append E d (some r) = (.ok off, l', d')) : off.toNat = L.next := by
  obtain ⟨t, hact, ht⟩ := h.active
  obtain ⟨t', hact', hoff⟩ := Log.append_returns happ
  obtain rfl : t = t' := Option.some.inj (hact.symm.trans hact')
  rw [hoff]
  exact ht.next

theorem Log.RepWith.append_off_lt (h : l.RepWith E c d L orphans) (hnext : L.next + 1 < 2 ^ 64)
    (happ : l.append E d (some r) = (res, l', d')) :
    ∀ off, res = .ok off → off.toNat < 2 ^ 64 - 1 := by
  rintro off rfl
  rw [h.append_off happ]
  omega

/-- Where the index has room a record is appended, and there are no bytes of
an append that failed. -/
theorem Log.RepWith.append_room (h : l.RepWith E c d L orphans)
    (hroom : 12 * (L.act.len + 1) ≤ c.maxIndexBytes.toNat)
    (happ : l.append E d (some r) = (res, l', d'))
    (hoff : ∀ off, res = .ok off → off.toNat < 2 ^ 64 - 1) :
    l.Rep E c d L ∧ ∃ off, res = .ok off ∧ L.next + 1 < 2 ^ 64 := by
  obtain ⟨active, hact, -⟩ := h.active
  obtain ⟨off, l₁, d₁, hok⟩ := (h.sound.append_ok_iff h.mappable E r hact).mpr
    ((Log.RepWith.room_iff (s := (l, d)) h hact).mpr hroom)
  rw [happ, Prod.mk.injEq, Prod.mk.injEq] at hok
  obtain ⟨rfl, rfl, rfl⟩ := hok
  have hnext := h.append_off happ
  have hlt := hoff off rfl
  exact ⟨h.rep_of_room hroom, off, rfl, by omega⟩

/-- An append, whatever it returns. -/
theorem Log.RepWith.append_cases (h : l.RepWith E c d L orphans)
    (happ : l.append E d (some r) = (res, l', d'))
    (hoff : ∀ off, res = .ok off → off.toNat < 2 ^ 64 - 1) :
    ∃ L' orphans', l'.RepWith E c d' L' orphans' ∧
      (res = .error (.err .eof) ∧ L' = L ∧ c.maxIndexBytes.toNat < 12 * (L.act.len + 1) ∨
        (∃ off, res = .ok off) ∧ L'.abs = L.abs.push r) := by
  rcases Nat.lt_or_ge c.maxIndexBytes.toNat (12 * (L.act.len + 1)) with hroom | hroom
  · obtain ⟨l₁, d₁, orphans', herr, hrep⟩ := h.append_full r hroom
    rw [happ, Prod.mk.injEq, Prod.mk.injEq] at herr
    obtain ⟨hres, rfl, rfl⟩ := herr
    exact ⟨L, orphans', hrep, .inl ⟨hres, rfl, hroom⟩⟩
  · obtain ⟨hrep, off, rfl, hnext⟩ := h.append_room hroom happ hoff
    obtain ⟨L', hrep', habs⟩ := hrep.append_abs happ hnext
    exact ⟨L', [], hrep'.repWith, .inr ⟨⟨off, rfl⟩, habs⟩⟩

end append

/-- One call on a represented log. -/
theorem Log.RepWith.call (hM : c.withDefaults.maxIndexBytes.toNat ≤ 12 * 2 ^ 32) {L : Layout}
    {orphans : Bytes} (h : s.1.RepWith E c.withDefaults s.2 L orphans)
    (hcall : Calls E c s u s') (hu : u.Bounded) :
    ∃ L' orphans', s'.1.RepWith E c.withDefaults s'.2 L' orphans' ∧ L.lowest ≤ L'.lowest := by
  have hstable := Log.flushStable_repWith E c.withDefaults L orphans
  cases hcall with
  | @append l l' d d' r res happ =>
      obtain ⟨L', orphans', hrep, ⟨-, rfl, -⟩ | ⟨-, habs⟩⟩ :=
        h.append_cases happ (by rintro off rfl; exact hu)
      · exact ⟨_, orphans', hrep, Nat.le_refl _⟩
      · exact ⟨L', orphans', hrep, Nat.le_of_eq (congrArg AppendOnly.base habs).symm⟩
  | read hread => exact ⟨L, orphans, hstable.read h hread, Nat.le_refl _⟩
  | drain hdrain =>
      exact ⟨L, orphans, (hdrain.gives hstable h (Reader.valid_reader _)).2, Nat.le_refl _⟩
  | @truncate l l' d d' lowest highest _ hhigh hlow htr =>
      have hnext : lowest.toNat + 1 < L.next := by
        have hbound : L.next < 2 ^ 64 := L.bounded
        rw [h.highestOffset, Except.ok.injEq] at hhigh
        rw [UInt64.lt_iff_toNat_lt, ← hhigh, UInt64.toNat_ofNat',
          Nat.mod_eq_of_lt (by omega)] at hlow
        omega
      obtain ⟨L', k, hblocks, hact, habs, -⟩ := L.exists_truncate hnext
      obtain ⟨l₁, d₁, htr₁, hrep⟩ := h.truncate hnext hblocks hact
      rw [htr, Prod.mk.injEq, Prod.mk.injEq] at htr₁
      obtain ⟨-, rfl, rfl⟩ := htr₁
      refine ⟨L', orphans, hrep, ?_⟩
      have hbase : L'.lowest = L.lowest + k := congrArg AppendOnly.base habs
      omega
  | reopen hclose hnew =>
      obtain ⟨l₁, d₁, l₂, d₂, hclose', hnew', hrep⟩ := h.reopen rfl hM
      obtain ⟨rfl, rfl⟩ := Prod.mk.inj (reopen_eq hclose hnew hclose' hnew')
      exact ⟨L, orphans, hrep, Nat.le_refl _⟩

/-- Every state that calls within the bounds lead to. -/
theorem Log.RepWith.calls (hM : c.maxIndexBytes.toNat ≤ 12 * 2 ^ 32) {s₀ : LogState}
    (hnew : newLog Directory.empty c = (.ok (), s₀)) {us : List Call}
    (htr : Trace (Calls E c) s₀ us s) (hus : ∀ u ∈ us, u.Bounded) :
    ∃ L orphans, s.1.RepWith E c.withDefaults s.2 L orphans ∧
      c.initialOffset.toNat ≤ L.lowest := by
  induction htr with
  | init => exact ⟨_, [], (Log.Rep.of_newLog E hnew).repWith, Nat.le_refl _⟩
  | snoc htr hcall ih =>
      obtain ⟨L, orphans, hrep, hlow⟩ := ih fun u hu => hus u (List.mem_append_left _ hu)
      obtain ⟨L', orphans', hrep', hlow'⟩ := hrep.call (Config.withDefaults_le hM) hcall
        (hus _ (List.mem_append_right _ (List.mem_singleton_self _)))
      exact ⟨L', orphans', hrep', Nat.le_trans hlow hlow'⟩

end DistributedLog
