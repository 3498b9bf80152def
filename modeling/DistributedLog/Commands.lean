import DistributedLog.FailedAppend
import DistributedLog.Unmapped

/-!
# Applying what a client sent

The record of a `ProduceRequest` goes from the handler to
`distributed.Log.Append`, into a raft entry and out of it to `fsm.Apply` on
every node, and nobody looks whether it is set. On a log that a run led to,
`apply_command_iff` says for which requests the entry is applied as it
should be: a record that is not set makes `segment.Append` dereference nil,
and a record without room in the active index makes the log fail and change
at the same time. On a log that a restore has closed, the write to the index
is a fault; only a store that refuses the frame keeps an append from it.
-/

namespace DistributedLog

theorem Index.write_ok {i i' : Index} {d d' : Dir} {off : UInt32} {pos : UInt64}
    (h : i.write d off pos = (.ok (), i', d')) :
    i'.size = i.size + entryWidth ∧ ∀ n, n ≠ i.name → d'.content? n = d.content? n := by
  unfold Index.write at h
  split at h
  · cases h
  · split at h
    · cases h
    · cases h
      exact ⟨rfl, fun n hn => Directory.content?_modify_of_ne d hn _⟩

/-- Opening a segment writes to no store. -/
theorem newSegment_store (d : Dir) (base : UInt64) (c : Config) (b : UInt64) :
    ((newSegment d base c).2.content? (storeName b)).getD [] =
      (d.content? (storeName b)).getD [] := by
  have hne := storeName_ne_indexName b base
  have hcreate : (((d.create (storeName base)).create (indexName base)).content?
      (storeName b)).getD [] = (d.content? (storeName b)).getD [] := by
    rw [Directory.content?_create_of_ne _ hne]
    by_cases hb : storeName b = storeName base
    · rw [← hb, Directory.content?_create_self, Option.getD_some]
    · rw [Directory.content?_create_of_ne _ hb]
  have hindex : ((newIndex ((d.create (storeName base)).create (indexName base)) (indexName base)
      c).2.content? (storeName b)).getD [] = (d.content? (storeName b)).getD [] := by
    unfold newIndex
    simp only
    split
    · exact hcreate
    · split <;> rw [Directory.content?_modify_of_ne _ hne, hcreate]
  unfold newSegment
  split
  · rfl
  · simp only
    split
    case h_1 heq => rwa [heq] at hindex
    case h_2 heq =>
      rw [heq] at hindex
      split <;> exact hindex

namespace Fsm

/-- The data of the entry that `distributed.Log.Append` proposes for the
record of a request. -/
def command (E : Env) (record : Option Record) : Bytes :=
  appendRequestType :: E.marshalRequest record

/-- The record, with its offset, is the last one of the segment that was
active. -/
def Appended (E : Env) (r : Record) (off : UInt64) (s s' : LogState) : Prop :=
  ∃ t t', s.1.activeSegment = some t ∧ s'.1.segments[s.1.segments.length - 1]? = some t' ∧
    off = t.nextOffset ∧ t'.nextOffset = off + 1 ∧ t'.index.size = t.index.size + entryWidth ∧
    t'.store.bytes s'.2 = t.store.bytes s.2 ++ frame (E.marshal { r with offset := off })

/-- No panic: the record is appended and its offset returned, or an error is
returned and nothing has changed. -/
def Applied (E : Env) (s : LogState) (record : Option Record) : Prop :=
  (∃ r off s', record = some r ∧
    apply E s.1 s.2 (command E record) = (.ok (.produced off), s') ∧ Appended E r off s s') ∨
  ∃ e s', apply E s.1 s.2 (command E record) = (.ok (.failed e), s') ∧ Unchanged E s s'

variable {E : Env} {c : Config} {s : LogState}

theorem apply_command {record : Option Record} {res : Result UInt64} {s' : LogState}
    (h : s.1.append E s.2 record = (res, s')) :
    apply E s.1 s.2 (command E record) = (match res with
      | .error .panic => .error .panic
      | .error (.err e) => .ok (.failed e)
      | .ok off => .ok (.produced off), s') := by
  simp only [apply, command, applyAppend, if_true, E.unmarshalRequest_marshalRequest, h]
  rcases res with (_ | _) | _ <;> rfl

/-- What a segment holds after an append that succeeded. -/
theorem append_bytes {d d' : Dir} {t t' : Segment} {r : Record} {off : UInt64}
    (h : t.Sound c d) (happ : t.append E d (some r) = (.ok off, t', d')) :
    off = t.nextOffset ∧ t'.nextOffset = off + 1 ∧ t'.baseOffset = t.baseOffset ∧
      t'.store.name = t.store.name ∧ t'.index.size = t.index.size + entryWidth ∧
      t'.store.bytes d' = t.store.bytes d ++ frame (E.marshal { r with offset := off }) := by
  obtain ⟨f, hf, hcar⟩ := h.carries
  obtain ⟨st, d₁, hst, hcar₁, hname, -⟩ := Store.append_spec hcar E
    (E.marshal { r with offset := t.nextOffset })
  simp only [Segment.append, hst] at happ
  rcases hw : t.index.write d₁ (t.nextOffset - t.baseOffset).toUInt32 t.store.size
    with ⟨_ | _, index, d₂⟩
  · simp only [hw, Prod.mk.injEq, reduceCtorEq, false_and] at happ
  · obtain ⟨hsize, hothers⟩ := Index.write_ok hw
    simp only [hw, Prod.mk.injEq, Except.ok.injEq] at happ
    obtain ⟨rfl, rfl, rfl⟩ := happ
    refine ⟨rfl, rfl, rfl, hname, hsize, ?_⟩
    have hkeep : d₂.content? st.name = d₁.content? st.name := hothers _ (by
      rw [hname, h.storeName, h.indexName]
      exact storeName_ne_indexName _ _)
    rw [Store.bytes, hkeep]
    exact hcar₁.bytes.trans (by rw [hcar.bytes])

/-- What the log holds after an append that succeeded. -/
theorem appended {s' : LogState} {r : Record} {off : UInt64} (h : s.1.Sound c s.2)
    (happ : s.1.append E s.2 (some r) = (.ok off, s')) : Appended E r off s s' := by
  obtain ⟨l, d⟩ := s
  simp only at h happ
  cases hact : l.activeSegment with
  | none => simp [Log.append, hact] at happ
  | some t =>
      obtain ⟨xs, hxs⟩ := List.getLast?_eq_some_iff.mp (h.activeSegment ▸ hact)
      have ht := h.segments t (by simp [hxs])
      have hset : ∀ t', l.setActive t' = { l with segments := xs ++ [t'] } := by
        intro t'
        simp only [Log.setActive, h.attached, hxs, List.dropLast_concat]
      rcases happ₁ : t.append E d (some r) with ⟨_ | off', t', d'⟩
      · simp [Log.append, hact, happ₁] at happ
      · obtain ⟨hoff, hnext, hbase, hname, hsize, hbytes⟩ := append_bytes ht happ₁
        simp only [Log.append, hact, happ₁, hset] at happ
        split at happ
        case isFalse =>
          cases happ
          exact ⟨t, t', hact, by simp [hxs], hoff, hnext, hsize, hbytes⟩
        case isTrue =>
          rcases hnew : newSegment d' (off' + 1) l.config with ⟨_ | u, d''⟩
          · simp only [Log.newSegment, hnew, Prod.mk.injEq, reduceCtorEq, false_and] at happ
          · simp only [Log.newSegment, hnew] at happ
            cases happ
            refine ⟨t, t', hact, by simp [hxs], hoff, hnext, hsize, ?_⟩
            have hkeep := newSegment_store d' (off + 1) l.config t.baseOffset
            rw [hnew, ← ht.storeName, ← hname] at hkeep
            rw [← hbytes, Store.bytes, Store.bytes, hkeep]

/-! ## After a restore has closed the log -/

/-- A read of closed segments does not get to the stores. -/
theorem readIn_unmapped_store {t : Segment} (ht : t.index.mapped = false) (st : Store) (d : Dir)
    (off : UInt64) : ∀ {ss : List Segment}, (∀ u ∈ ss, u.index.mapped = false) →
    (Log.readIn E d off (ss ++ [{ t with store := st }])).1 = (Log.readIn E d off (ss ++ [t])).1
  | [], _ => by
      obtain ⟨e, hread⟩ := Index.read_unmapped (d := d) ht (off - t.baseOffset).toInt64
      simp only [List.nil_append, Log.readIn, Segment.read, hread]
      split <;> rfl
  | u :: ss, h => by
      have ih := readIn_unmapped_store ht st d off fun v hv => h v (List.mem_cons_of_mem _ hv)
      simp only [List.cons_append, Log.readIn]
      split
      · rfl
      · exact ih

/-- Nothing is observed of a closed log but its offsets and sizes. -/
theorem unchanged_unmapped {t : Segment} {st : Store} (h : s.1.Unmapped)
    (ht : s.1.activeSegment = some t) (hclosed : st.closed = true)
    (hsize : st.size = t.store.size) :
    Unchanged E s (s.1.setActive { t with store := st }, s.2) := by
  obtain ⟨l, d⟩ := s
  simp only at h ht ⊢
  obtain ⟨hmapped, -⟩ := h.active ht
  have h' := h.setActive (s := { t with store := st }) hmapped hclosed
  rw [h.setActive_eq] at h' ⊢
  rw [Log.activeSegment, h.attached] at ht
  obtain ⟨ss, hss⟩ := List.getLast?_eq_some_iff.mp ht
  have hunmapped : ∀ u ∈ ss, u.index.mapped = false := fun u hu =>
    h.segments u (by rw [hss]; exact List.mem_append_left _ hu)
  have hdrain : ∀ {l : Log} {out : Bytes}, l.Unmapped →
      ¬ ∃ l' d', Reader.Drain l.reader l d out l' d' := by
    rintro l out hl ⟨l', d', hd⟩
    exact absurd (List.map_eq_nil_iff.mp (Log.Unmapped.not_drain hd hl))
      (by simpa using hl.nonempty)
  simp only [hss, List.dropLast_concat] at h' ⊢
  refine ⟨fun out => ⟨fun hd => absurd hd (hdrain h'), fun hd => absurd hd (hdrain h)⟩, ?_, ?_, ?_,
    fun off => ?_⟩
  · simp [hss, hsize]
  · cases ss <;> simp [Log.lowestOffset, hss]
  · simp [Log.highestOffset, hss]
  · have hread := readIn_unmapped_store (E := E) hmapped st d off hunmapped
    simp only [Log.read, hss]
    rcases hold : Log.readIn E d off (ss ++ [t]) with ⟨res, ss₁, d₁⟩
    rw [hold] at hread
    rw [← hread]

/-- The append of a record to a closed log: the store refuses it, or the index
does when the store has taken it. -/
theorem append_unmapped_cases {t : Segment} {r : Record} (h : s.1.Unmapped)
    (ht : s.1.activeSegment = some t) :
    (t.store.Refuses E (E.marshal { r with offset := t.nextOffset }) ∧
      ∃ st, s.1.append E s.2 (some r) =
        (.error (.err .closed), s.1.setActive { t with store := st }, s.2) ∧
        st.closed = true ∧ st.size = t.store.size) ∨
    (¬ t.store.Refuses E (E.marshal { r with offset := t.nextOffset }) ∧
      ∃ e st, s.1.append E s.2 (some r) = (.error e, s.1.setActive { t with store := st }, s.2) ∧
        st.size = t.store.size +
          UInt64.ofNat ((E.marshal { r with offset := t.nextOffset }).length + lenWidth)) := by
  obtain ⟨hmapped, hclosed⟩ := h.active ht
  by_cases hr : t.store.Refuses E (E.marshal { r with offset := t.nextOffset })
  · obtain ⟨st, happ, hst, hsize⟩ := Store.append_refused (d := s.2) hclosed hr
    exact .inl ⟨hr, st, by simp only [Log.append, ht, Segment.append, happ], hst, hsize⟩
  · obtain ⟨e, hw⟩ := Index.write_unmapped (d := s.2) hmapped
      (t.nextOffset - t.baseOffset).toUInt32 t.store.size
    have happ := Store.append_buffered (d := s.2) hr
    exact .inr ⟨hr, e, _, by simp only [Log.append, ht, Segment.append, happ, hw]; rfl, rfl⟩

theorem applied_unmapped_iff {t : Segment} {r : Record} (h : s.1.Unmapped)
    (ht : s.1.activeSegment = some t)
    (hlen : (E.marshal { r with offset := t.nextOffset }).length + lenWidth < 2 ^ 64) :
    Applied E s (some r) ↔
      t.store.Refuses E (E.marshal { r with offset := t.nextOffset }) := by
  rcases append_unmapped_cases (E := E) (r := r) h ht with
    ⟨hr, st, happ, hst, hsize⟩ | ⟨hr, e, st, happ, hsize⟩
  · refine ⟨fun _ => hr, fun _ => .inr ⟨.closed, _, apply_command happ, ?_⟩⟩
    exact unchanged_unmapped h ht hst hsize
  · refine ⟨fun happlied => ?_, fun hr' => absurd hr' hr⟩
    rcases happlied with ⟨_, off, s', -, happly, -⟩ | ⟨e', s', happly, hunch⟩
    · rw [apply_command happ] at happly
      cases e <;> cases happly
    · rw [apply_command happ, Prod.mk.injEq] at happly
      obtain ⟨-, rfl⟩ := happly
      have hsizes := hunch.sizes
      rw [h.setActive_eq] at hsizes
      rw [Log.activeSegment, h.attached] at ht
      obtain ⟨ss, hss⟩ := List.getLast?_eq_some_iff.mp ht
      simp only [hss, List.dropLast_concat, List.map_append, List.map_cons, List.map_nil,
        List.append_cancel_left_eq, List.cons.injEq, and_true] at hsizes
      rw [hsize, ← UInt64.toNat_inj, UInt64.toNat_add, UInt64.toNat_ofNat'] at hsizes
      have := t.store.size.toNat_lt
      simp only [lenWidth] at hsizes hlen
      omega

/-! ## Every request -/

theorem not_applied_none {t : Segment} (ht : s.1.activeSegment = some t) :
    ¬ Applied E s none := by
  have hpanic : s.1.append E s.2 none = (.error .panic, s.1.setActive t, s.2) := by
    simp only [Log.append, ht, Segment.append]
  rintro (⟨r, off, s', hsome, -⟩ | ⟨e, s', happly, -⟩)
  · cases hsome
  · rw [apply_command hpanic] at happly
    cases happly

theorem applied_sound_iff {t : Segment} {r : Record} (h : s.1.Sound c s.2) (hc : c.Mappable)
    (hne : s.1.segments ≠ []) (ht : s.1.activeSegment = some t) :
    Applied E s (some r) ↔ t.index.size.toNat + 12 ≤ c.maxIndexBytes.toNat := by
  refine ⟨fun happlied => ?_, fun hroom => ?_⟩
  · by_contra hfull
    obtain ⟨s₁, happ, hchanged⟩ :=
      FailedAppend.append_changes (E := E) (r := r) h hc hne ht (by omega)
    rcases happlied with ⟨r', off, s', -, happly, -⟩ | ⟨e, s', happly, hunch⟩
    · rw [apply_command happ] at happly
      cases happly
    · rw [apply_command happ] at happly
      cases happly
      exact hchanged hunch
  · obtain ⟨off, l', d', happ⟩ := (h.append_ok_iff hc E r ht).mpr hroom
    exact .inl ⟨r, off, _, rfl, apply_command happ, appended h happ⟩

/-- The offset assigned by a call is not the last one there is, and no
process ends on the way. -/
def Life.Bounded : Life → Prop
  | .call u => u.Bounded
  | .readSnapshot _ _ | .restore _ => True
  | .restart => False

theorem repWith_lives (hM : c.maxIndexBytes.toNat ≤ 12 * 2 ^ 32) {s₀ : LogState}
    {es : List Life} (hnew : newLog Directory.empty c = (.ok (), s₀))
    (htr : Trace (Lives E c) s₀ es s) (hb : ∀ e ∈ es, e.Bounded) (hok : intact E es = true) :
    ∃ L orphans, s.1.RepWith E c.withDefaults s.2 L orphans := by
  induction htr with
  | init =>
      obtain ⟨L, orphans, hrep, -⟩ := Log.RepWith.calls (E := E) hM hnew .init (by simp)
      exact ⟨L, orphans, hrep⟩
  | @snoc es e s s' htr hlive ih =>
      have hb' : ∀ e ∈ es, e.Bounded := fun e he => hb e (List.mem_append_left _ he)
      have he : e.Bounded := hb e (by simp)
      rw [intact_snoc] at hok
      cases hlive with
      | call hcall =>
          obtain ⟨L, orphans, hrep⟩ := ih hb' hok
          obtain ⟨L', orphans', hrep', -⟩ := hrep.call (Config.withDefaults_le hM) hcall he
          exact ⟨L', orphans', hrep'⟩
      | readSnapshot n rd =>
          obtain ⟨L, orphans, hrep⟩ := ih hb' hok
          exact ⟨L, orphans, (Log.flushStable_repWith E _ L orphans).readerRead n rd hrep⟩
      | @restore _ stream res hrestore =>
          simp only [Life.keeps, Bool.and_eq_true, Bool.not_eq_true'] at hok
          have hsame : s' = s :=
            (congrArg Prod.snd hrestore).symm.trans (restore_of_not_begins hok.2 s.1 s.2)
          rw [hsame]
          exact ih hb' hok.1
      | restart => exact he.elim

/-- **What a client can send.** On every log that a run led to, with restores
and new processes, the entry for a request is applied as it should be exactly
if the record of the request is set and the active index has room for another
entry, or, when a restore has closed the log, if the store refuses the frame.
Within the bounds of 32-bit entry numbers, 64-bit offsets and the file
system, the log then shows the record after all the others. -/
theorem apply_command_iff (E : Env) (c : Config) {s₀ s : LogState} {es : List Life}
    (hnew : newLog Directory.empty c = (.ok (), s₀)) (htr : Trace (Lives E c) s₀ es s)
    (record : Option Record) :
    (intact E es = true → (Applied E s record ↔
      record.isSome = true ∧ ∃ t, s.1.activeSegment = some t ∧
        t.index.size.toNat + 12 ≤ c.withDefaults.maxIndexBytes.toNat)) ∧
    (intact E es = false →
      (∀ r t, record = some r → s.1.activeSegment = some t →
        (E.marshal { r with offset := t.nextOffset }).length + 8 < 2 ^ 64) →
      (Applied E s record ↔ ∃ r t, record = some r ∧ s.1.activeSegment = some t ∧
        t.store.Refuses E (E.marshal { r with offset := t.nextOffset }))) ∧
    (c.maxIndexBytes.toNat ≤ 12 * 2 ^ 32 → intact E es = true → (∀ e ∈ es, e.Bounded) →
      s.1.FilesFit s.2 → ∀ r off s', record = some r →
        apply E s.1 s.2 (command E record) = (.ok (.produced off), s') →
        off.toNat < 2 ^ 64 - 1 → s'.1.FilesFit s'.2 →
        ∃ a, Shows E s a ∧ off = UInt64.ofNat a.next ∧ Shows E s' (a.push r)) := by
  have hc := Config.mappable_of_newLog hnew
  have hkept := kept_run hc hnew htr
  refine ⟨fun hok => ?_, fun hbroken hlen => ?_, ?_⟩
  · rw [hok] at hkept
    obtain ⟨h, hne⟩ := hkept
    obtain ⟨t, ht⟩ := h.exists_active hne
    cases record with
    | none => exact ⟨fun happlied => absurd happlied (not_applied_none ht), by simp⟩
    | some r =>
        refine (applied_sound_iff h hc hne ht).trans ⟨fun hroom => ⟨rfl, t, ht, hroom⟩, ?_⟩
        rintro ⟨-, t', ht', hroom⟩
        obtain rfl : t = t' := Option.some.inj (ht.symm.trans ht')
        exact hroom
  · rw [hbroken] at hkept
    obtain ⟨h, -⟩ := hkept
    obtain ⟨t, ht⟩ : ∃ t, s.1.activeSegment = some t := by
      rw [Log.activeSegment, h.attached]
      exact ⟨_, List.getLast?_eq_some_getLast h.nonempty⟩
    cases record with
    | none => exact ⟨fun happlied => absurd happlied (not_applied_none ht), by simp⟩
    | some r =>
        refine (applied_unmapped_iff h ht (hlen r t rfl ht)).trans
          ⟨fun hr => ⟨r, t, rfl, ht, hr⟩, ?_⟩
        rintro ⟨r', t', hr', ht', hrefuses⟩
        obtain rfl : r = r' := Option.some.inj hr'
        obtain rfl : t = t' := Option.some.inj (ht.symm.trans ht')
        exact hrefuses
  · rintro hM hok hb hfit r off s' rfl happly hoff hfit'
    rw [hok] at hkept
    obtain ⟨h, hne⟩ := hkept
    obtain ⟨t, ht⟩ := h.exists_active hne
    have happ := (apply_appendCommand r).mp happly
    obtain ⟨L, orphans, hrep⟩ := repWith_lives hM hnew htr hb hok
    have hroom := (hrep.room_iff ht).mp ((h.append_ok_iff hc E r ht).mp ⟨_, _, _, happ⟩)
    have hM' := Config.withDefaults_le hM
    have hnext := (hrep.rep_of_room hroom).append_off happ
    obtain ⟨L', hrep', habs⟩ := (hrep.rep_of_room hroom).append_abs happ (by omega)
    refine ⟨L.abs, hrep.shows hM' (hrep.fits hfit), ?_, ?_⟩
    · rw [L.abs_next, ← hnext, UInt64.ofNat_toNat]
    · rw [← habs]
      exact hrep'.repWith.shows hM' (hrep'.fits hfit')

/-- One append, and a restore that comes to no record. -/
theorem trace_appended : ∃ s, Trace (Lives goEnv ⟨64, 24, 0⟩)
    (newLog Directory.empty ⟨64, 24, 0⟩).2
      [.call (.append ⟨[7], 0, 0, 0⟩ (.ok 0)), .restore [0, 0]] s ∧ s.1.FilesFit s.2 ∧
      (∃ t, s.1.activeSegment = some t ∧ t.index.size.toNat + 12 ≤ 24) ∧
      (apply goEnv s.1 s.2 (command goEnv (some ⟨[8], 9, 0, 0⟩))).1 = .ok (.produced 1) ∧
      Log.FilesFit (apply goEnv s.1 s.2 (command goEnv (some ⟨[8], 9, 0, 0⟩))).2.1
        (apply goEnv s.1 s.2 (command goEnv (some ⟨[8], 9, 0, 0⟩))).2.2 :=
  ⟨_, (Trace.init.snoc (.call (.append_of _ _ (by decide +kernel)))).snoc (.restore rfl),
    by decide +kernel, ⟨_, rfl, by decide +kernel⟩, by decide +kernel, by decide +kernel⟩

/-- One append, and a restore that comes to a record. -/
theorem trace_closed : ∃ s t, Trace (Lives goEnv ⟨64, 24, 0⟩)
    (newLog Directory.empty ⟨64, 24, 0⟩).2
      [.call (.append ⟨[7], 0, 0, 0⟩ (.ok 0)), .restore (frames goEnv 0 [⟨[8], 0, 0, 0⟩])] s ∧
      s.1.activeSegment = some t ∧
      (goEnv.marshal ⟨[8], t.nextOffset, 0, 0⟩).length + 8 < 2 ^ 64 ∧
      ¬ t.store.Refuses goEnv (goEnv.marshal ⟨[8], t.nextOffset, 0, 0⟩) :=
  ⟨_, _, (Trace.init.snoc (.call (.append_of _ _ (by decide +kernel)))).snoc (.restore rfl), rfl,
    by decide +kernel, by decide +kernel⟩

/-- The next request is applied, and its record is shown; on the log that a
restore has closed it is not. -/
theorem apply_command_second :
    (∃ s es, Trace (Lives goEnv ⟨64, 24, 0⟩) (newLog Directory.empty ⟨64, 24, 0⟩).2 es s ∧
      intact goEnv es = true ∧ Applied goEnv s (some ⟨[8], 9, 0, 0⟩) ∧
      ∃ a s', Shows goEnv s a ∧
        apply goEnv s.1 s.2 (command goEnv (some ⟨[8], 9, 0, 0⟩)) = (.ok (.produced 1), s') ∧
        Shows goEnv s' (a.push ⟨[8], 9, 0, 0⟩)) ∧
    ∃ s es, Trace (Lives goEnv ⟨64, 24, 0⟩) (newLog Directory.empty ⟨64, 24, 0⟩).2 es s ∧
      intact goEnv es = false ∧ ¬ Applied goEnv s (some ⟨[8], 9, 0, 0⟩) := by
  have hnew : (newLog Directory.empty ⟨64, 24, 0⟩).1 = .ok () := by decide +kernel
  refine ⟨?_, ?_⟩
  · obtain ⟨s, htr, hfit, hroom, happly, hfit'⟩ := trace_appended
    have hbounded : ∀ e ∈ [Life.call (.append ⟨[7], 0, 0, 0⟩ (.ok 0)), .restore [0, 0]],
        e.Bounded := by
      simp only [List.mem_cons, List.not_mem_nil, or_false, forall_eq_or_imp, forall_eq,
        Life.Bounded, Call.Bounded, and_true]
      decide
    obtain ⟨happlied, -, hshown⟩ :=
      apply_command_iff goEnv _ (Prod.ext hnew rfl) htr (some ⟨[8], 9, 0, 0⟩)
    refine ⟨s, _, htr, by decide +kernel, (happlied (by decide +kernel)).mpr ⟨rfl, hroom⟩, ?_⟩
    obtain ⟨a, ha, -, ha'⟩ := hshown (by decide) (by decide +kernel) hbounded hfit ⟨[8], 9, 0, 0⟩ 1
      _ rfl (Prod.ext happly rfl) (by decide) hfit'
    exact ⟨a, _, ha, Prod.ext happly rfl, ha'⟩
  · obtain ⟨s, t, htr, ht, hlen, htakes⟩ := trace_closed
    obtain ⟨-, happlied, -⟩ :=
      apply_command_iff goEnv _ (Prod.ext hnew rfl) htr (some ⟨[8], 9, 0, 0⟩)
    refine ⟨s, _, htr, by decide +kernel, fun h => ?_⟩
    obtain ⟨r, t', hr, ht', hrefuses⟩ := (happlied (by decide +kernel) (by
      rintro r t' hr ht'
      cases hr
      cases ht.symm.trans ht'
      exact hlen)).mp h
    cases hr
    cases ht.symm.trans ht'
    exact htakes hrefuses

/-- A request whose record is not set. -/
theorem apply_command_unset_panics :
    let s₀ := (newLog Directory.empty ⟨64, 24, 0⟩).2
    (newLog Directory.empty ⟨64, 24, 0⟩).1 = .ok () ∧
      (apply goEnv s₀.1 s₀.2 (command goEnv none)).1 = .error .panic := by
  decide +kernel

end Fsm

end DistributedLog
