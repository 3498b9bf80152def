import DistributedLog.Calls
import DistributedLog.Snapshot

/-!
# What a failed append leaves behind

An append fails exactly when the active index has no room, and then it has
already written its frame to the store (`Log.Sound.append_orphans`). Nothing
that is found through the index changes, but the reader, and with it every
snapshot, goes through the stores: it gives more bytes than before
(`Ahead.length_rest`). So a failed append never leaves the log as it was.
-/

namespace DistributedLog

/-- Everything that is observed of a log. -/
structure Unchanged (E : Env) (s s' : LogState) : Prop where
  stream : ∀ out, (∃ l d, Reader.Drain s'.1.reader s'.1 s'.2 out l d) ↔
    ∃ l d, Reader.Drain s.1.reader s.1 s.2 out l d
  sizes : s'.1.segments.map (fun t => t.store.size) = s.1.segments.map fun t => t.store.size
  lowest : s'.1.lowestOffset = s.1.lowestOffset
  highest : s'.1.highestOffset = s.1.highestOffset
  read : ∀ off, (s'.1.read E s'.2 off).1 = (s.1.read E s.2 off).1

namespace FailedAppend

/-- How many bytes a file has. -/
def fileLength (d : Dir) (n : Name) : Nat := ((d.content? n).getD []).length

/-- `s'` has the stores of `s`, file by file with no fewer bytes, and store
`a` carries more, in its file and its buffer together. -/
structure Ahead (c : Config) (a : Nat) (s s' : LogState) : Prop where
  sound : s.1.Sound c s.2
  sound' : s'.1.Sound c s'.2
  stores : ∀ i t, s.1.segments[i]? = some t → ∃ t', s'.1.segments[i]? = some t' ∧
    t'.store.name = t.store.name ∧
    fileLength s.2 t.store.name ≤ fileLength s'.2 t.store.name ∧
    (i ≠ a → t'.store.buf.length = t.store.buf.length) ∧
    (i = a → fileLength s.2 t.store.name + t.store.buf.length <
      fileLength s'.2 t.store.name + t'.store.buf.length)

variable {c : Config} {a : Nat} {s s' : LogState}

/-- A flush moves the buffer to the file and changes no other file. -/
theorem flush_length {d : Dir} {t : Segment} (h : t.Sound c d) :
    ∃ st d', t.store.flush d = (.ok (), st, d') ∧ st.name = t.store.name ∧ st.buf = [] ∧
      ∀ n, fileLength d' n =
        fileLength d n + if n = t.store.name then t.store.buf.length else 0 := by
  obtain ⟨f, hf, hcar⟩ := h.carries
  obtain ⟨st, d', hfl, hcar', hcont, hname, -, ht⟩ := Store.flush_spec hcar
  obtain ⟨f', hf', hbs⟩ := hcar'.file
  rw [hname, hcont, Option.some.injEq] at hf'
  rw [← hf', List.append_right_eq_self] at hbs
  refine ⟨st, d', hfl, hname, hbs, fun n => ?_⟩
  split
  case isTrue hn =>
    rw [fileLength, fileLength, hn, hcont, h.storeName, hf, Option.getD_some, Option.getD_some,
      List.length_append]
  case isFalse hn => rw [fileLength, fileLength, ht.others n (by simpa using hn), Nat.add_zero]

/-- Flushing the same store on both sides. -/
theorem Ahead.flush (h : Ahead c a s s') {i : Nat} {t : Segment}
    (ht : s.1.segments[i]? = some t) :
    ∃ t' st d st' d', s'.1.segments[i]? = some t' ∧ t.store.flush s.2 = (.ok (), st, d) ∧
      t'.store.flush s'.2 = (.ok (), st', d') ∧ st.name = t.store.name ∧
      st'.name = t.store.name ∧ fileLength d t.store.name ≤ fileLength d' t.store.name ∧
      (i = a → fileLength d t.store.name < fileLength d' t.store.name) ∧
      Ahead c a (s.1.setStore i st, d) (s'.1.setStore i st', d') := by
  obtain ⟨t', ht', hname, hfile, hbuf, hmore⟩ := h.stores i t ht
  obtain ⟨st, d, hfl, hst, hempty, hlen⟩ :=
    flush_length (h.sound.segments t (List.mem_of_getElem? ht))
  obtain ⟨st', d', hfl', hst', hempty', hlen'⟩ :=
    flush_length (h.sound'.segments t' (List.mem_of_getElem? ht'))
  rw [hname] at hst' hlen'
  have hle : fileLength d t.store.name ≤ fileLength d' t.store.name ∧
      (i = a → fileLength d t.store.name < fileLength d' t.store.name) := by
    rw [hlen, hlen', if_pos rfl, if_pos rfl]
    refine ⟨?_, hmore⟩
    by_cases hi : i = a
    · exact Nat.le_of_lt (hmore hi)
    · rw [hbuf hi]
      omega
  refine ⟨t', st, d, st', d', ht', hfl, hfl', hst, hst', hle.1, hle.2,
    (h.sound.flush ht hfl).1, (h.sound'.flush ht' hfl').1, ?_⟩
  intro j u hu
  by_cases hij : i = j
  · subst hij
    rw [Log.getElem?_setStore ht, Option.some.injEq] at hu
    subst hu
    refine ⟨{ t' with store := st' }, Log.getElem?_setStore ht' st', hst'.trans hst.symm,
      ?_, ?_, ?_⟩
    · simpa only [hst] using hle.1
    · simp only [hempty, hempty', implies_true]
    · simpa only [hempty, hempty', hst, List.length_nil, Nat.add_zero] using hle.2
  · rw [s.1.getElem?_setStore_of_ne hij] at hu
    obtain ⟨u', hu', hname', hfile', hbuf', hmore'⟩ := h.stores j u hu
    refine ⟨u', by rw [s'.1.getElem?_setStore_of_ne hij]; exact hu', hname', ?_, hbuf', ?_⟩
    -- two segments may use one file, after the offsets have wrapped
    all_goals by_cases hn : u.store.name = t.store.name
    · rw [hn]
      exact hle.1
    · simpa only [hlen, hlen', if_neg hn, Nat.add_zero] using hfile'
    · intro hj
      have := hbuf (fun hi => hij (hi.trans hj.symm))
      have := hmore' hj
      simp only [hlen, hlen', if_pos hn]
      omega
    · simpa only [hlen, hlen', if_neg hn, Nat.add_zero] using hmore'

open Reader

/-- What is left to read is no shorter on the side that is ahead, and longer
once the store that carries more is still to be read. -/
theorem Ahead.length_rest : ∀ {rd : Reader} {s s' : LogState}, Ahead c a s s' →
    (∀ p ∈ rd, p.2 = 0 ∧ p.1 < s.1.segments.length) →
    (rest rd s.1 s.2).length ≤ (rest rd s'.1 s'.2).length ∧
      (a ∈ rd.map Prod.fst → (rest rd s.1 s.2).length < (rest rd s'.1 s'.2).length)
  | [], _, _, _, _ => ⟨Nat.le_refl _, fun h => nomatch h⟩
  | (i, off) :: rs, s, s', h, hv => by
      obtain ⟨hoff, hi⟩ := hv _ List.mem_cons_self
      simp only at hoff hi
      obtain ⟨t', st, d, st', d', ht', hfl, hfl', hst, hst', hle, hlt, h'⟩ :=
        h.flush (List.getElem?_eq_getElem hi)
      have hv' : ∀ p ∈ rs, p.2 = 0 ∧ p.1 < (s.1.setStore i st).segments.length := fun p hp => by
        rw [Log.length_setStore]
        exact hv p (List.mem_cons_of_mem _ hp)
      obtain ⟨ih, ihlt⟩ := h'.length_rest hv'
      simp only [fileLength] at hle hlt ih ihlt
      simp only [rest, List.getElem?_eq_getElem hi, ht', hfl, hfl', hst, hst', hoff, List.drop_zero,
        List.length_append, List.map_cons, List.mem_cons]
      refine ⟨by omega, ?_⟩
      rintro (rfl | ha)
      · have := hlt rfl
        omega
      · have := ihlt ha
        omega

/-- An append that fails puts the log ahead of what it was. -/
theorem ahead_append {E : Env} {r : Record} {t : Segment} (h : s.1.Sound c s.2) (hc : c.Mappable)
    (ht : s.1.activeSegment = some t)
    (hfull : c.maxIndexBytes.toNat < t.index.size.toNat + 12) :
    ∃ s', s.1.append E s.2 (some r) = (.error (.err .eof), s') ∧
      Ahead c (s.1.segments.length - 1) s s' ∧ s'.1.segments.length = s.1.segments.length := by
  obtain ⟨st, d', happ, hsound, he, hname, hgrow⟩ := h.append_orphans hc E r ht hfull
  obtain ⟨xs, hxs⟩ := List.getLast?_eq_some_iff.mp (h.activeSegment ▸ ht)
  rw [hxs, List.dropLast_concat] at happ hsound
  have hmono : ∀ u ∈ s.1.segments, fileLength s.2 u.store.name ≤ fileLength d' u.store.name := by
    intro u hu
    have hu := h.segments u hu
    obtain ⟨f, hf⟩ := hu.stored
    obtain ⟨x, hx⟩ := he.store _ f hf
    rw [fileLength, fileLength, hu.storeName, hf, hx, Option.getD_some, Option.getD_some,
      List.length_append]
    omega
  refine ⟨_, happ, ⟨h, hsound, fun i u hu => ?_⟩, by simp [hxs]⟩
  have hle := hmono u (List.mem_of_getElem? hu)
  rw [hxs, List.length_append, List.length_singleton, Nat.add_sub_cancel]
  rw [hxs] at hu
  rcases Nat.lt_trichotomy i xs.length with hi | hi | hi
  · rw [List.getElem?_append_left hi] at hu
    exact ⟨u, by rw [List.getElem?_append_left hi, hu], rfl, hle, fun _ => rfl,
      fun h => absurd h (Nat.ne_of_lt hi)⟩
  · rw [hi, List.getElem?_concat_length, Option.some.injEq] at hu
    subst hu
    refine ⟨{ t with store := st }, by rw [hi, List.getElem?_concat_length], hname, hle,
      fun h => absurd hi h, fun _ => ?_⟩
    obtain ⟨f, hf⟩ := (h.segments t (by simp [hxs])).stored
    rw [← (h.segments t (by simp [hxs])).storeName] at hf
    obtain ⟨f', hf', hlt⟩ := hgrow f hf
    simpa only [fileLength, hf, hf', Option.getD_some] using hlt
  · rw [List.getElem?_eq_none (by simpa using Nat.succ_le_of_lt hi)] at hu
    cases hu

/-- A drain of the reader tells the two logs apart. -/
theorem Ahead.not_unchanged {E : Env} (h : Ahead c (s.1.segments.length - 1) s s')
    (hne : s.1.segments ≠ []) (hlen : s'.1.segments.length = s.1.segments.length) :
    ¬ Unchanged E s s' := by
  intro hunch
  have hstream := hunch.stream (s.1.reader.rest s.1 s.2)
  rw [Snapshot.drain_iff h.sound.ready, Snapshot.drain_iff h.sound'.ready] at hstream
  have hreader : s'.1.reader = s.1.reader := by rw [Log.reader, Log.reader, hlen]
  have hlast : s.1.segments.length - 1 ∈ s.1.reader.map Prod.fst := by
    rw [s.1.reader_positions, List.mem_range]
    exact Nat.sub_one_lt_of_lt (List.length_pos_iff.mpr hne)
  have hlt := (h.length_rest fun p hp =>
    ⟨s.1.reader_offsets p hp, valid_reader s.1 p hp⟩).2 hlast
  rw [hstream.mpr rfl, hreader] at hlt
  exact Nat.lt_irrefl _ hlt

/-- Without room an append fails and changes the log. -/
theorem append_changes {E : Env} {r : Record} {t : Segment} (h : s.1.Sound c s.2)
    (hc : c.Mappable) (hne : s.1.segments ≠ []) (ht : s.1.activeSegment = some t)
    (hfull : c.maxIndexBytes.toNat < t.index.size.toNat + 12) :
    ∃ s', s.1.append E s.2 (some r) = (.error (.err .eof), s') ∧ ¬ Unchanged E s s' := by
  obtain ⟨s', happ, hahead, hlen⟩ := ahead_append (E := E) (r := r) h hc ht hfull
  exact ⟨s', happ, hahead.not_unchanged hne hlen⟩

end FailedAppend

/-- **What a failed append changes.** In every state of every run, failed
appends among its calls, the next append leaves the log unchanged if it
fails exactly when there is room for another entry in the active index, and
then it does not fail. Without room it fails, and a drain of the reader
gives more than before. -/
theorem append_error_unchanged_iff (E : Env) (c : Config) {s₀ s : LogState} {us : List Call}
    (hnew : newLog Directory.empty c = (.ok (), s₀)) (htr : Trace (Calls E c) s₀ us s)
    (r : Record) :
    (∀ e s', s.1.append E s.2 (some r) = (.error e, s') → Unchanged E s s') ↔
      ∃ t, s.1.activeSegment = some t ∧
        t.index.size.toNat + 12 ≤ c.withDefaults.maxIndexBytes.toNat := by
  have hc := Config.mappable_of_newLog hnew
  obtain ⟨h, hne⟩ := Log.Sound.calls hc hnew htr
  obtain ⟨t, ht⟩ := h.exists_active hne
  constructor
  · intro hunch
    refine ⟨t, ht, ?_⟩
    by_contra hfull
    obtain ⟨s', happ, hchanged⟩ :=
      FailedAppend.append_changes (E := E) (r := r) h hc hne ht (by omega)
    exact hchanged (hunch _ _ happ)
  · rintro ⟨t', ht', hroom⟩ e s' herr
    obtain ⟨off, l', d', hok⟩ := (h.append_ok_iff hc E r ht').mpr hroom
    rw [herr] at hok
    cases hok

/-- A limit of 13 bytes: the third append fails like the second, and changes
the log again. -/
theorem append_error_changes_again :
    ∃ s, Trace (Calls goEnv ⟨64, 13, 0⟩) (newLog Directory.empty ⟨64, 13, 0⟩).2
        [.append ⟨[7], 0, 0, 0⟩ (.ok 0), .append ⟨[8], 0, 0, 0⟩ (.error (.err .eof))] s ∧
      ¬ ∀ e s', s.1.append goEnv s.2 (some ⟨[9], 0, 0, 0⟩) = (.error e, s') →
        Unchanged goEnv s s' := by
  have hnew : (newLog Directory.empty ⟨64, 13, 0⟩).1 = .ok () := by decide +kernel
  have h₁ : Trace (Calls goEnv ⟨64, 13, 0⟩) (newLog Directory.empty ⟨64, 13, 0⟩).2 _ _ :=
    Trace.init.snoc (.append_of ⟨[7], 0, 0, 0⟩ (.ok 0) (by decide +kernel))
  have h₂ := h₁.snoc (.append_of ⟨[8], 0, 0, 0⟩ (.error (.err .eof)) (by decide +kernel))
  refine ⟨_, h₂, fun hunch => ?_⟩
  obtain ⟨t, ht, hroom⟩ := (append_error_unchanged_iff goEnv _ (Prod.ext hnew rfl) h₂ _).mp hunch
  have hsize : (some t).map (fun t => t.index.size.toNat) = some 12 := by
    rw [← ht]
    decide +kernel
  rw [Option.map_some, Option.some.injEq] at hsize
  rw [hsize] at hroom
  exact absurd hroom (by decide)

/-- The second append fails and its frame is in the store. -/
theorem append_error_grows_store :
    let s₀ := (newLog Directory.empty ⟨64, 13, 0⟩).2
    let s₁ := (s₀.1.append goEnv s₀.2 (some ⟨[7], 0, 0, 0⟩)).2
    let s₂ := (s₁.1.append goEnv s₁.2 (some ⟨[8], 0, 0, 0⟩)).2
    (s₁.1.append goEnv s₁.2 (some ⟨[8], 0, 0, 0⟩)).1 = .error (.err .eof) ∧
      s₁.1.segments.map (fun t => t.store.size) = [11] ∧
      s₂.1.segments.map (fun t => t.store.size) = [24] ∧
      s₁.1.reader.rest s₁.1 s₁.2 = [0, 0, 0, 0, 0, 0, 0, 3, 10, 1, 7] ∧
      s₂.1.reader.rest s₂.1 s₂.2 =
        [0, 0, 0, 0, 0, 0, 0, 3, 10, 1, 7, 0, 0, 0, 0, 0, 0, 0, 5, 10, 1, 8, 16, 1] := by
  decide +kernel

end DistributedLog
