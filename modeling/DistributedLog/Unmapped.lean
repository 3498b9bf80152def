import DistributedLog.Calls
import DistributedLog.Fsm

/-!
# What is left of a log after a restore

`fsm.Restore` resets the log when it comes to the first record. `Reset`
closes the segments, removes the directory and then fails to list it, so the
log is left with the segments that it has closed: their indexes are no longer
mapped. Nothing maps them again. An append fails at the index whatever the
store does, a read fails before it gets to the store, and another reset
fails at the first segment. So from then on the replica stores no record
and returns none, in any run (`restore_ends_service`).

The next process finds no directory and starts with an empty log. `Lives`
is the life of a log over such ends and beginnings: at any point it is in
working order or closed in this way, and `intact` reads off the run which of
the two (`kept_run`).
-/

namespace DistributedLog

/-! ## Indexes that are not mapped -/

namespace Index

variable {i : Index} {d : Dir}

theorem slice_unmapped (h : i.mapped = false) (lo hi : UInt64) :
    i.slice d lo hi = .error .panic := by
  rw [slice, h]
  rfl

theorem entryAt_unmapped (h : i.mapped = false) (out : UInt32) :
    ∃ e, i.entryAt d out = .error e := by
  unfold entryAt
  by_cases hsize : i.size < out.toUInt64 * entryWidth + entryWidth
  · exact ⟨_, if_pos hsize⟩
  · simp only [if_neg hsize, slice_unmapped h]
    exact ⟨_, rfl⟩

theorem read_unmapped (h : i.mapped = false) (n : Int64) : ∃ e, i.read d n = .error e := by
  unfold read
  split
  · exact ⟨_, rfl⟩
  · split <;> exact entryAt_unmapped h _

theorem write_unmapped (h : i.mapped = false) (off : UInt32) (pos : UInt64) :
    ∃ e, i.write d off pos = (.error e, i, d) := by
  unfold write
  split
  · exact ⟨_, rfl⟩
  · simp only [slice_unmapped h]
    exact ⟨_, rfl⟩

theorem close_unmapped (h : i.mapped = false) : ∃ e, i.close d = (.error e, i, d) := by
  unfold close
  split
  · exact ⟨_, rfl⟩
  · rw [h]
    exact ⟨_, rfl⟩

theorem close_unmaps {i' : Index} {d' : Dir} (h : i.close d = (.ok (), i', d')) :
    i'.mapped = false := by
  unfold close at h
  split at h
  · cases h
  · split at h
    · cases h
    · simp only at h
      split at h
      · cases h
      · cases h
        rfl

end Index

/-! ## Stores that have been closed -/

namespace Store

variable {s : Store} {d : Dir}

/-- The frame of `p` does not fit into what is left of the buffer. A closed
store takes it only if it does. -/
def Refuses (E : Env) (s : Store) (p : Bytes) : Prop :=
  s.failed = true ∨ E.spill s.buf.length lenWidth ≠ 0 ∨
    E.spill (s.buf.length + lenWidth) p.length ≠ 0

instance (E : Env) (s : Store) (p : Bytes) : Decidable (s.Refuses E p) := by
  unfold Refuses
  infer_instance

theorem write_refused (h : s.closed = true) {E : Env} {p : Bytes} (hne : s.buf ++ p ≠ [])
    (hr : s.failed = true ∨ E.spill s.buf.length p.length ≠ 0) :
    ∃ st, s.write E d p = (.error (.err .closed), st, d) ∧ st.closed = true ∧
      st.size = s.size := by
  unfold write
  by_cases hfailed : s.failed = true
  · exact ⟨s, if_pos hfailed, h, rfl⟩
  · have hk := hr.resolve_left hfailed
    have hout : (s.buf ++ p).take (E.spill s.buf.length p.length) ≠ [] := by
      rw [ne_eq, List.take_eq_nil_iff, not_or]
      exact ⟨hk, hne⟩
    refine ⟨{ s with failed := true }, ?_, h, rfl⟩
    simp only [if_neg hfailed, output, if_neg hout, if_pos h]

theorem write_buffered {E : Env} {p : Bytes} (hfailed : s.failed = false)
    (hk : E.spill s.buf.length p.length = 0) :
    s.write E d p = (.ok (), { s with buf := s.buf ++ p }, d) := by
  simp only [write, hfailed, hk, List.take_zero, List.drop_zero, output, if_true,
    Bool.false_eq_true, if_false]

theorem append_refused (h : s.closed = true) {E : Env} {p : Bytes} (hr : s.Refuses E p) :
    ∃ st, s.append E d p = (.error (.err .closed), st, d) ∧ st.closed = true ∧
      st.size = s.size := by
  have hlen : (putUint64 (UInt64.ofNat p.length)).length = lenWidth := length_putUint64 _
  have hne : ∀ bs : Bytes, bs ++ putUint64 (UInt64.ofNat p.length) ≠ [] := by
    intro bs hnil
    rw [(List.append_eq_nil_iff.mp hnil).2] at hlen
    cases hlen
  by_cases hfirst : s.failed = true ∨ E.spill s.buf.length lenWidth ≠ 0
  · obtain ⟨st, hw, hst⟩ := write_refused (d := d) h (hne s.buf) (by rw [hlen]; exact hfirst)
    exact ⟨st, by simp only [append, hw], hst⟩
  · obtain ⟨hfailed, hk⟩ := not_or.mp hfirst
    have hw := write_buffered (d := d) (E := E) (p := putUint64 (UInt64.ofNat p.length))
      (eq_false_of_ne_true hfailed) (by rw [hlen]; exact not_ne_iff.mp hk)
    have hsecond : E.spill (s.buf.length + lenWidth) p.length ≠ 0 :=
      (hr.resolve_left hfailed).resolve_left hk
    obtain ⟨st, hw', hst⟩ := write_refused
      (s := { s with buf := s.buf ++ putUint64 (UInt64.ofNat p.length) }) (d := d) (E := E)
      (p := p) h (fun hnil => hne _ (List.append_eq_nil_iff.mp hnil).1)
      (.inr (by rw [List.length_append, hlen]; exact hsecond))
    exact ⟨st, by simp only [append, hw, hw'], hst⟩

theorem append_buffered {E : Env} {p : Bytes} (hr : ¬ s.Refuses E p) :
    s.append E d p = (.ok (UInt64.ofNat (p.length + lenWidth), s.size), { s with
      buf := s.buf ++ putUint64 (UInt64.ofNat p.length) ++ p
      size := s.size + UInt64.ofNat (p.length + lenWidth) }, d) := by
  have hlen : (putUint64 (UInt64.ofNat p.length)).length = lenWidth := length_putUint64 _
  simp only [Refuses, not_or, ne_eq, not_not, Bool.not_eq_true] at hr
  obtain ⟨hfailed, hk, hk'⟩ := hr
  have hw := write_buffered (d := d) (E := E) (p := putUint64 (UInt64.ofNat p.length)) hfailed
    (by rw [hlen]; exact hk)
  have hw' := write_buffered (s := { s with buf := s.buf ++ putUint64 (UInt64.ofNat p.length) })
    (d := d) (E := E) (p := p) hfailed (by rw [List.length_append, hlen]; exact hk')
  simp only [append, hw, hw']

theorem append_closed (h : s.closed = true) (E : Env) (p : Bytes) :
    ∃ res st, s.append E d p = (res, st, d) ∧ st.closed = true := by
  by_cases hr : s.Refuses E p
  · obtain ⟨st, happ, hst, -⟩ := append_refused (d := d) h hr
    exact ⟨_, st, happ, hst⟩
  · exact ⟨_, _, append_buffered hr, h⟩

theorem flush_closed (h : s.closed = true) :
    ∃ res st, s.flush d = (res, st, d) ∧ st.closed = true := by
  unfold flush output
  by_cases hfailed : s.failed = true
  · exact ⟨_, s, if_pos hfailed, h⟩
  · by_cases hbuf : s.buf = []
    · simp only [hfailed, hbuf, if_true, Bool.false_eq_true, if_false]
      exact ⟨_, _, rfl, h⟩
    · simp only [hfailed, hbuf, h, if_true, Bool.false_eq_true, if_false]
      exact ⟨_, _, rfl, rfl⟩

/-- A read of nothing may go through, any other is refused. -/
theorem readAt_closed (h : s.closed = true) (n off : Nat) :
    ∃ res st, s.readAt d n off = (res, st, d) ∧ st.closed = true ∧
      ∀ bs, res ≠ .ok (bs, some .eof) := by
  obtain ⟨res, st, hfl, hst⟩ := flush_closed (d := d) h
  unfold readAt
  rw [hfl]
  cases res with
  | error e => exact ⟨_, st, rfl, hst, nofun⟩
  | ok _ =>
      refine ⟨_, st, rfl, hst, fun bs heq => ?_⟩
      simp only [fileReadAt, hst, if_true] at heq
      split at heq <;> cases heq

theorem close_closes {s' : Store} {d' : Dir} (h : s.close d = (.ok (), s', d')) :
    s'.closed = true := by
  rcases hfl : s.flush d with ⟨e | _, st, d₁⟩
  · simp only [close, hfl] at h
    cases h
  · simp only [close, hfl] at h
    split at h
    · cases h
    · cases h
      rfl

end Store

/-! ## Segments -/

namespace Segment

variable {s : Segment} {d : Dir}

theorem append_unmapped (h : s.index.mapped = false) (hclosed : s.store.closed = true) (E : Env)
    (record : Option Record) :
    ∃ e st, s.append E d record = (.error e, { s with store := st }, d) ∧ st.closed = true := by
  cases record with
  | none => exact ⟨.panic, s.store, rfl, hclosed⟩
  | some r =>
      obtain ⟨res, st, happ, hst⟩ := Store.append_closed (d := d) hclosed E
        (E.marshal { r with offset := s.nextOffset })
      rcases res with e | ⟨_, pos⟩
      · exact ⟨e, st, by simp only [append, happ], hst⟩
      · obtain ⟨e, hw⟩ := Index.write_unmapped (d := d) h
          (s.nextOffset - s.baseOffset).toUInt32 pos
        exact ⟨e, st, by simp only [append, happ, hw], hst⟩

theorem read_unmapped (h : s.index.mapped = false) (E : Env) (off : UInt64) :
    ∃ e, s.read E d off = (.error e, s, d) := by
  obtain ⟨e, hread⟩ := Index.read_unmapped (d := d) h (off - s.baseOffset).toInt64
  exact ⟨e, by simp only [read, hread]⟩

theorem close_unmapped (h : s.index.mapped = false) : ∃ e, s.close d = (.error e, s, d) := by
  obtain ⟨e, hclose⟩ := Index.close_unmapped (d := d) h
  exact ⟨e, by simp only [close, hclose]⟩

theorem remove_unmapped (h : s.index.mapped = false) : ∃ e, s.remove d = (.error e, s, d) := by
  obtain ⟨e, hclose⟩ := close_unmapped (d := d) h
  exact ⟨e, by simp only [remove, hclose]⟩

theorem close_unmaps {s' : Segment} {d' : Dir} (h : s.close d = (.ok (), s', d')) :
    s'.index.mapped = false ∧ s'.store.closed = true := by
  rcases hindex : s.index.close d with ⟨e | _, i, d₁⟩
  · simp only [close, hindex] at h
    cases h
  · rcases hstore : s.store.close d₁ with ⟨res, st, d₂⟩
    simp only [close, hindex, hstore] at h
    cases h
    exact ⟨Index.close_unmaps hindex, Store.close_closes hstore⟩

end Segment

/-! ## Logs -/

namespace Log

/-- Every segment has been closed, the active one too. -/
structure Unmapped (l : Log) : Prop where
  attached : l.detached = none
  nonempty : l.segments ≠ []
  segments : ∀ s ∈ l.segments, s.index.mapped = false
  stores : ∀ s ∈ l.segments, s.store.closed = true

variable {l : Log} {d : Dir}

theorem closeAll_unmaps : ∀ {ss ss' : List Segment} {d d' : Dir},
    closeAll d ss = (.ok (), ss', d') → ss'.length = ss.length ∧
      ∀ s ∈ ss', s.index.mapped = false ∧ s.store.closed = true
  | [], _, _, _, h => by
      cases h
      exact ⟨rfl, nofun⟩
  | t :: ss, ss', d, d', h => by
      rw [closeAll] at h
      rcases ht : t.close d with ⟨e | _, t', d₁⟩
      · rw [ht] at h
        cases h
      · rw [ht] at h
        rcases hss : closeAll d₁ ss with ⟨res, ss₁, d₂⟩
        simp only [hss] at h
        cases h
        obtain ⟨hlen, hall⟩ := closeAll_unmaps hss
        refine ⟨by rw [List.length_cons, hlen, List.length_cons], fun s hs => ?_⟩
        rcases List.mem_cons.mp hs with rfl | hs
        · exact Segment.close_unmaps ht
        · exact hall s hs

namespace Unmapped

theorem setActive_eq (h : l.Unmapped) (s : Segment) :
    l.setActive s = { l with segments := l.segments.dropLast ++ [s] } := by
  rw [Log.setActive, h.attached]

theorem setActive (h : l.Unmapped) {s : Segment} (hs : s.index.mapped = false)
    (hclosed : s.store.closed = true) : (l.setActive s).Unmapped := by
  have hmem : ∀ {t : Segment}, t ∈ l.segments.dropLast ++ [s] → t ∈ l.segments ∨ t = s := by
    intro t ht
    rcases List.mem_append.mp ht with ht | ht
    · exact .inl (List.dropLast_subset _ ht)
    · exact .inr (List.mem_singleton.mp ht)
  rw [h.setActive_eq]
  refine ⟨h.attached, by simp, fun t ht => ?_, fun t ht => ?_⟩
  · rcases hmem ht with ht | rfl
    · exact h.segments t ht
    · exact hs
  · rcases hmem ht with ht | rfl
    · exact h.stores t ht
    · exact hclosed

theorem active (h : l.Unmapped) {s : Segment} (hact : l.activeSegment = some s) :
    s.index.mapped = false ∧ s.store.closed = true := by
  rw [activeSegment, h.attached] at hact
  exact ⟨h.segments s (List.mem_of_getLast? hact), h.stores s (List.mem_of_getLast? hact)⟩

theorem append (h : l.Unmapped) (E : Env) (record : Option Record) :
    ∃ e l', l.append E d record = (.error e, l', d) ∧ l'.Unmapped := by
  unfold Log.append
  cases hact : l.activeSegment with
  | none => exact ⟨.panic, l, rfl, h⟩
  | some s =>
      obtain ⟨hs, hclosed⟩ := h.active hact
      obtain ⟨e, st, happ, hst⟩ := Segment.append_unmapped (d := d) hs hclosed E record
      exact ⟨e, l.setActive { s with store := st }, by simp only [happ],
        h.setActive (s := { s with store := st }) hs hst⟩

theorem readIn (E : Env) (off : UInt64) : ∀ {ss : List Segment},
    (∀ s ∈ ss, s.index.mapped = false) → ∃ e, Log.readIn E d off ss = (.error e, ss, d)
  | [], _ => ⟨_, rfl⟩
  | s :: ss, h => by
      rw [Log.readIn]
      split
      · obtain ⟨e, hread⟩ := Segment.read_unmapped (d := d) (h s List.mem_cons_self) E off
        exact ⟨e, by rw [hread]⟩
      · obtain ⟨e, hread⟩ := readIn E off fun t ht => h t (List.mem_cons_of_mem _ ht)
        exact ⟨e, by rw [hread]⟩

theorem read (h : l.Unmapped) (E : Env) (off : UInt64) :
    ∃ e, l.read E d off = (.error e, l, d) := by
  obtain ⟨e, hread⟩ := readIn (d := d) E off h.segments
  exact ⟨e, by rw [Log.read, hread]⟩

theorem close (h : l.Unmapped) : ∃ e, l.close d = (.error e, l, d) := by
  obtain ⟨s, ss, hseg⟩ := List.exists_cons_of_ne_nil h.nonempty
  obtain ⟨e, hs⟩ := Segment.close_unmapped (d := d) (h.segments s (by rw [hseg]; simp))
  refine ⟨e, ?_⟩
  simp only [Log.close, hseg, closeAll, hs]
  rw [← hseg]

/-- A reset fails once more, and opens nothing. -/
theorem reset (h : l.Unmapped) : ∃ e, l.reset d = (.error e, l, d) := by
  obtain ⟨e, hclose⟩ := h.close (d := d)
  exact ⟨e, by simp only [Log.reset, Log.remove, hclose]⟩

/-- A truncation that returns nil has found nothing to remove. -/
theorem truncateAll (lowest : UInt64) : ∀ {ss : List Segment} {ps : List (Segment × Bool)}
    {d d' : Dir}, (∀ s ∈ ss, s.index.mapped = false) →
    Log.truncateAll lowest d ss = (.ok (), ps, d') → ps = ss.map (·, true) ∧ d' = d
  | [], ps, d, d', _, h => by
      cases h
      exact ⟨rfl, rfl⟩
  | s :: ss, ps, d, d', hss, h => by
      rw [Log.truncateAll] at h
      split at h
      · obtain ⟨e, hrem⟩ := Segment.remove_unmapped (d := d) (hss s List.mem_cons_self)
        rw [hrem] at h
        cases h
      · rcases hrest : Log.truncateAll lowest d ss with ⟨res, ps', d₁⟩
        rw [hrest] at h
        cases h
        obtain ⟨rfl, rfl⟩ :=
          truncateAll lowest (fun t ht => hss t (List.mem_cons_of_mem _ ht)) hrest
        exact ⟨rfl, rfl⟩

theorem truncate (h : l.Unmapped) {lowest : UInt64} {l' : Log} {d' : Dir}
    (htr : l.truncate d lowest = (.ok (), l', d')) : l' = l ∧ d' = d := by
  unfold Log.truncate at htr
  rcases hall : Log.truncateAll lowest d l.segments with ⟨_ | _, ps, d₁⟩
  · rw [hall] at htr
    cases htr
  · obtain ⟨rfl, rfl⟩ := truncateAll lowest h.segments hall
    rw [hall] at htr
    have hgone : ((l.segments.map (·, true)).getLast?.bind fun p : Segment × Bool =>
        if p.2 then none else some p.1) = none := by
      rw [List.getLast?_map]
      cases l.segments.getLast? <;> rfl
    have hkept : ((l.segments.map (·, true)).filter (·.2)).map (·.1) = l.segments := by
      rw [List.filter_eq_self.mpr (by simp), List.map_map]
      exact List.map_id _
    simp only [hgone, hkept] at htr
    obtain ⟨config, segments, detached⟩ := l
    obtain rfl : detached = none := h.attached
    cases htr
    exact ⟨rfl, rfl⟩

theorem setStore (h : l.Unmapped) {i : Nat} {s : Segment} (hs : l.segments[i]? = some s)
    {st : Store} (hst : st.closed = true) : (l.setStore i st).Unmapped := by
  refine ⟨h.attached, ?_, fun t ht => ?_, fun t ht => ?_⟩
  · exact List.ne_nil_of_mem (List.mem_of_getElem? (Log.getElem?_setStore hs st))
  · rcases Log.mem_setStore hs ht with ht | rfl
    · exact h.segments t ht
    · exact h.segments s (List.mem_of_getElem? hs)
  · rcases Log.mem_setStore hs ht with ht | rfl
    · exact h.stores t ht
    · exact hst

/-- No read gets a reader that has anything to read to its end. -/
theorem read_reader (h : l.Unmapped) (n : Nat) {rd : Reader} (hne : rd ≠ []) :
    ∃ res rd' l', Reader.read n rd l d = (res, rd', l', d) ∧ l'.Unmapped ∧ rd' ≠ [] ∧
      ∀ bs, res ≠ .ok (bs, some .eof) := by
  obtain ⟨⟨i, off⟩, rs, rfl⟩ := List.exists_cons_of_ne_nil hne
  rw [Reader.read]
  split
  · exact ⟨_, _, l, rfl, h, by simp, by simp⟩
  · next s hs =>
    obtain ⟨res, st, hread, hst, heof⟩ := Store.readAt_closed (d := d)
      (h.stores s (List.mem_of_getElem? hs)) n off
    rw [hread]
    rcases res with e | ⟨bs, _ | e⟩
    · exact ⟨_, _, _, rfl, h.setStore hs hst, by simp, by simp⟩
    · exact ⟨_, _, _, rfl, h.setStore hs hst, by simp, by simp⟩
    · cases e with
      | eof => exact absurd rfl (heof bs)
      | _ => exact ⟨_, _, _, rfl, h.setStore hs hst, by simp, by simp⟩

theorem readerRead (h : l.Unmapped) (n : Nat) (rd : Reader) :
    (Reader.read n rd l d).2.2.1.Unmapped ∧ (Reader.read n rd l d).2.2.2 = d := by
  cases rd with
  | nil => exact ⟨h, rfl⟩
  | cons p rs =>
      obtain ⟨_, _, _, hread, h', -⟩ := h.read_reader (d := d) n (List.cons_ne_nil p rs)
      rw [hread]
      exact ⟨h', rfl⟩

theorem not_drain {rd : Reader} {out : Bytes} {l' : Log} {d' : Dir}
    (hdrain : Reader.Drain rd l d out l' d') (h : l.Unmapped) : rd = [] := by
  by_contra hne
  induction hdrain with
  | @done n rd _ l _ d _ bs hread =>
      obtain ⟨res, _, _, hread', -, -, heof⟩ := h.read_reader (d := d) n hne
      rw [hread, Prod.mk.injEq] at hread'
      exact heof bs hread'.1.symm
  | @more n rd rd₁ l l₁ _ d d₁ _ _ _ hread hrest ih =>
      obtain ⟨_, _, _, hread', h₁, hne₁, -⟩ := h.read_reader (d := d) n hne
      rw [hread, Prod.mk.injEq, Prod.mk.injEq, Prod.mk.injEq] at hread'
      obtain ⟨-, rfl, rfl, rfl⟩ := hread'
      exact ih h₁ hne₁

end Unmapped

/-- The first reset closes everything before it fails. -/
theorem Sound.reset {c : Config} (h : l.Sound c d) (hc : c.Mappable) (hne : l.segments ≠ [])
    (base : UInt64) :
    ∃ l', Log.reset { l with config := { l.config with initialOffset := base } } d =
      (.error (.err .notExist), l', Directory.absent) ∧ l'.Unmapped := by
  obtain ⟨ss', d', hclose, -⟩ :=
    closeAll_limited hc (d := d) fun s hs => (h.segments s hs).toOpen
  obtain ⟨hlen, hunmaps⟩ := closeAll_unmaps hclose
  have hne' : ss' ≠ [] := by
    rw [← List.length_pos_iff, hlen, List.length_pos_iff]
    exact hne
  refine ⟨{ l with segments := ss', config := { l.config with initialOffset := base } }, ?_,
    h.attached, hne', fun s hs => (hunmaps s hs).1, fun s hs => (hunmaps s hs).2⟩
  simp only [Log.reset, Log.remove, Log.close, hclose]
  rfl

end Log

/-! ## The state machine -/

namespace Fsm

/-- What raft and the clients of a replica ask for, and what they get. A
snapshot reads through a reader with some buffer. -/
inductive Event where
  | apply (data : Bytes) (res : Result Response)
  | read (off : UInt64) (res : Result Record)
  | restore (stream : Bytes) (res : Result Unit)
  | readSnapshot (n : Nat) (rd : Reader)

inductive Step (E : Env) : LogState → Event → LogState → Prop where
  | apply {s s' : LogState} {data : Bytes} {res : Result Response} :
      apply E s.1 s.2 data = (res, s') → Step E s (.apply data res) s'
  | read {s s' : LogState} {off : UInt64} {res : Result Record} :
      s.1.read E s.2 off = (res, s') → Step E s (.read off res) s'
  | restore {s s' : LogState} {stream : Bytes} {res : Result Unit} :
      restore E s.1 s.2 stream = (res, s') → Step E s (.restore stream res) s'
  | readSnapshot {s : LogState} {n : Nat} {rd : Reader} :
      Step E s (.readSnapshot n rd) (Reader.read n rd s.1 s.2).2.2

/-- A record has been stored, or one has been returned. -/
def Event.Served : Event → Prop
  | .apply _ (.ok (.produced _)) => True
  | .read _ (.ok _) => True
  | _ => False

variable {E : Env} {l : Log} {d : Dir}

theorem apply_unmapped (h : l.Unmapped) (data : Bytes) :
    (∀ off, (apply E l d data).1 ≠ .ok (.produced off)) ∧ (apply E l d data).2.1.Unmapped := by
  cases data with
  | nil => exact ⟨by simp [apply], h⟩
  | cons reqType b =>
      rw [apply]
      split
      · unfold applyAppend
        cases E.unmarshalRequest b with
        | none => exact ⟨by simp, h⟩
        | some record =>
            obtain ⟨e, l', happ, h'⟩ := h.append (d := d) E record
            simp only [happ]
            cases e <;> exact ⟨by simp, h'⟩
      · exact ⟨by simp, h⟩

/-- The stream starts with a whole frame, and a record is in it. -/
def begins (E : Env) (stream : Bytes) : Bool :=
  match nextFrame stream with
  | .ok (some (p, _)) => (E.unmarshal p).isSome
  | _ => false

/-- Without a record to reset for, a restore does not touch the log. -/
theorem restore_of_not_begins {stream : Bytes} (h : begins E stream = false) (l : Log)
    (d : Dir) : (restore E l d stream).2 = (l, d) := by
  rw [restore, restoreLoop]
  rcases hnext : nextFrame stream with e | _ | ⟨p, rest⟩
  · rfl
  · rfl
  · rw [begins, hnext, Option.isSome_eq_false_iff, Option.isNone_iff_eq_none] at h
    simp only [h]

theorem restore_of_begins {stream : Bytes} (h : begins E stream = true) (l : Log) (d : Dir) :
    ∃ record, restore E l d stream = resetTo l d record := by
  rcases hnext : nextFrame stream with e | _ | ⟨p, rest⟩
  · rw [begins, hnext] at h
    cases h
  · rw [begins, hnext] at h
    cases h
  · rw [begins, hnext] at h
    obtain ⟨record, hrecord⟩ := Option.isSome_iff_exists.mp h
    obtain ⟨e, l', d', hreset⟩ := Log.reset_fails
      { l with config := { l.config with initialOffset := record.offset } } d
    exact ⟨record, by simp only [restore, restoreLoop, hnext, hrecord, if_true, resetTo, hreset]⟩

theorem restore_unmapped (h : l.Unmapped) (stream : Bytes) :
    ∃ res l', restore E l d stream = (res, l', d) ∧ l'.Unmapped := by
  cases hb : begins E stream with
  | false => exact ⟨_, l, Prod.ext rfl (restore_of_not_begins hb l d), h⟩
  | true =>
      obtain ⟨record, hrestore⟩ := restore_of_begins hb l d
      have hl : Log.Unmapped
          { l with config := { l.config with initialOffset := record.offset } } :=
        ⟨h.attached, h.nonempty, h.segments, h.stores⟩
      obtain ⟨e, hreset⟩ := hl.reset (d := d)
      exact ⟨_, _, hrestore.trans hreset, hl⟩

theorem step_unmapped {s s' : LogState} {e : Event} (h : s.1.Unmapped) (hstep : Step E s e s') :
    s'.1.Unmapped ∧ ¬ e.Served := by
  cases hstep with
  | @apply _ data res happ =>
      obtain ⟨hres, h'⟩ := apply_unmapped (E := E) (d := s.2) h data
      rw [happ] at hres h'
      refine ⟨h', fun hserved => ?_⟩
      rcases res with _ | _ | _ | _
      · exact hserved
      · exact hres _ rfl
      · exact hserved
      · exact hserved
  | @read _ off res hread =>
      obtain ⟨e, herr⟩ := h.read (d := s.2) E off
      rw [hread, Prod.mk.injEq] at herr
      obtain ⟨rfl, rfl⟩ := herr
      exact ⟨h, id⟩
  | @restore _ stream res hrestore =>
      obtain ⟨_, _, hrestore', h'⟩ := restore_unmapped (E := E) (d := s.2) h stream
      rw [hrestore, Prod.mk.injEq] at hrestore'
      obtain ⟨-, rfl⟩ := hrestore'
      exact ⟨h', id⟩
  | readSnapshot => exact ⟨(h.readerRead _ _).1, id⟩

theorem restore_of_sound {c : Config} (hsound : l.Sound c d) (hc : c.Mappable)
    (hne : l.segments ≠ []) {stream : Bytes} (hb : begins E stream = true) :
    ∃ l', restore E l d stream = (.error (.err .notExist), l', Directory.absent) ∧
      l'.Unmapped := by
  obtain ⟨record, hrestore⟩ := restore_of_begins hb l d
  obtain ⟨l', hreset, hl'⟩ := hsound.reset hc hne record.offset
  exact ⟨l', hrestore.trans hreset, hl'⟩

/-- **A restore ends the service of a replica.** Whatever the log has been
through, a snapshot with a record is not restored, and whatever is asked of
the replica afterwards, it stores no record and returns none. -/
theorem restore_ends_service (E : Env) (c : Config) {s₀ s s' : LogState} {us : List Call}
    {es : List Event} (hnew : newLog Directory.empty c = (.ok (), s₀))
    (htr : Trace (Calls E c) s₀ us s) {stream p rest : Bytes} {record : Record}
    (hframe : nextFrame stream = .ok (some (p, rest))) (hrecord : E.unmarshal p = some record)
    (hlater : Trace (Step E) (restore E s.1 s.2 stream).2 es s') :
    (restore E s.1 s.2 stream).1 = .error (.err .notExist) ∧ ∀ e ∈ es, ¬ e.Served := by
  have hc := Config.mappable_of_newLog hnew
  obtain ⟨hsound, hne⟩ := Log.Sound.calls hc hnew htr
  have hb : begins E stream = true := by
    rw [begins, hframe]
    exact Option.isSome_iff_exists.mpr ⟨record, hrecord⟩
  obtain ⟨l', hrestore, hl'⟩ := restore_of_sound hsound hc hne hb
  rw [hrestore] at hlater
  exact ⟨by rw [hrestore], hlater.events (I := fun s => s.1.Unmapped) hl' fun _ _ _ h hstep =>
    step_unmapped h hstep⟩

/-- One record has been stored when a snapshot with one record arrives. -/
theorem trace_restored : ∃ s s',
    Trace (Calls goEnv ⟨64, 24, 0⟩) (newLog Directory.empty ⟨64, 24, 0⟩).2
      [.append ⟨[7], 0, 0, 0⟩ (.ok 0)] s ∧
    Trace (Step goEnv) (restore goEnv s.1 s.2 (frames goEnv 0 [⟨[8], 0, 0, 0⟩])).2
      [.read 0 (.error .panic),
        .apply (appendCommand goEnv ⟨[9], 0, 0, 0⟩) (.error .panic)] s' :=
  ⟨_, _, Trace.init.snoc (.append_of _ _ (by decide +kernel)),
    (Trace.init.snoc (.read (Prod.ext (by decide +kernel) rfl))).snoc
      (.apply (Prod.ext (by decide +kernel) rfl))⟩

theorem restore_ends_service_one_record : ∃ s s' es,
    Trace (Calls goEnv ⟨64, 24, 0⟩) (newLog Directory.empty ⟨64, 24, 0⟩).2
      [.append ⟨[7], 0, 0, 0⟩ (.ok 0)] s ∧
    (restore goEnv s.1 s.2 (frames goEnv 0 [⟨[8], 0, 0, 0⟩])).1 = .error (.err .notExist) ∧
    Trace (Step goEnv) (restore goEnv s.1 s.2 (frames goEnv 0 [⟨[8], 0, 0, 0⟩])).2 es s' ∧
    es = [.read 0 (.error .panic),
      .apply (appendCommand goEnv ⟨[9], 0, 0, 0⟩) (.error .panic)] ∧ ∀ e ∈ es, ¬ e.Served := by
  obtain ⟨s, s', htr, hlater⟩ := trace_restored
  have hnew : (newLog Directory.empty ⟨64, 24, 0⟩).1 = .ok () := by decide +kernel
  obtain ⟨hrestore, hnone⟩ := restore_ends_service goEnv ⟨64, 24, 0⟩ (Prod.ext hnew rfl) htr
    (by decide +kernel : nextFrame (frames goEnv 0 [⟨[8], 0, 0, 0⟩]) =
      .ok (some (goEnv.marshal ⟨[8], 0, 0, 0⟩, []))) (goEnv.unmarshal_marshal _) hlater
  exact ⟨s, s', _, htr, hrestore, hlater, rfl, hnone⟩

/-! ## A log over several processes -/

/-- What happens to the log of a state machine: a call, a read of a snapshot
that is being written, a snapshot that is to be restored, or the end of the
process at any time and a new one. -/
inductive Life where
  | call (u : Call)
  | readSnapshot (n : Nat) (rd : Reader)
  | restore (stream : Bytes)
  | restart

inductive Lives (E : Env) (c : Config) : LogState → Life → LogState → Prop where
  | call {s s' : LogState} {u : Call} : Calls E c s u s' → Lives E c s (.call u) s'
  | readSnapshot {s : LogState} (n : Nat) (rd : Reader) :
      Lives E c s (.readSnapshot n rd) (Reader.read n rd s.1 s.2).2.2
  | restore {s s' : LogState} {stream : Bytes} {res : Result Unit} :
      restore E s.1 s.2 stream = (res, s') → Lives E c s (.restore stream) s'
  | restart {s s' : LogState} : setupLog s.2 c = (.ok (), s') → Lives E c s .restart s'

/-- Whether the log is in working order afterwards, if it was before. -/
def Life.keeps (E : Env) (ok : Bool) : Life → Bool
  | .call _ | .readSnapshot _ _ => ok
  | .restore stream => ok && !begins E stream
  | .restart => true

/-- Since the log was last opened, no restore has come to a record. -/
def intact (E : Env) (es : List Life) : Bool := es.foldl (Life.keeps E) true

@[simp] theorem intact_snoc (es : List Life) (e : Life) :
    intact E (es ++ [e]) = e.keeps E (intact E es) := by
  simp [intact, List.foldl_append]

/-- What the run so far leaves: a log in working order, or closed segments
and no directory. -/
def Kept (c : Config) (s : LogState) : Bool → Prop
  | true => s.1.Sound c s.2 ∧ s.1.segments ≠ []
  | false => s.1.Unmapped ∧ s.2 = Directory.absent

theorem call_unmapped {c : Config} {s s' : LogState} {u : Call} (h : s.1.Unmapped)
    (hcall : Calls E c s u s') : s'.1.Unmapped ∧ s'.2 = s.2 := by
  cases hcall with
  | @append l l' d d' r res happ =>
      obtain ⟨e, l₁, happ₁, h₁⟩ := h.append (d := d) E (some r)
      rw [happ, Prod.mk.injEq, Prod.mk.injEq] at happ₁
      obtain ⟨-, rfl, rfl⟩ := happ₁
      exact ⟨h₁, rfl⟩
  | @read l l' d d' off res hread =>
      obtain ⟨e, hread₁⟩ := h.read (d := d) E off
      rw [hread, Prod.mk.injEq, Prod.mk.injEq] at hread₁
      obtain ⟨-, rfl, rfl⟩ := hread₁
      exact ⟨h, rfl⟩
  | @drain l l' d d' out hdrain =>
      have hnil := Log.Unmapped.not_drain hdrain h
      exact absurd (List.map_eq_nil_iff.mp hnil) (by simpa using h.nonempty)
  | truncate _ _ _ htr =>
      obtain ⟨rfl, rfl⟩ := h.truncate htr
      exact ⟨h, rfl⟩
  | reopen hclose _ =>
      obtain ⟨e, hclose₁⟩ := Log.Unmapped.close h
      rw [hclose, Prod.mk.injEq] at hclose₁
      cases hclose₁.1

theorem Kept.live {c : Config} (hc : c.withDefaults.Mappable) {s s' : LogState} {e : Life}
    {ok : Bool} (h : Kept c.withDefaults s ok) (hlive : Lives E c s e s') :
    Kept c.withDefaults s' (e.keeps E ok) := by
  cases hlive with
  | call hcall =>
      cases ok with
      | true => exact h.1.call hc h.2 hcall
      | false =>
          obtain ⟨h', hdir⟩ := call_unmapped h.1 hcall
          exact ⟨h', hdir.trans h.2⟩
  | readSnapshot n rd =>
      cases ok with
      | true => exact (Log.flushStable_sound c.withDefaults).readerRead n rd h
      | false =>
          obtain ⟨h', hdir⟩ := h.1.readerRead (d := s.2) n rd
          exact ⟨h', hdir.trans h.2⟩
  | @restore _ stream res hrestore =>
      cases ok with
      | true =>
          cases hb : begins E stream with
          | false =>
              have hsame : s' = s :=
                (congrArg Prod.snd hrestore).symm.trans (restore_of_not_begins hb s.1 s.2)
              simp only [Life.keeps, hb, hsame]
              exact h
          | true =>
              obtain ⟨l', hrestore', hl'⟩ := restore_of_sound h.1 hc h.2 hb
              rw [hrestore, Prod.mk.injEq] at hrestore'
              obtain ⟨-, rfl⟩ := hrestore'
              simp only [Life.keeps, hb]
              exact ⟨hl', rfl⟩
      | false =>
          obtain ⟨_, l', hrestore', hl'⟩ := restore_unmapped (E := E) (d := s.2) h.1 stream
          rw [hrestore, Prod.mk.injEq] at hrestore'
          obtain ⟨-, rfl⟩ := hrestore'
          exact ⟨hl', h.2⟩
  | restart hsetup =>
      have hdir : s.2.mkdirAll.present = true ∧
          Log.Limited c.withDefaults.maxIndexBytes.toNat s.2.mkdirAll := by
        cases ok with
        | true =>
            rw [Directory.mkdirAll, if_pos h.1.present]
            exact ⟨h.1.present, h.1.limited⟩
        | false =>
            rw [h.2]
            exact ⟨rfl, fun b f hf => by cases hf⟩
      obtain ⟨l', d', hnew, hsound, hne, -⟩ := newLog_sound hc hdir.1 hdir.2
      rw [setupLog, hnew, Prod.mk.injEq] at hsetup
      obtain ⟨-, rfl⟩ := hsetup
      exact ⟨hsound, hne⟩

theorem kept_run {c : Config} (hc : c.withDefaults.Mappable) {s₀ s : LogState} {es : List Life}
    (hnew : newLog Directory.empty c = (.ok (), s₀)) (htr : Trace (Lives E c) s₀ es s) :
    Kept c.withDefaults s (intact E es) := by
  induction htr with
  | init => exact Log.Sound.calls (E := E) hc hnew .init
  | snoc _ hlive ih =>
      rw [intact_snoc]
      exact ih.live hc hlive

end Fsm

end DistributedLog
