import DistributedLog.Uses
import Mathlib.Algebra.Order.BigOperators.Group.List

/-!
# Persisting a snapshot

`fsm.Snapshot` returns `Log.Reader`, and `snapshot.Persist` copies it to
raft's sink with `io.Copy`. A reader is an `io.MultiReader`, whose `WriteTo`
copies each sub-reader through its own `WriteTo` where there is one. There
is: `originReader` embeds `*store`, which embeds `*os.File`. So what is
copied is the file from its seek position on, without the buffer and
whatever the reader's offset.

Reading the same reader gives every byte, so the two agree only as long as
every store is as it was opened. `persist_eq_drain_iff` says when that is:
nothing has been appended since.
-/

namespace DistributedLog

/-- `os.File.WriteTo`. -/
def Store.writeTo (s : Store) (d : Dir) : Result Bytes × Store :=
  if s.closed then (.error (.err .closed), s)
  else
    let f := (d.content? s.name).getD []
    (.ok (f.drop s.seek), { s with seek := max s.seek f.length })

/-- `multiReader.WriteTo`: what it has written, and whether it failed. -/
def Reader.writeTo : Reader → Log → Dir → Result Unit × Bytes × Reader × Log
  | [], l, _ => (.ok (), [], [], l)
  | (i, off) :: rs, l, d =>
      match l.segments[i]? with
      | none => (.error .panic, [], (i, off) :: rs, l)
      | some s =>
          match s.store.writeTo d with
          | (.error e, st) => (.error e, [], (i, off) :: rs, l.setStore i st)
          | (.ok bs, st) =>
              match writeTo rs (l.setStore i st) d with
              | (r, out, rs, l) => (r, bs ++ out, rs, l)

namespace Snapshot

inductive SinkState where
  | writing
  | closed
  | cancelled
deriving DecidableEq, Repr

/-- `raft.SnapshotSink`. Writing to it does not fail. -/
structure Sink where
  written : Bytes
  state : SinkState
deriving DecidableEq, Repr

/-- `snapshot.Persist` into a fresh sink. -/
def persist (rd : Reader) (l : Log) (d : Dir) : Result Unit × Sink × Reader × Log :=
  match rd.writeTo l d with
  | (.error .panic, out, rd, l) => (.error .panic, ⟨out, .writing⟩, rd, l)
  | (.error (.err e), out, rd, l) => (.error (.err e), ⟨out, .cancelled⟩, rd, l)
  | (.ok _, out, rd, l) => (.ok (), ⟨out, .closed⟩, rd, l)

/-! ## What is copied and what is read -/

/-- The file behind a position. -/
def file (l : Log) (d : Dir) (i : Nat) : Bytes :=
  match l.segments[i]? with
  | none => []
  | some s => (d.content? s.store.name).getD []

/-- The part of it that `WriteTo` copies. -/
def unread (l : Log) (d : Dir) (i : Nat) : Bytes :=
  match l.segments[i]? with
  | none => []
  | some s => ((d.content? s.store.name).getD []).drop s.store.seek

variable {c : Config} {l : Log} {d : Dir} {rd : Reader}

theorem length_unread_le (l : Log) (d : Dir) (i : Nat) :
    (unread l d i).length ≤ (file l d i).length := by
  unfold unread file
  split
  · exact Nat.le_refl _
  · rw [List.length_drop]
    omega

theorem unread_setStore {i j : Nat} (hij : i ≠ j) (st : Store) :
    unread (l.setStore i st) d j = unread l d j := by
  simp only [unread, l.getElem?_setStore_of_ne hij]

theorem writeTo_eq (hl : l.Ready) (hv : Reader.Valid rd l) (hnd : (rd.map Prod.fst).Nodup) :
    ∃ l', rd.writeTo l d = (.ok (), rd.flatMap fun p => unread l d p.1, [], l') := by
  induction rd generalizing l with
  | nil => exact ⟨l, rfl⟩
  | cons p rs ih =>
      obtain ⟨i, off⟩ := p
      obtain ⟨s, hseg⟩ := hv.head
      have hs := hl s (List.mem_of_getElem? hseg)
      have hwrite : s.store.writeTo d =
          (.ok (((d.content? s.store.name).getD []).drop s.store.seek),
            { s.store with
              seek := max s.store.seek ((d.content? s.store.name).getD []).length }) := by
        simp only [Store.writeTo, hs.isOpen, Bool.false_eq_true, if_false]
      generalize hst : { s.store with
        seek := max s.store.seek ((d.content? s.store.name).getD []).length } = st at hwrite
      have hready : st.Ready := by
        rw [← hst]
        exact ⟨hs.isOpen, hs.sound⟩
      rw [List.map_cons, List.nodup_cons] at hnd
      obtain ⟨l', hrest⟩ := ih (hl.setStore i hready) (hv.tail.setStore i st) hnd.2
      refine ⟨l', ?_⟩
      have hothers : (rs.flatMap fun p => unread (l.setStore i st) d p.1) =
          rs.flatMap fun p => unread l d p.1 := by
        refine List.flatMap_congr fun q hq => unread_setStore ?_ st
        have hmem : q.1 ∈ rs.map Prod.fst := List.mem_map_of_mem hq
        rintro rfl
        exact hnd.1 hmem
      have hhead : unread l d i = ((d.content? s.store.name).getD []).drop s.store.seek := by
        simp only [unread, hseg]
      simp only [Reader.writeTo, hseg, hwrite, hrest, hothers, List.flatMap_cons, hhead]

/-- A log just opened: what is copied is what is read. -/
theorem rest_of_rewound (hl : l.Sound c d) (hrew : ∀ s ∈ l.segments, s.store.Rewound)
    (hv : Reader.Valid rd l) (hoff : ∀ p ∈ rd, p.2 = 0) :
    rd.rest l d = rd.flatMap fun p => unread l d p.1 := by
  induction rd with
  | nil => rfl
  | cons p rs ih =>
      obtain ⟨i, off⟩ := p
      obtain ⟨s, hseg⟩ := hv.head
      have hmem := List.mem_of_getElem? hseg
      have hfl := Store.flush_of_buf_nil (hl.segments s hmem).ready (hrew s hmem).1 d
      have hzero : off = 0 := hoff _ List.mem_cons_self
      have hhead : unread l d i = (d.content? s.store.name).getD [] := by
        simp only [unread, hseg, (hrew s hmem).2, List.drop_zero]
      simp only [Reader.rest, hseg, hfl, Log.setStore_self hseg, hzero, List.drop_zero,
        List.flatMap_cons, hhead]
      rw [ih hv.tail fun q hq => hoff q (List.mem_cons_of_mem _ hq)]

theorem length_file_flush {i j : Nat} {s : Segment} {st : Store} {d' : Dir} {M : Nat}
    (hl : l.Sound c d) (hseg : l.segments[i]? = some s) (hname : st.name = s.store.name)
    (he : Evolves M d d') : (file l d j).length ≤ (file (l.setStore i st) d' j).length := by
  have hgrow : ∀ t ∈ l.segments, ((d.content? t.store.name).getD []).length ≤
      ((d'.content? t.store.name).getD []).length := by
    intro t ht
    obtain ⟨f, hf⟩ := (hl.segments t ht).stored
    obtain ⟨x, hx⟩ := he.store _ f hf
    rw [(hl.segments t ht).storeName, hf, hx]
    simp
  by_cases hij : i = j
  · subst hij
    simp only [file, hseg, Log.getElem?_setStore hseg, hname]
    exact hgrow s (List.mem_of_getElem? hseg)
  · simp only [file, l.getElem?_setStore_of_ne hij]
    cases hj : l.segments[j]? with
    | none => exact Nat.zero_le _
    | some t => exact hgrow t (List.mem_of_getElem? hj)

/-- A flush leaves in the file what was there and what was buffered behind it. -/
theorem content_flush {s : Segment} {st : Store} {d' : Dir} {f : Bytes} (hs : s.Sound c d)
    (hf : d.content? (storeName s.baseOffset) = some f)
    (hfl : s.store.flush d = (.ok (), st, d')) :
    d'.content? s.store.name = some (f ++ s.store.buf) := by
  have hcarries : s.store.Carries d (f ++ s.store.buf) :=
    ⟨hs.ready.isOpen, hs.ready.sound, f, by rw [hs.storeName]; exact hf, rfl⟩
  obtain ⟨st', d'', hfl', -, hcont, -⟩ := Store.flush_spec hcarries
  rw [hfl, Prod.mk.injEq, Prod.mk.injEq] at hfl'
  obtain ⟨-, -, rfl⟩ := hfl'
  exact hcont

/-- Reading gives at least the files, and more if something is buffered. -/
theorem length_rest (hl : l.Sound c d) (hv : Reader.Valid rd l) (hoff : ∀ p ∈ rd, p.2 = 0) :
    (rd.map fun p => (file l d p.1).length).sum ≤ (rd.rest l d).length ∧
      ((∃ p ∈ rd, ∃ s, l.segments[p.1]? = some s ∧ s.store.buf ≠ []) →
        (rd.map fun p => (file l d p.1).length).sum < (rd.rest l d).length) := by
  induction rd generalizing l d with
  | nil => exact ⟨Nat.le_refl _, fun ⟨p, hp, _⟩ => by cases hp⟩
  | cons p rs ih =>
      obtain ⟨i, off⟩ := p
      obtain ⟨s, hseg⟩ := hv.head
      have hs := hl.segments s (List.mem_of_getElem? hseg)
      obtain ⟨f, hf⟩ := hs.stored
      obtain ⟨st, d', hfl, hst, he, -⟩ := Store.flush_sound hs.store c.maxIndexBytes.toNat
      have hname : st.name = s.store.name := hst.name.trans hs.storeName.symm
      obtain ⟨hl', -⟩ := hl.flush hseg hfl
      obtain ⟨hle, hlt⟩ := ih hl' (hv.tail.setStore i st)
        fun q hq => hoff q (List.mem_cons_of_mem _ hq)
      have hfiles : (rs.map fun p => (file l d p.1).length).sum ≤
          (rs.map fun p => (file (l.setStore i st) d' p.1).length).sum :=
        List.sum_le_sum fun q _ => length_file_flush hl hseg hname he
      have hhead : (d'.content? st.name).getD [] = f ++ s.store.buf := by
        rw [hname, content_flush hs hf hfl, Option.getD_some]
      have hfile : file l d i = f := by
        simp only [file, hseg, hs.storeName, hf, Option.getD_some]
      have hzero : off = 0 := hoff _ List.mem_cons_self
      have hrest : (Reader.rest ((i, off) :: rs) l d).length =
          f.length + s.store.buf.length + (Reader.rest rs (l.setStore i st) d').length := by
        simp only [Reader.rest, hseg, hfl, hzero, List.drop_zero, hhead, List.length_append]
      rw [List.map_cons, List.sum_cons, hrest, hfile]
      refine ⟨by omega, ?_⟩
      rintro ⟨p, hp, t, ht, hbuf⟩
      by_cases hsbuf : s.store.buf = []
      · have hne : p.1 ≠ i := by
          rintro rfl
          rw [hseg, Option.some.injEq] at ht
          exact hbuf (ht ▸ hsbuf)
        have hlt' := hlt ⟨p, (List.mem_cons.mp hp).resolve_left (by rintro rfl; exact hne rfl), t,
          by rw [l.getElem?_setStore_of_ne hne.symm]; exact ht, hbuf⟩
        omega
      · have hpos := List.length_pos_iff.mpr hsbuf
        omega

/-- After an append less is copied than is read. -/
theorem unread_ne_rest (hl : l.Sound c d) (hv : Reader.Valid rd l) (hoff : ∀ p ∈ rd, p.2 = 0)
    {p : Nat × Nat} (hp : p ∈ rd) {s : Segment} (hs : l.segments[p.1]? = some s)
    (hmiss : s.store.Misses d) : (rd.flatMap fun p => unread l d p.1) ≠ rd.rest l d := by
  intro heq
  have hlen := congrArg List.length heq
  rw [List.length_flatMap] at hlen
  obtain ⟨hle, hlt⟩ := length_rest hl hv hoff
  have hsum : (rd.map fun p => (unread l d p.1).length).sum ≤
      (rd.map fun p => (file l d p.1).length).sum :=
    List.sum_le_sum fun q _ => length_unread_le l d q.1
  rcases hmiss with hbuf | ⟨hseek, f, hf, hne⟩
  · have := hlt ⟨p, hp, s, hs, hbuf⟩
    omega
  · have hshort : (unread l d p.1).length < (file l d p.1).length := by
      have hpos := List.length_pos_iff.mpr hne
      simp only [unread, file, hs, hf, Option.getD_some, List.length_drop]
      omega
    have := List.sum_lt_sum (l := rd) (fun p => (unread l d p.1).length)
      (fun p => (file l d p.1).length) (fun q _ => length_unread_le l d q.1) ⟨p, hp, hshort⟩
    omega

/-! ## Runs -/

/-- Has anything been appended since the log was last opened? -/
def appended (us : List Use) : Bool :=
  us.foldl (fun b u => match u with
    | .append _ _ => true
    | .reopen => false
    | .read _ | .drain => b) false

/-- The stores are as they were opened, or one of them is not. -/
structure Marked (c : Config) (b : Bool) (l : Log) (d : Dir) : Prop where
  sound : l.Sound c d
  nonempty : l.segments ≠ []
  stores : if b then ∃ s ∈ l.segments, s.store.Misses d else ∀ s ∈ l.segments, s.store.Rewound

theorem flushStable_marked (c : Config) (b : Bool) : Reader.FlushStable (Marked c b) := by
  refine ⟨fun h => h.sound.ready, ?_⟩
  intro l d d' i s st h hseg hfl
  obtain ⟨hsound, he, hrew, hmiss⟩ := h.sound.flush hseg hfl
  refine ⟨hsound, l.setStore_ne_nil h.nonempty i st, ?_⟩
  have hstores := h.stores
  cases b with
  | false =>
      rw [if_neg Bool.false_ne_true] at hstores ⊢
      intro t ht
      rcases Log.mem_setStore hseg ht with ht | rfl
      · exact hstores t ht
      · exact hrew (hstores s (List.mem_of_getElem? hseg))
  | true =>
      rw [if_pos rfl] at hstores ⊢
      obtain ⟨t, ht, hm⟩ := hstores
      obtain ⟨j, hj⟩ := List.getElem?_of_mem ht
      by_cases hij : i = j
      · subst hij
        rw [hseg, Option.some.injEq] at hj
        subst hj
        exact ⟨_, List.mem_of_getElem? (Log.getElem?_setStore hseg st), hmiss hm⟩
      · refine ⟨t, List.mem_of_getElem? (i := j) ?_,
          hm.evolves (h.sound.segments t ht).storeName he⟩
        rw [l.getElem?_setStore_of_ne hij]
        exact hj

theorem marked_newLog {c : Config} {d d' : Dir} {l : Log} (hc : c.withDefaults.Mappable)
    (hd : d.present = true) (hlim : Log.Limited c.withDefaults.maxIndexBytes.toNat d)
    (hnew : newLog d c = (.ok (), l, d')) : Marked c.withDefaults false l d' := by
  obtain ⟨l₁, d₁, hnew₁, hsound, hne, -, hrew, -⟩ := newLog_sound hc hd hlim
  rw [hnew, Prod.mk.injEq, Prod.mk.injEq] at hnew₁
  obtain ⟨-, rfl, rfl⟩ := hnew₁
  exact ⟨hsound, hne, hrew⟩

theorem Marked.step {E : Env} {c : Config} (hc : c.withDefaults.Mappable) {s s' : LogState}
    {us : List Use} {u : Use} (h : Marked c.withDefaults (appended us) s.1 s.2)
    (huse : Uses E c s u s') : Marked c.withDefaults (appended (us ++ [u])) s'.1 s'.2 := by
  have hstable := flushStable_marked c.withDefaults (appended us)
  simp only [appended, List.foldl_append, List.foldl_cons, List.foldl_nil]
  cases huse with
  | append happ =>
      obtain ⟨hsound, hne, -, hmiss⟩ := h.sound.append_ok hc h.nonempty happ
      exact ⟨hsound, hne, hmiss⟩
  | read hread => exact hstable.read h hread
  | drain hdrain => exact (hdrain.gives hstable h (Reader.valid_reader _)).2
  | reopen hclose hnew =>
      obtain ⟨l₁, d₁, hclose₁, hpres, hlim⟩ := h.sound.close hc
      rw [hclose, Prod.mk.injEq, Prod.mk.injEq] at hclose₁
      obtain ⟨-, rfl, rfl⟩ := hclose₁
      exact marked_newLog hc hpres hlim hnew

theorem Marked.run {E : Env} {c : Config} (hc : c.withDefaults.Mappable) {s₀ s : LogState}
    (hnew : newLog Directory.empty c = (.ok (), s₀)) {us : List Use}
    (htr : Trace (Uses E c) s₀ us s) : Marked c.withDefaults (appended us) s.1 s.2 := by
  induction htr with
  | init => exact marked_newLog hc rfl (fun b f hf => by cases hf) hnew
  | snoc _ huse ih => exact ih.step hc huse

/-- However it is cut into reads, a drain of the reader gives `rest`. -/
theorem drain_iff {l : Log} {d : Dir} (hready : l.Ready) (out : Bytes) :
    (∃ l' d', Reader.Drain l.reader l d out l' d') ↔ out = l.reader.rest l d := by
  constructor
  · rintro ⟨l', d', hdrain⟩
    exact (hdrain.gives Reader.flushStable_ready hready (Reader.valid_reader l)).1
  · rintro rfl
    exact Reader.exists_drain hready (Reader.valid_reader l)

theorem persist_eq {l : Log} {d : Dir} (hready : l.Ready) :
    (persist l.reader l d).2.1 = ⟨l.reader.flatMap fun p => unread l d p.1, .closed⟩ := by
  obtain ⟨l', hwrite⟩ := writeTo_eq (d := d) hready (Reader.valid_reader l)
    (by rw [l.reader_positions]; exact List.nodup_range)
  simp only [persist, hwrite]

/-- **When the snapshot is the log.** In every state of every run a drain of
the reader gives the same bytes; persisting the reader writes them exactly
if nothing has been appended since the log was last opened. -/
theorem persist_eq_drain_iff (E : Env) (c : Config) {s₀ : LogState} {us : List Use} {l : Log}
    {d : Dir} (hnew : newLog Directory.empty c = (.ok (), s₀))
    (htr : Trace (Uses E c) s₀ us (l, d)) :
    ∃ out, (∀ out', (∃ l' d', Reader.Drain l.reader l d out' l' d') ↔ out' = out) ∧
      ((persist l.reader l d).2.1 = ⟨out, .closed⟩ ↔ appended us = false) := by
  have hmark : Marked c.withDefaults (appended us) l d :=
    Marked.run (Config.mappable_of_newLog hnew) hnew htr
  have hready := (flushStable_marked _ _).ready hmark
  have hvalid := Reader.valid_reader l
  have hstores := hmark.stores
  refine ⟨l.reader.rest l d, drain_iff hready, ?_⟩
  rw [persist_eq hready, Sink.mk.injEq]
  cases happ : appended us with
  | false =>
      rw [happ, if_neg Bool.false_ne_true] at hstores
      simp only [and_true, iff_true]
      exact (rest_of_rewound hmark.sound hstores hvalid l.reader_offsets).symm
  | true =>
      rw [happ, if_pos rfl] at hstores
      obtain ⟨s, hs, hmiss⟩ := hstores
      obtain ⟨i, hi⟩ := List.getElem?_of_mem hs
      have hlt : i < l.segments.length := (List.getElem?_eq_some_iff.mp hi).1
      have hp : (i, 0) ∈ l.reader := List.mem_map.mpr ⟨i, List.mem_range.mpr hlt, rfl⟩
      simp only [and_true, Bool.true_eq_false, iff_false]
      exact unread_ne_rest hmark.sound hvalid l.reader_offsets hp hi hmiss

/-- One record, and the log is reopened: all of it is persisted. -/
theorem persist_eq_drain_reopened :
    ∃ us l d out, Trace (Uses goEnv ⟨64, 24, 0⟩) (newLog Directory.empty ⟨64, 24, 0⟩).2 us (l, d) ∧
      us = [.append ⟨[7], 0, 0, 0⟩ 0, .reopen] ∧ out ≠ [] ∧
      (∃ l' d', Reader.Drain l.reader l d out l' d') ∧
      (persist l.reader l d).2.1 = ⟨out, .closed⟩ := by
  have hnew : (newLog Directory.empty ⟨64, 24, 0⟩).1 = .ok () := by decide +kernel
  have h₁ : Trace (Uses goEnv ⟨64, 24, 0⟩) (newLog Directory.empty ⟨64, 24, 0⟩).2 _ _ :=
    Trace.init.snoc (.append_of ⟨[7], 0, 0, 0⟩ 0 (by decide +kernel))
  have h₂ := h₁.snoc (.reopen_of (by decide +kernel) (by decide +kernel))
  obtain ⟨out, hdrain, hiff⟩ := persist_eq_drain_iff goEnv _ (Prod.ext hnew rfl) h₂
  have hsink := hiff.mpr (by decide)
  refine ⟨_, _, _, out, h₂, rfl, ?_, (hdrain out).mpr rfl, hsink⟩
  rintro rfl
  exact absurd hsink (by decide +kernel)

/-- One record in a new log: a drain gives its frame, and nothing at all is
persisted. -/
theorem persist_one_record :
    let s₀ := (newLog Directory.empty ⟨64, 24, 0⟩).2
    let s := (s₀.1.append goEnv s₀.2 (some ⟨[7], 0, 0, 0⟩)).2
    (s₀.1.append goEnv s₀.2 (some ⟨[7], 0, 0, 0⟩)).1 = .ok 0 ∧
      (s.1.reader.read 4096 s.1 s.2).1 = .ok (frame [10, 1, 7], some .eof) ∧
      (persist s.1.reader s.1 s.2).1 = .ok () ∧
      (persist s.1.reader s.1 s.2).2.1 = ⟨[], .closed⟩ := by
  decide +kernel

end Snapshot

end DistributedLog
