import DistributedLog.Operations

/-!
# Reading the whole log

`Log.Reader` strings the stores of the segments together: an
`io.MultiReader` over one `originReader` for each. An `originReader` holds a
pointer to the live store and an offset, so a `Reader` here is a list of
positions in the list of segments, each with an offset; as long as no
segment is removed, positions and pointers agree.

`Reader.rest` is what a reader still has to give if nothing is appended in
the meantime. Every `Read`, with whatever buffer, gives a piece of it from
the front (`exists_gives`), so every drain gives the same bytes
(`Drain.gives`) and there is one (`exists_drain`).
-/

namespace DistributedLog

abbrev Reader := List (Nat × Nat)

/-- `Log.Reader`. -/
def Log.reader (l : Log) : Reader := (List.range l.segments.length).map (·, 0)

/-- The store of the segment at position `i` has changed. -/
def Log.setStore (l : Log) (i : Nat) (st : Store) : Log :=
  { l with segments := l.segments.modify i fun s => { s with store := st } }

namespace Reader

/-- `multiReader.Read` into a slice of `n` bytes. A sub-reader at its end is
dropped; `io.EOF` is passed on with the bytes of the last. -/
def read (n : Nat) : Reader → Log → Dir → Result (Bytes × Option Err) × Reader × Log × Dir
  | [], l, d => (.ok ([], some .eof), [], l, d)
  | (i, off) :: rs, l, d =>
      match l.segments[i]? with
      | none => (.error .panic, (i, off) :: rs, l, d)
      | some s =>
          match s.store.readAt d n off with
          | (.error e, st, d) => (.error e, (i, off) :: rs, l.setStore i st, d)
          | (.ok (bs, some .eof), st, d) =>
              if bs.isEmpty then read n rs (l.setStore i st) d
              else (.ok (bs, if rs.isEmpty then some .eof else none), rs, l.setStore i st, d)
          | (.ok (bs, err), st, d) =>
              (.ok (bs, err), (i, off + bs.length) :: rs, l.setStore i st, d)

/-- What is left to read. -/
def rest : Reader → Log → Dir → Bytes
  | [], _, _ => []
  | (i, off) :: rs, l, d =>
      match l.segments[i]? with
      | none => []
      | some s =>
          match s.store.flush d with
          | (_, st, d) => ((d.content? st.name).getD []).drop off ++ rest rs (l.setStore i st) d

/-- Reads, with buffers of any sizes, up to the one that returns `io.EOF`. -/
inductive Drain : Reader → Log → Dir → Bytes → Log → Dir → Prop where
  | done {n : Nat} {rd rd' : Reader} {l l' : Log} {d d' : Dir} {bs : Bytes} :
      read n rd l d = (.ok (bs, some .eof), rd', l', d') → Drain rd l d bs l' d'
  | more {n : Nat} {rd rd' : Reader} {l l' l'' : Log} {d d' d'' : Dir} {bs out : Bytes} :
      read n rd l d = (.ok (bs, none), rd', l', d') → Drain rd' l' d' out l'' d'' →
      Drain rd l d (bs ++ out) l'' d''

end Reader

/-! ## Stores in working order -/

namespace Store

structure Ready (s : Store) : Prop where
  isOpen : s.closed = false
  sound : s.failed = false

variable {s : Store} {d : Dir}

theorem flush_of_buf_nil (h : s.Ready) (hbuf : s.buf = []) (d : Dir) :
    s.flush d = (.ok (), s, d) := by
  obtain ⟨name, closed, failed, seek, buf, size⟩ := s
  obtain ⟨hopen, hsound⟩ := h
  simp only at hopen hsound hbuf
  subst hopen hsound hbuf
  rfl

theorem flush_of_buf (h : s.Ready) (hbuf : s.buf ≠ []) (d : Dir) :
    s.flush d = (.ok (), { s with
        buf := [], seek := (((d.modify s.name (· ++ s.buf)).content? s.name).getD []).length },
      d.modify s.name (· ++ s.buf)) := by
  simp only [flush, output, h.sound, h.isOpen, if_neg hbuf, Bool.false_eq_true, if_false]

/-- Flushing empties the buffer into the file; a second flush does nothing. -/
theorem flush_ready (h : s.Ready) (d : Dir) :
    ∃ st d', s.flush d = (.ok (), st, d') ∧ st.Ready ∧ st.name = s.name ∧
      st.flush d' = (.ok (), st, d') := by
  by_cases hbuf : s.buf = []
  · exact ⟨s, d, flush_of_buf_nil h hbuf d, h, rfl, flush_of_buf_nil h hbuf d⟩
  · refine ⟨_, _, flush_of_buf h hbuf d, ?_, rfl, ?_⟩
    · exact ⟨h.isOpen, h.sound⟩
    · exact flush_of_buf_nil (s := { s with buf := [], seek := _ }) ⟨h.isOpen, h.sound⟩ rfl _

end Store

/-! ## What a read gives -/

def Log.Ready (l : Log) : Prop := ∀ s ∈ l.segments, s.store.Ready

@[simp] theorem Log.length_setStore (l : Log) (i : Nat) (st : Store) :
    (l.setStore i st).segments.length = l.segments.length := by
  simp [Log.setStore]

theorem Log.setStore_ne_nil (l : Log) (h : l.segments ≠ []) (i : Nat) (st : Store) :
    (l.setStore i st).segments ≠ [] := by
  rw [← List.length_pos_iff, Log.length_setStore, List.length_pos_iff]
  exact h

theorem Log.Ready.setStore {l : Log} (h : l.Ready) (i : Nat) {st : Store} (hst : st.Ready) :
    (l.setStore i st).Ready := by
  intro s hs
  obtain ⟨j, hj⟩ := List.getElem?_of_mem hs
  rw [Log.setStore, List.getElem?_modify] at hj
  obtain ⟨s₀, hs₀, rfl⟩ := Option.map_eq_some_iff.mp hj
  split
  · exact hst
  · exact h s₀ (List.mem_of_getElem? hs₀)

theorem Log.setStore_setStore (l : Log) (i : Nat) (st st' : Store) :
    (l.setStore i st).setStore i st' = l.setStore i st' := by
  simp only [Log.setStore, List.modify_modify_eq]
  rfl

theorem Log.getElem?_setStore {l : Log} {i : Nat} {s : Segment} (h : l.segments[i]? = some s)
    (st : Store) : (l.setStore i st).segments[i]? = some { s with store := st } := by
  simp [Log.setStore, h]

theorem Log.getElem?_setStore_of_ne (l : Log) {i j : Nat} (h : i ≠ j) (st : Store) :
    (l.setStore i st).segments[j]? = l.segments[j]? := by
  simp [Log.setStore, h]

/-- Nothing happens when a store is set to what it is. -/
theorem Log.setStore_self {l : Log} {i : Nat} {s : Segment} (h : l.segments[i]? = some s) :
    l.setStore i s.store = l := by
  have hmod : l.segments.modify i (fun t => { t with store := s.store }) = l.segments := by
    refine List.ext_getElem? fun j => ?_
    rw [List.getElem?_modify]
    by_cases hij : i = j
    · subst hij
      simp [h]
    · simp [hij]
  rw [Log.setStore, hmod]

theorem Log.reader_positions (l : Log) :
    l.reader.map Prod.fst = List.range l.segments.length := by
  rw [Log.reader, List.map_map]
  exact List.map_id _

theorem Log.reader_offsets (l : Log) : ∀ p ∈ l.reader, p.2 = 0 := by
  intro p hp
  obtain ⟨i, -, rfl⟩ := List.mem_map.mp hp
  rfl

namespace Reader

/-- Every position is that of a segment. -/
def Valid (rd : Reader) (l : Log) : Prop := ∀ p ∈ rd, p.1 < l.segments.length

section valid

variable {l : Log} {rd : Reader} {i off : Nat}

theorem Valid.head (h : Valid ((i, off) :: rd) l) : ∃ s, l.segments[i]? = some s :=
  ⟨_, List.getElem?_eq_getElem (h _ List.mem_cons_self)⟩

theorem Valid.tail {p : Nat × Nat} (h : Valid (p :: rd) l) : Valid rd l :=
  fun q hq => h q (List.mem_cons_of_mem _ hq)

theorem Valid.seek (h : Valid ((i, off) :: rd) l) (off' : Nat) : Valid ((i, off') :: rd) l := by
  intro q hq
  rcases List.mem_cons.mp hq with rfl | hq
  · exact h (i, off) List.mem_cons_self
  · exact h.tail q hq

theorem Valid.setStore (h : Valid rd l) (i : Nat) (st : Store) : Valid rd (l.setStore i st) := by
  intro q hq
  rw [Log.length_setStore]
  exact h q hq

end valid

/-- What holds of log and directory before a store is flushed still holds
afterwards. Reading changes nothing else. -/
structure FlushStable (P : Log → Dir → Prop) : Prop where
  ready : ∀ {l : Log} {d : Dir}, P l d → l.Ready
  flush : ∀ {l : Log} {d d' : Dir} {i : Nat} {s : Segment} {st : Store}, P l d →
    l.segments[i]? = some s → s.store.flush d = (.ok (), st, d') → P (l.setStore i st) d'

theorem flushStable_ready : FlushStable fun l _ => l.Ready := by
  refine ⟨id, ?_⟩
  intro l d d' i s st hl hseg hfl
  obtain ⟨st', d'', hfl', hst, -⟩ := Store.flush_ready (hl s (List.mem_of_getElem? hseg)) d
  rw [hfl, Prod.mk.injEq, Prod.mk.injEq] at hfl'
  rw [hfl'.2.1]
  exact hl.setStore i hst

/-- A read does no more than flush, of whatever reader and whatever it
returns. -/
theorem FlushStable.readerRead {P : Log → Dir → Prop} (hP : FlushStable P) (n : Nat) :
    ∀ (rd : Reader) {l : Log} {d : Dir}, P l d →
      P (Reader.read n rd l d).2.2.1 (Reader.read n rd l d).2.2.2
  | [], _, _, h => h
  | (i, off) :: rs, l, d, h => by
      rw [Reader.read]
      split
      · exact h
      · next s hs =>
        obtain ⟨st, d', hfl, -⟩ := Store.flush_ready (hP.ready h s (List.mem_of_getElem? hs)) d
        have h' := hP.flush h hs hfl
        simp only [Store.readAt, hfl]
        generalize st.fileReadAt d' n off = got
        obtain ⟨bs, err⟩ := got
        split
        · next heq => cases heq
        · next heq =>
          cases heq
          split
          · exact hP.readerRead n rs h'
          · exact h'
        · next heq =>
          cases heq
          exact h'

section head

variable {l : Log} {d d' : Dir} {i off : Nat} {rs : Reader} {s : Segment} {st : Store} {f : Bytes}

/-! The first sub-reader has nothing left and the same call goes on to the
next, or it has less than was asked for, or it has enough. -/

theorem read_past {n : Nat} (hn : n ≠ 0) (hseg : l.segments[i]? = some s)
    (hfl : s.store.flush d = (.ok (), st, d')) (hst : st.Ready)
    (hf : (d'.content? st.name).getD [] = f) (hnil : f.drop off = []) :
    read n ((i, off) :: rs) l d = read n rs (l.setStore i st) d' := by
  have hfile := Store.fileReadAt_of_open hst.isOpen hf n off
  rw [hnil, List.take_nil, if_pos (by simpa using Nat.pos_of_ne_zero hn)] at hfile
  simp only [read, hseg, Store.readAt, hfl, hfile, List.isEmpty_nil, if_true]

theorem read_short {n : Nat} (hseg : l.segments[i]? = some s)
    (hfl : s.store.flush d = (.ok (), st, d')) (hst : st.Ready)
    (hf : (d'.content? st.name).getD [] = f) (hne : f.drop off ≠ [])
    (hshort : (f.drop off).length < n) :
    read n ((i, off) :: rs) l d =
      (.ok (f.drop off, if rs.isEmpty then some .eof else none), rs, l.setStore i st, d') := by
  have hfile := Store.fileReadAt_of_open hst.isOpen hf n off
  rw [if_pos hshort, List.take_of_length_le (Nat.le_of_lt hshort)] at hfile
  simp only [read, hseg, Store.readAt, hfl, hfile]
  rw [if_neg (by simpa using hne)]

theorem read_enough {n : Nat} (hseg : l.segments[i]? = some s)
    (hfl : s.store.flush d = (.ok (), st, d')) (hst : st.Ready)
    (hf : (d'.content? st.name).getD [] = f) (henough : n ≤ (f.drop off).length) :
    read n ((i, off) :: rs) l d =
      (.ok ((f.drop off).take n, none), (i, off + n) :: rs, l.setStore i st, d') := by
  have hfile := Store.fileReadAt_of_open hst.isOpen hf n off
  rw [if_neg (Nat.not_lt.mpr henough)] at hfile
  simp only [read, hseg, Store.readAt, hfl, hfile, List.length_take_of_le henough]

end head

/-- One successful read: a piece of the rest from the front, and `io.EOF`
exactly when nothing is left to be read from. -/
structure Gives (P : Log → Dir → Prop) (n : Nat) (rd : Reader) (l : Log) (d : Dir) (bs : Bytes)
    (rd' : Reader) (l' : Log) (d' : Dir) : Prop where
  read : read n rd l d = (.ok (bs, if rd'.isEmpty then some .eof else none), rd', l', d')
  rest : rest rd l d = bs ++ rest rd' l' d'
  keeps : P l' d'
  valid : Valid rd' l'
  progress : n ≠ 0 → bs ≠ [] ∨ rd' = []
  positions : rd'.map Prod.fst <:+ rd.map Prod.fst
  within : ∀ p ∈ rd', p ∈ rd ∨ ∃ s, l'.segments[p.1]? = some s ∧
    p.2 ≤ ((d'.content? s.store.name).getD []).length

/-- **Every read succeeds**, whatever the buffer. -/
theorem exists_gives {P : Log → Dir → Prop} (hP : FlushStable P) (n : Nat) :
    ∀ (rd : Reader) {l : Log} {d : Dir}, P l d → Valid rd l →
      ∃ bs rd' l' d', Gives P n rd l d bs rd' l' d' := by
  intro rd
  induction rd with
  | nil =>
      intro l d hl hv
      exact ⟨[], [], l, d, rfl, rfl, hl, hv, fun _ => .inr rfl, List.suffix_refl _,
        fun p hp => .inl hp⟩
  | cons p rs ih =>
      obtain ⟨i, off⟩ := p
      intro l d hl hv
      obtain ⟨s, hseg⟩ := hv.head
      obtain ⟨st, d', hfl, hst, -, hagain⟩ :=
        Store.flush_ready (hP.ready hl s (List.mem_of_getElem? hseg)) d
      have hl' := hP.flush hl hseg hfl
      have hv' := hv.setStore i st
      generalize hf : (d'.content? st.name).getD [] = f
      have hrest : rest ((i, off) :: rs) l d = f.drop off ++ rest rs (l.setStore i st) d' := by
        simp only [rest, hseg, hfl, hf]
      have hrest' : ∀ off', rest ((i, off') :: rs) (l.setStore i st) d' =
          f.drop off' ++ rest rs (l.setStore i st) d' := by
        intro off'
        simp only [rest, Log.getElem?_setStore hseg, hagain, Log.setStore_setStore, hf]
      by_cases hn : n = 0
      · subst hn
        have hread : read 0 ((i, off) :: rs) l d = _ :=
          read_enough hseg hfl hst hf (Nat.zero_le _)
        exact ⟨[], (i, off) :: rs, l.setStore i st, d', hread,
          hrest.trans (hrest' off).symm, hl', hv', fun h => absurd rfl h,
          List.suffix_refl _, fun p hp => .inl hp⟩
      by_cases hnil : f.drop off = []
      · obtain ⟨bs, rd', l₁, d₁, hg⟩ := ih hl' hv'.tail
        refine ⟨bs, rd', l₁, d₁, (read_past hn hseg hfl hst hf hnil).trans hg.read, ?_, hg.keeps,
          hg.valid, hg.progress, hg.positions.trans (List.suffix_cons _ _), fun p hp => ?_⟩
        · rw [hrest, hnil, List.nil_append, hg.rest]
        · exact (hg.within p hp).imp_left (List.mem_cons_of_mem _)
      by_cases hshort : (f.drop off).length < n
      · exact ⟨f.drop off, rs, l.setStore i st, d', read_short hseg hfl hst hf hnil hshort,
          hrest, hl', hv'.tail, fun _ => .inl hnil, List.suffix_cons _ _,
          fun p hp => .inl (List.mem_cons_of_mem _ hp)⟩
      · have henough : n ≤ (f.drop off).length := Nat.not_lt.mp hshort
        refine ⟨(f.drop off).take n, (i, off + n) :: rs, l.setStore i st, d',
          read_enough hseg hfl hst hf henough, ?_, hl', hv'.seek _, fun _ => .inl ?_,
          List.suffix_refl _, fun p hp => ?_⟩
        · rw [hrest, hrest', ← List.drop_drop, ← List.append_assoc, List.take_append_drop]
        · intro htake
          rcases List.take_eq_nil_iff.mp htake with h | h
          · exact hn h
          · exact hnil h
        · rcases List.mem_cons.mp hp with rfl | hp
          · refine .inr ⟨_, Log.getElem?_setStore hseg st, ?_⟩
            rw [List.length_drop] at henough
            simp only [hf]
            omega
          · exact .inl (List.mem_cons_of_mem _ hp)

variable {P : Log → Dir → Prop} {rd rd' : Reader} {l l' : Log} {d d' : Dir}

/-- A read that has taken place is the one that there is. -/
theorem gives_of_read (hP : FlushStable P) (hl : P l d) (hv : Valid rd l) {n : Nat} {bs : Bytes}
    {e : Option Err} (h : read n rd l d = (.ok (bs, e), rd', l', d')) :
    Gives P n rd l d bs rd' l' d' ∧ e = if rd'.isEmpty then some .eof else none := by
  obtain ⟨bs₁, rd₁, l₁, d₁, hg⟩ := exists_gives hP n rd hl hv
  have hread := hg.read
  rw [h, Prod.mk.injEq, Except.ok.injEq, Prod.mk.injEq, Prod.mk.injEq, Prod.mk.injEq] at hread
  obtain ⟨⟨rfl, he⟩, rfl, rfl, rfl⟩ := hread
  exact ⟨hg, he⟩

/-- **Every drain gives the rest.** -/
theorem Drain.gives {out : Bytes} (h : Drain rd l d out l' d') (hP : FlushStable P) (hl : P l d)
    (hv : Valid rd l) : out = rest rd l d ∧ P l' d' := by
  induction h with
  | @done n rd rd' l l' d d' bs hread =>
      obtain ⟨hg, he⟩ := gives_of_read hP hl hv hread
      cases rd' with
      | nil => exact ⟨by rw [hg.rest, rest, List.append_nil], hg.keeps⟩
      | cons _ _ => cases he
  | more hread _ ih =>
      obtain ⟨hg, -⟩ := gives_of_read hP hl hv hread
      obtain ⟨rfl, hl'⟩ := ih hg.keeps hg.valid
      exact ⟨hg.rest.symm, hl'⟩

/-- Reading byte by byte gets to the end. -/
theorem exists_drain (hl : l.Ready) (hv : Valid rd l) :
    ∃ l' d', Drain rd l d (rest rd l d) l' d' := by
  generalize hk : (rest rd l d).length = k
  induction k using Nat.strong_induction_on generalizing rd l d with
  | _ k ih =>
      obtain ⟨bs, rd', l', d', hg⟩ := exists_gives flushStable_ready 1 rd (d := d) hl hv
      have hread := hg.read
      rw [hg.rest]
      cases rd' with
      | nil =>
          rw [rest, List.append_nil]
          exact ⟨l', d', .done hread⟩
      | cons p rs =>
          have hne : bs ≠ [] := (hg.progress Nat.one_ne_zero).resolve_right (List.cons_ne_nil _ _)
          have hpos := List.length_pos_iff.mpr hne
          have hlt : (rest (p :: rs) l' d').length < k := by
            rw [← hk, hg.rest, List.length_append]
            omega
          obtain ⟨l'', d'', hdrain⟩ := ih _ hlt hg.keeps hg.valid rfl
          exact ⟨l'', d'', .more hread hdrain⟩

/-- The reader that `Log.Reader` returns. -/
theorem valid_reader (l : Log) : Valid l.reader l := by
  intro p hp
  rw [← List.mem_range, ← l.reader_positions]
  exact List.mem_map_of_mem hp

end Reader

/-! ## Reading a represented log -/

/-- What the store of the block at a position holds. -/
def Layout.bytes (E : Env) (L : Layout) (i : Nat) : Bytes :=
  L.blocks[i]?.elim [] fun b => frames E b.base b.records

variable {E : Env} {c : Config}

/-- One segment has changed, in its own files. -/
theorem AllHold.modify {d d' : Dir} {ss : List Segment} {bs : List Block}
    (h : AllHold E c d ss bs) (hdist : Distinct bs) {i : Nat} {s : Segment} {b : Block}
    {g : Segment → Segment} (hs : ss[i]? = some s) (hb : bs[i]? = some b)
    (hg : (g s).Holds E c d' b) (hd : ∀ n, n ∉ b.files → d'.content? n = d.content? n) :
    AllHold E c d' (ss.modify i g) bs := by
  induction h generalizing i with
  | nil => cases hs
  | cons hhead htail ih =>
      cases i with
      | zero =>
          rw [List.getElem?_cons_zero, Option.some.injEq] at hs hb
          subst hs hb
          exact .cons hg (AllHold.frame_of_ne htail hd hdist.head_ne)
      | succ i =>
          refine .cons (hhead.frame fun n hn => hd n ?_) (ih hdist.tail hs hb)
          exact Block.files_disjoint (hdist.head_ne b (List.mem_of_getElem? hb)) n hn

/-- Flushing a store of a represented log. -/
theorem Log.Rep.flush {l : Log} {d : Dir} {L : Layout} (h : l.Rep E c d L) {i : Nat}
    {s : Segment} (hs : l.segments[i]? = some s) :
    ∃ st d', s.store.flush d = (.ok (), st, d') ∧ (l.setStore i st).Rep E c d' L ∧
      d'.content? st.name = some (L.bytes E i) := by
  obtain ⟨b, hb, hhold⟩ := AllHold.getElem? h.segments hs
  obtain ⟨st, d', hfl, hrep, hcont, ht⟩ := (Segment.repWith_nil.mpr hhold.rep).flush
  have hbytes : L.bytes E i = frames E s.baseOffset b.records := by
    simp only [Layout.bytes, hb, Option.elim_some, hhold.base]
  refine ⟨st, d', hfl, ?_, by rw [hcont, List.append_nil, hbytes]⟩
  rw [hhold.base] at ht
  refine ⟨h.config, h.mappable, ht.present.trans h.present, h.detached, ?_,
    ht.names.trans h.names⟩
  exact AllHold.modify h.segments L.distinct hs hb
    ⟨hhold.base, Segment.repWith_nil.mp hrep⟩ ht.others

theorem Log.flushStable_rep (E : Env) (c : Config) (L : Layout) :
    Reader.FlushStable fun l d => l.Rep E c d L := by
  constructor
  · intro l d h s hs
    obtain ⟨b, -, hhold⟩ := AllHold.of_mem h.segments hs
    exact ⟨hhold.rep.store.isOpen, hhold.rep.store.sound⟩
  · intro l d d' i s st h hs hfl
    obtain ⟨st', d'', hfl', hrep, -⟩ := h.flush hs
    rw [hfl, Prod.mk.injEq, Prod.mk.injEq] at hfl'
    obtain ⟨-, rfl, rfl⟩ := hfl'
    exact hrep

end DistributedLog
