import DistributedLog.Reader

/-!
# Logs in working order

Layouts say which records a log holds, and need bounds for that: offsets
that do not wrap, entries that a 32-bit number can count. Whether the next
call succeeds, what a snapshot writes and what a crash leaves behind depends
on less. `Log.Sound` is that less: every store is open and has its file,
every index is mapped and has its file padded to the limit. It holds of
every log that has been opened on an empty directory and used in any way.

`Evolves M d d'` is what the calls other than `Close` do to the directory:
store files grow, index files keep their length or are padded to `M`.
-/

namespace DistributedLog

theorem segmentFiles_base {n : Name} {b : UInt64} (h : n ∈ segmentFiles b) : baseOfName n = b := by
  rcases List.mem_pair.mp h with rfl | rfl <;> simp

structure Evolves (M : Nat) (d d' : Dir) : Prop where
  present : d'.present = d.present
  store : ∀ b f, d.content? (storeName b) = some f →
    ∃ x, d'.content? (storeName b) = some (f ++ x)
  index : ∀ b f, d.content? (indexName b) = some f →
    ∃ f', d'.content? (indexName b) = some f' ∧ (f'.length = M ∨ f'.length = f.length)
  new : ∀ n, (d'.content? n).isSome → (d.content? n).isSome ∨
    ∃ b, n ∈ segmentFiles b ∧ ∃ f, d'.content? (indexName b) = some f ∧ f.length = M

namespace Evolves

variable {M : Nat} {d d' d'' : Dir}

theorem refl (M : Nat) (d : Dir) : Evolves M d d :=
  ⟨rfl, fun _ f hf => ⟨[], by rw [List.append_nil]; exact hf⟩, fun _ f hf => ⟨f, hf, .inr rfl⟩,
    fun _ hn => .inl hn⟩

/-- An index file that is padded to the limit stays so. -/
theorem padded (h : Evolves M d d') {b : UInt64} {f : Bytes}
    (hf : d.content? (indexName b) = some f) (hlen : f.length = M) :
    ∃ f', d'.content? (indexName b) = some f' ∧ f'.length = M := by
  obtain ⟨f', hf', hlen'⟩ := h.index b f hf
  exact ⟨f', hf', hlen'.elim id fun h => h.trans hlen⟩

theorem trans (h : Evolves M d d') (h' : Evolves M d' d'') : Evolves M d d'' := by
  refine ⟨h'.present.trans h.present, ?_, ?_, ?_⟩
  · intro b f hf
    obtain ⟨x, hx⟩ := h.store b f hf
    obtain ⟨y, hy⟩ := h'.store b _ hx
    exact ⟨x ++ y, by rw [hy, List.append_assoc]⟩
  · intro b f hf
    obtain ⟨f', hf', hlen⟩ := h.index b f hf
    obtain ⟨f'', hf'', hlen'⟩ := h'.index b f' hf'
    exact ⟨f'', hf'', by omega⟩
  · intro n hn
    rcases h'.new n hn with hn | hnew
    · rcases h.new n hn with hn | ⟨b, hb, f, hf, hlen⟩
      · exact .inl hn
      · exact .inr ⟨b, hb, h'.padded hf hlen⟩
    · exact .inr hnew

/-- A property of lengths that holds of the limit and of every index file
keeps holding. -/
theorem lengths {p : Nat → Prop} (h : Evolves M d d') (hM : p M)
    (hd : ∀ b f, d.content? (indexName b) = some f → p f.length) :
    ∀ b f, d'.content? (indexName b) = some f → p f.length := by
  intro b f' hf'
  rcases h.new (indexName b) (by simp [hf']) with hn | ⟨b', hb', f, hf, hlen⟩
  · obtain ⟨f, hf⟩ := Option.isSome_iff_exists.mp hn
    obtain ⟨f'', hf'', hlen⟩ := h.index b f hf
    rw [hf', Option.some.injEq] at hf''
    subst hf''
    rcases hlen with hlen | hlen
    · rw [hlen]; exact hM
    · rw [hlen]; exact hd b f hf
  · have hbase := segmentFiles_base hb'
    rw [baseOfName_indexName] at hbase
    rw [← hbase, hf', Option.some.injEq] at hf
    rw [hf, hlen]
    exact hM

theorem modify_store (M : Nat) (d : Dir) (b : UInt64) (out : Bytes) :
    Evolves M d (d.modify (storeName b) (· ++ out)) := by
  refine ⟨by simp, ?_, ?_, ?_⟩
  · intro b' f hf
    by_cases heq : storeName b' = storeName b
    · rw [heq] at hf ⊢
      exact ⟨out, Directory.content?_modify_of_some hf _⟩
    · exact ⟨[], by rw [Directory.content?_modify_of_ne _ heq, hf, List.append_nil]⟩
  · intro b' f hf
    refine ⟨f, ?_, .inr rfl⟩
    rw [Directory.content?_modify_of_ne _ (storeName_ne_indexName _ _).symm, hf]
  · intro n hn
    by_cases heq : n = storeName b
    · subst heq
      exact .inl (by simpa using hn)
    · exact .inl (by simpa [heq] using hn)

theorem modify_index (d : Dir) (b : UInt64) {g : Bytes → Bytes}
    (hg : ∀ f, d.content? (indexName b) = some f → (g f).length = M ∨ (g f).length = f.length) :
    Evolves M d (d.modify (indexName b) g) := by
  refine ⟨by simp, ?_, ?_, ?_⟩
  · intro b' f hf
    refine ⟨[], ?_⟩
    rw [Directory.content?_modify_of_ne _ (storeName_ne_indexName _ _), hf, List.append_nil]
  · intro b' f hf
    by_cases heq : indexName b' = indexName b
    · rw [heq] at hf ⊢
      exact ⟨g f, Directory.content?_modify_of_some hf _, hg f hf⟩
    · exact ⟨f, by rw [Directory.content?_modify_of_ne _ heq, hf], .inr rfl⟩
  · intro n hn
    by_cases heq : n = indexName b
    · subst heq
      exact .inl (by simpa using hn)
    · exact .inl (by simpa [heq] using hn)

/-- The two files of a segment are created and the index is padded. -/
theorem open_segment (M : Nat) (d : Dir) (b : UInt64) :
    Evolves M d (((d.create (storeName b)).create (indexName b)).modify (indexName b)
      (resize M)) := by
  have hne := storeName_ne_indexName b b
  refine ⟨by simp, ?_, ?_, ?_⟩
  · intro b' f hf
    refine ⟨[], ?_⟩
    rw [Directory.content?_modify_of_ne _ (storeName_ne_indexName _ _),
      Directory.content?_create_of_ne _ (storeName_ne_indexName _ _), List.append_nil]
    by_cases heq : storeName b' = storeName b
    · rw [heq] at hf ⊢
      simp [hf]
    · rw [Directory.content?_create_of_ne _ heq, hf]
  · intro b' f hf
    by_cases heq : indexName b' = indexName b
    · rw [heq]
      exact ⟨_, by simp; rfl, .inl (length_resize ..)⟩
    · refine ⟨f, ?_, .inr rfl⟩
      rw [Directory.content?_modify_of_ne _ heq, Directory.content?_create_of_ne _ heq,
        Directory.content?_create_of_ne _ (storeName_ne_indexName _ _).symm, hf]
  · intro n hn
    by_cases hmem : n ∈ segmentFiles b
    · exact .inr ⟨b, hmem, _, by simp; rfl, length_resize ..⟩
    · simp only [segmentFiles, List.mem_cons, List.not_mem_nil, or_false, not_or] at hmem
      rw [Directory.content?_modify_of_ne _ hmem.2, Directory.content?_create_of_ne _ hmem.2,
        Directory.content?_create_of_ne _ hmem.1] at hn
      exact .inl hn

end Evolves

/-! ## Stores -/

namespace Store

structure Sound (b : UInt64) (d : Dir) (s : Store) : Prop extends s.Ready where
  name : s.name = storeName b
  file : ∃ f, d.content? (storeName b) = some f

/-- As just opened: nothing buffered, the file to be read from its start. -/
def Rewound (s : Store) : Prop := s.buf = [] ∧ s.seek = 0

/-- There are bytes that reading on from the seek position does not find. -/
def Misses (s : Store) (d : Dir) : Prop :=
  s.buf ≠ [] ∨ 0 < s.seek ∧ ∃ f, d.content? s.name = some f ∧ f ≠ []

variable {s : Store} {b : UInt64} {d : Dir}

theorem Sound.evolves {M : Nat} {d' : Dir} (h : s.Sound b d) (he : Evolves M d d') :
    s.Sound b d' := by
  obtain ⟨f, hf⟩ := h.file
  obtain ⟨x, hx⟩ := he.store b f hf
  exact { h with file := ⟨_, hx⟩ }

theorem Misses.evolves {M : Nat} {d' : Dir} (h : s.Misses d) (hname : s.name = storeName b)
    (he : Evolves M d d') : s.Misses d' := by
  rcases h with hbuf | ⟨hseek, f, hf, hne⟩
  · exact .inl hbuf
  · rw [hname] at hf
    obtain ⟨x, hx⟩ := he.store b f hf
    refine .inr ⟨hseek, f ++ x, by rw [hname]; exact hx, ?_⟩
    intro hnil
    exact hne (List.append_eq_nil_iff.mp hnil).1

theorem output_sound (h : s.Sound b d) (M : Nat) (out : Bytes) :
    ∃ k d', s.output d out = (.ok (), { s with seek := k }, d') ∧ Evolves M d d' ∧
      (out = [] → k = s.seek ∧ d' = d) ∧
      (out ≠ [] → 0 < k ∧ ∃ f, d'.content? s.name = some f ∧ f ≠ []) := by
  by_cases hout : out = []
  · exact ⟨s.seek, d, by rw [output, if_pos hout], .refl M d, fun _ => ⟨rfl, rfl⟩,
      fun hne => absurd hout hne⟩
  · obtain ⟨f, hf⟩ := h.file
    have hfile : (d.modify s.name (· ++ out)).content? s.name = some (f ++ out) := by
      rw [h.name]
      exact Directory.content?_modify_of_some hf _
    have hne : f ++ out ≠ [] := fun hnil => hout (List.append_eq_nil_iff.mp hnil).2
    refine ⟨_, _, by rw [output, if_neg hout, h.isOpen]; rfl, ?_, fun hnil => absurd hnil hout,
      fun _ => ⟨?_, _, hfile, hne⟩⟩
    · rw [h.name]
      exact .modify_store M d b out
    · rw [hfile]
      exact List.length_pos_iff.mpr hne

theorem write_sound (h : s.Sound b d) (M : Nat) (E : Env) (p : Bytes) :
    ∃ s' d', s.write E d p = (.ok (), s', d') ∧ s'.Sound b d' ∧ Evolves M d d' ∧
      (s.Misses d ∨ p ≠ [] → s'.Misses d') := by
  generalize hk : E.spill s.buf.length p.length = k
  obtain ⟨seek, d', hout, he, hnil, hne⟩ := output_sound h M ((s.buf ++ p).take k)
  have hs := h.evolves he
  refine ⟨{ s with seek := seek, buf := (s.buf ++ p).drop k }, d',
    by simp [write, h.sound, hk, hout], ⟨⟨hs.isOpen, hs.sound⟩, hs.name, hs.file⟩, he, ?_⟩
  intro hmiss
  by_cases htake : (s.buf ++ p).take k = []
  · obtain ⟨rfl, rfl⟩ := hnil htake
    have hdrop : (s.buf ++ p).drop k = s.buf ++ p := by
      rcases List.take_eq_nil_iff.mp htake with hzero | hall
      · rw [hzero, List.drop_zero]
      · rw [hall, List.drop_nil]
    simp only [Misses, hdrop]
    rcases hmiss with (hbuf | hseek) | hp
    · exact .inl fun hall => hbuf (List.append_eq_nil_iff.mp hall).1
    · exact .inr hseek
    · exact .inl fun hall => hp (List.append_eq_nil_iff.mp hall).2
  · exact .inr (hne htake)

theorem append_sound (h : s.Sound b d) (M : Nat) (E : Env) (p : Bytes) :
    ∃ n pos s' d', s.append E d p = (.ok (n, pos), s', d') ∧ s'.Sound b d' ∧ Evolves M d d' ∧
      s'.Misses d' := by
  obtain ⟨s₁, d₁, hw₁, hs₁, he₁, hm₁⟩ := write_sound h M E (putUint64 (UInt64.ofNat p.length))
  obtain ⟨s₂, d₂, hw₂, hs₂, he₂, hm₂⟩ := write_sound hs₁ M E p
  have hhead : putUint64 (UInt64.ofNat p.length) ≠ [] := by
    rw [← List.length_pos_iff, length_putUint64]
    decide
  exact ⟨UInt64.ofNat (p.length + lenWidth), s.size,
    { s₂ with size := s₂.size + UInt64.ofNat (p.length + lenWidth) }, d₂,
    by simp only [append, hw₁, hw₂], ⟨⟨hs₂.isOpen, hs₂.sound⟩, hs₂.name, hs₂.file⟩,
    he₁.trans he₂, hm₂ (.inl (hm₁ (.inr hhead)))⟩

theorem flush_sound (h : s.Sound b d) (M : Nat) :
    ∃ s' d', s.flush d = (.ok (), s', d') ∧ s'.Sound b d' ∧ Evolves M d d' ∧
      (s.Rewound → s'.Rewound) ∧ (s.Misses d → s'.Misses d') := by
  obtain ⟨seek, d', hout, he, hnil, hne⟩ := output_sound h M s.buf
  have hs := h.evolves he
  refine ⟨{ s with seek := seek, buf := [] }, d', by simp [flush, h.sound, hout],
    ⟨⟨hs.isOpen, hs.sound⟩, hs.name, hs.file⟩, he, ?_, ?_⟩
  · rintro ⟨hbuf, hseek⟩
    exact ⟨rfl, (hnil hbuf).1.trans hseek⟩
  · intro hmiss
    by_cases hbuf : s.buf = []
    · obtain ⟨rfl, rfl⟩ := hnil hbuf
      exact .inr (hmiss.resolve_left fun h => h hbuf)
    · exact .inr (hne hbuf)

end Store

/-! ## Segments -/

namespace Index

theorem entryAt_ne_panic {i : Index} (hmapped : i.mapped = true) (hsize : i.size ≤ i.mmapLen)
    (d : Dir) (out : UInt32) : i.entryAt d out ≠ .error .panic := by
  have hpos := toNat_entryPos out
  have hpos4 := toNat_entryPos_offWidth out
  have hpos12 := toNat_entryPos_entryWidth out
  unfold entryAt
  by_cases hend : i.size < out.toUInt64 * entryWidth + entryWidth
  · simp [hend]
  · rw [UInt64.lt_iff_toNat_lt, hpos12] at hend
    rw [UInt64.le_iff_toNat_le] at hsize
    have hslice : ∀ lo hi : UInt64, lo.toNat ≤ hi.toNat → hi.toNat ≤ i.mmapLen.toNat →
        ∃ bs, i.slice d lo hi = .ok bs := by
      intro lo hi hle hhi
      rw [slice, hmapped, decide_eq_true (UInt64.le_iff_toNat_le.mpr hle),
        decide_eq_true (UInt64.le_iff_toNat_le.mpr hhi)]
      exact ⟨_, rfl⟩
    obtain ⟨o, ho⟩ := hslice (out.toUInt64 * entryWidth)
      (out.toUInt64 * entryWidth + offWidth) (by omega) (by omega)
    obtain ⟨p, hp⟩ := hslice (out.toUInt64 * entryWidth + offWidth)
      (out.toUInt64 * entryWidth + entryWidth) (by omega) (by omega)
    simp only [ho, hp]
    split <;> simp

theorem read_ne_panic {i : Index} (hmapped : i.mapped = true) (hsize : i.size ≤ i.mmapLen)
    (d : Dir) (n : Int64) : i.read d n ≠ .error .panic := by
  unfold read
  split
  · simp
  · split <;> exact entryAt_ne_panic hmapped hsize d _

end Index

namespace Segment

/-- The part that is in memory. -/
structure Open (c : Config) (s : Segment) : Prop where
  storeName : s.store.name = storeName s.baseOffset
  indexName : s.index.name = indexName s.baseOffset
  config : s.config = c
  ready : s.store.Ready
  mapped : s.index.mapped = true
  mmapLen : s.index.mmapLen = c.maxIndexBytes
  size : s.index.size.toNat ≤ c.maxIndexBytes.toNat

structure Sound (c : Config) (d : Dir) (s : Segment) : Prop extends s.Open c where
  stored : ∃ f, d.content? (DistributedLog.storeName s.baseOffset) = some f
  padded : ∃ f, d.content? (DistributedLog.indexName s.baseOffset) = some f ∧
    f.length = c.maxIndexBytes.toNat

variable {c : Config} {d : Dir} {s : Segment}

theorem Open.mmapLen_ne_zero (h : s.Open c) (hc : c.Mappable) : s.index.mmapLen ≠ 0 := by
  intro h0
  have hp := hc.pos
  rw [← h.mmapLen, h0] at hp
  exact absurd hp (by decide)

theorem Sound.store (h : s.Sound c d) : s.store.Sound s.baseOffset d :=
  ⟨h.ready, h.storeName, h.stored⟩

theorem Sound.evolves {d' : Dir} (h : s.Sound c d) (he : Evolves c.maxIndexBytes.toNat d d') :
    s.Sound c d' := by
  obtain ⟨f, hf, hlen⟩ := h.padded
  exact { h with stored := (h.store.evolves he).file, padded := he.padded hf hlen }

theorem Sound.setStore {st : Store} (h : s.Sound c d) (hst : st.Sound s.baseOffset d) :
    Sound c d { s with store := st } :=
  { h with ready := hst.toReady, storeName := hst.name }

/-- An append that finds room for its index entry. -/
theorem Sound.append (h : s.Sound c d) (hc : c.Mappable) (E : Env) (r : Record)
    (hroom : s.index.size.toNat + 12 ≤ c.maxIndexBytes.toNat) :
    ∃ s' d', s.append E d (some r) = (.ok s.nextOffset, s', d') ∧ s'.Sound c d' ∧
      s'.store.Misses d' ∧ Evolves c.maxIndexBytes.toNat d d' := by
  obtain ⟨n, pos, st, d₁, happ, hst, he₁, hm⟩ := Store.append_sound h.store
    c.maxIndexBytes.toNat E (E.marshal { r with offset := s.nextOffset })
  have hlim := hc.limit
  have hnext : (s.index.size + entryWidth).toNat = s.index.size.toNat + 12 := by
    rw [UInt64.toNat_add, Index.toNat_entryWidth]; omega
  have hfits : ¬ s.index.mmapLen < s.index.size + entryWidth := by
    rw [UInt64.lt_iff_toNat_lt, hnext, h.mmapLen]; omega
  have hslice : ∃ bs, s.index.slice d₁ s.index.size (s.index.size + entryWidth) = .ok bs := by
    have h1 : s.index.size ≤ s.index.size + entryWidth := by
      rw [UInt64.le_iff_toNat_le, hnext]; omega
    have h2 : s.index.size + entryWidth ≤ s.index.mmapLen := by
      rw [UInt64.le_iff_toNat_le, hnext, h.mmapLen]; exact hroom
    rw [Index.slice, h.mapped, decide_eq_true h1, decide_eq_true h2]
    exact ⟨_, rfl⟩
  obtain ⟨bs, hbs⟩ := hslice
  obtain ⟨f, hf, hlen⟩ := (h.evolves he₁).padded
  have he₂ : Evolves c.maxIndexBytes.toNat d₁ (d₁.modify s.index.name
      (splice s.index.size.toNat
        (putUint32 (s.nextOffset - s.baseOffset).toUInt32 ++ putUint64 pos))) := by
    rw [h.indexName]
    refine .modify_index d₁ s.baseOffset fun f' hf' => .inr (length_splice ?_)
    rw [hf, Option.some.injEq] at hf'
    rw [← hf', hlen, show (putUint32 _ ++ putUint64 pos).length = 12 from
      length_encodeEntry (_, pos)]
    exact hroom
  refine ⟨{ s with
      store := st, index := { s.index with size := s.index.size + entryWidth },
      nextOffset := s.nextOffset + 1 }, _,
    by simp only [Segment.append, happ, Index.write, if_neg hfits, hbs], ?_, ?_, he₁.trans he₂⟩
  · have hs := ((h.evolves he₁).setStore hst).evolves he₂
    exact { hs with size := by simp only [hnext]; exact hroom }
  · exact hm.evolves hst.name he₂

/-- The bytes that a store carries, in its file and in its buffer. -/
theorem Sound.carries (h : s.Sound c d) :
    ∃ f, d.content? (DistributedLog.storeName s.baseOffset) = some f ∧
      s.store.Carries d (f ++ s.store.buf) := by
  obtain ⟨f, hf⟩ := h.stored
  exact ⟨f, hf, h.ready.isOpen, h.ready.sound, f, by rw [h.storeName]; exact hf, rfl⟩

/-- Without room the append fails, and leaves its frame in the store. -/
theorem Sound.append_orphans (h : s.Sound c d) (hc : c.Mappable) (E : Env) (r : Record)
    (hroom : c.maxIndexBytes.toNat < s.index.size.toNat + 12) :
    ∃ st d', s.append E d (some r) = (.error (.err .eof), { s with store := st }, d') ∧
      Sound c d' { s with store := st } ∧ Evolves c.maxIndexBytes.toNat d d' ∧
      ∀ f, d.content? s.store.name = some f → ∃ f', d'.content? s.store.name = some f' ∧
        f.length + s.store.buf.length < f'.length + st.buf.length := by
  obtain ⟨n, pos, st, d', happ, hst, he, -⟩ := Store.append_sound h.store
    c.maxIndexBytes.toNat E (E.marshal { r with offset := s.nextOffset })
  have hlim := hc.limit
  have hsize := h.size
  have hfull : s.index.mmapLen < s.index.size + entryWidth := by
    rw [UInt64.lt_iff_toNat_lt, UInt64.toNat_add, Index.toNat_entryWidth, h.mmapLen]; omega
  refine ⟨st, d', by simp only [Segment.append, happ, Index.write, if_pos hfull],
    (h.evolves he).setStore hst, he, fun f hf => ?_⟩
  obtain ⟨f₀, hf₀, hcar⟩ := h.carries
  rw [h.storeName, hf₀, Option.some.injEq] at hf
  subst hf
  obtain ⟨st₁, d₁, happ₁, hcar₁, -⟩ := Store.append_spec hcar E
    (E.marshal { r with offset := s.nextOffset })
  rw [happ, Prod.mk.injEq, Prod.mk.injEq] at happ₁
  obtain ⟨-, rfl, rfl⟩ := happ₁
  obtain ⟨f', hf', hbs⟩ := hcar₁.file
  refine ⟨f', by rw [h.storeName, ← hst.name]; exact hf', ?_⟩
  have hlen := congrArg List.length hbs
  simp only [List.length_append, length_frame, lenWidth] at hlen
  omega

end Segment

/-- Opening a segment. The index takes the length of its file for the size
of its entries. -/
theorem newSegment_sound {c : Config} {d : Dir} (hd : d.present = true) (hc : c.Mappable)
    (base : UInt64)
    (hlen : ((d.content? (indexName base)).getD []).length ≤ c.maxIndexBytes.toNat) :
    ∃ s d', newSegment d base c = (.ok s, d') ∧ s.baseOffset = base ∧ s.Sound c d' ∧
      s.store.Rewound ∧ Evolves c.maxIndexBytes.toNat d d' ∧
      s.index.size.toNat = ((d.content? (indexName base)).getD []).length := by
  have hlim := hc.limit
  have hne := storeName_ne_indexName base base
  have hpos : c.maxIndexBytes ≠ 0 := by
    intro h0
    have hp := hc.pos
    rw [h0] at hp
    exact absurd hp (by decide)
  have hcontent : (((d.create (storeName base)).create (indexName base)).content?
      (indexName base)).getD [] = (d.content? (indexName base)).getD [] := by
    simp [hne.symm]
  have he := Evolves.open_segment c.maxIndexBytes.toNat d base
  generalize hd' : (((d.create (storeName base)).create (indexName base)).modify (indexName base)
    (resize c.maxIndexBytes.toNat)) = d' at he
  generalize hsz : ((d.content? (indexName base)).getD []).length = sz at hlen
  have hnew : newIndex ((d.create (storeName base)).create (indexName base)) (indexName base) c =
      (.ok ⟨indexName base, true, c.maxIndexBytes, UInt64.ofNat sz⟩, d') := by
    simp only [newIndex, hcontent, if_neg (Nat.not_le.mpr hlim), if_neg hpos, hd', hsz]
  have hsize : (UInt64.ofNat sz).toNat = sz := by
    rw [UInt64.toNat_ofNat', Nat.mod_eq_of_lt (by omega)]
  have hread := Index.read_ne_panic
    (i := ⟨indexName base, true, c.maxIndexBytes, UInt64.ofNat sz⟩) rfl
    (UInt64.le_iff_toNat_le.mpr (by rw [hsize]; exact hlen)) d' (-1)
  have hseg : ∀ next : UInt64, Segment.Sound c d'
      ⟨newStore (d.create (storeName base)) (storeName base),
        ⟨indexName base, true, c.maxIndexBytes, UInt64.ofNat sz⟩, base, next, c⟩ := by
    intro next
    refine ⟨⟨rfl, rfl, rfl, ⟨rfl, rfl⟩, rfl, rfl, by rw [hsize]; exact hlen⟩, ?_, ?_⟩
    · subst hd'
      exact ⟨_, by simp [hne]; rfl⟩
    · subst hd'
      exact ⟨_, by simp; rfl, length_resize ..⟩
  simp only [newSegment, hd, Bool.not_true, Bool.false_eq_true, if_false, hnew]
  cases hr : Index.read ⟨indexName base, true, c.maxIndexBytes, UInt64.ofNat sz⟩ d' (-1) with
  | error e =>
      cases e with
      | panic => exact absurd hr hread
      | err e => exact ⟨_, _, rfl, rfl, hseg _, ⟨rfl, rfl⟩, he, hsize⟩
  | ok v => exact ⟨_, _, rfl, rfl, hseg _, ⟨rfl, rfl⟩, he, hsize⟩

/-! ## Logs -/

namespace Log

/-- No index file is longer than the limit. -/
def Limited (M : Nat) (d : Dir) : Prop :=
  ∀ b f, d.content? (indexName b) = some f → f.length ≤ M

structure Sound (c : Config) (l : Log) (d : Dir) : Prop where
  config : l.config = c
  attached : l.detached = none
  present : d.present = true
  limited : Limited c.maxIndexBytes.toNat d
  segments : ∀ s ∈ l.segments, s.Sound c d

variable {c : Config} {l : Log} {d d' : Dir}

theorem Limited.getD {M : Nat} (h : Limited M d) (b : UInt64) :
    ((d.content? (indexName b)).getD []).length ≤ M := by
  cases hf : d.content? (indexName b) with
  | none => exact Nat.zero_le _
  | some f => exact h b f hf

theorem Sound.evolves (h : l.Sound c d) (he : Evolves c.maxIndexBytes.toNat d d') :
    l.Sound c d' :=
  ⟨h.config, h.attached, he.present.trans h.present,
    he.lengths (p := (· ≤ c.maxIndexBytes.toNat)) (Nat.le_refl _) h.limited,
    fun s hs => (h.segments s hs).evolves he⟩

theorem Sound.newSegment (h : l.Sound c d) (hc : c.Mappable) (off : UInt64) :
    ∃ s d', l.newSegment d off = (.ok (), { l with segments := l.segments ++ [s] }, d') ∧
      Sound c { l with segments := l.segments ++ [s] } d' ∧ s.baseOffset = off ∧
      s.store.Rewound ∧ Evolves c.maxIndexBytes.toNat d d' ∧
      s.index.size.toNat = ((d.content? (indexName off)).getD []).length := by
  obtain ⟨s, d', hnew, hbase, hs, hrew, he, hsize⟩ :=
    newSegment_sound h.present hc off (h.limited.getD off)
  have h' := h.evolves he
  have hdet := h.attached
  refine ⟨s, d', by simp only [Log.newSegment, h.config, hnew, hdet], ?_, hbase, hrew, he, hsize⟩
  refine ⟨h'.config, h'.attached, h'.present, h'.limited, ?_⟩
  intro s' hs'
  rcases List.mem_append.mp hs' with hs' | hs'
  · exact h'.segments s' hs'
  · rw [List.mem_singleton.mp hs']
    exact hs

/-- The index files of all the segments that the directory lists are padded
to the limit, as long as they are mapped. -/
def Padded (M : Nat) (d : Dir) : Prop :=
  ∀ n, (d.content? n).isSome → ∃ f, d.content? (indexName (baseOfName n)) = some f ∧ f.length = M

theorem Padded.evolves {M : Nat} (h : Padded M d) (he : Evolves M d d') : Padded M d' := by
  intro n hn
  rcases he.new n hn with hn | ⟨b, hb, hf⟩
  · obtain ⟨f, hf, hlen⟩ := h n hn
    exact he.padded hf hlen
  · rw [segmentFiles_base hb]
    exact hf

/-- A segment just opened. If its index file was padded already, the
padding is taken for entries. -/
structure Opened (M : Nat) (d : Dir) (offs : List UInt64) (s : Segment) : Prop where
  rewound : s.store.Rewound
  base : s.baseOffset ∈ offs
  size : ∀ f, d.content? (indexName s.baseOffset) = some f → f.length = M →
    s.index.size.toNat = M

theorem opened_of_newSegment {M : Nat} {off : UInt64} {offs : List UInt64} {s : Segment}
    (hoff : off ∈ offs) (hbase : s.baseOffset = off) (hrew : s.store.Rewound)
    (hsize : s.index.size.toNat = ((d.content? (indexName off)).getD []).length) :
    Opened M d offs s := by
  refine ⟨hrew, hbase ▸ hoff, fun f hf hlen => ?_⟩
  rw [hbase] at hf
  rw [hsize, hf]
  exact hlen

theorem Sound.openAll (hc : c.Mappable) : ∀ (offs : List UInt64) {l : Log} {d : Dir},
    l.Sound c d →
    ∃ ss d', l.openAll d offs = (.ok (), { l with segments := l.segments ++ ss }, d') ∧
      Sound c { l with segments := l.segments ++ ss } d' ∧
      Evolves c.maxIndexBytes.toNat d d' ∧
      (∀ s ∈ ss, Opened c.maxIndexBytes.toNat d offs s) ∧ (ss = [] → offs = [])
  | [], l, d, h => by
      refine ⟨[], d, by simp [Log.openAll], by simpa using h, .refl _ _, ?_, fun _ => rfl⟩
      intro s hs
      cases hs
  | [off], l, d, h => by
      obtain ⟨s, d', hnew, hs, hbase, hrew, he, hsize⟩ := h.newSegment hc off
      refine ⟨[s], d', hnew, hs, he, ?_, fun hnil => absurd hnil (List.cons_ne_nil _ _)⟩
      intro s' hs'
      rw [List.mem_singleton.mp hs']
      exact opened_of_newSegment List.mem_cons_self hbase hrew hsize
  | off :: skipped :: offs, l, d, h => by
      obtain ⟨s, d₁, hnew, hs, hbase, hrew, he₁, hsize⟩ := h.newSegment hc off
      obtain ⟨ss, d', hopen, hsound, he₂, hopened, -⟩ := Sound.openAll hc offs hs
      refine ⟨s :: ss, d', ?_, ?_, he₁.trans he₂, ?_,
        fun hnil => absurd hnil (List.cons_ne_nil _ _)⟩
      · simp only [Log.openAll, hnew, hopen, List.append_assoc, List.singleton_append]
      · simpa using hsound
      · intro s' hs'
        rcases List.mem_cons.mp hs' with rfl | hs'
        · exact opened_of_newSegment List.mem_cons_self hbase hrew hsize
        · obtain ⟨hrew', hbase', hsize'⟩ := hopened s' hs'
          refine ⟨hrew', List.mem_cons_of_mem _ (List.mem_cons_of_mem _ hbase'), ?_⟩
          intro f hf hlen
          obtain ⟨f', hf', hlen'⟩ := he₁.padded hf hlen
          exact hsize' f' hf' hlen'

/-- **Opening a log** on a directory without overlong index files. -/
theorem setup_sound (hc : c.Mappable) (hd : d.present = true)
    (hlim : Limited c.maxIndexBytes.toNat d) :
    ∃ l d', setup ⟨c, [], none⟩ d = (.ok (), l, d') ∧ l.Sound c d' ∧ l.segments ≠ [] ∧
      Evolves c.maxIndexBytes.toNat d d' ∧ (∀ s ∈ l.segments, s.store.Rewound) ∧
      (Padded c.maxIndexBytes.toNat d → d.names ≠ [] →
        ∀ s ∈ l.segments, s.index.size.toNat = c.maxIndexBytes.toNat) := by
  have hstart : Sound c ⟨c, [], none⟩ d := ⟨rfl, rfl, hd, hlim, fun s hs => by cases hs⟩
  generalize hoffs : (d.names.map baseOfName).insertionSort (· ≤ ·) = offs
  obtain ⟨ss, d₁, hopen, hs, he, hopened, hnil⟩ := Sound.openAll hc offs hstart
  rw [List.nil_append] at hopen hs
  have hmem : ∀ b, b ∈ offs ↔ ∃ n ∈ d.names, baseOfName n = b := by
    intro b
    rw [← hoffs, List.mem_insertionSort, List.mem_map]
  by_cases hss : ss = []
  · obtain ⟨s, d₂, hnew, hs₂, hbase, hrew, he₂, -⟩ := hs.newSegment hc c.initialOffset
    subst hss
    refine ⟨_, d₂, ?_, hs₂, by simp, he.trans he₂, ?_, ?_⟩
    · simp only [setup, hd, Bool.not_true, Bool.false_eq_true, if_false, hoffs, hopen,
        List.isEmpty_nil, if_true, hnew]
    · intro s' hs'
      rw [List.nil_append, List.mem_singleton] at hs'
      rw [hs']
      exact hrew
    · intro _ hne
      obtain ⟨n, hn⟩ := List.exists_mem_of_ne_nil _ hne
      have hb := (hmem _).mpr ⟨n, hn, rfl⟩
      rw [hnil rfl] at hb
      cases hb
  · refine ⟨_, d₁, ?_, hs, hss, he, fun s hs => (hopened s hs).rewound, ?_⟩
    · simp only [setup, hd, Bool.not_true, Bool.false_eq_true, if_false, hoffs, hopen,
        List.isEmpty_iff, hss]
    · intro hpad _ s hs
      obtain ⟨n, hn, hb⟩ := (hmem _).mp (hopened s hs).base
      obtain ⟨f, hf, hlen⟩ := hpad n (Directory.mem_names.mp hn)
      rw [hb] at hf
      exact (hopened s hs).size f hf hlen

end Log

theorem newLog_sound {c : Config} {d : Dir} (hc : c.withDefaults.Mappable)
    (hd : d.present = true) (hlim : Log.Limited c.withDefaults.maxIndexBytes.toNat d) :
    ∃ l d', newLog d c = (.ok (), l, d') ∧ l.Sound c.withDefaults d' ∧ l.segments ≠ [] ∧
      Evolves c.withDefaults.maxIndexBytes.toNat d d' ∧ (∀ s ∈ l.segments, s.store.Rewound) ∧
      (Log.Padded c.withDefaults.maxIndexBytes.toNat d → d.names ≠ [] →
        ∀ s ∈ l.segments, s.index.size.toNat = c.withDefaults.maxIndexBytes.toNat) :=
  Log.setup_sound hc hd hlim

namespace Log

variable {c : Config} {l : Log} {d d' : Dir} {E : Env}

/-! ### Appending -/

theorem Sound.activeSegment (h : l.Sound c d) : l.activeSegment = l.segments.getLast? := by
  rw [Log.activeSegment, h.attached]
  rfl

theorem Sound.append (h : l.Sound c d) (hc : c.Mappable) (E : Env) (r : Record) {s : Segment}
    (hs : l.activeSegment = some s) (hroom : s.index.size.toNat + 12 ≤ c.maxIndexBytes.toNat) :
    ∃ off l' d', l.append E d (some r) = (.ok off, l', d') ∧ l'.Sound c d' ∧
      l'.segments ≠ [] ∧ Evolves c.maxIndexBytes.toNat d d' ∧
      ∃ s' ∈ l'.segments, s'.store.Misses d' := by
  have hlast : s ∈ l.segments := List.mem_of_getLast? (h.activeSegment ▸ hs)
  obtain ⟨s', d₁, happ, hs', hm, he⟩ := (h.segments s hlast).append hc E r hroom
  have hset : l.setActive s' = { l with segments := l.segments.dropLast ++ [s'] } := by
    rw [setActive, h.attached]
  have h₁ := h.evolves he
  have hsound : Sound c { l with segments := l.segments.dropLast ++ [s'] } d₁ := by
    refine ⟨h₁.config, h₁.attached, h₁.present, h₁.limited, ?_⟩
    intro t ht
    rcases List.mem_append.mp ht with ht | ht
    · exact h₁.segments t (List.dropLast_subset _ ht)
    · rw [List.mem_singleton.mp ht]
      exact hs'
  by_cases hmax : s'.isMaxed
  · obtain ⟨t, d₂, hnew, hsound₂, -, -, he₂, -⟩ := hsound.newSegment hc (s.nextOffset + 1)
    refine ⟨s.nextOffset, _, d₂, ?_, hsound₂, by simp, he.trans he₂, s', by simp,
      hm.evolves hs'.storeName he₂⟩
    simp only [Log.append, hs, happ, hmax, if_true, hset, hnew]
  · refine ⟨s.nextOffset, _, d₁, ?_, hsound, by simp, he, s', by simp, hm⟩
    simp only [Log.append, hs, happ, hmax, hset]
    rfl

/-- Without room the append fails, and leaves its frame in the active store. -/
theorem Sound.append_orphans (h : l.Sound c d) (hc : c.Mappable) (E : Env) (r : Record)
    {s : Segment} (hs : l.activeSegment = some s)
    (hroom : c.maxIndexBytes.toNat < s.index.size.toNat + 12) :
    ∃ st d', l.append E d (some r) = (.error (.err .eof),
        { l with segments := l.segments.dropLast ++ [{ s with store := st }] }, d') ∧
      Sound c { l with segments := l.segments.dropLast ++ [{ s with store := st }] } d' ∧
      Evolves c.maxIndexBytes.toNat d d' ∧ st.name = s.store.name ∧
      ∀ f, d.content? s.store.name = some f → ∃ f', d'.content? s.store.name = some f' ∧
        f.length + s.store.buf.length < f'.length + st.buf.length := by
  have hlast : s ∈ l.segments := List.mem_of_getLast? (h.activeSegment ▸ hs)
  have hsound := h.segments s hlast
  obtain ⟨st, d', happ, hs', he, hgrow⟩ := hsound.append_orphans hc E r hroom
  have h' := h.evolves he
  refine ⟨st, d', by simp only [Log.append, hs, happ, setActive, h.attached],
    ⟨h'.config, h'.attached, h'.present, h'.limited, ?_⟩, he,
    hs'.storeName.trans hsound.storeName.symm, hgrow⟩
  intro t ht
  rcases List.mem_append.mp ht with ht | ht
  · exact h'.segments t (List.dropLast_subset _ ht)
  · rw [List.mem_singleton.mp ht]
    exact hs'

/-- Appending succeeds exactly when the active index has room. -/
theorem Sound.append_ok_iff (h : l.Sound c d) (hc : c.Mappable) (E : Env) (r : Record)
    {s : Segment} (hs : l.activeSegment = some s) :
    (∃ off l' d', l.append E d (some r) = (.ok off, l', d')) ↔
      s.index.size.toNat + 12 ≤ c.maxIndexBytes.toNat := by
  constructor
  · rintro ⟨off, l', d', happ⟩
    by_contra hfull
    obtain ⟨st, d'', herr, -⟩ := h.append_orphans hc E r hs (by omega)
    rw [happ] at herr
    cases herr
  · intro hroom
    obtain ⟨off, l', d', happ, -⟩ := h.append hc E r hs hroom
    exact ⟨off, l', d', happ⟩

/-- What a successful append leaves. -/
theorem Sound.append_ok (h : l.Sound c d) (hc : c.Mappable) (hne : l.segments ≠ []) {r : Record}
    {off : UInt64} {l' : Log} (happ : l.append E d (some r) = (.ok off, l', d')) :
    l'.Sound c d' ∧ l'.segments ≠ [] ∧ Evolves c.maxIndexBytes.toNat d d' ∧
      ∃ s ∈ l'.segments, s.store.Misses d' := by
  have hs : l.activeSegment = some (l.segments.getLast hne) := by
    rw [h.activeSegment, List.getLast?_eq_some_getLast hne]
  have hroom := (h.append_ok_iff hc E r hs).mp ⟨_, _, _, happ⟩
  obtain ⟨off₁, l₁, d₁, happ₁, hres⟩ := h.append hc E r hs hroom
  rw [happ, Prod.mk.injEq, Prod.mk.injEq] at happ₁
  obtain ⟨-, rfl, rfl⟩ := happ₁
  exact hres

/-! ### Reading and flushing -/

theorem mem_setStore {i : Nat} {s s' : Segment} {st : Store} (hseg : l.segments[i]? = some s)
    (h : s' ∈ (l.setStore i st).segments) : s' ∈ l.segments ∨ s' = { s with store := st } := by
  obtain ⟨j, hj⟩ := List.getElem?_of_mem h
  rw [setStore, List.getElem?_modify] at hj
  obtain ⟨s₀, hs₀, rfl⟩ := Option.map_eq_some_iff.mp hj
  by_cases hij : i = j
  · subst hij
    rw [hseg, Option.some.injEq] at hs₀
    subst hs₀
    exact .inr (by rw [if_pos rfl])
  · rw [if_neg hij]
    exact .inl (List.mem_of_getElem? hs₀)

theorem Sound.flush (h : l.Sound c d) {i : Nat} {s : Segment} {st : Store}
    (hseg : l.segments[i]? = some s) (hfl : s.store.flush d = (.ok (), st, d')) :
    (l.setStore i st).Sound c d' ∧ Evolves c.maxIndexBytes.toNat d d' ∧
      (s.store.Rewound → st.Rewound) ∧ (s.store.Misses d → st.Misses d') := by
  have hs := h.segments s (List.mem_of_getElem? hseg)
  obtain ⟨st', d'', hfl', hst, he, hrew, hmiss⟩ :=
    Store.flush_sound hs.store c.maxIndexBytes.toNat
  rw [hfl, Prod.mk.injEq, Prod.mk.injEq] at hfl'
  obtain ⟨-, rfl, rfl⟩ := hfl'
  have h' := h.evolves he
  refine ⟨⟨h'.config, h'.attached, h'.present, h'.limited, ?_⟩, he, hrew, hmiss⟩
  intro s' hs'
  rcases mem_setStore hseg hs' with hs' | rfl
  · exact h'.segments s' hs'
  · exact (hs.evolves he).setStore hst

theorem Sound.ready (h : l.Sound c d) : l.Ready := fun s hs => (h.segments s hs).ready

end Log

theorem Segment.read_flush {s s' : Segment} {d d' : Dir} {E : Env} {off : UInt64}
    {res : Result Record} (hs : s.store.Ready) (h : s.read E d off = (res, s', d')) :
    s' = s ∧ d' = d ∨
      ∃ st, s.store.flush d = (.ok (), st, d') ∧ s' = { s with store := st } := by
  obtain ⟨st, d₁, hfl, -⟩ := Store.flush_ready hs d
  unfold Segment.read at h
  split at h
  · cases h
    exact .inl ⟨rfl, rfl⟩
  · rename_i n pos _
    have hread : ∃ res, s.store.read d pos = (res, st, d₁) := by
      simp only [Store.read, hfl]
      split
      · exact ⟨_, rfl⟩
      · split <;> exact ⟨_, rfl⟩
    obtain ⟨res', hread⟩ := hread
    rw [hread] at h
    refine .inr ⟨st, ?_⟩
    cases res' with
    | error e =>
        cases h
        exact ⟨hfl, rfl⟩
    | ok p =>
        simp only at h
        split at h <;> (cases h; exact ⟨hfl, rfl⟩)

namespace Log

variable {c : Config} {l : Log} {d d' : Dir} {E : Env}

theorem readIn_flush {off : UInt64} : ∀ {ss ss' : List Segment} {res : Result Record},
    (∀ s ∈ ss, s.store.Ready) → readIn E d off ss = (res, ss', d') →
    ss' = ss ∧ d' = d ∨ ∃ i s st, ss[i]? = some s ∧ s.store.flush d = (.ok (), st, d') ∧
      ss' = ss.modify i fun s => { s with store := st } := by
  intro ss
  induction ss with
  | nil =>
      intro ss' res _ h
      cases h
      exact .inl ⟨rfl, rfl⟩
  | cons s ss ih =>
      intro ss' res hready h
      unfold readIn at h
      split at h
      · rcases hread : s.read E d off with ⟨res₁, s₁, d₁⟩
        rw [hread] at h
        cases h
        rcases Segment.read_flush (hready s List.mem_cons_self) hread with
          ⟨rfl, rfl⟩ | ⟨st, hfl, rfl⟩
        · exact .inl ⟨rfl, rfl⟩
        · exact .inr ⟨0, s, st, rfl, hfl, by simp⟩
      · rcases hrest : readIn E d off ss with ⟨res₁, ss₁, d₁⟩
        rw [hrest] at h
        cases h
        rcases ih (fun t ht => hready t (List.mem_cons_of_mem _ ht)) hrest with
          ⟨rfl, rfl⟩ | ⟨i, t, st, ht, hfl, rfl⟩
        · exact .inl ⟨rfl, rfl⟩
        · exact .inr ⟨i + 1, t, st, by simpa using ht, hfl, by simp⟩

end Log

/-- `Log.Read` flushes at most one store, whatever it returns. -/
theorem Reader.FlushStable.read {P : Log → Dir → Prop} (hP : FlushStable P) {E : Env} {l l' : Log}
    {d d' : Dir} {off : UInt64} {res : Result Record} (h : P l d)
    (hread : l.read E d off = (res, l', d')) : P l' d' := by
  rcases hin : Log.readIn E d off l.segments with ⟨res₁, ss, d₁⟩
  rw [Log.read, hin] at hread
  cases hread
  rcases Log.readIn_flush (hP.ready h) hin with ⟨rfl, rfl⟩ | ⟨i, s, st, hseg, hfl, rfl⟩
  · exact h
  · exact hP.flush h hseg hfl

/-! ### Closing -/

theorem Store.close_ready {s : Store} (h : s.Ready) (d : Dir) :
    ∃ s' d', s.close d = (.ok (), s', d') ∧ d'.present = d.present ∧
      ∀ n, n ≠ s.name → d'.content? n = d.content? n := by
  have hflush : ∃ s' d', s.flush d = (.ok (), s', d') ∧ s'.closed = false ∧
      d'.present = d.present ∧ ∀ n, n ≠ s.name → d'.content? n = d.content? n := by
    by_cases hbuf : s.buf = []
    · exact ⟨s, d, flush_of_buf_nil h hbuf d, h.isOpen, rfl, fun _ _ => rfl⟩
    · exact ⟨_, _, flush_of_buf h hbuf d, h.isOpen, Directory.present_modify ..,
        fun n hn => Directory.content?_modify_of_ne _ hn _⟩
  obtain ⟨s', d', hfl, hopen, hsame⟩ := hflush
  exact ⟨{ s' with closed := true }, d', by simp [close, hfl, hopen], hsame⟩

theorem Segment.close_limited {c : Config} {s : Segment} (h : s.Open c) (hc : c.Mappable)
    (d : Dir) :
    ∃ s' d', s.close d = (.ok (), s', d') ∧ d'.present = d.present ∧
      (Log.Limited c.maxIndexBytes.toNat d → Log.Limited c.maxIndexBytes.toNat d') := by
  have hlim := hc.limit
  have hsize := h.size
  have hne := h.mmapLen_ne_zero hc
  have hindex : s.index.close d = (.ok (), { s.index with mapped := false },
      d.modify s.index.name (resize s.index.size.toNat)) := by
    simp only [Index.close, if_neg hne, h.mapped, Bool.not_true, Bool.false_eq_true, if_false]
    rw [if_neg (by omega)]
  generalize hd₁ : d.modify s.index.name (resize s.index.size.toNat) = d₁ at hindex
  have hlimited : Log.Limited c.maxIndexBytes.toNat d → Log.Limited c.maxIndexBytes.toNat d₁ := by
    intro hd b f hf
    rw [← hd₁] at hf
    by_cases heq : indexName b = s.index.name
    · rw [heq, Directory.content?_modify_self, Option.map_eq_some_iff] at hf
      obtain ⟨f', -, rfl⟩ := hf
      rw [length_resize]
      exact hsize
    · rw [Directory.content?_modify_of_ne _ heq] at hf
      exact hd b f hf
  obtain ⟨st, d', hclose, hpres, hsame⟩ := Store.close_ready h.ready d₁
  refine ⟨_, d', by simp only [Segment.close, hindex, hclose]; rfl, ?_, ?_⟩
  · rw [hpres, ← hd₁, Directory.present_modify]
  · intro hd b f hf
    rw [hsame _ (by rw [h.storeName]; exact (storeName_ne_indexName _ _).symm)] at hf
    exact hlimited hd b f hf

namespace Log

variable {c : Config} {l : Log} {d d' : Dir} {E : Env}

theorem closeAll_limited (hc : c.Mappable) : ∀ {ss : List Segment} {d : Dir},
    (∀ s ∈ ss, s.Open c) → ∃ ss' d', closeAll d ss = (.ok (), ss', d') ∧
      d'.present = d.present ∧ (Limited c.maxIndexBytes.toNat d → Limited c.maxIndexBytes.toNat d')
  | [], d, _ => ⟨[], d, rfl, rfl, id⟩
  | s :: ss, d, h => by
      obtain ⟨s', d₁, hs, hpres₁, hlim₁⟩ := Segment.close_limited (h s List.mem_cons_self) hc d
      obtain ⟨ss', d₂, hss, hpres₂, hlim₂⟩ :=
        closeAll_limited hc (d := d₁) fun t ht => h t (List.mem_cons_of_mem _ ht)
      exact ⟨s' :: ss', d₂, by simp only [closeAll, hs, hss], hpres₂.trans hpres₁,
        fun hd => hlim₂ (hlim₁ hd)⟩

/-- Closing succeeds and leaves a directory that can be opened again. -/
theorem Sound.close (h : l.Sound c d) (hc : c.Mappable) :
    ∃ l' d', l.close d = (.ok (), l', d') ∧ d'.present = true ∧
      Limited c.maxIndexBytes.toNat d' := by
  obtain ⟨ss', d', hclose, hpres, hlim⟩ :=
    closeAll_limited hc (d := d) fun s hs => (h.segments s hs).toOpen
  exact ⟨{ l with segments := ss' }, d', by simp only [Log.close, hclose],
    hpres.trans h.present, hlim h.limited⟩

end Log

end DistributedLog
