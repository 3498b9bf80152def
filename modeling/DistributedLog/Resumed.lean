import DistributedLog.Remains

/-!
# Logs opened on what is left

`Log.Remains` is a log opened on files that were not closed, now or some
restarts ago. What it still returns was stored there (`Remains.read_ok`), and
opening its files once more gives the same again (`Remains.newLog`).

Its indexes count as full, so it takes no record any more: an append fails,
and its frame goes to the end of the last store (`Resumed.append`). That would
fill the place of what was lost there, so one thing has to be known first,
that the last offset can be read (`Remains.resumed`).
-/

namespace DistributedLog

variable {E : Env} {c : Config} {d d' : Dir} {b : Block}

section lists

variable {α β : Type} {R R' : α → β → Prop} {xs : List α} {ys : List β}

theorem forall₂_modify (h : List.Forall₂ R xs ys) {i : Nat} {g : α → α}
    (hat : ∀ x y, xs[i]? = some x → ys[i]? = some y → R x y → R' (g x) y)
    (hother : ∀ j x y, j ≠ i → xs[j]? = some x → ys[j]? = some y → R x y → R' x y) :
    List.Forall₂ R' (xs.modify i g) ys := by
  induction h generalizing i with
  | nil => cases i <;> exact .nil
  | cons hhead htail ih =>
      cases i with
      | zero =>
          refine .cons (hat _ _ rfl rfl hhead) (List.forall₂_iff_get.mpr ⟨htail.length_eq, ?_⟩)
          intro j hx hy
          refine hother (j + 1) _ _ (by omega) ?_ ?_ (htail.get hx hy)
          · exact List.getElem?_eq_getElem hx
          · exact List.getElem?_eq_getElem hy
      | succ i =>
          refine .cons (hother 0 _ _ (by omega) rfl rfl hhead) (ih hat fun j x y hj => ?_)
          exact hother (j + 1) x y (by omega)

theorem forall₂_snoc {y : β} (h : List.Forall₂ R xs (ys ++ [y])) :
    ∃ xs' x, xs = xs' ++ [x] ∧ List.Forall₂ R xs' ys ∧ R x y := by
  induction ys generalizing xs with
  | nil =>
      obtain ⟨x, _, hx, hnil, rfl⟩ := List.forall₂_cons_right_iff.mp h
      obtain rfl := List.forall₂_nil_right_iff.mp hnil
      exact ⟨[], x, rfl, .nil, hx⟩
  | cons z ys ih =>
      obtain ⟨x₀, xs₀, hx₀, hxs₀, rfl⟩ := List.forall₂_cons_right_iff.mp h
      obtain ⟨xs', x, rfl, hxs', hx⟩ := ih hxs₀
      exact ⟨x₀ :: xs', x, rfl, .cons hx₀ hxs', hx⟩

end lists

/-! ## Opening -/

/-- The files of a block, as a process leaves them. -/
structure Block.Left (E : Env) (c : Config) (d : Dir) (b : Block) : Prop where
  index : Unclosed E c d b
  store : ∃ f, d.content? (storeName b.base) = some f ∧ b.Matches E c f
  room : 12 * b.len ≤ c.maxIndexBytes.toNat

theorem Block.Left.touches (h : b.Left E c d) (ht : Directory.Touches [] d d') :
    b.Left E c d' := by
  obtain ⟨f, hf, hm⟩ := h.store
  exact ⟨h.index.frame (ht.others _ List.not_mem_nil),
    ⟨f, by rw [ht.others _ List.not_mem_nil]; exact hf, hm⟩, h.room⟩

/-- A log opened on files that were not closed. -/
structure Log.Remains (E : Env) (c : Config) (s : LogState) (L : Layout) : Prop where
  sound : s.1.Sound c s.2
  mappable : c.Mappable
  names : s.2.names.Perm (L.blocks.flatMap Block.files)
  room : ∀ b ∈ L.blocks, 12 * b.len ≤ c.maxIndexBytes.toNat
  indexes : Padding.All E c s.2 L
  segments : List.Forall₂ (Segment.Remains E c s.2) s.1.segments L.blocks

theorem openAll_left (hc : c.Mappable) (hM : c.maxIndexBytes.toNat ≤ 12 * 2 ^ 32)
    {bs : List Block} {l : Log} (hl : l.config = c) (hd : d.present = true)
    (h : ∀ b ∈ bs, b.Left E c d) :
    ∃ ss d', l.openAll d (bs.flatMap fun b => [b.base, b.base]) =
        (.ok (), { l with
          segments := l.segments ++ ss, detached := if bs = [] then l.detached else none }, d') ∧
      Directory.Touches [] d d' ∧ List.Forall₂ (Segment.Remains E c d') ss bs := by
  induction bs generalizing l d with
  | nil => exact ⟨[], d, by simp [Log.openAll], .refl _ _, .nil⟩
  | cons b bs ih =>
      have hb := h b List.mem_cons_self
      obtain ⟨f, hf, hmatch⟩ := hb.store
      obtain ⟨s, d₁, hnew, hs, hst, ht₁⟩ := newSegment_unclosed hd hc hM hb.room hb.index
        (by rw [hf]; rfl)
      obtain ⟨ss, d₂, hopen, ht₂, hss⟩ := ih
        (l := { l with segments := l.segments ++ [s], detached := none }) hl
        (ht₁.present.trans hd) fun b' hb' => (h b' (List.mem_cons_of_mem _ hb')).touches ht₁
      have hfirst : l.newSegment d b.base =
          (.ok (), { l with segments := l.segments ++ [s], detached := none }, d₁) := by
        rw [Log.newSegment, hl, hnew]
      have hbytes : s.store.bytes d₂ = f := by
        rw [hst, Store.bytes]
        simp only [newStore, List.append_nil]
        rw [ht₂.others _ List.not_mem_nil, ht₁.others _ List.not_mem_nil, hf, Option.getD_some]
      refine ⟨s :: ss, d₂, ?_, ht₁.trans ht₂, .cons ⟨hs, by rw [hbytes]; exact hmatch⟩ hss⟩
      simp only [List.flatMap_cons, List.cons_append, List.nil_append, Log.openAll, hfirst,
        hopen, List.append_assoc, List.cons_ne_nil, if_false, ite_self]

theorem newLog_left {c₀ : Config} {L : Layout} (hc₀ : c₀.withDefaults = c) (hc : c.Mappable)
    (hM : c.maxIndexBytes.toNat ≤ 12 * 2 ^ 32) (hd : d.present = true)
    (hlim : Log.Limited c.maxIndexBytes.toNat d)
    (hnames : d.names.Perm (L.blocks.flatMap Block.files)) (h : ∀ b ∈ L.blocks, b.Left E c d) :
    ∃ s, newLog d c₀ = (.ok (), s) ∧ Log.Remains E c s L ∧ Directory.Touches [] d s.2 ∧
      ∀ t ∈ s.1.segments, t.store.Rewound := by
  subst hc₀
  obtain ⟨ss, d', hopen, ht, hss⟩ := openAll_left (l := ⟨c₀.withDefaults, [], none⟩) hc hM rfl hd h
  obtain ⟨l₁, d₁, hnew₁, hsound, -, -, hrew, -⟩ := newLog_sound hc hd hlim
  have hss0 : ss ≠ [] := by
    rintro rfl
    have := List.forall₂_nil_left_iff.mp hss
    simp [Layout.blocks] at this
  have hnew : newLog d c₀ = (.ok (), ⟨c₀.withDefaults, ss, none⟩, d') := by
    simp only [newLog, Log.setup, hd, Log.sorted_bases hnames, hopen]
    simp [hss0]
  rw [hnew, Prod.mk.injEq, Prod.mk.injEq] at hnew₁
  obtain ⟨-, rfl, rfl⟩ := hnew₁
  exact ⟨_, hnew, ⟨hsound, hc, ht.names.trans hnames, fun b hb => (h b hb).room,
    fun b hb => ((h b hb).touches ht).index, hss⟩, ht, hrew⟩

/-- Every record of a block is found at its offset. -/
theorem Layout.get?_of_mem (L : Layout) (hb : b ∈ L.blocks) {j : Nat} {r : Record}
    (hr : b.records[j]? = some r) : L.abs.get? (b.start + j) = some r := by
  obtain ⟨hj, -⟩ := List.getElem?_eq_some_iff.mp hr
  obtain ⟨hlo, hhi⟩ := L.mem_blocks_bounds b hb
  unfold Block.len at hhi
  obtain ⟨pre, b', post, r', hblocks, hlo', hhi', -, hr', hget⟩ :=
    L.exists_cover (show L.lowest ≤ b.start + j by omega) (by omega)
  have hb' : b' ∈ L.blocks := by rw [hblocks]; simp
  have hstart : b.start = b'.start := by
    rcases Nat.lt_trichotomy b.start b'.start with hlt | heq | hlt
    · have := L.not_inside hb hb' hlt
      unfold Block.len at this
      omega
    · exact heq
    · have := L.not_inside hb' hb hlt
      omega
  obtain rfl : b = b' :=
    List.inj_on_of_nodup_map L.distinct hb hb' (UInt64.toNat_inj.mp hstart)
  rw [Nat.add_sub_cancel_left, hr] at hr'
  rw [hget, hr']

theorem Block.seen_le_succ : b.seen c ≤ b.len + 1 := by
  unfold Block.seen
  split <;> omega

theorem Block.seen_le_len (hpos : 0 < b.len) : b.seen c ≤ b.len := by
  unfold Block.seen
  split <;> omega

theorem Segment.Reopened.next_toNat {s : Segment} (h : s.Reopened c b)
    (hb : b.start + b.len + 1 < 2 ^ 64) : s.nextOffset.toNat = b.start + b.seen c := by
  have := Block.seen_le_succ (c := c) (b := b)
  rw [h.next, UInt64.toNat_add, UInt64.toNat_ofNat', ← Block.start]
  omega

/-- A refused append, and the bytes it leaves. -/
theorem Segment.Sound.append_bytes {s : Segment} (h : s.Sound c d) (hc : c.Mappable) (E : Env)
    (r : Record) (hroom : c.maxIndexBytes.toNat < s.index.size.toNat + 12) :
    ∃ st d' p, s.append E d (some r) = (.error (.err .eof), { s with store := st }, d') ∧
      st.bytes d' = s.store.bytes d ++ DistributedLog.frame p ∧
      Directory.Touches [s.store.name] d d' := by
  obtain ⟨f, hf, hcar⟩ := h.carries
  obtain ⟨st, d', happ, hcar', -, -, ht⟩ := Store.append_spec hcar E
    (E.marshal { r with offset := s.nextOffset })
  have hlim := hc.limit
  have hsize := h.size
  have hfull : s.index.mmapLen < s.index.size + entryWidth := by
    rw [UInt64.lt_iff_toNat_lt, UInt64.toNat_add, Index.toNat_entryWidth, h.mmapLen]
    omega
  exact ⟨st, d', _, by simp only [Segment.append, happ, Index.write, if_pos hfull],
    by rw [hcar'.bytes, hcar.bytes], ht⟩

namespace Log

variable {l : Log} {s : LogState} {L : Layout} {orphans : Bytes}

/-- What a process leaves of a log that it has opened on an empty directory. -/
theorem RepWith.left (h : l.RepWith E c d L orphans) (hall : Padding.All E c d L) :
    ∀ b ∈ L.blocks, b.Left E c d := by
  intro b hb
  obtain ⟨t, -, o, ht, hstuck⟩ := h.segment_of_block hb
  obtain ⟨f, hf, hbs⟩ := ht.rep.store.file
  rw [ht.rep.storeName, ht.base] at hf
  have hroom := ht.rep.index.room
  rw [length_entriesOf] at hroom
  refine ⟨hall b hb, ⟨f, hf, (Block.matches_frames hstuck).front ⟨t.store.buf, ?_⟩⟩, hroom⟩
  rw [hbs, ht.base]

theorem RepWith.remains {c₀ : Config} (h : l.RepWith E c d L orphans)
    (hall : Padding.All E c d L) (hc₀ : c₀.withDefaults = c)
    (hM : c.maxIndexBytes.toNat ≤ 12 * 2 ^ 32) :
    ∃ s, newLog d c₀ = (.ok (), s) ∧ Log.Remains E c s L ∧ Directory.Touches [] d s.2 ∧
      ∀ t ∈ s.1.segments, t.store.Rewound :=
  newLog_left hc₀ h.mappable hM h.present h.sound.limited h.names (h.left hall)

namespace Remains

theorem of_mem (h : Log.Remains E c s L) {t : Segment} (ht : t ∈ s.1.segments) :
    ∃ b ∈ L.blocks, t.Remains E c s.2 b := by
  obtain ⟨i, hi⟩ := List.getElem?_of_mem ht
  obtain ⟨b, hb, hrem⟩ := forall₂_getElem? h.segments hi
  exact ⟨b, List.mem_of_getElem? hb, hrem⟩

/-- The last segment is that of the last block. -/
theorem last (h : Log.Remains E c s L) :
    ∃ ss t, s.1.segments = ss ++ [t] ∧ List.Forall₂ (Segment.Remains E c s.2) ss L.full ∧
      t.Remains E c s.2 L.act :=
  forall₂_snoc h.segments

/-- Opened once more, after whatever has happened to the buffers. -/
theorem newLog {c₀ : Config} (h : Log.Remains E c s L) (hc₀ : c₀.withDefaults = c)
    (hM : c.maxIndexBytes.toNat ≤ 12 * 2 ^ 32) :
    ∃ s', DistributedLog.newLog s.2 c₀ = (.ok (), s') ∧ Log.Remains E c s' L := by
  have hleft : ∀ b ∈ L.blocks, b.Left E c s.2 := by
    intro b hb
    obtain ⟨i, hi⟩ := List.getElem?_of_mem hb
    obtain ⟨t, ht, hrem⟩ := forall₂_getElem? h.segments.flip hi
    obtain ⟨f, hf, hcar⟩ := (h.sound.segments t (List.mem_of_getElem? ht)).carries
    rw [hrem.base] at hf
    exact ⟨h.indexes b hb, ⟨f, hf, hrem.store.front ⟨t.store.buf, hcar.bytes.symm⟩⟩, h.room b hb⟩
  obtain ⟨s', hnew, hrem, -⟩ :=
    newLog_left hc₀ h.mappable hM h.sound.present h.sound.limited h.names hleft
  exact ⟨s', hnew, hrem⟩

theorem next_toNat (h : Log.Remains E c s L) (hnext : L.next < 2 ^ 64 - 1) {t : Segment}
    (ht : t ∈ s.1.segments) :
    ∃ b ∈ L.blocks, t.Remains E c s.2 b ∧ t.nextOffset.toNat = b.start + b.seen c := by
  obtain ⟨b, hb, hrem⟩ := h.of_mem ht
  have hle := (L.mem_blocks_bounds b hb).2
  exact ⟨b, hb, hrem, hrem.next_toNat (by omega)⟩

/-! ### Reading -/

theorem highestOffset (h : Log.Remains E c s L) (hnext : L.next < 2 ^ 64 - 1) :
    s.1.highestOffset = .ok (UInt64.ofNat (L.act.start + L.act.seen c - 1)) := by
  obtain ⟨ss, t, hseg, -, ht⟩ := h.last
  unfold Layout.next at hnext
  exact highestOffset_of_next (by rw [hseg, List.getLast?_concat]) (ht.next_toNat (by omega))

/-- No block ends behind what is seen of the last one. -/
theorem end_le (hb : b ∈ L.blocks) : b.start + b.seen c ≤ L.act.start + L.act.seen c := by
  rcases List.mem_append.mp hb with hb | hb
  · obtain ⟨-, hpos, hend⟩ := L.tiles.mem_bounds b hb
    have := Block.seen_le_len (c := c) hpos
    omega
  · rw [List.mem_singleton.mp hb]

/-- What is found at an offset was stored there. -/
theorem read_ok (h : Log.Remains E c s L) (hM : c.maxIndexBytes.toNat ≤ 12 * 2 ^ 32)
    (hfit : L.Fits E) (hnext : L.next < 2 ^ 64 - 1) {off : UInt64} {r : Record}
    (hread : (s.1.read E s.2 off).1 = .ok r) :
    off.toNat < L.act.start + L.act.seen c ∧
      ∃ r', L.abs.get? off.toNat = some r' ∧ r = { r' with offset := off } := by
  suffices hall : ∀ r, (readIn E s.2 off s.1.segments).1 = .ok r →
      off.toNat < L.act.start + L.act.seen c ∧
        ∃ r', L.abs.get? off.toNat = some r' ∧ r = { r' with offset := off } from hall r hread
  refine readIn_result (P := fun res => ∀ r, res = .ok r →
    off.toNat < L.act.start + L.act.seen c ∧
      ∃ r', L.abs.get? off.toNat = some r' ∧ r = { r' with offset := off })
    (fun _ h => nomatch h) ?_
  rintro t ht ⟨hlo, hhi⟩ r hread
  obtain ⟨b, hb, hrem, hend⟩ := h.next_toNat hnext ht
  rw [UInt64.le_iff_toNat_le, hrem.base, ← Block.start] at hlo
  rw [UInt64.lt_iff_toNat_lt, hend] at hhi
  have hoff : off = b.base + UInt64.ofNat (off.toNat - b.start) := by
    apply UInt64.toNat_inj.mp
    have := off.toNat_lt
    rw [UInt64.toNat_add, UInt64.toNat_ofNat', ← Block.start]
    omega
  obtain ⟨r', hr', hr, -⟩ := hrem.read_ok (h.sound.segments t ht) h.mappable (h.indexes b hb) hM
    (h.room b hb) (hfit b hb) hoff (by omega) hread
  have hget := L.get?_of_mem hb hr'
  rw [Nat.add_sub_cancel' hlo] at hget
  exact ⟨Nat.lt_of_lt_of_le hhi (end_le hb), r', hget, hr⟩

/-- Nothing is found in a last segment that has nothing in its store. -/
theorem read_empty (h : Log.Remains E c s L) (hnext : L.next < 2 ^ 64 - 1)
    (hempty : ∀ t ∈ s.1.segments, t.baseOffset = L.act.base → t.store.bytes s.2 = [])
    (r : Record) : (s.1.read E s.2 L.act.base).1 ≠ .ok r := by
  refine readIn_result (P := fun res => res ≠ .ok r) (by simp) ?_
  rintro t ht ⟨-, hlt⟩
  obtain ⟨b, hb, hrem, hend⟩ := h.next_toNat hnext ht
  rw [UInt64.lt_iff_toNat_lt, hend, ← Block.start] at hlt
  refine (h.sound.segments t ht).read_empty (hempty t ht ?_) _ r
  rcases List.mem_append.mp hb with hb | hb
  · -- a block before the last ends where the last one starts
    obtain ⟨-, hpos, hle⟩ := L.tiles.mem_bounds b hb
    have := Block.seen_le_len (c := c) hpos
    omega
  · rw [hrem.base, List.mem_singleton.mp hb]

/-! ### What a call leaves of it -/

theorem name_ne (h : Log.Remains E c s L) {i j : Nat} {t t' : Segment}
    (ht : s.1.segments[i]? = some t) (ht' : s.1.segments[j]? = some t') (hne : j ≠ i) :
    t'.store.name ≠ t.store.name := by
  obtain ⟨b, hb, hrem⟩ := forall₂_getElem? h.segments ht
  obtain ⟨b', hb', hrem'⟩ := forall₂_getElem? h.segments ht'
  rw [(h.sound.segments t (List.mem_of_getElem? ht)).storeName,
    (h.sound.segments t' (List.mem_of_getElem? ht')).storeName, hrem.base, hrem'.base]
  intro heq
  have hbase : b'.base = b.base := by
    rw [← baseOfName_storeName b'.base, heq, baseOfName_storeName]
  obtain ⟨hi, hbi⟩ := List.getElem?_eq_some_iff.mp hb
  obtain ⟨hj, hbj⟩ := List.getElem?_eq_some_iff.mp hb'
  have hnd : (L.blocks.map Block.base).Nodup := L.distinct
  have hj' : j < (L.blocks.map Block.base).length := by simpa using hj
  have hi' : i < (L.blocks.map Block.base).length := by simpa using hi
  have heq' : (L.blocks.map Block.base)[j] = (L.blocks.map Block.base)[i] := by
    rw [List.getElem_map, List.getElem_map, hbi, hbj, hbase]
  exact hne (hnd.getElem_inj_iff.mp heq')

/-- One store has changed, with its file. -/
theorem setStore (h : Log.Remains E c s L) {i : Nat} {t : Segment} {st : Store}
    (ht : s.1.segments[i]? = some t) (htouch : Directory.Touches [t.store.name] s.2 d')
    (hsound : (s.1.setStore i st).Sound c d')
    (hmatch : ∀ b, L.blocks[i]? = some b → b.Matches E c (st.bytes d')) :
    Log.Remains E c (s.1.setStore i st, d') L := by
  refine ⟨hsound, h.mappable, htouch.names.trans h.names, h.room, fun b hb => ?_, ?_⟩
  · refine (h.indexes b hb).frame (htouch.others _ ?_)
    rw [List.mem_singleton, (h.sound.segments t (List.mem_of_getElem? ht)).storeName]
    exact (storeName_ne_indexName _ _).symm
  · refine forall₂_modify h.segments (fun x b _ hb hrem => ⟨⟨hrem.base, hrem.full, hrem.next⟩,
      hmatch b hb⟩) fun j x b hj hx hb hrem => hrem.frame ?_
    rw [Store.bytes, Store.bytes, htouch.others _ (by
      rw [List.mem_singleton]; exact h.name_ne ht hx hj)]

end Remains

/-- What is left, with all that is seen of the last segment in its store. -/
structure Resumed (E : Env) (c : Config) (s : LogState) (L : Layout) : Prop
    extends Log.Remains E c s L where
  seen : L.act.seen c ≤ L.act.len
  whole : ∀ t, s.1.segments.getLast? = some t → L.act.visible E c <+: t.store.bytes s.2

/-- It is enough that the last offset can be read. -/
theorem Remains.resumed (h : Log.Remains E c s L) (hM : c.maxIndexBytes.toNat ≤ 12 * 2 ^ 32)
    (hfit : L.Fits E) (hnext : L.next < 2 ^ 64 - 1)
    (hlast : 0 < L.act.seen c → ∃ r,
      (s.1.read E s.2 (UInt64.ofNat (L.act.start + L.act.seen c - 1))).1 = .ok r) :
    Log.Resumed E c s L := by
  obtain ⟨ss, t, hseg, hss, ht⟩ := h.last
  have hmem : L.act ∈ L.blocks := List.mem_append_right _ (List.mem_singleton_self _)
  suffices hall : L.act.seen c ≤ L.act.len ∧ L.act.visible E c <+: t.store.bytes s.2 by
    refine ⟨h, hall.1, fun t' ht' => ?_⟩
    rw [hseg, List.getLast?_concat, Option.some.injEq] at ht'
    exact ht' ▸ hall.2
  rcases Nat.eq_zero_or_pos (L.act.seen c) with h0 | hpos
  · rw [Block.visible, h0]
    exact ⟨Nat.zero_le _, List.nil_prefix⟩
  · obtain ⟨r, hr⟩ := hlast hpos
    have hle := Block.seen_le_succ (c := c) (b := L.act)
    have hstart : L.act.start + L.act.len = L.next := rfl
    generalize hoff : UInt64.ofNat (L.act.start + L.act.seen c - 1) = off at hr
    have hnat : off.toNat = L.act.start + (L.act.seen c - 1) := by
      rw [← hoff, UInt64.toNat_ofNat', Nat.mod_eq_of_lt (by omega)]
      omega
    -- only the last segment covers it
    have hread : (t.read E s.2 off).1 = .ok r := by
      have hnone : ∀ u ∈ ss, ¬ covers off u := by
        rintro u hu ⟨-, hlt⟩
        obtain ⟨i, hi⟩ := List.getElem?_of_mem hu
        obtain ⟨b, hb, hrem⟩ := forall₂_getElem? hss hi
        have hb := List.mem_of_getElem? hb
        obtain ⟨-, hlen, hend⟩ := L.tiles.mem_bounds b hb
        have := Block.seen_le_len (c := c) hlen
        rw [UInt64.lt_iff_toNat_lt, hrem.next_toNat (by omega)] at hlt
        omega
      have hcov : t.baseOffset ≤ off ∧ off < t.nextOffset := by
        rw [UInt64.le_iff_toNat_le, UInt64.lt_iff_toNat_lt, ht.next_toNat (by omega), ht.base,
          ← Block.start]
        omega
      rw [Log.read, hseg, readIn_append_right hnone, readIn, if_pos hcov] at hr
      exact hr
    obtain ⟨r', hr', rfl, hframe⟩ := ht.read_ok (h.sound.segments t (by rw [hseg]; simp))
      h.mappable (h.indexes _ hmem) hM (h.room _ hmem) (hfit _ hmem)
      (j := L.act.seen c - 1) (UInt64.toNat_inj.mp (by
        rw [hnat, UInt64.toNat_add, UInt64.toNat_ofNat', ← Block.start]; omega))
      (by omega) hread
    have hlt := (List.getElem?_eq_some_iff.mp hr').1
    refine ⟨by unfold Block.len; omega, ht.store.whole hr' (by omega) ?_⟩
    convert hframe using 4
    apply UInt64.toNat_inj.mp
    rw [hnat, UInt64.toNat_add, UInt64.toNat_ofNat', ← Block.start]
    omega

namespace Resumed

theorem setStore (h : Log.Resumed E c s L) {i : Nat} {t : Segment} {st : Store}
    (ht : s.1.segments[i]? = some t) (htouch : Directory.Touches [t.store.name] s.2 d')
    (hsound : (s.1.setStore i st).Sound c d') (hgrow : t.store.bytes s.2 <+: st.bytes d')
    (hother : i + 1 ≠ s.1.segments.length → st.bytes d' = t.store.bytes s.2) :
    Log.Resumed E c (s.1.setStore i st, d') L := by
  obtain ⟨ss, u, hseg, -, hu⟩ := h.last
  have hlen := h.segments.length_eq
  rw [hseg, List.length_append, List.length_singleton, L.length_blocks] at hlen
  have hact : i + 1 = s.1.segments.length → t = u := by
    intro hi
    rw [hseg, List.length_append, List.length_singleton] at hi
    rw [hseg, show i = ss.length by omega, List.getElem?_concat_length, Option.some.injEq] at ht
    exact ht.symm
  refine ⟨h.toRemains.setStore ht htouch hsound fun b hb => ?_, h.seen, fun t' ht' => ?_⟩
  · by_cases hi : i + 1 = s.1.segments.length
    · obtain rfl : b = L.act := by
        rw [hseg, List.length_append, List.length_singleton] at hi
        rw [Layout.blocks, show i = L.full.length by omega, List.getElem?_concat_length,
          Option.some.injEq] at hb
        exact hb.symm
      refine .inr ⟨h.seen, (h.whole t ?_).trans hgrow⟩
      rw [hact hi, hseg, List.getLast?_concat]
    · obtain ⟨b', hb', hrem⟩ := forall₂_getElem? h.segments ht
      obtain rfl : b' = b := Option.some.inj (hb'.symm.trans hb)
      rw [hother hi]
      exact hrem.store
  · rw [List.getLast?_eq_getElem?] at ht'
    have hlen' : (s.1.setStore i st).segments.length = s.1.segments.length := by
      simp [Log.setStore]
    rw [hlen'] at ht'
    by_cases hi : i + 1 = s.1.segments.length
    · rw [show s.1.segments.length - 1 = i by omega, Log.getElem?_setStore ht,
        Option.some.injEq] at ht'
      rw [← ht']
      refine (h.whole t ?_).trans hgrow
      rw [hact hi, hseg, List.getLast?_concat]
    · have hne : i ≠ s.1.segments.length - 1 := by
        have := (List.getElem?_eq_some_iff.mp ht).1
        omega
      rw [Log.getElem?_setStore_of_ne _ hne] at ht'
      have hsame : t'.store.bytes d' = t'.store.bytes s.2 := by
        rw [Store.bytes, Store.bytes, htouch.others _ (by
          rw [List.mem_singleton]; exact h.name_ne ht ht' hne.symm)]
      rw [hsame]
      exact h.whole t' (by rw [List.getLast?_eq_getElem?]; exact ht')

theorem flushStable (E : Env) (c : Config) (L : Layout) :
    Reader.FlushStable fun l d => Log.Resumed E c (l, d) L := by
  refine ⟨fun h => h.sound.ready, ?_⟩
  intro l d d' i t st h ht hfl
  obtain ⟨f, hf, hcar⟩ := (h.sound.segments t (List.mem_of_getElem? ht)).carries
  obtain ⟨st', d'', hfl', hcar', -, -, -, htouch⟩ := Store.flush_spec hcar
  rw [hfl, Prod.mk.injEq, Prod.mk.injEq] at hfl'
  obtain ⟨-, rfl, rfl⟩ := hfl'
  have hbytes : st.bytes d' = t.store.bytes d := hcar'.bytes.trans hcar.bytes.symm
  exact h.setStore ht htouch (h.sound.flush ht hfl).1 ⟨[], by rw [hbytes, List.append_nil]⟩
    fun _ => hbytes

/-- An append fails, and leaves its frame behind what is seen. -/
theorem append (h : Log.Resumed E c s L) (r : Record) :
    ∃ s', s.1.append E s.2 (some r) = (.error (.err .eof), s') ∧ Log.Resumed E c s' L := by
  obtain ⟨ss, t, hseg, -, ht⟩ := h.last
  have hmem : t ∈ s.1.segments := by rw [hseg]; simp
  have hact : s.1.activeSegment = some t := by
    rw [h.sound.activeSegment, hseg, List.getLast?_concat]
  have hroom : c.maxIndexBytes.toNat < t.index.size.toNat + 12 := by
    rw [ht.full]
    omega
  obtain ⟨st, d', p, happ, hbytes, htouch⟩ :=
    (h.sound.segments t hmem).append_bytes h.mappable E r hroom
  have hset : s.1.setActive { t with store := st } = s.1.setStore ss.length st := by
    simp [Log.setActive, h.sound.attached, Log.setStore, hseg, modify_concat]
  have hok : s.1.append E s.2 (some r) =
      (.error (.err .eof), s.1.setStore ss.length st, d') := by
    simp only [Log.append, hact, happ, hset]
  obtain ⟨st₁, d₁, happ₁, hsound, -⟩ := h.sound.append_orphans h.mappable E r hact hroom
  rw [hok, Prod.mk.injEq, Prod.mk.injEq] at happ₁
  obtain ⟨-, hl, rfl⟩ := happ₁
  rw [← hl] at hsound
  have hi : s.1.segments[ss.length]? = some t := by
    rw [hseg, List.getElem?_concat_length]
  refine ⟨_, hok, h.setStore hi htouch hsound ⟨_, hbytes.symm⟩ fun hne => ?_⟩
  exact absurd (by rw [hseg]; simp) hne

end Resumed

end Log

end DistributedLog
