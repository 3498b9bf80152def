import DistributedLog.Appends
import DistributedLog.Refinement

/-!
# The segments of a log

What the counters of a log say about each other: a segment's offsets and
index and store agree on the records it holds, each segment ends where the
next one starts, and a new one was started as soon as the last was full and
no sooner. Apart from the last of these everything is in `Log.Rep`;
`Layout.Rolled` adds it, a step of a run keeps it (`Layout.Rolled.step`), and
`segments_consistent` reads the whole off the code's own state.
-/

namespace DistributedLog

/-! ## Full blocks -/

namespace Block

def dropLast (b : Block) : Block := ⟨b.base, b.records.dropLast⟩

theorem not_isMaxed_of_nil {E : Env} {c : Config} (hstore : 0 < c.maxStoreBytes.toNat)
    (hindex : 0 < c.maxIndexBytes.toNat) (base : UInt64) : isMaxed E c ⟨base, []⟩ = false := by
  rw [isMaxed, Bool.or_eq_false_iff, decide_eq_false_iff_not, decide_eq_false_iff_not,
    UInt64.le_iff_toNat_le]
  exact ⟨Nat.not_le.mpr hstore, Nat.not_le.mpr hindex⟩

end Block

namespace Layout

/-- Every block but the last is full, and its last record made it so. -/
structure Rolled (E : Env) (c : Config) (L : Layout) : Prop where
  full : ∀ b ∈ L.full, b.isMaxed E c = true ∧ b.dropLast.isMaxed E c = false
  act : L.act.isMaxed E c = false

variable {E : Env} {c : Config} {L L' : Layout}

theorem Rolled.fresh (hstore : 0 < c.maxStoreBytes.toNat) (hindex : 0 < c.maxIndexBytes.toNat)
    (base : UInt64) : (Layout.fresh base).Rolled E c :=
  ⟨fun _ hb => absurd hb List.not_mem_nil, Block.not_isMaxed_of_nil hstore hindex base⟩

theorem Rolled.grow (h : L.Rolled E c) (hstore : 0 < c.maxStoreBytes.toNat)
    (hindex : 0 < c.maxIndexBytes.toNat) (r : Record) (hnext : L.next + 1 < 2 ^ 64) :
    (L.grow E c r hnext).Rolled E c := by
  unfold Layout.grow
  split
  case isFalse hmax => exact ⟨h.full, Bool.eq_false_iff.mpr hmax⟩
  case isTrue hmax =>
    refine ⟨fun b hb => ?_, Block.not_isMaxed_of_nil hstore hindex _⟩
    rcases List.mem_append.mp hb with hb | hb
    · exact h.full b hb
    · rw [List.mem_singleton.mp hb]
      refine ⟨hmax, ?_⟩
      have hdrop : (L.push r hnext).act.dropLast = L.act := by
        simp only [push, Block.dropLast, List.dropLast_concat]
      rw [hdrop]
      exact h.act

/-- Blocks dropped from the front do not matter. -/
theorem Rolled.of_subset (h : L.Rolled E c) (hfull : ∀ b ∈ L'.full, b ∈ L.full)
    (hact : L'.act = L.act) : L'.Rolled E c :=
  ⟨fun b hb => h.full b (hfull b hb), by rw [hact]; exact h.act⟩

theorem Rolled.step {e : LogEvent} (h : L.Rolled E c) (hstore : 0 < c.maxStoreBytes.toNat)
    (hindex : 0 < c.maxIndexBytes.toNat) (hstep : L.Step E c e L') : L'.Rolled E c := by
  cases hstep with
  | append r hnext => exact h.grow hstore hindex r hnext
  | truncate _ _ _ hfull hact => exact h.of_subset hfull hact
  | read off => exact h
  | reopen => exact h

end Layout

theorem Config.maxStoreBytes_pos (c : Config) : 0 < c.withDefaults.maxStoreBytes.toNat := by
  unfold Config.withDefaults
  simp only
  split
  case isTrue => decide
  case isFalse h => exact Nat.pos_of_ne_zero fun h0 => h (UInt64.toNat_inj.mp h0)

/-- A step that leaves no segment with more than 2^32 records. -/
def NarrowStep (E : Env) (c : Config) (s : LogState) (e : LogEvent) (s' : LogState) : Prop :=
  LogStep E c s e s' ∧ s'.1.EntriesFit

/-- Every run of the log is a run of layouts, in which segments are started
when they have to be. -/
theorem Log.Rep.run {E : Env} {c : Config} {s₀ s : LogState} {es : List LogEvent}
    (hnew : newLog Directory.empty c = (.ok (), s₀)) (htr : Trace (NarrowStep E c) s₀ es s) :
    ∃ L : Layout, s.1.Rep E c.withDefaults s.2 L ∧ (∀ b ∈ L.blocks, b.len ≤ 2 ^ 32) ∧
      L.Fits E ∧ L.Rolled E c.withDefaults := by
  have hc := Config.mappable_of_newLog hnew
  have hstore := c.maxStoreBytes_pos
  have hfresh : ∀ b ∈ (Layout.fresh c.withDefaults.initialOffset).blocks, b.len ≤ 2 ^ 32 := by
    intro b hb
    rw [List.mem_singleton.mp hb]
    exact Nat.zero_le _
  exact htr.invariant
    (I := fun s => ∃ L : Layout, s.1.Rep E c.withDefaults s.2 L ∧
      (∀ b ∈ L.blocks, b.len ≤ 2 ^ 32) ∧ L.Fits E ∧ L.Rolled E c.withDefaults)
    ⟨_, .of_newLog E hnew, hfresh, Layout.fits_fresh E _, .fresh hstore hc.pos _⟩
    fun s e s' ⟨L, hrep, h32, hfit, hrolled⟩ ⟨hstep, hfit32⟩ => by
      obtain ⟨L', hlayout, hrep', hfit'⟩ := hrep.step rfl h32 hfit hstep
      exact ⟨L', hrep', hrep'.len_le hfit32, hfit', hrolled.step hstore hc.pos hlayout⟩

/-- With an index of at most 12 * 2^32 bytes no segment gets there. -/
theorem narrow_of_maxIndexBytes {E : Env} {c : Config}
    (hM : c.maxIndexBytes.toNat ≤ 12 * 2 ^ 32) {s₀ s : LogState} {es : List LogEvent}
    (hnew : newLog Directory.empty c = (.ok (), s₀)) (htr : Trace (LogStep E c) s₀ es s) :
    Trace (NarrowStep E c) s₀ es s := by
  induction htr with
  | init => exact .init
  | snoc _ hstep ih =>
      obtain ⟨L, hrep, h32, hfit, -⟩ := Log.Rep.run hnew ih
      obtain ⟨L', -, hrep', -⟩ := hrep.step rfl h32 hfit hstep
      refine ih.snoc ⟨hstep, fun t ht => ?_⟩
      obtain ⟨b, -, hhold⟩ := AllHold.of_mem hrep'.segments ht
      have hroom := hhold.rep.index.room
      have hM' := Config.withDefaults_le hM
      rw [hhold.rep.index_size]
      rw [length_entriesOf] at hroom
      omega

/-! ## What the counters say -/

namespace Segment

/-- The counters and files of a segment that holds the records `rs`. -/
structure Consistent (E : Env) (d : Dir) (t : Segment) (rs : List Record) : Prop where
  next : t.nextOffset.toNat = t.baseOffset.toNat + rs.length
  indexSize : t.index.size.toNat = 12 * (t.nextOffset.toNat - t.baseOffset.toNat)
  indexLimit : t.index.size ≤ t.config.maxIndexBytes
  entry : ∀ i < rs.length, ∃ off pos, t.index.entryAt d (UInt32.ofNat i) = .ok (off, pos) ∧
    off.toNat = i ∧ pos.toNat = (frames E t.baseOffset (rs.take i)).length
  content : t.store.bytes d = frames E t.baseOffset rs
  storeSize : t.store.size.toNat = (frames E t.baseOffset rs).length

/-- The segment as it was when it held `rs`. -/
def holding (E : Env) (t : Segment) (rs : List Record) : Segment :=
  { t with
    store := { t.store with size := UInt64.ofNat (frames E t.baseOffset rs).length }
    index := { t.index with size := UInt64.ofNat (12 * rs.length) } }

end Segment

/-- What is kept of the segments of a log. -/
structure LogInvariant (E : Env) (s : LogState) : Prop where
  active : ∃ ss t, s.1.segments = ss ++ [t] ∧ s.1.activeSegment = some t ∧ t.isMaxed = false
  chain : ∀ (i : Nat) t t', s.1.segments[i]? = some t → s.1.segments[i + 1]? = some t' →
    t.nextOffset = t'.baseOffset
  segment : ∀ (i : Nat) t, s.1.segments[i]? = some t → ∃ rs, t.Consistent E s.2 rs ∧
    (i + 1 < s.1.segments.length →
      rs ≠ [] ∧ t.isMaxed = true ∧ (t.holding E rs.dropLast).isMaxed = false)

theorem Segment.Holds.consistent {E : Env} {c : Config} {d : Dir} {t : Segment} {b : Block}
    (h : t.Holds E c d b) (h32 : b.len ≤ 2 ^ 32)
    (hfit : (frames E b.base b.records).length < 2 ^ 63) : t.Consistent E d b.records := by
  have hroom := h.rep.index.room
  have hsize := h.rep.index_size
  rw [length_entriesOf] at hroom
  rw [← h.base] at hfit
  refine ⟨h.rep.next, by rw [h.rep.next, hsize]; omega, ?_, fun i hi => ?_, h.rep.store.bytes, ?_⟩
  · rw [UInt64.le_iff_toNat_le, hsize, h.rep.config]
    exact hroom
  · have hnum : (UInt32.ofNat i).toNat = i := by
      rw [UInt32.toNat_ofNat', Nat.mod_eq_of_lt (Nat.lt_of_lt_of_le hi h32)]
    have hentry := getElem?_entriesOf (E := E) t.baseOffset b.records hi
    have hprefix : (frames E t.baseOffset (b.records.take i)).length ≤
        (frames E t.baseOffset b.records).length := by
      have hsplit := frames_append (E := E) t.baseOffset (b.records.take i) (b.records.drop i)
      rw [List.take_append_drop] at hsplit
      rw [hsplit, List.length_append]
      omega
    refine ⟨_, _, Index.entryAt_spec h.rep.index (by rw [hnum]; exact hentry), hnum, ?_⟩
    rw [UInt64.toNat_ofNat', Nat.mod_eq_of_lt (by omega)]
  · rw [h.rep.size, UInt64.toNat_ofNat', Nat.mod_eq_of_lt (by omega)]

theorem Segment.Holds.isMaxed_holding {E : Env} {c : Config} {d : Dir} {t : Segment} {b : Block}
    (h : t.Holds E c d b) : (t.holding E b.records.dropLast).isMaxed = b.dropLast.isMaxed E c := by
  have hroom := h.rep.index.room
  have hlim := h.rep.index.limit
  rw [length_entriesOf] at hroom
  have hcount : (UInt64.ofNat (12 * b.records.dropLast.length)).toNat =
      12 * b.records.dropLast.length := by
    rw [UInt64.toNat_ofNat', List.length_dropLast, Nat.mod_eq_of_lt (by omega)]
  rw [Bool.eq_iff_iff, Segment.isMaxed, Block.isMaxed, Bool.or_eq_true, Bool.or_eq_true,
    decide_eq_true_eq, decide_eq_true_eq, decide_eq_true_eq, decide_eq_true_eq]
  simp only [Segment.holding, Block.dropLast, Block.len, h.base, h.rep.config]
  rw [UInt64.le_iff_toNat_le (b := UInt64.ofNat (12 * _)), hcount]

/-- **The segments of a log.** In every state of every run in which no segment
gets more than 2^32 records, within the bounds of the offsets and files, the
log has segments, the active one last and not full; each ends where the
next one starts; each but the last is full, and was not before its last
record; and each has counted what it holds. -/
theorem segments_consistent (E : Env) (c : Config) {s₀ s : LogState} {es : List LogEvent}
    (hnew : newLog Directory.empty c = (.ok (), s₀)) (htr : Trace (NarrowStep E c) s₀ es s) :
    LogInvariant E s := by
  obtain ⟨L, hrep, h32, hfit, hrolled⟩ := Log.Rep.run hnew htr
  refine ⟨?_, fun i t t' ht ht' => ?_, fun i t ht => ?_⟩
  · obtain ⟨ss, t, hseg, -, ht, hact⟩ := hrep.active
    exact ⟨ss, t, hseg, hact, ht.isMaxed.trans hrolled.act⟩
  · obtain ⟨b, hb, hhold⟩ := AllHold.getElem? hrep.segments ht
    obtain ⟨b', hb', hhold'⟩ := AllHold.getElem? hrep.segments ht'
    rw [← UInt64.toNat_inj, hhold.next, L.end_eq hb hb', hhold'.base]
    rfl
  · obtain ⟨b, hb, hhold⟩ := AllHold.getElem? hrep.segments ht
    have hmem := List.mem_of_getElem? hb
    refine ⟨b.records, hhold.consistent (h32 b hmem) (hfit b hmem), fun hlast => ?_⟩
    rw [hrep.segments.length_eq, L.length_blocks] at hlast
    rw [Layout.blocks, List.getElem?_append_left (by omega)] at hb
    have hmem' := List.mem_of_getElem? hb
    obtain ⟨hmax, hbefore⟩ := hrolled.full b hmem'
    refine ⟨?_, hhold.isMaxed.trans hmax, hhold.isMaxed_holding.trans hbefore⟩
    exact List.ne_nil_of_length_pos (L.tiles.mem_bounds b hmem').2.1

/-- Two records in segments of one; the first is truncated away and the log
is opened again. -/
theorem segments_consistent_reopened :
    ∃ es s, Trace (NarrowStep goEnv ⟨64, 12, 5⟩) (newLog Directory.empty ⟨64, 12, 5⟩).2 es s ∧
      es.length = 4 ∧ LogInvariant goEnv s := by
  have hnew : (newLog Directory.empty ⟨64, 12, 5⟩).1 = .ok () := by decide +kernel
  obtain ⟨s, htr, -⟩ := trace_twoSegments
  have hnarrow := narrow_of_maxIndexBytes (by decide) (Prod.ext hnew rfl) htr
  exact ⟨_, s, hnarrow, rfl, segments_consistent goEnv _ (Prod.ext hnew rfl) hnarrow⟩

/-- The bytes of one entry in the index file. -/
theorem Index.Holds.entry_bytes {i : Index} {d : Dir} {M : UInt64} {es : List (UInt32 × UInt64)}
    (h : i.Holds d M es) {k : Nat} {e : UInt32 × UInt64} (he : es[k]? = some e) :
    ∃ f, d.content? i.name = some f ∧ (f.drop (12 * k)).take 12 = encodeEntry e := by
  obtain ⟨f, hf, -, htake⟩ := h.file
  have hk : k < es.length := (List.getElem?_eq_some_iff.mp he).1
  have hlen : (encodeEntries (es.take k)).length = 12 * k := by
    rw [length_encodeEntries, List.length_take, Nat.min_eq_left (Nat.le_of_lt hk)]
  refine ⟨f, hf, ?_⟩
  rw [← List.take_append_drop (12 * es.length) f, htake, encodeEntries_split he, List.append_assoc,
    List.append_assoc, ← hlen, List.drop_left, List.take_left' (length_encodeEntry e)]

/-- Past the bounds. The last offset there is ends the first segment at 0,
where the second one starts; opened again, the first comes last and is
active, but full. And the entry of record 2^32 in a segment has offset 0. -/
theorem segments_inconsistent_past_bounds :
    (let c : Config := ⟨64, 12, 18446744073709551615⟩
      let s₀ := (newLog Directory.empty c).2
      let s₁ := (s₀.1.append goEnv s₀.2 (some ⟨[7], 0, 0, 0⟩)).2
      let s₂ := (newLog (s₁.1.close s₁.2).2.2 c).2
      (newLog Directory.empty c).1 = .ok () ∧
        (s₀.1.append goEnv s₀.2 (some ⟨[7], 0, 0, 0⟩)).1 = .ok 18446744073709551615 ∧
        (s₁.1.close s₁.2).1 = .ok () ∧ (newLog (s₁.1.close s₁.2).2.2 c).1 = .ok () ∧
        s₂.1.activeSegment.map Segment.isMaxed = some true) ∧
    ∃ s₀ s t f pos, newLog Directory.empty (wideConfig (2 ^ 32)) = (.ok (), s₀) ∧
      Trace (Appends goEnv) s₀ (numbered 0 (oneThenMany (2 ^ 32))) s ∧
      s.1.activeSegment = some t ∧ t.index.size.toNat = 12 * (2 ^ 32 + 1) ∧
      s.2.content? t.index.name = some f ∧
      (f.drop (12 * 2 ^ 32)).take 12 = encodeEntry (0, pos) := by
  refine ⟨by decide +kernel, ?_⟩
  obtain ⟨s₀, s, L, hnew, htr, hrep, -, hactive⟩ := exists_one_segment (n := 2 ^ 32) (by decide)
  obtain ⟨ss, t, -, -, ht, hact⟩ := hrep.active
  have hlen : L.act.len = 2 ^ 32 + 1 := by
    rw [hactive]
    exact length_oneThenMany (2 ^ 32)
  obtain ⟨f, hf, hentry⟩ := ht.rep.index.entry_bytes
    (getElem?_entriesOf t.baseOffset L.act.records (i := 2 ^ 32) (by
      unfold Block.len at hlen
      omega))
  exact ⟨s₀, s, t, f, _, hnew, htr, hact, by rw [ht.rep.index_size]; exact congrArg (12 * ·) hlen,
    hf, hentry⟩

end DistributedLog
