import Mathlib.Data.List.Induction
import DistributedLog.Operations
import DistributedLog.Trace

/-!
# Runs of appends

The state after any number of appends that succeed stands for a layout
(`Log.Rep.appends`), and as long as the limits are not reached they all go
to the active segment (`Log.Rep.fill`). The second is what runs of a length
that nobody can write down are built with.
-/

namespace DistributedLog

/-- One append that succeeds. -/
def Appends (E : Env) (s : LogState) (e : Record × UInt64) (s' : LogState) : Prop :=
  s.1.append E s.2 (some e.1) = (.ok e.2, s')

theorem Appends.of {E : Env} {s : LogState} (r : Record) (off : UInt64)
    (h : (s.1.append E s.2 (some r)).1 = .ok off) :
    Appends E s (r, off) (s.1.append E s.2 (some r)).2 :=
  Prod.ext h rfl

variable {E : Env} {c : Config} {s : LogState} {L : Layout}

/-! ## The records of a run -/

/-- The records with the offsets that they get. -/
def numbered (next : Nat) (rs : List Record) : List (Record × UInt64) :=
  rs.zipIdx.map fun p => (p.1, UInt64.ofNat (next + p.2))

theorem numbered_concat (next : Nat) (rs : List Record) (r : Record) :
    numbered next (rs ++ [r]) = numbered next rs ++ [(r, UInt64.ofNat (next + rs.length))] := by
  simp [numbered, List.zipIdx_append]

@[simp] theorem length_numbered (next : Nat) (rs : List Record) :
    (numbered next rs).length = rs.length := by
  simp [numbered]

theorem mem_numbered {next : Nat} {rs : List Record} {p : Record × UInt64} :
    p ∈ numbered next rs ↔ ∃ i, rs[i]? = some p.1 ∧ p.2 = UInt64.ofNat (next + i) := by
  rw [numbered, List.mem_map]
  constructor
  · rintro ⟨⟨r, i⟩, hri, rfl⟩
    exact ⟨i, List.mem_zipIdx_iff_getElem?.mp hri, rfl⟩
  · rintro ⟨i, hi, hoff⟩
    exact ⟨(p.1, i), List.mem_zipIdx_iff_getElem?.mpr hi, Prod.ext rfl hoff.symm⟩

/-- The record at an offset of the sequence, with that offset. -/
theorem mem_numbered_of_get? {first : Nat} {rs : List Record} {off : UInt64} {r : Record}
    (h : AppendOnly.get? ⟨first, rs⟩ off.toNat = some r) : (r, off) ∈ numbered first rs := by
  by_cases hle : first ≤ off.toNat
  · rw [AppendOnly.get?_of_le hle] at h
    refine mem_numbered.mpr ⟨off.toNat - first, h, ?_⟩
    rw [Nat.add_sub_cancel' hle, UInt64.ofNat_toNat]
  · rw [AppendOnly.get?_of_lt (Nat.not_le.mp hle)] at h
    cases h

theorem map_snd_numbered (next : Nat) (rs : List Record) :
    (numbered next rs).map Prod.snd =
      (List.range rs.length).map fun i => UInt64.ofNat (next + i) := by
  rw [numbered, List.map_map, List.range_eq_range', ← List.zipIdx_map_snd, List.map_map]
  rfl

/-- Offsets that do not wrap increase. -/
theorem pairwise_numbered {next : Nat} {rs : List Record} (h : next + rs.length ≤ 2 ^ 64) :
    (numbered next rs).Pairwise fun p q => p.2 < q.2 := by
  rw [← List.pairwise_map (f := Prod.snd), map_snd_numbered, List.pairwise_map]
  refine List.pairwise_lt_range.imp_of_mem fun {i j} hi hj hij => ?_
  rw [List.mem_range] at hi hj
  rw [UInt64.lt_iff_toNat_lt, UInt64.toNat_ofNat', UInt64.toNat_ofNat',
    Nat.mod_eq_of_lt (by omega), Nat.mod_eq_of_lt (by omega)]
  omega

/-- The records appended are those of the layout, numbered from the initial
offset on. -/
theorem Log.Rep.appends_abs {s₀ : LogState} {es : List (Record × UInt64)}
    (hnew : newLog Directory.empty c = (.ok (), s₀)) (htr : Trace (Appends E) s₀ es s)
    (hes : ∀ e ∈ es, e.2.toNat < 2 ^ 64 - 1) :
    ∃ L, s.1.Rep E c.withDefaults s.2 L ∧
      L.abs = ⟨c.initialOffset.toNat, es.map Prod.fst⟩ ∧
      es = numbered c.initialOffset.toNat (es.map Prod.fst) := by
  induction htr with
  | init => exact ⟨_, .of_newLog E hnew, rfl, rfl⟩
  | @snoc es e s s' _ happ ih =>
      obtain ⟨L, hrep, habs, hnum⟩ := ih fun e he => hes e (List.mem_append_left _ he)
      have hoff := hes _ (List.mem_append_right _ (List.mem_singleton_self _))
      have hnext := hrep.append_off happ
      obtain ⟨L', hrep', habs'⟩ := hrep.append_abs happ (by omega)
      refine ⟨L', hrep', ?_, ?_⟩
      · rw [habs', habs, AppendOnly.push, List.map_append]
        rfl
      · rw [List.map_append, List.map_singleton, numbered_concat, ← hnum, List.length_map]
        have hlen : c.initialOffset.toNat + es.length = L.next := by
          rw [← L.abs_next, habs, AppendOnly.next, List.length_map]
        rw [hlen, ← hnext, UInt64.ofNat_toNat]

theorem Log.Rep.appends {s₀ : LogState} {es : List (Record × UInt64)}
    (hnew : newLog Directory.empty c = (.ok (), s₀)) (htr : Trace (Appends E) s₀ es s)
    (hes : ∀ e ∈ es, e.2.toNat < 2 ^ 64 - 1) : ∃ L, s.1.Rep E c.withDefaults s.2 L := by
  obtain ⟨L, hrep, -⟩ := Log.Rep.appends_abs hnew htr hes
  exact ⟨L, hrep⟩

/-! ## Filling a segment -/

/-- Frames of at most `K` bytes. -/
def FramesWithin (E : Env) (K : Nat) (rs : List Record) : Prop :=
  ∀ r ∈ rs, ∀ off, (frame (E.marshal { r with offset := off })).length ≤ K

theorem length_frames_le {K : Nat} {rs : List Record} (h : FramesWithin E K rs) (base : UInt64) :
    (frames E base rs).length ≤ K * rs.length := by
  induction rs generalizing base with
  | nil => exact Nat.zero_le _
  | cons r rs ih =>
      have hhead := h r List.mem_cons_self base
      have htail := ih (fun r hr => h r (List.mem_cons_of_mem _ hr)) (base + 1)
      rw [frames, List.length_append, List.length_cons, Nat.mul_succ]
      omega

/-- A record of one byte, marshalled: three bytes for the value and at most
eleven for the offset, behind a length of eight. -/
theorem framesWithin_goEnv {rs : List Record} (h : ∀ r ∈ rs, ∃ b, r = ⟨[b], 0, 0, 0⟩) :
    FramesWithin goEnv 22 rs := by
  intro r hr off
  obtain ⟨b, rfl⟩ := h r hr
  have hoff : off.toNat < 128 ^ 10 := Nat.lt_of_lt_of_le off.toNat_lt (by decide)
  have hlen : (Wire.varint off.toNat).length ≤ 10 := Wire.length_groups_of_lt hoff _
  have hvalue : Wire.lenField 1 [b] = [10, 1, b] := rfl
  have hfield : (Wire.varintField 2 off.toNat).length = 1 + (Wire.varint off.toNat).length := by
    rw [Wire.varintField, List.length_append]
    rfl
  have hmarshal : (Wire.record ⟨[b], off, 0, 0⟩).length ≤ 14 := by
    unfold Wire.record
    simp only [List.cons_ne_nil, if_false, if_true, List.append_nil, List.length_append, hvalue]
    split
    · simp
    · simp only [hfield, List.length_cons, List.length_nil]
      omega
  rw [length_frame, lenWidth]
  exact Nat.add_le_add_right hmarshal 8

/-- Short of the limits no new segment follows. -/
theorem Layout.grow_eq_push {r : Record} {h : L.next + 1 < 2 ^ 64}
    (hstore : (frames E L.act.base (L.act.records ++ [r])).length < c.maxStoreBytes.toNat)
    (hindex : 12 * (L.act.len + 1) < c.maxIndexBytes.toNat) : L.grow E c r h = L.push r h := by
  unfold grow
  rw [if_neg]
  rw [Block.isMaxed, Bool.or_eq_true, decide_eq_true_eq, decide_eq_true_eq, UInt64.le_iff_toNat_le,
    UInt64.toNat_ofNat']
  have hmod := Nat.mod_le (frames E L.act.base (L.act.records ++ [r])).length (2 ^ 64)
  have hlen : Block.len ⟨L.act.base, L.act.records ++ [r]⟩ = L.act.len + 1 := by simp [Block.len]
  simp only [push, hlen]
  omega

/-- Appends that stay short of the limits all go to the active segment. -/
theorem Log.Rep.fill (h : s.1.Rep E c s.2 L) {K : Nat} (rs : List Record)
    (hK : FramesWithin E K rs)
    (hstore : (frames E L.act.base L.act.records).length + K * rs.length < c.maxStoreBytes.toNat)
    (hindex : 12 * (L.act.len + rs.length) < c.maxIndexBytes.toNat)
    (hnext : L.next + rs.length < 2 ^ 64) :
    ∃ s' L', Trace (Appends E) s (numbered L.next rs) s' ∧ s'.1.Rep E c s'.2 L' ∧
      L'.lowest = L.lowest ∧ L'.full = L.full ∧ L'.act = ⟨L.act.base, L.act.records ++ rs⟩ := by
  induction rs using List.reverseRecOn with
  | nil => exact ⟨s, L, .init, h, rfl, rfl, by rw [List.append_nil]⟩
  | append_singleton rs r ih =>
      rw [List.length_append, List.length_singleton] at hstore hindex hnext
      rw [Nat.mul_succ] at hstore
      obtain ⟨s₁, L₁, htr, hrep, hlow, hfull, hact⟩ :=
        ih (fun r hr => hK r (List.mem_append_left _ hr)) (by omega) (by omega) (by omega)
      have hlen : L₁.act.len = L.act.len + rs.length := by
        rw [hact, Block.len, List.length_append]
        rfl
      have hnext₁ : L₁.next = L.next + rs.length := by
        rw [Layout.next, hlen, hact, Layout.next, Block.start, Block.start, Nat.add_assoc]
      have hbytes := length_frames_le hK (L.act.base + UInt64.ofNat L.act.records.length)
      rw [List.length_append, List.length_singleton, Nat.mul_succ] at hbytes
      have hstore₁ : (frames E L₁.act.base (L₁.act.records ++ [r])).length <
          c.maxStoreBytes.toNat := by
        have hsplit := frames_append (E := E) L.act.base L.act.records (rs ++ [r])
        rw [hact, List.append_assoc, hsplit, List.length_append]
        omega
      obtain ⟨l₂, d₂, happ, hrep₂⟩ := hrep.append r (by omega) (by omega)
      rw [Layout.grow_eq_push hstore₁ (by omega)] at hrep₂
      refine ⟨(l₂, d₂), _, ?_, hrep₂, hlow, hfull, ?_⟩
      · rw [numbered_concat, ← hnext₁]
        exact htr.snoc happ
      · simp only [Layout.push, hact, List.append_assoc]

/-! ## A segment of any number of records -/

/-- Limits that `n + 1` short records stay under. -/
def wideConfig (n : Nat) : Config := ⟨UInt64.ofNat (2 ^ 63), UInt64.ofNat (12 * (n + 2)), 0⟩

/-- A record, and `n` others after it. -/
def oneThenMany (n : Nat) : List Record := ⟨[7], 0, 0, 0⟩ :: List.replicate n ⟨[8], 0, 0, 0⟩

theorem length_oneThenMany (n : Nat) : (oneThenMany n).length = n + 1 := by
  rw [oneThenMany, List.length_cons, List.length_replicate]

theorem last_oneThenMany {n : Nat} (hn : 0 < n) : (oneThenMany n)[n]? = some ⟨[8], 0, 0, 0⟩ := by
  obtain ⟨m, rfl⟩ := Nat.exists_eq_add_of_lt hn
  rw [oneThenMany, List.getElem?_cons_succ, List.getElem?_replicate_of_lt (by omega)]

theorem framesWithin_oneThenMany (n : Nat) : FramesWithin goEnv 22 (oneThenMany n) := by
  refine framesWithin_goEnv fun r hr => ?_
  rcases List.mem_cons.mp hr with rfl | hr
  · exact ⟨7, rfl⟩
  · exact ⟨8, List.eq_of_mem_replicate hr⟩

theorem maxIndexBytes_wideConfig {n : Nat} (hn : n < 2 ^ 40) :
    (wideConfig n).withDefaults.maxIndexBytes.toNat = 12 * (n + 2) := by
  rw [Config.toNat_withDefaults, wideConfig, UInt64.toNat_ofNat', Nat.mod_eq_of_lt (by omega)]
  simp

theorem maxStoreBytes_wideConfig (n : Nat) :
    (wideConfig n).withDefaults.maxStoreBytes.toNat = 2 ^ 63 := by
  have hval : (UInt64.ofNat (2 ^ 63)).toNat = 2 ^ 63 := by
    rw [UInt64.toNat_ofNat', Nat.mod_eq_of_lt (by omega)]
  have hne : UInt64.ofNat (2 ^ 63) ≠ 0 := by
    intro h0
    rw [h0] at hval
    exact absurd hval (by decide)
  change (if UInt64.ofNat (2 ^ 63) = 0 then (1024 : UInt64) else UInt64.ofNat (2 ^ 63)).toNat = _
  rw [if_neg hne, hval]

/-- All of them can be appended to the first segment. -/
theorem exists_one_segment {n : Nat} (hn : n < 2 ^ 40) :
    ∃ s₀ s L, newLog Directory.empty (wideConfig n) = (.ok (), s₀) ∧
      Trace (Appends goEnv) s₀ (numbered 0 (oneThenMany n)) s ∧
      s.1.Rep goEnv (wideConfig n).withDefaults s.2 L ∧ L.full = [] ∧
      L.act = ⟨0, oneThenMany n⟩ := by
  have hindex := maxIndexBytes_wideConfig hn
  have hc : (wideConfig n).withDefaults.Mappable :=
    ⟨by rw [hindex]; omega, by rw [hindex]; omega⟩
  have hlen := length_oneThenMany n
  have hempty : (Layout.fresh (wideConfig n).withDefaults.initialOffset).next = 0 := rfl
  obtain ⟨l₀, d₀, hnew, hrep⟩ := newLog_empty goEnv (wideConfig n) rfl hc
  obtain ⟨s, L, htr, hrep', -, hfull, hact⟩ := Log.Rep.fill (s := (l₀, d₀)) hrep (oneThenMany n)
    (framesWithin_oneThenMany n)
    (by
      rw [maxStoreBytes_wideConfig, hlen]
      simp only [Layout.fresh, frames, List.length_nil]
      omega)
    (by rw [hindex, hlen]; simp only [Layout.fresh, Block.len, List.length_nil]; omega)
    (by rw [hempty, hlen]; omega)
  rw [hempty] at htr
  exact ⟨(l₀, d₀), s, L, hnew, htr, hrep', hfull, hact⟩

/-- Of a log with a single segment the entry is read whose number is that of
the offset modulo 2^32. -/
theorem Log.Rep.read_mod (h : s.1.Rep E c s.2 L) (hfull : L.full = []) {off : UInt64} {i : Nat}
    {r : Record} (hlt : i < L.act.len) (hi : L.act.records[i % 2 ^ 32]? = some r)
    (hoff : off.toNat = L.act.start + i)
    (hfit : (frames E L.act.base L.act.records).length < 2 ^ 63) :
    (s.1.read E s.2 off).1 = .ok { r with offset := L.act.base + UInt64.ofNat (i % 2 ^ 32) } := by
  obtain ⟨ss, t, hseg, hss, ht, -⟩ := h.active
  rw [hfull] at hss
  rw [List.forall₂_nil_right_iff.mp hss, List.nil_append] at hseg
  have hcover := (ht.covers_iff off).mpr ⟨by omega, by omega⟩
  obtain ⟨t', d', hread, -⟩ := (Segment.repWith_nil.mpr ht.rep).read off hlt hi
    (by rw [ht.base]; exact hoff) (by rw [ht.base]; exact hfit)
  rw [ht.base] at hread
  simp only [Log.read, hseg, readIn, if_pos hcover, hread]

/-- Record 2^32 of a segment cannot be read: the first one is. -/
theorem read_one_segment (h : s.1.Rep goEnv c s.2 L) (hfull : L.full = [])
    (hact : L.act = ⟨0, oneThenMany (2 ^ 32)⟩) :
    (s.1.read goEnv s.2 4294967296).1 = .ok ⟨[7], 0, 0, 0⟩ := by
  have hlen := length_oneThenMany (2 ^ 32)
  have hbytes := length_frames_le (framesWithin_oneThenMany (2 ^ 32)) 0
  rw [hlen] at hbytes
  have hoff : (4294967296 : UInt64).toNat = L.act.start + 2 ^ 32 := by
    rw [hact]
    rfl
  have hread := h.read_mod hfull (r := ⟨[7], 0, 0, 0⟩)
    (by rw [hact, Block.len, hlen]; omega) (by rw [hact, Nat.mod_self]; rfl) hoff
    (by rw [hact]; exact Nat.lt_of_le_of_lt hbytes (by decide))
  rw [hread, hact, Nat.mod_self]
  rfl

end DistributedLog
