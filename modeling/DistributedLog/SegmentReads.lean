import DistributedLog.Appends

/-!
# What a segment answers for

`segment.Read` takes any 64-bit offset. It subtracts the base offset, which
wraps below it, passes the difference on as an `int64`, where -1 asks for the
last entry, and has it cut to 32 bits before anything is compared.

`Filled` carries a run of appends, also one whose offsets have wrapped, and
`Filled.read_eq` says what reading any offset gives. `Segment.answers_iff` has
from it the offsets at which a segment answers as it should: those less than
2^32 above the base, and those whose distance cut to 32 bits is past the end.
-/

namespace DistributedLog

namespace Segment

variable {E : Env} {c : Config} {base : UInt64}

/-- What `newSegment` finds, once it has created the files that are missing:
the files of a segment closed before, or empty ones. -/
structure Found (E : Env) (d : Dir) (base : UInt64) (rs : List Record) : Prop where
  stored : Stored E ((d.create (DistributedLog.storeName base)).create
    (DistributedLog.indexName base)) base rs
  short : rs.length ≤ 2 ^ 32
  ends : base.toNat + rs.length < 2 ^ 64
  fits : (frames E base rs).length < 2 ^ 63

theorem found_nil {d : Dir} (hfresh : ∀ n ∈ segmentFiles base, n ∉ d.names) : Found E d base [] :=
  ⟨stored_create hfresh, Nat.zero_le _, base.toNat_lt, Nat.two_pow_pos 63⟩

/-- One append to a segment that succeeds, to a file that takes it. -/
def Appends (E : Env) (s : Segment × Dir) (e : Record × UInt64) (s' : Segment × Dir) : Prop :=
  s.1.append E s.2 (some e.1) = (.ok e.2, s') ∧ (s'.1.store.bytes s'.2).length < 2 ^ 63

/-- A segment that holds `rs` from offset `base` on, modulo 2^64. -/
structure Filled (E : Env) (c : Config) (base : UInt64) (s : Segment × Dir) (rs : List Record) :
    Prop where
  atBase : s.1.baseOffset = base
  keeps : s.1.Keeps E c s.2 rs []
  next : s.1.nextOffset = base + UInt64.ofNat rs.length
  fits : (frames E base rs).length < 2 ^ 63

variable {s s' : Segment × Dir} {rs : List Record}

theorem filled_newSegment {d₀ : Dir} (hnew : newSegment d₀ base c = (.ok s.1, s.2))
    (hfound : Found E d₀ base rs) : Filled E c base s rs := by
  obtain ⟨hd, hc⟩ := newSegment_ok hnew
  rw [newSegment_create hd] at hnew
  have hd' : ((d₀.create (DistributedLog.storeName base)).create
      (DistributedLog.indexName base)).present = true := by simpa using hd
  have hroom : 12 * rs.length ≤ c.maxIndexBytes.toNat := by
    by_contra hlarge
    obtain ⟨d', hpanic⟩ := newSegment_panics hd' hc (storedWith_nil.mpr hfound.stored)
      (by omega) hfound.short
    rw [hnew] at hpanic
    cases hpanic
  obtain ⟨t, d', hnew', hb, hrep, -⟩ :=
    newSegment_stored hd' hc hfound.stored hroom hfound.short hfound.ends
  rw [hnew, Prod.mk.injEq, Except.ok.injEq] at hnew'
  obtain ⟨rfl, rfl⟩ := hnew'
  refine ⟨hb, (repWith_nil.mpr hrep).toKeeps, ?_, hfound.fits⟩
  rw [hrep.nextOffset_eq, hb]

theorem Filled.append {r : Record} {off : UInt64} (h : Filled E c base s rs)
    (happ : Appends E s (r, off) s') :
    Filled E c base s' (rs ++ [r]) ∧ off = base + UInt64.ofNat rs.length := by
  obtain ⟨happ, hfit⟩ := happ
  obtain ⟨t, d', happ', hkeeps, hb, hn, -⟩ := h.keeps.append (h.atBase.symm ▸ h.next) r
    (h.keeps.append_room happ)
  rw [happ, Prod.mk.injEq, Except.ok.injEq] at happ'
  obtain ⟨hoff, rfl⟩ := happ'
  refine ⟨⟨hb.trans h.atBase, hkeeps, ?_, ?_⟩, hoff.trans h.next⟩
  · rw [hn, h.next, List.length_append, List.length_singleton, UInt64.ofNat_add,
      UInt64.add_assoc]
    rfl
  · rw [hkeeps.store.bytes, List.append_nil, hb, h.atBase] at hfit
    exact hfit

theorem Filled.run {rs₀ : List Record} {s₀ : Segment × Dir} {es : List (Record × UInt64)}
    (h₀ : Filled E c base s₀ rs₀) (htr : Trace (Appends E) s₀ es s) :
    ∃ rs, Filled E c base s (rs₀ ++ rs) ∧
      numbered base.toNat rs₀ ++ es = numbered base.toNat (rs₀ ++ rs) := by
  induction htr with
  | init => exact ⟨[], by rwa [List.append_nil], by simp⟩
  | @snoc es e s s' _ happ ih =>
      obtain ⟨rs, hfilled, hes⟩ := ih
      obtain ⟨r, off⟩ := e
      obtain ⟨hfilled', hoff⟩ := hfilled.append happ
      refine ⟨rs ++ [r], by rwa [← List.append_assoc], ?_⟩
      rw [← List.append_assoc, hes, ← List.append_assoc, numbered_concat, hoff,
        UInt64.ofNat_add, UInt64.ofNat_toNat]

/-- Every outcome of a read. -/
theorem Filled.read_eq (h : Filled E c base s rs) (off : UInt64) :
    (s.1.read E s.2 off).1 =
      match rs[Index.entryNo rs.length (off - base)]? with
      | some r =>
          .ok { r with offset := base + UInt64.ofNat (Index.entryNo rs.length (off - base)) }
      | none => .error (.err .eof) := by
  have hix := Index.read_eq h.keeps.index (off - s.1.baseOffset)
  rw [length_entriesOf, h.atBase] at hix
  cases hr : rs[Index.entryNo rs.length (off - base)]? with
  | none =>
      rw [List.getElem?_eq_none (by rw [length_entriesOf]; exact List.getElem?_eq_none_iff.mp hr)]
        at hix
      simp only [Segment.read, h.atBase, hix]
  | some r =>
      have hlt := (List.getElem?_eq_some_iff.mp hr).1
      rw [getElem?_entriesOf _ _ hlt] at hix
      rw [← h.atBase] at hix hr
      obtain ⟨t, d', hread, -⟩ := h.keeps.read_at hr hix (h.atBase.symm ▸ h.fits)
      rw [hread, h.atBase]

theorem Filled.length_lt (h : Filled E c base s rs) : rs.length < 2 ^ 63 := by
  have hroom := h.keeps.index.room
  have hlim := h.keeps.index.limit
  rw [length_entriesOf] at hroom
  omega

/-- The offsets of the segment, by their distance from its base. A segment
whose next offset has wrapped has none. -/
theorem Filled.covers_iff (h : Filled E c base s rs) (off : UInt64) :
    (s.1.baseOffset ≤ off ∧ off < s.1.nextOffset) ↔
      (off - base).toNat < rs.length ∧ base.toNat + rs.length < 2 ^ 64 := by
  have hlen := h.length_lt
  have hoff := off.toNat_lt
  have hbase := base.toNat_lt
  rw [h.atBase, h.next, UInt64.le_iff_toNat_le, UInt64.lt_iff_toNat_lt, UInt64.toNat_add,
    UInt64.toNat_ofNat', UInt64.toNat_sub]
  omega

/-- The segment returns the record appended at the offset if it covers it,
and an error if it does not. -/
structure Answers (E : Env) (es : List (Record × UInt64)) (s : Segment × Dir) (off : UInt64) :
    Prop where
  inside : s.1.baseOffset ≤ off ∧ off < s.1.nextOffset →
    ∃ r, (r, off) ∈ es ∧ (s.1.read E s.2 off).1 = .ok { r with offset := off }
  outside : ¬ (s.1.baseOffset ≤ off ∧ off < s.1.nextOffset) →
    ∃ e, (s.1.read E s.2 off).1 = .error (.err e)

/-- Where a segment of `n` records answers: nothing is in it; or the distance
from the base fits in 32 bits and the offsets have not wrapped; or what is
left of the distance in 32 bits is past the end, and it is not taken for -1. -/
def Answerable (base : UInt64) (n : Nat) (off : UInt64) : Prop :=
  n = 0 ∨ ((off - base).toNat < 2 ^ 32 ∧ base.toNat + n < 2 ^ 64) ∨
    (n ≤ (off - base).toNat % 2 ^ 32 ∧ (off - base).toNat ≠ 2 ^ 64 - 1)

/-- The entry looked at is past the end: nothing is found, and nothing is
appended there. -/
theorem Filled.answers_past (h : Filled E c base s rs) {off : UInt64}
    (hpast : rs.length ≤ Index.entryNo rs.length (off - base)) :
    Answers E (numbered base.toNat rs) s off := by
  refine ⟨fun hin => ?_, fun _ => ⟨.eof, ?_⟩⟩
  · obtain ⟨hrel, -⟩ := (h.covers_iff off).mp hin
    have hlen := h.length_lt
    rw [Index.entryNo, if_neg (by omega)] at hpast
    exact absurd (Nat.mod_le (off - base).toNat (2 ^ 32)) (by omega)
  · rw [h.read_eq, List.getElem?_eq_none hpast]

/-- The entry looked at is there: it has to be that of the offset. -/
theorem Filled.answers_found (h : Filled E c base s rs) {off : UInt64}
    (hfound : Index.entryNo rs.length (off - base) < rs.length) :
    Answers E (numbered base.toNat rs) s off ↔
      Index.entryNo rs.length (off - base) = (off - base).toNat ∧
        base.toNat + rs.length < 2 ^ 64 := by
  have hread := h.read_eq off
  rw [List.getElem?_eq_getElem hfound] at hread
  have hback : base + UInt64.ofNat (off - base).toNat = off := by
    rw [UInt64.ofNat_toNat, UInt64.add_comm, UInt64.sub_add_cancel]
  constructor
  · intro ha
    by_cases hin : s.1.baseOffset ≤ off ∧ off < s.1.nextOffset
    · obtain ⟨r, -, hok⟩ := ha.inside hin
      rw [hread, Except.ok.injEq] at hok
      have hlen := h.length_lt
      have hoff : base + UInt64.ofNat (Index.entryNo rs.length (off - base)) = off :=
        congrArg Record.offset hok
      exact ⟨add_ofNat_inj (by omega) (off - base).toNat_lt (hoff.trans hback.symm),
        ((h.covers_iff off).mp hin).2⟩
    · obtain ⟨e, herr⟩ := ha.outside hin
      rw [hread] at herr
      cases herr
  · rintro ⟨hno, hwrap⟩
    rw [hno] at hfound
    refine ⟨fun _ => ?_, fun hout => absurd ((h.covers_iff off).mpr ⟨hfound, hwrap⟩) hout⟩
    simp only [hno] at hread
    rw [hback] at hread
    refine ⟨_, mem_numbered.mpr ⟨_, List.getElem?_eq_getElem hfound, ?_⟩, hread⟩
    rw [UInt64.ofNat_add, UInt64.ofNat_toNat, hback]

/-- **Where a segment answers only for its own offsets**, and for these. -/
theorem answers_iff {d₀ : Dir} {s₀ : Segment × Dir} {rs₀ : List Record}
    {es : List (Record × UInt64)} (hnew : newSegment d₀ base c = (.ok s₀.1, s₀.2))
    (hfound : Found E d₀ base rs₀) (htr : Trace (Appends E) s₀ es s) (off : UInt64) :
    Answers E (numbered base.toNat rs₀ ++ es) s off ↔
      Answerable base (rs₀.length + es.length) off := by
  obtain ⟨rs, h, hes⟩ := (filled_newSegment hnew hfound).run htr
  have hn : rs₀.length + es.length = (rs₀ ++ rs).length := by
    have := congrArg List.length hes
    rwa [List.length_append, length_numbered, length_numbered] at this
  rw [hes, hn]
  generalize rs₀ ++ rs = rs at h
  have hlen := h.length_lt
  rcases Nat.lt_or_ge (Index.entryNo rs.length (off - base)) rs.length with hk | hk
  · rw [h.answers_found hk, Answerable]
    revert hk
    unfold Index.entryNo
    split
    · intro hk
      constructor <;> omega
    · intro hk
      constructor <;> omega
  · refine iff_of_true (h.answers_past hk) ?_
    revert hk
    unfold Index.entryNo Answerable
    split <;> omega

/-- A segment with one record, appended at offset 1. -/
theorem one_record : ∃ s₀ s, newSegment Directory.empty 1 ⟨64, 24, 1⟩ = (.ok s₀.1, s₀.2) ∧
    Trace (Appends goEnv) s₀ [(⟨[7], 0, 0, 0⟩, 1)] s ∧
    Filled goEnv ⟨64, 24, 1⟩ 1 s [⟨[7], 0, 0, 0⟩] := by
  have hfresh : ∀ n ∈ segmentFiles 1, n ∉ (Directory.empty : Dir).names :=
    fun _ _ => List.not_mem_nil
  obtain ⟨t, d, hnew, -⟩ := newSegment_fresh (E := goEnv) (c := ⟨64, 24, 1⟩) 1 rfl
    ⟨by decide, by decide⟩ hfresh
  have h₀ := filled_newSegment (s := (t, d)) hnew (found_nil (E := goEnv) hfresh)
  obtain ⟨t', d', happ, hkeeps, hb, hn, -⟩ := h₀.keeps.append (h₀.atBase.symm ▸ h₀.next)
    ⟨[7], 0, 0, 0⟩ (by decide)
  have hfit : (t'.store.bytes d').length < 2 ^ 63 := by
    rw [hkeeps.store.bytes, hb, h₀.atBase]
    decide +kernel
  have hnext : t.nextOffset = 1 := h₀.next
  rw [hnext] at happ
  have hstep : Appends goEnv (t, d) (⟨[7], 0, 0, 0⟩, 1) (t', d') := ⟨happ, hfit⟩
  exact ⟨(t, d), (t', d'), hnew, Trace.init.snoc hstep, (h₀.append hstep).1⟩

/-- It answers for offset 1, and for offset 2 with an error. -/
theorem answers_iff_one_record :
    ∃ s₀ s, newSegment Directory.empty 1 ⟨64, 24, 1⟩ = (.ok s₀.1, s₀.2) ∧
      Trace (Appends goEnv) s₀ [(⟨[7], 0, 0, 0⟩, 1)] s ∧
      Answers goEnv [(⟨[7], 0, 0, 0⟩, 1)] s 1 ∧ Answers goEnv [(⟨[7], 0, 0, 0⟩, 1)] s 2 := by
  obtain ⟨s₀, s, hnew, htr, -⟩ := one_record
  have hiff := answers_iff hnew (found_nil fun _ _ => List.not_mem_nil) htr
  exact ⟨s₀, s, hnew, htr, (hiff 1).mpr (.inr (.inl (by decide))),
    (hiff 2).mpr (.inr (.inl (by decide)))⟩

/-- At the offset below its base the same segment returns its last record,
and 2^32 above it its first. -/
theorem read_outside_segment :
    ∃ s₀ s, newSegment Directory.empty 1 ⟨64, 24, 1⟩ = (.ok s₀.1, s₀.2) ∧
      Trace (Appends goEnv) s₀ [(⟨[7], 0, 0, 0⟩, 1)] s ∧
      (s.1.read goEnv s.2 0).1 = .ok ⟨[7], 1, 0, 0⟩ ∧
      (s.1.read goEnv s.2 4294967297).1 = .ok ⟨[7], 1, 0, 0⟩ ∧
      ¬ Answers goEnv [(⟨[7], 0, 0, 0⟩, 1)] s 0 ∧
      ¬ Answers goEnv [(⟨[7], 0, 0, 0⟩, 1)] s 4294967297 := by
  obtain ⟨s₀, s, hnew, htr, h⟩ := one_record
  refine ⟨s₀, s, hnew, htr, h.read_eq 0, h.read_eq 4294967297, fun ha => ?_, fun ha => ?_⟩
  · exact absurd ((h.answers_found (by decide)).mp ha) (by decide)
  · exact absurd ((h.answers_found (by decide)).mp ha) (by decide)

end Segment

end DistributedLog
