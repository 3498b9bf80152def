import DistributedLog.Calls
import DistributedLog.LogStore

/-!
# Storing a batch that does not fit

`logStore.StoreLogs` appends the entries of a batch one by one and returns
at the first error, without taking back what it has appended. An append
fails when the active index has no room for an entry, which depends on where
the segments before it ended. `roomFor` follows the two sizes that decide
this through a batch; `storeLogs_all_or_nothing_iff` says that a batch is
stored as a whole or not at all exactly if there is room for all of it, or
not even for its first entry.
-/

namespace DistributedLog.LogStore

/-- There is room for every entry of a batch, given the sizes of the active
index and store. A new segment starts with empty ones. -/
def roomFor (E : Env) (c : Config) : UInt64 → UInt64 → List RaftLog → Bool
  | _, _, [] => true
  | indexSize, storeSize, log :: logs =>
      decide (indexSize.toNat + 12 ≤ c.maxIndexBytes.toNat) &&
        let p := E.marshal { log.toRecord with offset := log.index }
        let indexSize := indexSize + entryWidth
        let storeSize := storeSize + UInt64.ofNat (p.length + lenWidth)
        if c.maxStoreBytes ≤ storeSize ∨ c.maxIndexBytes ≤ indexSize then roomFor E c 0 0 logs
        else roomFor E c indexSize storeSize logs

/-- If the batch is refused, the log store is as it was. -/
def AllOrNothing (E : Env) (s : LogState) (logs : List RaftLog) : Prop :=
  ∀ e s', storeLogs E s.1 s.2 logs = (.error e, s') → lastIndex s'.1 = lastIndex s.1 ∧
    ∀ i, (getLog E s'.1 s'.2 i).1 = (getLog E s.1 s.2 i).1

variable {E : Env} {c : Config} {l l' : Log} {d d' : Dir}

/-! ## A batch on a represented log -/

/-- The sizes that decide whether the next append finds room. -/
def indexSize (L : Layout) : UInt64 := UInt64.ofNat (12 * L.act.len)

def storeSize (E : Env) (L : Layout) : UInt64 :=
  UInt64.ofNat (frames E L.act.base L.act.records).length

theorem toNat_indexSize {L : Layout} (hlimit : c.maxIndexBytes.toNat < 2 ^ 63)
    (hlen : 12 * L.act.len ≤ c.maxIndexBytes.toNat) : (indexSize L).toNat = 12 * L.act.len := by
  rw [indexSize, UInt64.toNat_ofNat', Nat.mod_eq_of_lt (by omega)]

/-- One entry of the batch on both sides. -/
theorem roomFor_cons {L : Layout} {log : RaftLog} {logs : List RaftLog}
    (hlimit : c.maxIndexBytes.toNat < 2 ^ 63) (hroom : 12 * (L.act.len + 1) ≤ c.maxIndexBytes.toNat)
    (hindex : log.index.toNat = L.next) (hnext : L.next + 1 < 2 ^ 64) :
    roomFor E c (indexSize L) (storeSize E L) (log :: logs) =
      roomFor E c (indexSize (L.grow E c log.toRecord hnext))
        (storeSize E (L.grow E c log.toRecord hnext)) logs := by
  have hlen : (L.push log.toRecord hnext).act.len = L.act.len + 1 := by
    simp [Layout.push, Block.len]
  have hindex' : indexSize L + entryWidth = indexSize (L.push log.toRecord hnext) := by
    rw [indexSize, indexSize, hlen, show entryWidth = UInt64.ofNat 12 from rfl, ← UInt64.ofNat_add]
    rfl
  have hstore : storeSize E L +
      UInt64.ofNat ((E.marshal { log.toRecord with offset := log.index }).length + lenWidth) =
      storeSize E (L.push log.toRecord hnext) := by
    have hoff : L.act.base + UInt64.ofNat L.act.records.length = log.index := by
      rw [← UInt64.toNat_inj, hindex, UInt64.toNat_add, UInt64.toNat_ofNat', Nat.add_mod_mod]
      exact Nat.mod_eq_of_lt L.bounded
    rw [storeSize, storeSize, Layout.push, frames_append, hoff, ← UInt64.ofNat_add]
    simp only [frames, List.length_append, length_frame, List.length_nil]
    rfl
  have hmaxed : (L.push log.toRecord hnext).act.isMaxed E c = true ↔
      c.maxStoreBytes ≤ storeSize E (L.push log.toRecord hnext) ∨
        c.maxIndexBytes ≤ indexSize (L.push log.toRecord hnext) := by
    rw [Block.isMaxed, Bool.or_eq_true, decide_eq_true_eq, decide_eq_true_eq,
      UInt64.le_iff_toNat_le (b := indexSize _), toNat_indexSize hlimit (by omega)]
    rfl
  rw [roomFor, toNat_indexSize hlimit (by omega), decide_eq_true (by omega), Bool.true_and]
  simp only [hindex', hstore, ← hmaxed]
  unfold Layout.grow
  split <;> rfl

theorem Consecutive.tail {first : UInt64} {log : RaftLog} {logs : List RaftLog}
    (h : Consecutive first (log :: logs)) (hbound : first.toNat + 1 < 2 ^ 64) :
    Consecutive (first + 1) logs := by
  intro i log' hi
  have hone : (1 : UInt64).toNat = 1 := rfl
  have hsucc := h (i + 1) log' hi
  rw [UInt64.toNat_add, hone, Nat.mod_eq_of_lt hbound]
  omega

/-- A batch is stored exactly if there is room for all of it. -/
theorem storeLogs_ok_iff {L : Layout} {first : UInt64} {logs : List RaftLog} (h : l.Rep E c d L)
    (hfirst : first.toNat = L.next) (hcons : Consecutive first logs)
    (hlen : 12 * L.act.len ≤ c.maxIndexBytes.toNat) (hbound : L.next + logs.length < 2 ^ 64) :
    (∃ s', storeLogs E l d logs = (.ok (), s')) ↔
      roomFor E c (indexSize L) (storeSize E L) logs = true := by
  have hlimit := h.mappable.limit
  induction logs generalizing l d L first with
  | nil => exact ⟨fun _ => rfl, fun _ => ⟨_, rfl⟩⟩
  | cons log logs ih =>
      rw [List.length_cons] at hbound
      have hnext : L.next + 1 < 2 ^ 64 := by omega
      have hindex : log.index.toNat = L.next := by rw [hcons 0 log rfl, hfirst]; rfl
      rcases Nat.lt_or_ge c.maxIndexBytes.toNat (12 * (L.act.len + 1)) with hroom | hroom
      · have herr := h.append_full log.toRecord hroom
        rcases happ : l.append E d (some log.toRecord) with ⟨res, l₁, d₁⟩
        rw [happ] at herr
        subst herr
        rw [roomFor, toNat_indexSize hlimit hlen, decide_eq_false (by omega), Bool.false_and]
        simp [storeLogs, happ]
      · obtain ⟨l₁, d₁, happ, hrep⟩ := h.append log.toRecord hroom hnext
        have hgrown := L.next_grow E c log.toRecord hnext
        have hfirst' : (first + 1).toNat = (L.grow E c log.toRecord hnext).next := by
          rw [hgrown, UInt64.toNat_add, hfirst]
          exact Nat.mod_eq_of_lt hnext
        have htail := ih hrep hfirst' (hcons.tail (by omega))
          (Nat.le_of_lt (Layout.len_grow_lt h.mappable.pos)) (by omega)
        rw [roomFor_cons hlimit hroom hindex hnext, storeLogs, happ]
        exact htail

/-- What every append keeps a batch keeps, whatever comes of it, and the log
has the entries up to the one that found no room. -/
theorem storeLogs_keeps {P : Log → Dir → Layout → Prop}
    (happend : ∀ {l l' : Log} {d d' : Dir} {L : Layout} {r : Record} {res : Result UInt64},
      P l d L → L.next + 1 < 2 ^ 64 → l.append E d (some r) = (res, l', d') →
      ∃ L', P l' d' L' ∧
        (res = .error (.err .eof) ∧ L' = L ∧ c.maxIndexBytes.toNat < 12 * (L.act.len + 1) ∨
          (∃ off, res = .ok off) ∧ L'.abs = L.abs.push r))
    {L : Layout} {logs : List RaftLog} {res : Result Unit} (h : P l d L)
    (hst : storeLogs E l d logs = (res, l', d')) (hbound : L.next + logs.length < 2 ^ 64) :
    ∃ L' stored rest, logs = stored ++ rest ∧ P l' d' L' ∧
      L'.abs = L.abs.pushAll (stored.map RaftLog.toRecord) ∧
      (res = .ok () ∧ rest = [] ∨ res = .error (.err .eof) ∧ rest ≠ [] ∧
        c.maxIndexBytes.toNat < 12 * (L'.act.len + 1)) := by
  induction logs generalizing l d L with
  | nil =>
      cases hst
      exact ⟨L, [], [], rfl, h, by simp, .inl ⟨rfl, rfl⟩⟩
  | cons log logs ih =>
      rw [List.length_cons] at hbound
      rcases happ : l.append E d (some log.toRecord) with ⟨res₁, l₁, d₁⟩
      obtain ⟨L₁, h₁, ⟨rfl, rfl, hfull⟩ | ⟨⟨off, rfl⟩, habs₁⟩⟩ := happend h (by omega) happ
      · simp only [storeLogs, happ, Prod.mk.injEq] at hst
        obtain ⟨rfl, rfl, rfl⟩ := hst
        exact ⟨L₁, [], log :: logs, rfl, h₁, by simp, .inr ⟨rfl, List.cons_ne_nil _ _, hfull⟩⟩
      · have hnext : L₁.next = L.next + 1 := by
          rw [← L₁.abs_next, habs₁, AppendOnly.next_push, L.abs_next]
        simp only [storeLogs, happ] at hst
        obtain ⟨L', stored, rest, rfl, h', habs, hres⟩ := ih h₁ hst (by omega)
        refine ⟨L', log :: stored, rest, rfl, h', ?_, hres⟩
        rw [habs, habs₁, List.map_cons, AppendOnly.pushAll_cons]

theorem storeLogs_repWith {L : Layout} {orphans : Bytes} {logs : List RaftLog} {res : Result Unit}
    (h : l.RepWith E c d L orphans) (hst : storeLogs E l d logs = (res, l', d'))
    (hbound : L.next + logs.length < 2 ^ 64) :
    ∃ L' orphans' stored rest, logs = stored ++ rest ∧ l'.RepWith E c d' L' orphans' ∧
      L'.abs = L.abs.pushAll (stored.map RaftLog.toRecord) ∧
      (res = .ok () ∧ rest = [] ∨ res = .error (.err .eof) ∧ rest ≠ [] ∧
        c.maxIndexBytes.toNat < 12 * (L'.act.len + 1)) := by
  obtain ⟨L', stored, rest, hlogs, ⟨orphans', h'⟩, hrest⟩ :=
    storeLogs_keeps (P := fun l d L => ∃ orphans, l.RepWith E c d L orphans)
      (fun ⟨_, h⟩ hnext happ => by
        obtain ⟨L', orphans', h', hcases⟩ := h.append_cases happ (h.append_off_lt hnext happ)
        exact ⟨L', ⟨orphans', h'⟩, hcases⟩)
      ⟨orphans, h⟩ hst hbound
  exact ⟨L', orphans', stored, rest, hlogs, h', hrest⟩

/-- A batch whose first entry is stored, and not all the others, has moved
the last index. -/
theorem lastIndex_ne_of_error {L : Layout} {logs : List RaftLog} {e : Fail} (h : l.Rep E c d L)
    (hlow : 1 ≤ L.lowest) (hroom : 12 * (L.act.len + 1) ≤ c.maxIndexBytes.toNat)
    (hst : storeLogs E l d logs = (.error e, l', d')) (hbound : L.next + logs.length < 2 ^ 64) :
    lastIndex l' ≠ lastIndex l := by
  cases logs with
  | nil => cases hst
  | cons log logs =>
      rw [List.length_cons] at hbound
      have hnext : L.next + 1 < 2 ^ 64 := by omega
      have hle : L.lowest ≤ L.next :=
        (L.tiles.le).trans (Nat.le_add_right _ _)
      obtain ⟨l₁, d₁, happ, hrep⟩ := h.append log.toRecord hroom hnext
      have hgrown := L.next_grow E c log.toRecord hnext
      simp only [storeLogs, happ] at hst
      obtain ⟨L', orphans, stored, rest, rfl, hrep', habs, -⟩ :=
        storeLogs_repWith hrep.repWith hst (by omega)
      have hnext' := congrArg AppendOnly.next habs
      rw [L'.abs_next, AppendOnly.next_pushAll, Layout.abs_next, List.length_map] at hnext'
      rw [List.length_append] at hbound
      rw [lastIndex, lastIndex, hrep'.highestOffset, h.highestOffset, ne_eq, Except.ok.injEq,
        ← UInt64.toNat_inj, UInt64.toNat_ofNat', UInt64.toNat_ofNat', Nat.mod_eq_of_lt (by omega),
        Nat.mod_eq_of_lt (by omega)]
      omega

/-- Without room for the first entry nothing is stored. -/
theorem storeLogs_full {L : Layout} {orphans : Bytes} (h : l.RepWith E c d L orphans)
    (hroom : c.maxIndexBytes.toNat < 12 * (L.act.len + 1)) (log : RaftLog) (logs : List RaftLog) :
    ∃ l' d' orphans', storeLogs E l d (log :: logs) = (.error (.err .eof), l', d') ∧
      l'.RepWith E c d' L orphans' := by
  obtain ⟨l', d', orphans', happ, hrep⟩ := h.append_full log.toRecord hroom
  exact ⟨l', d', orphans', by simp only [storeLogs, happ], hrep⟩

/-- A batch without room for its first entry leaves the log as it was. -/
theorem allOrNothing_of_full {L : Layout} {orphans : Bytes} (h : l.RepWith E c d L orphans)
    (hM : c.maxIndexBytes.toNat ≤ 12 * 2 ^ 32) (hfit : L.Fits E)
    (hroom : c.maxIndexBytes.toNat < 12 * (L.act.len + 1)) (logs : List RaftLog) :
    AllOrNothing E (l, d) logs := by
  intro e s' hst
  cases logs with
  | nil => cases hst
  | cons log logs =>
      obtain ⟨l₁, d₁, orphans', hfull, hrep⟩ := storeLogs_full h hroom log logs
      rw [hst, Prod.mk.injEq] at hfull
      obtain ⟨-, rfl⟩ := hfull
      refine ⟨by rw [lastIndex, lastIndex, hrep.highestOffset, h.highestOffset], fun i => ?_⟩
      rw [getLog_shows (hrep.shows hM hfit), getLog_shows (h.shows hM hfit)]

/-! ## Runs -/

/-- **When a batch is all or nothing.** In every state that calls within the
bounds lead to, failed appends among them, a batch that continues the log is
stored as a whole or leaves the log as it was exactly if there is room for
all of it, or not even for its first entry. -/
theorem storeLogs_all_or_nothing_iff (E : Env) (c : Config)
    (hM : c.maxIndexBytes.toNat ≤ 12 * 2 ^ 32) {s₀ s : LogState} {us : List Call}
    (hnew : newLogStore Directory.empty c = (.ok (), s₀))
    (htr : Trace (Calls E { c with initialOffset := 1 }) s₀ us s) (hus : ∀ u ∈ us, u.Bounded)
    (hfit : s.1.FilesFit s.2) {first last : UInt64} {logs : List RaftLog}
    (hlast : lastIndex s.1 = .ok last) (hfirst : first.toNat = last.toNat + 1)
    (hcons : Consecutive first logs) (hbound : first.toNat + logs.length < 2 ^ 64) :
    AllOrNothing E s logs ↔ ∃ active, s.1.activeSegment = some active ∧
      (s.1.config.maxIndexBytes.toNat < active.index.size.toNat + 12 ∨
        roomFor E s.1.config active.index.size active.store.size logs = true) := by
  obtain ⟨L, orphans, hrep, hlow⟩ :=
    Log.RepWith.calls (c := { c with initialOffset := 1 }) hM hnew htr hus
  have hlow : 1 ≤ L.lowest := hlow
  have hM' := Config.withDefaults_le (c := { c with initialOffset := 1 }) hM
  generalize ({ c with initialOffset := 1 } : Config).withDefaults = c' at hrep hM'
  obtain ⟨l, d⟩ := s
  have hle : L.lowest ≤ L.next := (L.tiles.le).trans (Nat.le_add_right _ _)
  have hnext : L.next = first.toNat := by
    have hlt : L.next < 2 ^ 64 := L.bounded
    rw [lastIndex, hrep.highestOffset, Except.ok.injEq, ← UInt64.toNat_inj, UInt64.toNat_ofNat',
      Nat.mod_eq_of_lt (by omega)] at hlast
    omega
  have hbound' : L.next + logs.length < 2 ^ 64 := by omega
  obtain ⟨active, hact, hseg⟩ := hrep.active
  have hconf : l.config = c' := hrep.config
  have hsize : active.index.size.toNat = 12 * L.act.len := hseg.rep.index_size
  simp only [hact, Option.some.injEq, exists_eq_left', hconf, hsize]
  rcases Nat.lt_or_ge c'.maxIndexBytes.toNat (12 * (L.act.len + 1)) with hroom | hroom
  · refine ⟨fun _ => .inl (by omega), fun _ => ?_⟩
    exact allOrNothing_of_full hrep hM' (hrep.fits hfit) hroom logs
  · have hok := storeLogs_ok_iff (hrep.rep_of_room hroom) hnext.symm hcons (by omega) hbound'
    have hindex : active.index.size = indexSize L := by
      rw [← UInt64.toNat_inj, hsize, toNat_indexSize hrep.mappable.limit (by omega)]
    have hstore : active.store.size = storeSize E L := by
      obtain ⟨ss, t, -, -, ht, hact'⟩ := (hrep.rep_of_room hroom).active
      obtain rfl : active = t := Option.some.inj (hact.symm.trans hact')
      rw [ht.rep.size, ht.base, storeSize]
    rw [hindex, hstore, ← hok]
    constructor
    · intro hall
      rcases hst : storeLogs E l d logs with ⟨e | _, s'⟩
      · exact absurd (hall e s' hst).1
          (lastIndex_ne_of_error (hrep.rep_of_room hroom) hlow hroom hst hbound')
      · exact .inr ⟨s', rfl⟩
    · rintro (hfull | ⟨s', hst⟩) e s'' herr
      · omega
      · rw [hst] at herr
        cases herr

/-- Two more entries after a first one, in segments of two entries. -/
theorem storeLogs_all_or_nothing_next_two :
    ∃ s, Trace (Calls goEnv ⟨1024, 24, 1⟩) (newLogStore Directory.empty ⟨1024, 24, 0⟩).2
        [.append (entry 1).toRecord (.ok 1)] s ∧ AllOrNothing goEnv s [entry 2, entry 3] := by
  have hnew : (newLogStore Directory.empty ⟨1024, 24, 0⟩).1 = .ok () := by decide +kernel
  have htr : Trace (Calls goEnv ⟨1024, 24, 1⟩) (newLogStore Directory.empty ⟨1024, 24, 0⟩).2 _ _ :=
    Trace.init.snoc (.append_of (entry 1).toRecord (.ok 1) (by decide +kernel))
  have hbounded : ∀ u ∈ [Call.append (entry 1).toRecord (.ok 1)], u.Bounded := by
    intro u hu
    rw [List.mem_singleton] at hu
    subst hu
    exact (by decide : (1 : UInt64).toNat < 2 ^ 64 - 1)
  have hcons : Consecutive 2 [entry 2, entry 3] := by
    intro i log hi
    match i with
    | 0 => cases hi; rfl
    | 1 => cases hi; rfl
    | i + 2 => cases hi
  refine ⟨_, htr, (storeLogs_all_or_nothing_iff goEnv ⟨1024, 24, 0⟩ (by decide) (Prod.ext hnew rfl)
    htr hbounded (by decide +kernel) (show lastIndex _ = .ok 1 by decide +kernel) rfl hcons
    (by decide)).mpr
    ⟨_, rfl, .inr (by decide +kernel)⟩⟩

/-- Segments of two entries and a byte: of three entries two are stored. -/
theorem storeLogs_stores_part :
    let s := (newLogStore Directory.empty ⟨1024, 25, 0⟩).2
    let s' := (storeLogs goEnv s.1 s.2 [entry 1, entry 2, entry 3]).2
    lastIndex s.1 = .ok 0 ∧
      (storeLogs goEnv s.1 s.2 [entry 1, entry 2, entry 3]).1 = .error (.err .eof) ∧
      lastIndex s'.1 = .ok 2 ∧ (getLog goEnv s.1 s.2 2).1 ≠ .ok (entry 2) ∧
      (getLog goEnv s'.1 s'.2 2).1 = .ok (entry 2) := by
  decide +kernel

end DistributedLog.LogStore
