import DistributedLog.Refinement

/-!
# The raft log store

`logStore` (`internal/log/distributed/store.go`) offers a `log.Log` to raft
as its `LogStore`: an index is an offset, `DeleteRange` is `Truncate`, and
`StoreLogs` appends. Of a `raft.Log` the fields that it reads and writes are
modelled.

Three of raft's expectations are decided here. Dropping a conflicting suffix
removes the agreed prefix as well, in every state and for every range
(`deleteRange_loses_prefix`), because `DeleteRange` does not look at `min`.
Storing a batch is faithful to the indexes of its entries exactly when these
continue the log (`storeLogs_faithful_iff`), because `StoreLogs` does not
look at them. Asking for an entry that is not there never gives the error
that raft looks for (`getLog_missing`), because `GetLog` passes on the one
of `Log.Read`.
-/

namespace DistributedLog

/-- `raft.Log`. -/
structure RaftLog where
  index : UInt64
  term : UInt64
  type : UInt8
  data : Bytes
deriving DecidableEq, Repr

/-- The record that `StoreLogs` makes of an entry. -/
def RaftLog.toRecord (log : RaftLog) : Record := ⟨log.data, 0, log.term, log.type.toUInt32⟩

/-- What `GetLog` fills in. -/
def Record.toRaftLog (r : Record) : RaftLog := ⟨r.offset, r.term, r.type.toUInt8, r.value⟩

namespace LogStore

/-- `newLogStore`, as `setupRaft` calls it. -/
def newLogStore (d : Dir) (c : Config) : Result Unit × Log × Dir :=
  newLog d { c with initialOffset := 1 }

def deleteRange (l : Log) (d : Dir) (_min max : UInt64) : Result Unit × Log × Dir :=
  l.truncate d max

def firstIndex (l : Log) : Result UInt64 := l.lowestOffset

def lastIndex (l : Log) : Result UInt64 := l.highestOffset

def getLog (E : Env) (l : Log) (d : Dir) (index : UInt64) : Result RaftLog × Log × Dir :=
  match l.read E d index with
  | (.error e, l, d) => (.error e, l, d)
  | (.ok r, l, d) => (.ok r.toRaftLog, l, d)

/-- `GetLog` as raft calls it: the entry goes into `out`, which an error
leaves alone. -/
def getLogInto (E : Env) (l : Log) (d : Dir) (index : UInt64) (out : RaftLog) :
    Result Unit × RaftLog × LogState :=
  match getLog E l d index with
  | (.error e, s) => (.error e, out, s)
  | (.ok log, s) => (.ok (), log, s)

def storeLogs (E : Env) (l : Log) (d : Dir) : List RaftLog → Result Unit × Log × Dir
  | [] => (.ok (), l, d)
  | log :: logs =>
      match l.append E d (some log.toRecord) with
      | (.error e, l, d) => (.error e, l, d)
      | (.ok _, l, d) => storeLogs E l d logs

def storeLog (E : Env) (l : Log) (d : Dir) (log : RaftLog) : Result Unit × Log × Dir :=
  storeLogs E l d [log]

/-! ## Runs -/

inductive Event where
  | storeLogs (logs : List RaftLog)
  | deletePrefix (m : UInt64)

/-- Batches with whatever indexes, and deletions of a proper prefix. -/
inductive Step (E : Env) : LogState → Event → LogState → Prop where
  | storeLogs {l l' : Log} {d d' : Dir} {logs : List RaftLog} {last : UInt64} :
      lastIndex l = .ok last → last.toNat + logs.length < 2 ^ 64 - 1 →
      storeLogs E l d logs = (.ok (), l', d') → l'.FilesFit d' →
      Step E (l, d) (.storeLogs logs) (l', d')
  | deletePrefix {l l' : Log} {d d' : Dir} {first last m : UInt64} :
      firstIndex l = .ok first → lastIndex l = .ok last → m < last →
      deleteRange l d first m = (.ok (), l', d') → Step E (l, d) (.deletePrefix m) (l', d')

theorem Step.storeLogs_of {E : Env} {s : LogState} (logs : List RaftLog) (last : UInt64)
    (hlast : lastIndex s.1 = .ok last) (hbound : last.toNat + logs.length < 2 ^ 64 - 1)
    (h : (LogStore.storeLogs E s.1 s.2 logs).1 = .ok ())
    (hfit : (LogStore.storeLogs E s.1 s.2 logs).2.1.FilesFit
      (LogStore.storeLogs E s.1 s.2 logs).2.2) :
    Step E s (.storeLogs logs) (LogStore.storeLogs E s.1 s.2 logs).2 :=
  .storeLogs hlast hbound (Prod.ext h rfl) hfit

theorem Step.deletePrefix_of {E : Env} {s : LogState} (m first last : UInt64)
    (hfirst : firstIndex s.1 = .ok first) (hlast : lastIndex s.1 = .ok last) (hm : m < last)
    (h : (deleteRange s.1 s.2 first m).1 = .ok ()) :
    Step E s (.deletePrefix m) (deleteRange s.1 s.2 first m).2 :=
  .deletePrefix hfirst hlast hm (Prod.ext h rfl)

variable {E : Env} {c : Config} {l l' : Log} {d d' : Dir} {a : AppendOnly Record}

/-- A batch that is stored goes to the end of the sequence. -/
theorem rep_storeLogs {L : Layout} {logs : List RaftLog} (h : l.Rep E c d L)
    (hst : storeLogs E l d logs = (.ok (), l', d')) (hbound : L.next + logs.length < 2 ^ 64) :
    ∃ L', l'.Rep E c d' L' ∧ L'.abs = L.abs.pushAll (logs.map RaftLog.toRecord) := by
  induction logs generalizing l d L with
  | nil =>
      cases hst
      exact ⟨L, h, by simp⟩
  | cons log logs ih =>
      rw [List.length_cons] at hbound
      have hnext : L.next + 1 < 2 ^ 64 := by omega
      rcases happ : l.append E d (some log.toRecord) with ⟨_ | off, l₁, d₁⟩
      · simp [storeLogs, happ] at hst
      · simp only [storeLogs, happ] at hst
        obtain ⟨L₁, hrep, habs⟩ := h.append_abs happ hnext
        have hnext₁ : L₁.next = L.next + 1 := by
          rw [← L₁.abs_next, habs, AppendOnly.next_push, L.abs_next]
        obtain ⟨L', hrep', habs'⟩ := ih hrep hst (by omega)
        exact ⟨L', hrep', by rw [habs', habs, List.map_cons, AppendOnly.pushAll_cons]⟩

theorem simulates_storeLogs {logs : List RaftLog} (h : Simulates E c (l, d) a)
    (hst : storeLogs E l d logs = (.ok (), l', d')) (hbound : a.next + logs.length < 2 ^ 64)
    (hfit : l'.FilesFit d') :
    Simulates E c (l', d') (a.pushAll (logs.map RaftLog.toRecord)) := by
  obtain ⟨L, hrep, -, rfl⟩ := h
  rw [L.abs_next] at hbound
  obtain ⟨L', hrep', habs⟩ := rep_storeLogs hrep hst hbound
  exact ⟨L', hrep', hrep'.fits hfit, habs⟩

/-- The store stands for a sequence that starts at index 1 or later. -/
def Invariant (E : Env) (c : Config) (s : LogState) : Prop :=
  ∃ a : AppendOnly Record, Simulates E c s a ∧ 0 < a.base

theorem Invariant.lastIndex {s : LogState} (h : Simulates E c s a) (hpos : 0 < a.base)
    {last : UInt64} (hlast : lastIndex s.1 = .ok last) : last.toNat + 1 = a.next := by
  obtain ⟨L, hrep, -, rfl⟩ := h
  have hbound : L.next < 2 ^ 64 := L.bounded
  have hle : L.abs.base ≤ L.abs.next := Nat.le_add_right _ _
  rw [LogStore.lastIndex, hrep.highestOffset, Except.ok.injEq] at hlast
  rw [L.abs_next] at hle ⊢
  rw [← hlast, UInt64.toNat_ofNat', Nat.mod_eq_of_lt (by omega)]
  omega

theorem Invariant.step {s s' : LogState} {e : Event} (h : Invariant E c s)
    (hstep : Step E s e s') : Invariant E c s' := by
  obtain ⟨a, hsim, hpos⟩ := h
  cases hstep with
  | storeLogs hlast hbound hst hfit =>
      have hnext := Invariant.lastIndex hsim hpos hlast
      exact ⟨_, simulates_storeLogs hsim hst (by omega) hfit, hpos⟩
  | deletePrefix _ hlast hlt hdel =>
      obtain ⟨k, -, -, hsim', -⟩ := hsim.truncate hlast hlt hdel
      exact ⟨_, hsim', Nat.lt_of_lt_of_le hpos (Nat.le_add_right _ _)⟩

/-- Every state of a log store that was opened on an empty directory. -/
theorem Invariant.run (E : Env) {c : Config} (hM : c.maxIndexBytes.toNat < 2 ^ 63)
    {es : List Event} {s : LogState}
    (htr : Trace (Step E) (newLogStore Directory.empty c).2 es s) :
    Invariant E { c with initialOffset := 1 }.withDefaults s := by
  obtain ⟨l₀, d₀, hnew, hstart⟩ := Simulates.start E { c with initialOffset := 1 } hM
  rw [newLogStore, hnew] at htr
  exact htr.invariant ⟨_, hstart, Nat.one_pos⟩ fun _ _ _ h => h.step

/-! ## Dropping a conflicting suffix -/

/-- What raft expects of `DeleteRange(min, last)` on the log of `s`, where
`s'` is the log after it. -/
structure KeepsPrefix (E : Env) (s s' : LogState) (min : UInt64) : Prop where
  agreed : ∀ first i, firstIndex s.1 = .ok first → first ≤ i → i < min →
    (getLog E s'.1 s'.2 i).1 = (getLog E s.1 s.2 i).1
  last : lastIndex s'.1 = .ok (min - 1)
  dropped : ∀ i log, min ≤ i → (getLog E s'.1 s'.2 i).1 ≠ .ok log
  next : ∀ log logs s'', log.index = min →
    storeLogs E s'.1 s'.2 (log :: logs) = (.ok (), s'') → (getLog E s''.1 s''.2 min).1 = .ok log

/-- **The agreed prefix is lost.** In every state and for every range up to
the last index the call returns nil, and then no entry can be read and the
last index cannot even be asked for. -/
theorem deleteRange_loses_prefix (E : Env) (c : Config) (hM : c.maxIndexBytes.toNat < 2 ^ 63)
    {es : List Event} {s : LogState}
    (htr : Trace (Step E) (newLogStore Directory.empty c).2 es s) (min : UInt64) {last : UInt64}
    (hlast : lastIndex s.1 = .ok last) :
    ∃ s', deleteRange s.1 s.2 min last = (.ok (), s') ∧ lastIndex s'.1 = .error .panic ∧
      (∀ i, (getLog E s'.1 s'.2 i).1 = .error (.err (.offsetOutOfRange i))) ∧
      ¬ KeepsPrefix E s s' min := by
  obtain ⟨a, hsim, hpos⟩ := Invariant.run E hM htr
  have hnext := Invariant.lastIndex hsim hpos hlast
  obtain ⟨L, hrep, -, rfl⟩ := hsim
  rw [L.abs_next] at hnext
  have hend : L.next ≤ (last + 1).toNat := by
    have hone : (1 : UInt64).toNat = 1 := rfl
    have hbound : L.next < 2 ^ 64 := L.bounded
    rw [UInt64.toNat_add, hone, Nat.mod_eq_of_lt (by omega), hnext]
  obtain ⟨l', d', hdel, hseg⟩ := hrep.truncate_all hend
  have hpanic : lastIndex l' = .error .panic := by
    simp [LogStore.lastIndex, Log.highestOffset, hseg]
  refine ⟨(l', d'), hdel, hpanic, ?_, ?_⟩
  · intro i
    simp [getLog, Log.read, hseg, Log.readIn]
  · intro hkeeps
    have hl := hkeeps.last
    rw [hpanic] at hl
    cases hl

/-- The entries of the concrete runs. -/
def entry (i : Nat) : RaftLog := ⟨UInt64.ofNat i, 1, 0, [UInt8.ofNat i]⟩

theorem deleteRange_loses_prefix_of_two :
    ∃ s s', Trace (Step goEnv) (newLogStore Directory.empty ⟨64, 24, 0⟩).2
        [.storeLogs [entry 1, entry 2, entry 3]] s ∧
      deleteRange s.1 s.2 3 3 = (.ok (), s') ∧ ¬ KeepsPrefix goEnv s s' 3 := by
  have htr : Trace (Step goEnv) (newLogStore Directory.empty ⟨64, 24, 0⟩).2 _ _ :=
    Trace.init.snoc (.storeLogs_of [entry 1, entry 2, entry 3] 0 (by decide +kernel) (by decide)
      (by decide +kernel) (by decide +kernel))
  obtain ⟨s', hdel, -, -, hnot⟩ :=
    deleteRange_loses_prefix goEnv ⟨64, 24, 0⟩ (by decide) htr 3
      (show lastIndex _ = .ok 3 by decide +kernel)
  exact ⟨_, s', htr, hdel, hnot⟩

/-- Entries 1 and 2 are agreed on, entry 3 conflicts: the call that should
drop it drops all three. -/
theorem deleteRange_third_of_three :
    let s := (storeLogs goEnv (newLogStore Directory.empty ⟨64, 24, 0⟩).2.1
      (newLogStore Directory.empty ⟨64, 24, 0⟩).2.2 [entry 1, entry 2, entry 3]).2
    let s' := (deleteRange s.1 s.2 3 3).2
    firstIndex s.1 = .ok 1 ∧ lastIndex s.1 = .ok 3 ∧
      (getLog goEnv s.1 s.2 2).1 = .ok (entry 2) ∧
      (deleteRange s.1 s.2 3 3).1 = .ok () ∧
      (getLog goEnv s'.1 s'.2 2).1 = .error (.err (.offsetOutOfRange 2)) ∧
      lastIndex s'.1 = .error .panic := by
  decide +kernel

/-! ## Storing a batch -/

/-- Indexes that count up from `first`. -/
def Consecutive (first : UInt64) (logs : List RaftLog) : Prop :=
  ∀ i log, logs[i]? = some log → log.index.toNat = first.toNat + i

/-- What raft expects of `StoreLogs` on the log of `s`, where `s'` is the log
after it. -/
structure Faithful (E : Env) (s s' : LogState) (logs : List RaftLog) : Prop where
  last : ∀ log, logs.getLast? = some log → lastIndex s'.1 = .ok log.index
  stored : ∀ log ∈ logs, (getLog E s'.1 s'.2 log.index).1 = .ok log
  kept : ∀ i log, (getLog E s.1 s.2 i).1 = .ok log → (getLog E s'.1 s'.2 i).1 = .ok log

@[simp] theorem toRaftLog_toRecord (log : RaftLog) :
    ({ log.toRecord with offset := log.index } : Record).toRaftLog = log := by
  simp [RaftLog.toRecord, Record.toRaftLog]

theorem getLog_shows {s : LogState} (h : Shows E s a) (i : UInt64) :
    (getLog E s.1 s.2 i).1 =
      (Log.readOf a i).map Record.toRaftLog := by
  have hread := h.read i
  unfold getLog
  rcases hr : s.1.read E s.2 i with ⟨_ | r, l', d'⟩
  · rw [hr] at hread
    rw [← hread]
    rfl
  · rw [hr] at hread
    rw [← hread]
    rfl

theorem getLog_of_get? {s : LogState} (h : Shows E s a) {i : UInt64} {r : Record}
    (hr : a.get? i.toNat = some r) :
    (getLog E s.1 s.2 i).1 = .ok ({ r with offset := i } : Record).toRaftLog := by
  rw [getLog_shows h, Log.readOf, hr]
  rfl

/-- Entries that were there read the same after more have been added. -/
theorem getLog_kept {s s' : LogState} {rs : List Record} (h : Shows E s a)
    (h' : Shows E s' (a.pushAll rs)) {i : UInt64} {log : RaftLog}
    (hi : (getLog E s.1 s.2 i).1 = .ok log) : (getLog E s'.1 s'.2 i).1 = .ok log := by
  rw [getLog_shows h, Log.readOf] at hi
  cases hget : a.get? i.toNat with
  | none =>
      rw [hget] at hi
      cases hi
  | some r =>
      rw [hget] at hi
      have hlt : i.toNat < a.next := AppendOnly.lt_next_of_get? hget
      rw [getLog_of_get? h' ((AppendOnly.get?_pushAll_of_lt hlt _).trans hget)]
      exact hi

/-- Entries that continue the log are found under their own indexes. -/
theorem getLog_stored {s' : LogState} {first : UInt64} {logs : List RaftLog}
    (h' : Shows E s' (a.pushAll (logs.map RaftLog.toRecord))) (hcons : Consecutive first logs)
    (hfirst : first.toNat = a.next) {log : RaftLog} (hlog : log ∈ logs) :
    (getLog E s'.1 s'.2 log.index).1 = .ok log := by
  obtain ⟨i, hi⟩ := List.getElem?_of_mem hlog
  have hidx : log.index.toNat = a.next + i := by
    rw [hcons i log hi, hfirst]
  have hget : (a.pushAll (logs.map RaftLog.toRecord)).get? log.index.toNat =
      some log.toRecord := by
    rw [hidx, AppendOnly.get?_pushAll_next, List.getElem?_map, hi]
    rfl
  rw [getLog_of_get? h' hget, toRaftLog_toRecord]

theorem Consecutive.exists_getLast {first : UInt64} {logs : List RaftLog}
    (h : Consecutive first logs) (hne : logs ≠ []) :
    ∃ log, logs.getLast? = some log ∧ log.index.toNat = first.toNat + (logs.length - 1) := by
  have hlast := List.getLast?_eq_some_getLast hne
  exact ⟨_, hlast, h _ _ (by rw [← List.getLast?_eq_getElem?]; exact hlast)⟩

/-- **Faithful exactly when contiguous.** A batch that continues the log is
stored under its own indexes; any other batch that starts past the last index
is stored under the wrong ones. -/
theorem storeLogs_faithful_iff (E : Env) (c : Config)
    (hM : c.maxIndexBytes.toNat ≤ 12 * 2 ^ 32) {es : List Event} {s s' : LogState}
    (htr : Trace (Step E) (newLogStore Directory.empty c).2 es s) {first last : UInt64}
    {logs : List RaftLog} (hlast : lastIndex s.1 = .ok last) (hne : logs ≠ [])
    (hcons : Consecutive first logs) (hgt : last < first)
    (hbound : first.toNat + logs.length < 2 ^ 64)
    (hst : storeLogs E s.1 s.2 logs = (.ok (), s')) (hfit : s'.1.FilesFit s'.2) :
    Faithful E s s' logs ↔ first.toNat = last.toNat + 1 := by
  obtain ⟨a, hsim, hpos⟩ := Invariant.run E (by omega) htr
  have hnext := Invariant.lastIndex hsim hpos hlast
  rw [UInt64.lt_iff_toNat_lt] at hgt
  have hM' : ({ c with initialOffset := 1 } : Config).withDefaults.maxIndexBytes.toNat
      ≤ 12 * 2 ^ 32 := Config.withDefaults_le hM
  have hsim' : Simulates E _ s' (a.pushAll (logs.map RaftLog.toRecord)) :=
    simulates_storeLogs hsim hst (by omega) hfit
  have hshows := hsim.shows hM'
  have hshows' := hsim'.shows hM'
  have hpos' := List.length_pos_iff.mpr hne
  obtain ⟨final, hfinal, hindex⟩ := hcons.exists_getLast hne
  have hlast' : lastIndex s'.1 = .ok (UInt64.ofNat (a.next + logs.length - 1)) := by
    rw [← List.length_map (f := RaftLog.toRecord), ← AppendOnly.next_pushAll]
    exact hshows'.highest
  have hcount : (UInt64.ofNat (a.next + logs.length - 1)).toNat = a.next + logs.length - 1 := by
    rw [UInt64.toNat_ofNat', Nat.mod_eq_of_lt (by omega)]
  constructor
  · intro hfaith
    have h := hfaith.last final hfinal
    rw [hlast', Except.ok.injEq, ← UInt64.toNat_inj, hcount, hindex] at h
    omega
  · intro hfirst
    refine ⟨fun log hlog => ?_, fun log hlog => getLog_stored hshows' hcons (by omega) hlog,
      fun i log hi => getLog_kept hshows hshows' hi⟩
    obtain rfl : final = log := Option.some.inj (hfinal.symm.trans hlog)
    rw [hlast', Except.ok.injEq, ← UInt64.toNat_inj, hcount, hindex]
    omega

theorem storeLogs_faithful_third :
    ∃ s s', Trace (Step goEnv) (newLogStore Directory.empty ⟨64, 24, 0⟩).2
        [.storeLogs [entry 1, entry 2]] s ∧
      storeLogs goEnv s.1 s.2 [entry 3] = (.ok (), s') ∧ Faithful goEnv s s' [entry 3] := by
  have htr : Trace (Step goEnv) (newLogStore Directory.empty ⟨64, 24, 0⟩).2 _ _ :=
    Trace.init.snoc (.storeLogs_of [entry 1, entry 2] 0 (by decide +kernel) (by decide)
      (by decide +kernel) (by decide +kernel))
  have hcons : Consecutive 3 [entry 3] := by
    intro i log hi
    cases i with
    | zero => cases hi; rfl
    | succ i => cases hi
  refine ⟨_, _, htr, Prod.ext (by decide +kernel) rfl, ?_⟩
  exact (storeLogs_faithful_iff goEnv ⟨64, 24, 0⟩ (by decide) htr
    (show lastIndex _ = .ok 2 by decide +kernel) (by decide) hcons (by decide) (by decide)
    (Prod.ext (by decide +kernel) rfl) (by decide +kernel)).mpr (by decide)

/-- After a snapshot up to index 4 raft goes on with entry 5: it is stored as
the third. -/
theorem storeLogs_fifth_after_two :
    let s := (storeLogs goEnv (newLogStore Directory.empty ⟨64, 24, 0⟩).2.1
      (newLogStore Directory.empty ⟨64, 24, 0⟩).2.2 [entry 1, entry 2]).2
    let s' := (storeLogs goEnv s.1 s.2 [entry 5]).2
    lastIndex s.1 = .ok 2 ∧ (storeLogs goEnv s.1 s.2 [entry 5]).1 = .ok () ∧
      lastIndex s'.1 = .ok 3 ∧
      (getLog goEnv s'.1 s'.2 5).1 = .error (.err (.offsetOutOfRange 5)) ∧
      (getLog goEnv s'.1 s'.2 3).1 = .ok { entry 5 with index := 3 } := by
  decide +kernel

/-! ## Asking for what is not there -/

/-- What raft expects of `GetLog` at an index that the store does not hold:
the one error by which it knows that the entry is not there. -/
def ReportsMissing (E : Env) (s : LogState) (i : UInt64) (out : RaftLog) : Prop :=
  (getLogInto E s.1 s.2 i out).1 = .error (.err .logNotFound) ∧
    (getLogInto E s.1 s.2 i out).2.1 = out

/-- **A missing entry is reported as something else.** In every state and at
every index outside the log the error is `log.ErrOffsetOutOfRange`, which is
not `raft.ErrLogNotFound`; the entry that was passed in is left alone. -/
theorem getLog_missing (E : Env) (c : Config) (hM : c.maxIndexBytes.toNat < 2 ^ 63)
    {es : List Event} {s : LogState}
    (htr : Trace (Step E) (newLogStore Directory.empty c).2 es s) {first last i : UInt64}
    (hfirst : firstIndex s.1 = .ok first) (hlast : lastIndex s.1 = .ok last)
    (hi : i < first ∨ last < i) (out : RaftLog) :
    getLogInto E s.1 s.2 i out = (.error (.err (.offsetOutOfRange i)), out, s) ∧
      ¬ ReportsMissing E s i out := by
  obtain ⟨a, hsim, hpos⟩ := Invariant.run E hM htr
  have hnext := Invariant.lastIndex hsim hpos hlast
  obtain ⟨L, hrep, -, rfl⟩ := hsim
  have hlow : first.toNat = L.lowest := by
    have hbound : L.next < 2 ^ 64 := L.bounded
    have hle : L.lowest ≤ L.next := L.abs_next ▸ Nat.le_add_right L.lowest _
    rw [firstIndex, hrep.lowestOffset, Except.ok.injEq] at hfirst
    rw [← hfirst, UInt64.toNat_ofNat', Nat.mod_eq_of_lt (by omega)]
  have hout : i.toNat < L.lowest ∨ L.next ≤ i.toNat := by
    rw [UInt64.lt_iff_toNat_lt, UInt64.lt_iff_toNat_lt] at hi
    rw [L.abs_next] at hnext
    omega
  have hget : getLogInto E s.1 s.2 i out = (.error (.err (.offsetOutOfRange i)), out, s) := by
    simp only [getLogInto, getLog, hrep.read_missing hout]
  refine ⟨hget, fun hreports => ?_⟩
  have herr := hreports.1
  rw [hget] at herr
  cases herr

/-- Entries 1 to 3, of which 1 and 2 have been compacted away. -/
theorem getLog_missing_compacted :
    ∃ s, Trace (Step goEnv) (newLogStore Directory.empty ⟨64, 24, 0⟩).2
        [.storeLogs [entry 1, entry 2, entry 3], .deletePrefix 2] s ∧
      firstIndex s.1 = .ok 3 ∧ ¬ ReportsMissing goEnv s 2 (entry 9) := by
  have htr : Trace (Step goEnv) (newLogStore Directory.empty ⟨64, 24, 0⟩).2 _ _ :=
    Trace.init.snoc (.storeLogs_of [entry 1, entry 2, entry 3] 0 (by decide +kernel) (by decide)
      (by decide +kernel) (by decide +kernel))
  have htr' := htr.snoc (.deletePrefix_of 2 1 3 (by decide +kernel) (by decide +kernel) (by decide)
    (by decide +kernel))
  refine ⟨_, htr', by decide +kernel, ?_⟩
  exact (getLog_missing goEnv ⟨64, 24, 0⟩ (by decide) htr'
    (show firstIndex _ = .ok 3 by decide +kernel) (show lastIndex _ = .ok 3 by decide +kernel)
    (.inl (by decide)) _).2

/-- The same entries: raft asks a follower's next entry 1 of a log that
begins at 3. -/
theorem getLog_first_of_compacted :
    let s := (storeLogs goEnv (newLogStore Directory.empty ⟨64, 24, 0⟩).2.1
      (newLogStore Directory.empty ⟨64, 24, 0⟩).2.2 [entry 1, entry 2, entry 3]).2
    let s' := (deleteRange s.1 s.2 1 2).2
    (deleteRange s.1 s.2 1 2).1 = .ok () ∧ firstIndex s'.1 = .ok 3 ∧ lastIndex s'.1 = .ok 3 ∧
      (getLogInto goEnv s'.1 s'.2 1 (entry 9)).1 = .error (.err (.offsetOutOfRange 1)) := by
  decide +kernel

end LogStore

end DistributedLog
