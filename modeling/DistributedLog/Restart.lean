import DistributedLog.Fsm
import DistributedLog.LogStore
import DistributedLog.Resumed

/-!
# Stopping a node and starting it again

A node (`internal/log/distributed/distributed.go`) keeps two logs on disk: the
records, and behind `logStore` the entries of raft. `NewLog` opens both, but
`Close` closes only the first; nothing ever closes the second. So a node that
is stopped in order and started again finds its records as they were, and the
entries as a crash would leave them (`restart_forgets`): `LastIndex` is back
at the first index of the last segment, and the entries behind it are out of
range. Raft reads the last entry before it does anything else. If that one
never left the buffer `NewLog` fails, and otherwise every `StoreLogs` from
then on returns `io.EOF`.
-/

namespace DistributedLog

namespace Restart

/-! ## Nodes -/

/-- The log and the raft log store, with their directories. -/
structure Node where
  log : LogState
  store : LogState

/-- Any number of `GetLog` calls. -/
inductive Reads (E : Env) : LogState → LogState → Prop where
  | done (s : LogState) : Reads E s s
  | getLog {s s' s'' : LogState} {i : UInt64} {res : Result RaftLog} :
      LogStore.getLog E s.1 s.2 i = (res, s') → Reads E s' s'' → Reads E s s''

/-- `raft.NewRaft` on a log store, when there is no snapshot. -/
structure NewRaft (E : Env) where
  run : LogState → Result Unit × LogState
  /-- It does nothing to the log store but read entries. -/
  reads : ∀ s, Reads E s (run s).2
  /-- The last entry is one of them, and it has to be there. -/
  last : ∀ {s : LogState} {last : UInt64}, LogStore.lastIndex s.1 = .ok last → last ≠ 0 →
    (run s).1 = .ok () → ∃ log, (LogStore.getLog E s.1 s.2 last).1 = .ok log

/-- `NewLog`: `setupLog`, then `setupRaft`. A cluster is bootstrapped by one
more `StoreLogs`. -/
def newNode {E : Env} (R : NewRaft E) (logDir storeDir : Dir) (c : Config) :
    Result Node × Dir × Dir :=
  match Fsm.setupLog logDir c with
  | (.error e, _, d) => (.error e, d, storeDir)
  | (.ok _, log) =>
      match LogStore.newLogStore storeDir.mkdirAll c with
      | (.error e, _, d) => (.error e, log.2, d)
      | (.ok _, store) =>
          match R.run store with
          | (.error e, store) => (.error e, log.2, store.2)
          | (.ok _, store) => (.ok ⟨log, store⟩, log.2, store.2)

/-- `Log.Close`, once raft has been shut down. -/
def Node.close (n : Node) : Result Unit × Node :=
  match n.log.1.close n.log.2 with
  | (res, log) => (res, { n with log := log })

/-- The configuration of the log store. -/
def storeConfig (c : Config) : Config := { c with initialOffset := 1 }

inductive Event where
  | log (u : Call)
  | store (u : Call)

/-- What a running node does to its logs: raft stores and reads entries, and
deletes some below the last; the state machine appends records, clients read
them. -/
inductive Step (E : Env) (c : Config) : Node → Event → Node → Prop where
  | log {n : Node} {u : Call} {s : LogState} : Calls E c n.log u s → u ≠ .reopen →
      Step E c n (.log u) { n with log := s }
  | store {n : Node} {u : Call} {s : LogState} : Calls E (storeConfig c) n.store u s →
      u ≠ .reopen → Step E c n (.store u) { n with store := s }

def Event.Bounded : Event → Prop
  | .log u => u.Bounded
  | .store u => u.Bounded

variable {E : Env} {c : Config} {R : NewRaft E}

theorem newNode_cases {n : Node} {logDir storeDir : Dir} {ds : Dir × Dir}
    (h : newNode R logDir storeDir c = (.ok n, ds)) :
    Fsm.setupLog logDir c = (.ok (), n.log) ∧
      ∃ store, newLog storeDir.mkdirAll (storeConfig c) = (.ok (), store) ∧
        R.run store = (.ok (), n.store) := by
  unfold newNode at h
  split at h
  · cases h
  · next hlog =>
    split at h
    · cases h
    · next hstore =>
      split at h
      · cases h
      · next hraft =>
        cases h
        exact ⟨hlog, _, hstore, hraft⟩

theorem newNode_of (R : NewRaft E) (logDir storeDir : Dir) (c : Config)
    (hlog : (Fsm.setupLog logDir c).1 = .ok ())
    (hstore : (LogStore.newLogStore storeDir.mkdirAll c).1 = .ok ())
    (hraft : (R.run (LogStore.newLogStore storeDir.mkdirAll c).2).1 = .ok ()) :
    ∃ ds, newNode R logDir storeDir c = (.ok ⟨(Fsm.setupLog logDir c).2,
      (R.run (LogStore.newLogStore storeDir.mkdirAll c).2).2⟩, ds) := by
  have hlog' : Fsm.setupLog logDir c = (.ok (), (Fsm.setupLog logDir c).2) := Prod.ext hlog rfl
  have hstore' : LogStore.newLogStore storeDir.mkdirAll c =
      (.ok (), (LogStore.newLogStore storeDir.mkdirAll c).2) := Prod.ext hstore rfl
  have hraft' : R.run (LogStore.newLogStore storeDir.mkdirAll c).2 =
      (.ok (), (R.run (LogStore.newLogStore storeDir.mkdirAll c).2).2) := Prod.ext hraft rfl
  refine ⟨((Fsm.setupLog logDir c).2.2,
    (R.run (LogStore.newLogStore storeDir.mkdirAll c).2).2.2), ?_⟩
  rw [newNode, hlog']
  simp only
  rw [hstore']
  simp only
  rw [hraft']

/-- What raft's reads do not change. -/
theorem Reads.keeps {P : Log → Dir → Prop} (hP : Reader.FlushStable P) {s s' : LogState}
    (h : Reads E s s') (hs : P s.1 s.2) : P s'.1 s'.2 := by
  induction h with
  | done => exact hs
  | @getLog s s' _ i res hget _ ih =>
      refine ih ?_
      rcases hread : s.1.read E s.2 i with ⟨res', l, d⟩
      have hstate : s' = (l, d) := by
        simp only [LogStore.getLog, hread] at hget
        cases res' <;> (cases hget; rfl)
      rw [hstate]
      exact hP.read hs hread

theorem NewRaft.keeps {P : Log → Dir → Prop} (hP : Reader.FlushStable P) {s s' : LogState}
    {res : Result Unit} (h : R.run s = (res, s')) (hs : P s.1 s.2) : P s'.1 s'.2 := by
  have hreads := R.reads s
  rw [h] at hreads
  exact hreads.keeps hP hs

/-- `GetLog` finds an entry when `Read` finds a record. -/
theorem getLog_ok {s : LogState} {i : UInt64} {log : RaftLog}
    (h : (LogStore.getLog E s.1 s.2 i).1 = .ok log) :
    ∃ r, (s.1.read E s.2 i).1 = .ok r ∧ log = r.toRaftLog := by
  rcases hread : s.1.read E s.2 i with ⟨_ | r, s'⟩
  · simp [LogStore.getLog, hread] at h
  · simp only [LogStore.getLog, hread, Except.ok.injEq] at h
    exact ⟨r, rfl, h.symm⟩

/-- In working order, with no room for an entry anywhere. -/
structure Full (c : Config) (s : LogState) : Prop where
  sound : s.1.Sound c s.2
  nonempty : s.1.segments ≠ []
  sizes : ∀ t ∈ s.1.segments, t.index.size.toNat = c.maxIndexBytes.toNat

/-- An append fails, and the one after it will. -/
theorem Full.append {s : LogState} (h : Full c s) (hc : c.Mappable) (E : Env) (r : Record) :
    (s.1.append E s.2 (some r)).1 = .error (.err .eof) ∧ Full c (s.1.append E s.2 (some r)).2 := by
  obtain ⟨active, hact⟩ := h.sound.exists_active h.nonempty
  have hmem : active ∈ s.1.segments := List.mem_of_getLast? (h.sound.activeSegment ▸ hact)
  have hsize := h.sizes active hmem
  obtain ⟨st, d', happ, hsound, -⟩ := h.sound.append_orphans hc E r hact (by omega)
  rw [happ]
  refine ⟨rfl, hsound, by simp, fun t ht => ?_⟩
  rcases List.mem_append.mp ht with ht | ht
  · exact h.sizes t (List.dropLast_subset _ ht)
  · rw [List.mem_singleton.mp ht]
    exact hsize

theorem flushStable_full (c : Config) : Reader.FlushStable fun l d => Full c (l, d) := by
  refine ⟨fun h => h.sound.ready, ?_⟩
  intro l d d' i s st h hs hfl
  refine ⟨(h.sound.flush hs hfl).1, ?_, fun t ht => ?_⟩
  · intro hnil
    exact h.nonempty (List.modify_eq_nil_iff.mp hnil)
  · rcases Log.mem_setStore hs ht with ht | rfl
    · exact h.sizes t ht
    · exact h.sizes s (List.mem_of_getElem? hs)

/-- No call makes room. -/
theorem Full.call {s s' : LogState} {u : Call} (hc : c.withDefaults.Mappable)
    (h : Full c.withDefaults s) (hcall : Calls E c s u s') (hne : u ≠ .reopen) :
    Full c.withDefaults s' := by
  have hstable := flushStable_full c.withDefaults
  have hsound := Log.Sound.call hc h.sound h.nonempty hcall
  cases hcall with
  | @append l l' d d' r res happ =>
      have hfull := (h.append hc E r).2
      rw [happ] at hfull
      exact hfull
  | read hread => exact hstable.read h hread
  | drain hdrain => exact (hdrain.gives hstable h (Reader.valid_reader _)).2
  | @truncate l l' d d' lowest highest hnd _ _ htr =>
      obtain ⟨ps, d₁, hall, -, -, -, hkept, -⟩ :=
        Log.truncateAll_sound hc lowest (fun t ht => h.sound.segments t ht) hnd
      refine ⟨hsound.1, hsound.2, fun t ht => ?_⟩
      simp only [Log.truncate, hall] at htr
      cases htr
      exact h.sizes t (hkept t ht).1
  | reopen => exact absurd rfl hne

/-- Raft cannot store anything in it. -/
theorem Full.storeLogs {s : LogState} (h : Full c s) (hc : c.Mappable) (E : Env) (log : RaftLog)
    (logs : List RaftLog) :
    (LogStore.storeLogs E s.1 s.2 (log :: logs)).1 = .error (.err .eof) := by
  obtain ⟨happ, -⟩ := h.append hc E log.toRecord
  rcases hres : s.1.append E s.2 (some log.toRecord) with ⟨res, l', d'⟩
  obtain rfl : res = .error (.err .eof) := by
    rw [hres] at happ
    exact happ
  simp only [LogStore.storeLogs, hres]

/-- Nor later on. -/
theorem Full.run {n n' : Node} {es : List Event} (hc : (storeConfig c).withDefaults.Mappable)
    (h : Full (storeConfig c).withDefaults n.store) (htr : Trace (Step E c) n es n') :
    Full (storeConfig c).withDefaults n'.store := by
  refine htr.invariant (I := fun n => Full (storeConfig c).withDefaults n.store) h ?_
  intro n e n' h hstep
  cases hstep with
  | log _ _ => exact h
  | store hcall hne => exact h.call hc hcall hne

/-! ## The restart -/

/-- Both logs of a running node, and that neither has been closed. -/
structure Running (E : Env) (c : Config) (n : Node) : Prop where
  log : Log.Unclosed E c.withDefaults n.log
  store : Log.Unclosed E (storeConfig c).withDefaults n.store

/-- A node on directories that were not there. -/
theorem running_of_newNode {n₀ : Node} {ds : Dir × Dir}
    (hnew : newNode R Directory.absent Directory.absent c = (.ok n₀, ds)) : Running E c n₀ := by
  obtain ⟨hlog, store, hstore, hraft⟩ := newNode_cases hnew
  obtain ⟨L, orphans, hrep, hall, hlow⟩ := Padding.unclosed_of_newLog E hstore
  obtain ⟨hrep', hall'⟩ := NewRaft.keeps (Padding.flushStable E _ L orphans) hraft ⟨hrep, hall⟩
  exact ⟨Padding.unclosed_of_newLog E hlog, L, orphans, hrep', hall', hlow⟩

theorem running {n₀ n : Node} {ds : Dir × Dir} {es : List Event}
    (hnew : newNode R Directory.absent Directory.absent c = (.ok n₀, ds))
    (htr : Trace (Step E c) n₀ es n) (hes : ∀ e ∈ es, e.Bounded) : Running E c n := by
  induction htr with
  | init => exact running_of_newNode hnew
  | snoc htr hstep ih =>
      have h := ih fun e he => hes e (List.mem_append_left _ he)
      have hbound := hes _ (List.mem_append_right _ (List.mem_singleton_self _))
      cases hstep with
      | log hcall hne => exact ⟨Padding.call h.log hcall hbound hne, h.store⟩
      | store hcall hne => exact ⟨h.log, Padding.call h.store hcall hbound hne⟩

section forgotten

variable {L : Layout} {s : LogState}

/-- The last entry that is left. -/
theorem lastIndex_remains (h : Log.Remains E c s L) (hnext : L.next < 2 ^ 64 - 1) :
    LogStore.lastIndex s.1 = .ok (UInt64.ofNat (L.act.start + L.act.seen c - 1)) :=
  h.highestOffset hnext

/-- A raft that starts has read it. -/
theorem resumed_of_run (h : Log.Remains E c s L) (hM : c.maxIndexBytes.toNat ≤ 12 * 2 ^ 32)
    (hfit : L.Fits E) (hnext : L.next < 2 ^ 64 - 1) (hlow : 0 < L.lowest) {s' : LogState}
    (hraft : R.run s = (.ok (), s')) : Log.Resumed E c s' L := by
  have hlo : L.lowest ≤ L.act.start := L.tiles.le
  have hle := Block.seen_le_succ (c := c) (b := L.act)
  have hend : L.act.start + L.act.len = L.next := rfl
  refine NewRaft.keeps (Log.Resumed.flushStable E c L) hraft ?_
  refine h.resumed hM hfit hnext fun hpos => ?_
  have hne : UInt64.ofNat (L.act.start + L.act.seen c - 1) ≠ 0 := by
    intro h0
    have hz := congrArg UInt64.toNat h0
    rw [UInt64.toNat_ofNat', Nat.mod_eq_of_lt (by omega),
      show (0 : UInt64).toNat = 0 from rfl] at hz
    omega
  obtain ⟨log, hget⟩ := R.last (lastIndex_remains h hnext) hne (by rw [hraft])
  obtain ⟨r, hr, -⟩ := getLog_ok hget
  exact ⟨r, hr⟩

end forgotten

/-- What `raft.NewRaft` does when there is no snapshot: it reads the last
entry, and then all of them for changes of the configuration. -/
def scan (E : Env) (s : LogState) : List UInt64 → Result Unit × LogState
  | [] => (.ok (), s)
  | i :: is =>
      match LogStore.getLog E s.1 s.2 i with
      | (.error e, s) => (.error e, s)
      | (.ok _, s) => scan E s is

theorem scan_reads (is : List UInt64) : ∀ s : LogState, Reads E s (scan E s is).2 := by
  induction is with
  | nil => exact fun s => .done s
  | cons i is ih =>
      intro s
      rcases hget : LogStore.getLog E s.1 s.2 i with ⟨_ | log, s'⟩
      · simp only [scan, hget]
        exact .getLog hget (.done _)
      · simp only [scan, hget]
        exact .getLog hget (ih s')

def raft (E : Env) : NewRaft E where
  run s :=
    match LogStore.lastIndex s.1 with
    | .error e => (.error e, s)
    | .ok last =>
        if last = 0 then (.ok (), s)
        else scan E s (last :: (List.range last.toNat).map fun k => UInt64.ofNat (k + 1))
  reads s := by
    cases LogStore.lastIndex s.1 with
    | error e => exact .done s
    | ok last =>
        simp only
        split
        · exact .done s
        · exact scan_reads _ s
  last hlast hne hok := by
    simp only [hlast, if_neg hne, scan] at hok
    split at hok
    · cases hok
    · next log s' hget => exact ⟨log, by rw [hget]⟩

end Restart

end DistributedLog
