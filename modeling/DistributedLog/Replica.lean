import DistributedLog.Batch
import DistributedLog.Restart

/-!
# A replica that restarts

Raft stores the entries of its log before they are committed, and gives the
committed commands to the state machine in order (`fsm.Apply`). It does not
know how much of its log the state machine has seen, so after a restart it
starts from the first entry again. The state machine's log is reopened with
its records, not emptied: a command that is applied once more is appended
once more.

What is applied again is what the log store still gives. That is less than
was stored (`Restart`): the entries up to the first of the last segment, and
no entry can be added to them. So the records are those of the commands, each
of them once, as long as no command that was applied is among these entries
when the node stops, and none is refused (`exactlyOnce_of_harmless`).

`agreed` is the raft log as the cluster agrees on it. Entries that a leader
puts in the place of others make raft call `DeleteRange`, which is a step
here, but not a harmless one: it deletes the whole log (`LogStore`).
-/

namespace DistributedLog

namespace Replica

/-- `raft.LogCommand`. -/
def logCommand : UInt8 := 0

/-- Raft gives a committed entry to the state machine if it is a command. -/
def applyEntry (E : Env) (s : LogState) (log : RaftLog) : Result Unit × LogState :=
  if log.type = logCommand then
    match Fsm.apply E s.1 s.2 log.data with
    | (.error e, s) => (.error e, s)
    | (.ok _, s) => (.ok (), s)
  else (.ok (), s)

/-- The record that an entry stands for. -/
def command (E : Env) (log : RaftLog) : Option Record :=
  if log.type = logCommand then Fsm.logged E log.data else none

def commands (E : Env) (logs : List RaftLog) : List Record := logs.filterMap (command E)

structure Node extends Restart.Node where
  /-- What raft has stored since it was started. A leader applies these
  without reading them back. -/
  held : List RaftLog
  /-- `lastApplied`, of the raft that is running. -/
  applied : Nat
  /-- The most entries that any raft of this node has applied. -/
  done : Nat

/-- One more entry has been applied. -/
def Node.advance (n : Node) (log store : LogState) : Node :=
  { n with
    log := log, store := store
    applied := n.applied + 1, done := max n.done (n.applied + 1) }

inductive Event where
  | storeLogs (logs : List RaftLog) (res : Result Unit)
  | getLog (index : UInt64)
  | deleteRange (min max : UInt64)
  | apply
  | read (off : UInt64)
  | restart

/-- A call may return an error; a panic in `fsm.Apply` or in a `GetLog` that
raft relies on ends the process, so no step follows. -/
inductive Step (E : Env) (c : Config) (R : Restart.NewRaft E) : Node → Event → Node → Prop where
  | storeLogs {n : Node} {logs : List RaftLog} {res : Result Unit} {s : LogState} :
      LogStore.storeLogs E n.store.1 n.store.2 logs = (res, s) →
      Step E c R n (.storeLogs logs res)
        { n with store := s, held := if res = .ok () then n.held ++ logs else n.held }
  | getLog {n : Node} {index : UInt64} {res : Result RaftLog} {s : LogState} :
      LogStore.getLog E n.store.1 n.store.2 index = (res, s) →
      Step E c R n (.getLog index) { n with store := s }
  | deleteRange {n : Node} {min max : UInt64} {res : Result Unit} {s : LogState} :
      LogStore.deleteRange n.store.1 n.store.2 min max = (res, s) →
      Step E c R n (.deleteRange min max) { n with store := s }
  | applyHeld {n : Node} {log : RaftLog} {s : LogState} : log ∈ n.held →
      log.index.toNat = n.applied + 1 → applyEntry E n.log log = (.ok (), s) →
      Step E c R n .apply (n.advance s n.store)
  | applyStored {n : Node} {log : RaftLog} {s s' : LogState} :
      LogStore.getLog E n.store.1 n.store.2 (UInt64.ofNat (n.applied + 1)) = (.ok log, s') →
      applyEntry E n.log log = (.ok (), s) → Step E c R n .apply (n.advance s s')
  | read {n : Node} {off : UInt64} {res : Result Record} {s : LogState} :
      n.log.1.read E n.log.2 off = (res, s) → Step E c R n (.read off) { n with log := s }
  | restart {n : Node} {n₁ n' : Restart.Node} {ds : Dir × Dir} :
      n.toNode.close = (.ok (), n₁) → Restart.newNode R n₁.log.2 n₁.store.2 c = (.ok n', ds) →
      Step E c R n .restart ⟨n', [], 0, n.done⟩

/-- Reading returns the records of the commands that the node has got to,
each at its own offset, and nothing else. -/
def ExactlyOnce (E : Env) (c : Config) (agreed : List RaftLog) (n : Node) : Prop :=
  ∀ off, (n.log.1.read E n.log.2 off).1 =
    Log.readOf ⟨c.initialOffset.toNat, commands E (agreed.take n.done)⟩ off

/-! ## Steps that do no harm -/

/-- The last entry that a restart leaves, by the active segment of the log
store: the first one of that segment, unless its index is full. -/
def lastLeft (c : Config) (s : Segment) : Nat :=
  if s.index.size.toNat + 12 ≤ c.withDefaults.maxIndexBytes.toNat then s.baseOffset.toNat
  else s.nextOffset.toNat - 1

/-- What is asked of a step, by the state before it. -/
def Event.Harmless (E : Env) (c : Config) (agreed : List RaftLog) (n : Node) : Event → Prop
  -- the batch continues the log store
  | .storeLogs logs _ => ∃ last, LogStore.lastIndex n.store.1 = .ok last ∧
      logs <+: agreed.drop last.toNat
  | .deleteRange _ _ => False
  -- a command finds room for its record
  | .apply => ∀ log r, agreed[n.applied]? = some log → command E log = some r →
      ∃ s, n.log.1.activeSegment = some s ∧
        s.index.size.toNat + 12 ≤ c.withDefaults.maxIndexBytes.toNat
  -- of the commands that were applied none is left
  | .restart => ∀ s, n.store.1.activeSegment = some s →
      commands E (agreed.take (min n.done (lastLeft c s))) = []
  | .getLog _ => True
  | .read _ => True

def Node.Fits (n : Node) : Prop := n.log.1.FilesFit n.log.2 ∧ n.store.1.FilesFit n.store.2

def HarmlessStep (E : Env) (c : Config) (R : Restart.NewRaft E) (agreed : List RaftLog)
    (n : Node) (e : Event) (n' : Node) : Prop :=
  Step E c R n e n' ∧ e.Harmless E c agreed n ∧ n'.Fits

/-! ## Entries and commands -/

variable {E : Env} {c : Config} {R : Restart.NewRaft E} {agreed : List RaftLog}

theorem commands_take_succ {k : Nat} {log : RaftLog} (h : agreed[k]? = some log) :
    commands E (agreed.take (k + 1)) = commands E (agreed.take k) ++ (command E log).toList := by
  rw [commands, commands, List.take_add_one, h, Option.toList_some, List.filterMap_append]
  cases hc : command E log <;> simp [hc]

theorem applyEntry_cases {s s' : LogState} {log : RaftLog}
    (h : applyEntry E s log = (.ok (), s')) :
    (∃ r, command E log = some r ∧ ((∃ off, s.1.append E s.2 (some r) = (.ok off, s')) ∨
      ∃ e, s.1.append E s.2 (some r) = (.error (.err e), s'))) ∨
    command E log = none ∧ s' = s := by
  unfold applyEntry at h
  unfold command
  by_cases htype : log.type = logCommand
  · rw [if_pos htype] at h ⊢
    rcases happ : Fsm.apply E s.1 s.2 log.data with ⟨e | res, l, d⟩
    · simp [happ] at h
    · simp only [happ, Prod.mk.injEq, true_and] at h
      subst h
      rcases Fsm.apply_cases happ with ⟨r, off, hr, h, -⟩ | ⟨r, e, hr, h, -⟩ | ⟨hnone, rfl, rfl, -⟩
      · exact .inl ⟨r, hr, .inl ⟨off, h⟩⟩
      · exact .inl ⟨r, hr, .inr ⟨e, h⟩⟩
      · exact .inr ⟨hnone, rfl⟩
  · rw [if_neg htype] at h ⊢
    cases h
    exact .inr ⟨rfl, rfl⟩

/-- The entry after the ones that the state machine has seen. -/
theorem simulates_applyEntry {s s' : LogState} {k : Nat} {log : RaftLog}
    (h : Simulates E c.withDefaults s ⟨c.initialOffset.toNat, commands E (agreed.take k)⟩)
    (hbound : c.initialOffset.toNat + agreed.length < 2 ^ 64 - 1)
    (hlog : agreed[k]? = some log)
    (hroom : ∀ r, command E log = some r → ∃ t, s.1.activeSegment = some t ∧
      t.index.size.toNat + 12 ≤ c.withDefaults.maxIndexBytes.toNat)
    (happ : applyEntry E s log = (.ok (), s')) (hfit : s'.1.FilesFit s'.2) :
    Simulates E c.withDefaults s' ⟨c.initialOffset.toNat, commands E (agreed.take (k + 1))⟩ := by
  rw [commands_take_succ hlog]
  rcases applyEntry_cases happ with ⟨r, hr, hcases⟩ | ⟨hnone, rfl⟩
  · obtain ⟨t, hact, hsize⟩ := hroom r hr
    obtain ⟨L, hrep, -, habs⟩ := id h
    have hok := (hrep.repWith.sound.append_ok_iff hrep.mappable E r hact).mpr hsize
    rcases hcases with ⟨off, happ'⟩ | ⟨e, happ'⟩
    · have hoff : off.toNat < 2 ^ 64 - 1 := by
        have hlen : (commands E (agreed.take k)).length ≤ agreed.length :=
          (List.length_filterMap_le ..).trans (List.length_take_le' ..)
        have hnext := hrep.append_off happ'
        rw [← L.abs_next, habs] at hnext
        have : AppendOnly.next ⟨c.initialOffset.toNat, commands E (agreed.take k)⟩ =
          c.initialOffset.toNat + (commands E (agreed.take k)).length := rfl
        omega
      rw [hr]
      exact (h.append happ' hoff hfit).2
    · obtain ⟨off, l', d', hok⟩ := hok
      rw [happ'] at hok
      cases hok
  · rw [hnone, Option.toList_none, List.append_nil]
    exact h

/-- The log store holds the first of the entries, under their indexes. -/
def Stores (agreed : List RaftLog) (L : Layout) : Prop :=
  ∃ k ≤ agreed.length, L.abs = ⟨1, (agreed.take k).map RaftLog.toRecord⟩

theorem Stores.lowest {L : Layout} (h : Stores agreed L) : L.lowest = 1 := by
  obtain ⟨k, -, habs⟩ := h
  exact congrArg AppendOnly.base habs

theorem Stores.next {L : Layout} {k : Nat} (hk : k ≤ agreed.length)
    (habs : L.abs = ⟨1, (agreed.take k).map RaftLog.toRecord⟩) : L.next = k + 1 := by
  rw [← L.abs_next, habs, AppendOnly.next, List.length_map, List.length_take,
    Nat.min_eq_left hk, Nat.add_comm]

theorem Stores.next_le {L : Layout} (h : Stores agreed L) : L.next ≤ agreed.length + 1 := by
  obtain ⟨k, hk, habs⟩ := h
  rw [Stores.next hk habs]
  omega

theorem Stores.entry {L : Layout} (h : Stores agreed L)
    (hindex : LogStore.Consecutive 1 agreed) {i : UInt64} {r : Record}
    (hget : L.abs.get? i.toNat = some r) :
    0 < i.toNat ∧ agreed[i.toNat - 1]? = some ({ r with offset := i } : Record).toRaftLog := by
  obtain ⟨k, -, habs⟩ := h
  rw [habs, AppendOnly.get?] at hget
  split at hget
  · next hle =>
    simp only at hle hget
    rw [List.getElem?_map, Option.map_eq_some_iff] at hget
    obtain ⟨log, hlog, rfl⟩ := hget
    have hagreed : agreed[i.toNat - 1]? = some log := by
      rw [List.getElem?_take] at hlog
      split at hlog
      · exact hlog
      · cases hlog
    have hidx : log.index = i := by
      apply UInt64.toNat_inj.mp
      have hone : (1 : UInt64).toNat = 1 := rfl
      rw [hindex _ log hagreed]
      omega
    rw [← hidx, LogStore.toRaftLog_toRecord, hidx]
    exact ⟨hle, hagreed⟩
  · cases hget

/-- `GetLog` at an index that a layout says is there. -/
theorem readOf_ok {a : AppendOnly Record} {off : UInt64} {r : Record}
    (h : Log.readOf a off = .ok r) :
    ∃ r', a.get? off.toNat = some r' ∧ r = { r' with offset := off } := by
  unfold Log.readOf at h
  cases hget : a.get? off.toNat with
  | none =>
      rw [hget] at h
      cases h
  | some r' =>
      rw [hget] at h
      cases h
      exact ⟨r', rfl, rfl⟩

/-! ## The log store while the node runs -/

/-- As it is until the first restart. Everything applied was applied by the
raft that is running. -/
structure Live (E : Env) (c : Config) (agreed : List RaftLog) (n : Node) : Prop where
  applied : n.applied = n.done
  held : ∀ log ∈ n.held, agreed[log.index.toNat - 1]? = some log
  store : ∃ L orphans, n.store.1.RepWith E c n.store.2 L orphans ∧
    Padding.All E c n.store.2 L ∧ L.Fits E ∧ Stores agreed L

/-- As it is after one. What was applied before and can be applied again is
no command. -/
structure Again (E : Env) (c : Config) (agreed : List RaftLog) (n : Node) : Prop where
  applied : n.applied ≤ n.done
  held : n.held = []
  store : ∃ L, Log.Resumed E c n.store L ∧ L.Fits E ∧ Stores agreed L ∧
    commands E ((agreed.take (min n.done (L.act.start + L.act.seen c - 1))).drop n.applied) = []

theorem getLog_state {s s' : LogState} {i : UInt64} {res : Result RaftLog}
    (h : LogStore.getLog E s.1 s.2 i = (res, s')) : Restart.Reads E s s' :=
  .getLog h (.done _)

/-- A batch that continues the log store, as far as it is stored. -/
theorem stores_storeLogs {logs : List RaftLog} {res : Result Unit} {l l' : Log} {d d' : Dir}
    {L : Layout} {orphans : Bytes} {k : Nat} (hrep : l.RepWith E c d L orphans)
    (hall : Padding.All E c d L) (hk : k ≤ agreed.length)
    (habs : L.abs = ⟨1, (agreed.take k).map RaftLog.toRecord⟩) (hlogs : logs <+: agreed.drop k)
    (hbound : agreed.length < 2 ^ 64 - 2)
    (hst : LogStore.storeLogs E l d logs = (res, l', d')) :
    ∃ L' orphans', l'.RepWith E c d' L' orphans' ∧ Padding.All E c d' L' ∧ Stores agreed L' := by
  have hlen := hlogs.length_le
  rw [List.length_drop] at hlen
  have hnext := Stores.next hk habs
  obtain ⟨L', stored, rest, rfl, ⟨orphans', hrep', hall'⟩, habs', -⟩ :=
    LogStore.storeLogs_keeps (c := c)
      (P := fun l d L => ∃ orphans, l.RepWith E c d L orphans ∧ Padding.All E c d L)
      (fun ⟨_, hrep, hall⟩ hnext happ => by
        obtain ⟨L', orphans', hrep', hall', hcases⟩ :=
          Padding.append hrep hall happ (hrep.append_off_lt hnext happ)
        exact ⟨L', ⟨orphans', hrep', hall'⟩, hcases⟩)
      ⟨orphans, hrep, hall⟩ hst (by omega)
  have hstored : (agreed.drop k).take stored.length = stored :=
    (List.prefix_iff_eq_take.mp ((List.prefix_append stored rest).trans hlogs)).symm
  rw [List.length_append] at hlen
  refine ⟨L', orphans', hrep', hall', k + stored.length, by omega, ?_⟩
  rw [habs', habs, AppendOnly.pushAll, List.take_add, hstored, List.map_append]

theorem Live.storeLogs {n : Node} {logs : List RaftLog} {res : Result Unit} {s : LogState}
    (h : Live E c agreed n) (hbound : agreed.length < 2 ^ 64 - 2)
    (hindex : LogStore.Consecutive 1 agreed) {last : UInt64}
    (hlast : LogStore.lastIndex n.store.1 = .ok last) (hlogs : logs <+: agreed.drop last.toNat)
    (hst : LogStore.storeLogs E n.store.1 n.store.2 logs = (res, s)) (hfit : s.1.FilesFit s.2) :
    Live E c agreed
      { n with store := s, held := if res = .ok () then n.held ++ logs else n.held } := by
  obtain ⟨L, orphans, hrep, hall, -, k, hk, habs⟩ := h.store
  have hnext := Stores.next hk habs
  have hlastk : last.toNat = k := by
    rw [LogStore.lastIndex, hrep.highestOffset, Except.ok.injEq] at hlast
    rw [← hlast, UInt64.toNat_ofNat', hnext, Nat.add_sub_cancel, Nat.mod_eq_of_lt (by omega)]
  rw [hlastk] at hlogs
  obtain ⟨L', orphans', hrep', hall', hstores⟩ :=
    stores_storeLogs hrep hall hk habs hlogs hbound hst
  refine ⟨h.applied, fun log hlog => ?_, L', orphans', hrep', hall', hrep'.fits hfit, hstores⟩
  have hmem : log ∈ n.held ∨ log ∈ logs := by
    simp only at hlog
    split at hlog
    · exact List.mem_append.mp hlog
    · exact .inl hlog
  rcases hmem with hmem | hmem
  · exact h.held log hmem
  · have hin : log ∈ agreed := List.mem_of_mem_drop (hlogs.subset hmem)
    obtain ⟨i, hi⟩ := List.getElem?_of_mem hin
    rw [hindex i log hi, show (1 : UInt64).toNat = 1 from rfl, Nat.add_sub_cancel_left]
    exact hi

theorem Again.storeLogs {n : Node} {logs : List RaftLog} {res : Result Unit} {s : LogState}
    (h : Again E c agreed n) (hst : LogStore.storeLogs E n.store.1 n.store.2 logs = (res, s)) :
    Again E c agreed
      { n with store := s, held := if res = .ok () then n.held ++ logs else n.held } := by
  obtain ⟨L, hres, hrest⟩ := h.store
  cases logs with
  | nil =>
      cases hst
      exact ⟨h.applied, by simp [h.held], L, hres, hrest⟩
  | cons log logs =>
      obtain ⟨s', happ, hres'⟩ := hres.append log.toRecord
      simp only [LogStore.storeLogs, happ] at hst
      cases hst
      exact ⟨h.applied, by simp [h.held], L, hres', hrest⟩

theorem Live.reads {n : Node} {s : LogState} (h : Live E c agreed n)
    (hreads : Restart.Reads E n.store s) : Live E c agreed { n with store := s } := by
  obtain ⟨L, orphans, hrep, hall, hrest⟩ := h.store
  obtain ⟨hrep', hall'⟩ := hreads.keeps (Padding.flushStable E c L orphans) ⟨hrep, hall⟩
  exact ⟨h.applied, h.held, L, orphans, hrep', hall', hrest⟩

theorem Again.reads {n : Node} {s : LogState} (h : Again E c agreed n)
    (hreads : Restart.Reads E n.store s) : Again E c agreed { n with store := s } := by
  obtain ⟨L, hres, hrest⟩ := h.store
  exact ⟨h.applied, h.held, L, hreads.keeps (Log.Resumed.flushStable E c L) hres, hrest⟩

/-! ### What raft applies -/

theorem Live.getLog_ok {n : Node} (h : Live E c agreed n)
    (hM : c.maxIndexBytes.toNat ≤ 12 * 2 ^ 32) (hindex : LogStore.Consecutive 1 agreed)
    {i : UInt64} {log : RaftLog} (hget : (LogStore.getLog E n.store.1 n.store.2 i).1 = .ok log) :
    0 < i.toNat ∧ agreed[i.toNat - 1]? = some log := by
  obtain ⟨L, orphans, hrep, -, hfit, hstores⟩ := h.store
  obtain ⟨r, hr, rfl⟩ := Restart.getLog_ok hget
  rw [hrep.read hM hfit] at hr
  obtain ⟨r', hget', rfl⟩ := readOf_ok hr
  exact hstores.entry hindex hget'

theorem Again.getLog_ok {n : Node} {L : Layout} (hres : Log.Resumed E c n.store L)
    (hfit : L.Fits E) (hstores : Stores agreed L) (hM : c.maxIndexBytes.toNat ≤ 12 * 2 ^ 32)
    (hindex : LogStore.Consecutive 1 agreed) (hbound : agreed.length < 2 ^ 64 - 2)
    {i : UInt64} {log : RaftLog} (hget : (LogStore.getLog E n.store.1 n.store.2 i).1 = .ok log) :
    i.toNat < L.act.start + L.act.seen c ∧ agreed[i.toNat - 1]? = some log := by
  obtain ⟨r, hr, rfl⟩ := Restart.getLog_ok hget
  have hnext := hstores.next_le
  obtain ⟨hlt, r', hget', rfl⟩ := hres.read_ok hM hfit (by omega) hr
  exact ⟨hlt, (hstores.entry hindex hget').2⟩

/-! ### What is left to apply -/

theorem Live.advance {n : Node} (h : Live E c agreed n) (log : LogState) :
    Live E c agreed (n.advance log n.store) := by
  refine ⟨?_, h.held, h.store⟩
  have := h.applied
  simp only [Node.advance]
  omega

theorem Again.advance {n : Node} (h : Again E c agreed n) (log : LogState) :
    Again E c agreed (n.advance log n.store) := by
  obtain ⟨L, hres, hfit, hstores, hnone⟩ := h.store
  have hle := h.applied
  refine ⟨Nat.le_max_right _ _, h.held, L, hres, hfit, hstores, ?_⟩
  simp only [Node.advance]
  rcases Nat.lt_or_eq_of_le hle with hlt | heq
  · rw [Nat.max_eq_left hlt]
    refine List.filterMap_eq_nil_iff.mpr fun log hlog => List.filterMap_eq_nil_iff.mp hnone log ?_
    rw [← List.drop_drop] at hlog
    exact List.mem_of_mem_drop hlog
  · rw [heq, Nat.max_eq_right (Nat.le_succ _), List.drop_eq_nil_of_le]
    · rfl
    · rw [List.length_take]
      omega

/-- An entry that was applied before is no command. -/
theorem Again.none_again {n : Node} {last : Nat} {log : RaftLog}
    (h : commands E ((agreed.take (min n.done last)).drop n.applied) = [])
    (hlt : n.applied < n.done) (hle : n.applied < last) (hlog : agreed[n.applied]? = some log) :
    command E log = none := by
  refine List.filterMap_eq_nil_iff.mp h log (List.mem_of_getElem? (i := 0) ?_)
  rw [List.getElem?_drop, Nat.add_zero, List.getElem?_take_of_lt (by omega), hlog]

/-! ### Restarts -/

theorem lastLeft_live {n : Node} {L : Layout} {orphans : Bytes} {t : Segment}
    (h : n.store.1.RepWith E (Restart.storeConfig c).withDefaults n.store.2 L orphans)
    (ht : n.store.1.activeSegment = some t) :
    lastLeft c t = L.act.start + L.act.seen (Restart.storeConfig c).withDefaults - 1 := by
  have hroom := h.room_iff ht
  obtain ⟨t', ht', hholds⟩ := h.active
  obtain rfl : t = t' := Option.some.inj (ht.symm.trans ht')
  have hmax : (Restart.storeConfig c).withDefaults.maxIndexBytes =
    c.withDefaults.maxIndexBytes := rfl
  unfold lastLeft Block.seen
  rw [hmax] at hroom ⊢
  by_cases hr : 12 * (L.act.len + 1) ≤ c.withDefaults.maxIndexBytes.toNat
  · rw [if_pos (hroom.mpr hr), if_pos hr, hholds.base, Nat.add_sub_cancel, Block.start]
  · rw [if_neg (mt hroom.mp hr), if_neg hr, hholds.next]

theorem lastLeft_again {n : Node} {L : Layout} {t : Segment}
    (h : Log.Resumed E (Restart.storeConfig c).withDefaults n.store L) (hnext : L.next < 2 ^ 64 - 1)
    (ht : n.store.1.activeSegment = some t) :
    lastLeft c t = L.act.start + L.act.seen (Restart.storeConfig c).withDefaults - 1 := by
  obtain ⟨ss, t', hseg, -, hrem⟩ := h.last
  obtain rfl : t = t' := by
    rw [h.sound.activeSegment, hseg, List.getLast?_concat, Option.some.injEq] at ht
    exact ht.symm
  have hfull : t.index.size = c.withDefaults.maxIndexBytes := hrem.full
  have hend : L.act.start + L.act.len = L.next := rfl
  rw [lastLeft, hfull, if_neg (by omega), hrem.next_toNat (by omega)]

/-- The node is started on what it has left of its log store. -/
theorem again_of_restart {n : Node} {n' : Restart.Node} {s : LogState} {L : Layout}
    (hrem : Log.Remains E (Restart.storeConfig c).withDefaults s L)
    (hM : c.maxIndexBytes.toNat ≤ 12 * 2 ^ 32) (hbound : agreed.length < 2 ^ 64 - 2)
    (hfit : L.Fits E) (hstores : Stores agreed L) (hraft : R.run s = (.ok (), n'.store))
    (hnone : commands E (agreed.take (min n.done
      (L.act.start + L.act.seen (Restart.storeConfig c).withDefaults - 1))) = []) :
    Again E (Restart.storeConfig c).withDefaults agreed ⟨n', [], 0, n.done⟩ := by
  have hnext := hstores.next_le
  refine ⟨Nat.zero_le _, rfl, L, ?_, hfit, hstores, by rw [List.drop_zero]; exact hnone⟩
  exact Restart.resumed_of_run hrem (Config.withDefaults_le hM) hfit (by omega)
    (by rw [hstores.lowest]; exact Nat.one_pos) hraft

/-! ## Runs -/

structure Tracks (E : Env) (c : Config) (agreed : List RaftLog) (n : Node) : Prop where
  le : n.done ≤ agreed.length
  log : Simulates E c.withDefaults n.log
    ⟨c.initialOffset.toNat, commands E (agreed.take n.done)⟩
  store : Live E (Restart.storeConfig c).withDefaults agreed n ∨
    Again E (Restart.storeConfig c).withDefaults agreed n

/-- The assumptions of a run. -/
structure Bounds (c : Config) (agreed : List RaftLog) : Prop where
  index : c.maxIndexBytes.toNat ≤ 12 * 2 ^ 32
  offsets : c.initialOffset.toNat + agreed.length < 2 ^ 64 - 2
  indexes : LogStore.Consecutive 1 agreed

theorem Tracks.applied_le {n : Node} (h : Tracks E c agreed n) : n.applied ≤ n.done := by
  rcases h.store with hlive | hagain
  · exact Nat.le_of_eq hlive.applied
  · exact hagain.applied

/-- The entry that is applied is the next one, or one that does nothing. -/
theorem Tracks.apply {n : Node} {log : RaftLog} {s s' : LogState} (h : Tracks E c agreed n)
    (hb : Bounds c agreed) (hharm : Event.Harmless E c agreed n .apply)
    (hlog : agreed[n.applied]? = some log)
    (hnone : n.applied < n.done → command E log = none) (hreads : Restart.Reads E n.store s')
    (happ : applyEntry E n.log log = (.ok (), s)) (hfit : s.1.FilesFit s.2) :
    Tracks E c agreed (n.advance s s') := by
  have hlt := (List.getElem?_eq_some_iff.mp hlog).1
  have hoff := hb.offsets
  refine ⟨Nat.max_le.mpr ⟨h.le, hlt⟩, ?_,
    h.store.imp (fun hl => (hl.reads hreads).advance s) fun ha => (ha.reads hreads).advance s⟩
  simp only [Node.advance]
  rcases Nat.lt_or_eq_of_le h.applied_le with hless | heq
  · have hs : s = n.log := by
      rcases applyEntry_cases happ with ⟨r, hr, -⟩ | ⟨-, hs⟩
      · rw [hnone hless] at hr
        cases hr
      · exact hs
    rw [Nat.max_eq_left hless, hs]
    exact h.log
  · rw [← heq, Nat.max_eq_right (Nat.le_succ _)]
    exact simulates_applyEntry (heq ▸ h.log) (by omega) hlog (fun r => hharm log r hlog) happ hfit

theorem Tracks.restart {n : Node} {n₁ n' : Restart.Node} {ds : Dir × Dir}
    (h : Tracks E c agreed n) (hb : Bounds c agreed)
    (hharm : Event.Harmless E c agreed n .restart) (hclose : n.toNode.close = (.ok (), n₁))
    (hnew : Restart.newNode R n₁.log.2 n₁.store.2 c = (.ok n', ds)) :
    Tracks E c agreed ⟨n', [], 0, n.done⟩ := by
  have hM := hb.index
  have hoff := hb.offsets
  obtain ⟨hlog, s, hstore, hraft⟩ := Restart.newNode_cases hnew
  rcases hcl : n.log.1.close n.log.2 with ⟨res, l₁, d₁⟩
  simp only [Restart.Node.close, hcl, Prod.mk.injEq] at hclose
  obtain ⟨rfl, rfl⟩ := hclose
  have hsim : Simulates E c.withDefaults n'.log
      ⟨c.initialOffset.toNat, commands E (agreed.take n.done)⟩ := by
    obtain ⟨L, hrep, -⟩ := id h.log
    obtain ⟨l₂, d₂, hcl', -, ht⟩ := hrep.close
    rw [hcl, Prod.mk.injEq, Prod.mk.injEq] at hcl'
    obtain ⟨-, rfl, rfl⟩ := hcl'
    rw [Fsm.setupLog, Directory.mkdirAll, if_pos (ht.present.trans hrep.present)] at hlog
    obtain ⟨a', hstep, hsim'⟩ := h.log.step rfl (Config.withDefaults_le hM)
      (.reopen (l := n.log.1) (d := n.log.2) hcl hlog)
    cases hstep
    exact hsim'
  refine ⟨h.le, hsim, .inr ?_⟩
  rcases h.store with hlive | hagain
  · obtain ⟨L, orphans, hrep, hall, hfit, hstores⟩ := hlive.store
    obtain ⟨s', hopen, hrem, -⟩ :=
      hrep.remains hall (show (Restart.storeConfig c).withDefaults = _ from rfl)
        (Config.withDefaults_le hM)
    rw [Directory.mkdirAll, if_pos hrep.present, hopen, Prod.mk.injEq] at hstore
    obtain ⟨-, rfl⟩ := hstore
    obtain ⟨t, hact, -⟩ := hrep.active
    refine again_of_restart hrem hM (by omega) hfit hstores hraft ?_
    rw [← lastLeft_live hrep hact]
    exact hharm t hact
  · obtain ⟨L, hres, hfit, hstores, -⟩ := hagain.store
    have hnext := hstores.next_le
    obtain ⟨s', hopen, hrem⟩ :=
      hres.toRemains.newLog (show (Restart.storeConfig c).withDefaults = _ from rfl)
        (Config.withDefaults_le hM)
    rw [Directory.mkdirAll, if_pos hres.sound.present, hopen, Prod.mk.injEq] at hstore
    obtain ⟨-, rfl⟩ := hstore
    obtain ⟨ss, t, hseg, -⟩ := hres.last
    have hact : n.store.1.activeSegment = some t := by
      rw [hres.sound.activeSegment, hseg, List.getLast?_concat]
    refine again_of_restart hrem hM (by omega) hfit hstores hraft ?_
    rw [← lastLeft_again hres (by omega) hact]
    exact hharm t hact

theorem Tracks.step {n n' : Node} {e : Event} (h : Tracks E c agreed n) (hb : Bounds c agreed)
    (hstep : HarmlessStep E c R agreed n e n') : Tracks E c agreed n' := by
  have hM := hb.index
  have hoff := hb.offsets
  have hbound : agreed.length < 2 ^ 64 - 2 := by omega
  obtain ⟨hstep, hharm, hfit⟩ := hstep
  cases hstep with
  | storeLogs hst =>
      obtain ⟨last, hlast, hlogs⟩ := hharm
      refine ⟨h.le, h.log, h.store.imp (fun hlive => ?_) fun hagain => hagain.storeLogs hst⟩
      exact hlive.storeLogs hbound hb.indexes hlast hlogs hst hfit.2
  | getLog hget =>
      have hreads := getLog_state hget
      exact ⟨h.le, h.log, h.store.imp (·.reads hreads) (·.reads hreads)⟩
  | deleteRange => exact hharm.elim
  | @applyHeld log s hheld hidx happ =>
      rcases h.store with hlive | hagain
      · have hlog := hlive.held log hheld
        rw [hidx, Nat.add_sub_cancel] at hlog
        have happlied := hlive.applied
        exact h.apply hb hharm hlog (fun hlt => by omega) (.done _) happ hfit.1
      · rw [hagain.held] at hheld
        cases hheld
  | @applyStored log s s' hget happ =>
      have hle := h.applied_le
      have hdone := h.le
      have hidx : (UInt64.ofNat (n.applied + 1)).toNat = n.applied + 1 := by
        rw [UInt64.toNat_ofNat', Nat.mod_eq_of_lt (by omega)]
      have hok := congrArg Prod.fst hget
      have hreads := getLog_state hget
      rcases h.store with hlive | hagain
      · obtain ⟨-, hlog⟩ := hlive.getLog_ok (Config.withDefaults_le hM) hb.indexes hok
        rw [hidx, Nat.add_sub_cancel] at hlog
        have happlied := hlive.applied
        exact h.apply hb hharm hlog (fun hlt => by omega) hreads happ hfit.1
      · obtain ⟨L, hres, hfits, hstores, hnone⟩ := hagain.store
        obtain ⟨hlt, hlog⟩ := Again.getLog_ok hres hfits hstores (Config.withDefaults_le hM)
          hb.indexes hbound hok
        rw [hidx] at hlt
        rw [hidx, Nat.add_sub_cancel] at hlog
        refine h.apply hb hharm hlog (fun hless => ?_) hreads happ hfit.1
        exact Again.none_again hnone hless (by omega) hlog
  | read hread =>
      obtain ⟨a', hastep, hsim⟩ := h.log.step rfl (Config.withDefaults_le hM)
        (.read (l := n.log.1) (d := n.log.2) hread)
      cases hastep
      exact ⟨h.le, hsim, h.store.imp (fun hl => ⟨hl.applied, hl.held, hl.store⟩) fun ha =>
        ⟨ha.applied, ha.held, ha.store⟩⟩
  | restart hclose hnew => exact h.restart hb hharm hclose hnew

theorem Tracks.start {n₀ : Restart.Node} {ds : Dir × Dir} (hb : Bounds c agreed)
    (hnew : Restart.newNode R Directory.absent Directory.absent c = (.ok n₀, ds)) :
    Tracks E c agreed ⟨n₀, [], 0, 0⟩ := by
  have hM := hb.index
  obtain ⟨hlog, s, hstore, hraft⟩ := Restart.newNode_cases hnew
  obtain ⟨l, d, hopen, hsim⟩ := Simulates.start E c (by omega)
  have hstart : n₀.log = (l, d) := by
    rw [Fsm.setupLog] at hlog
    exact (Prod.mk.inj (hlog.symm.trans hopen)).2
  refine ⟨Nat.zero_le _, by rw [hstart]; exact hsim,
    .inl ⟨rfl, fun _ h => absurd h List.not_mem_nil, ?_⟩⟩
  obtain ⟨hrep, hall⟩ := Restart.NewRaft.keeps (Padding.flushStable E _ _ []) hraft
    ⟨(Log.Rep.of_newLog E hstore).repWith, Padding.all_of_newLog E hstore⟩
  exact ⟨_, [], hrep, hall, Layout.fits_fresh E _, 0, Nat.zero_le _, rfl⟩

/-- **Exactly once, unless a command is left to be applied again.** -/
theorem exactlyOnce_of_harmless (E : Env) (c : Config) (R : Restart.NewRaft E)
    {agreed : List RaftLog} (hb : Bounds c agreed) {n₀ : Restart.Node} {ds : Dir × Dir}
    (hnew : Restart.newNode R Directory.absent Directory.absent c = (.ok n₀, ds))
    {es : List Event} {n : Node} (htr : Trace (HarmlessStep E c R agreed) ⟨n₀, [], 0, 0⟩ es n) :
    ExactlyOnce E c agreed n := by
  have htracks : Tracks E c agreed n :=
    htr.invariant (.start hb hnew) fun _ _ _ h hstep => h.step hb hstep
  intro off
  rw [(htracks.log.shows (Config.withDefaults_le hb.index)).read off]

section executable

variable {n : Node}

instance (n : Node) : Decidable n.Fits := inferInstanceAs (Decidable (_ ∧ _))

theorem Step.storeLogs_of (logs : List RaftLog) (res : Result Unit)
    (h : (LogStore.storeLogs E n.store.1 n.store.2 logs).1 = res) :
    Step E c R n (.storeLogs logs res)
      { n with
        store := (LogStore.storeLogs E n.store.1 n.store.2 logs).2
        held := if res = .ok () then n.held ++ logs else n.held } :=
  .storeLogs (Prod.ext h rfl)

theorem Step.applyStored_of (log : RaftLog)
    (hget : (LogStore.getLog E n.store.1 n.store.2 (UInt64.ofNat (n.applied + 1))).1 = .ok log)
    (happ : (applyEntry E n.log log).1 = .ok ()) :
    Step E c R n .apply (n.advance (applyEntry E n.log log).2
      (LogStore.getLog E n.store.1 n.store.2 (UInt64.ofNat (n.applied + 1))).2) :=
  .applyStored (Prod.ext hget rfl) (Prod.ext happ rfl)

theorem Step.restart_of (hclose : n.toNode.close.1 = .ok ())
    (hlog : (Fsm.setupLog n.toNode.close.2.log.2 c).1 = .ok ())
    (hstore : (LogStore.newLogStore n.toNode.close.2.store.2.mkdirAll c).1 = .ok ())
    (hraft : (R.run (LogStore.newLogStore n.toNode.close.2.store.2.mkdirAll c).2).1 = .ok ()) :
    Step E c R n .restart ⟨⟨(Fsm.setupLog n.toNode.close.2.log.2 c).2,
      (R.run (LogStore.newLogStore n.toNode.close.2.store.2.mkdirAll c).2).2⟩, [], 0, n.done⟩ := by
  obtain ⟨ds, hnew⟩ := Restart.newNode_of R _ _ c hlog hstore hraft
  exact .restart (Prod.ext hclose rfl) hnew

theorem Event.harmless_apply (h : (n.log.1.activeSegment.map fun s =>
      decide (s.index.size.toNat + 12 ≤ c.withDefaults.maxIndexBytes.toNat)) = some true) :
    Event.Harmless E c agreed n .apply := by
  obtain ⟨s, hs, hroom⟩ := Option.map_eq_some_iff.mp h
  exact fun _ _ _ _ => ⟨s, hs, of_decide_eq_true hroom⟩

theorem Event.harmless_restart {k : Nat} (h : n.store.1.activeSegment.map (lastLeft c) = some k)
    (hk : commands E (agreed.take (min n.done k)) = []) :
    Event.Harmless E c agreed n .restart := by
  intro s hs
  rw [hs, Option.map_some, Option.some.injEq] at h
  rw [h]
  exact hk

end executable

/-- A configuration, the no-op of a new leader, and one command. -/
def threeEntries : List RaftLog :=
  [⟨1, 1, 5, [1]⟩, ⟨2, 1, 1, []⟩, ⟨3, 1, 0, Fsm.appendCommand goEnv ⟨[7], 0, 0, 0⟩⟩]

theorem bounds_threeEntries {c : Config} (hM : c.maxIndexBytes.toNat ≤ 12 * 2 ^ 32)
    (hzero : c.initialOffset = 0) : Bounds c threeEntries := by
  refine ⟨hM, by rw [hzero]; decide, fun i log h => ?_⟩
  match i with
  | 0 => cases h; rfl
  | 1 => cases h; rfl
  | 2 => cases h; rfl
  | i + 3 => cases h

/-- A node as it is first started. -/
def firstNode (c : Config) : Node where
  log := (Fsm.setupLog Directory.absent c).2
  store := ((Restart.raft goEnv).run
    (LogStore.newLogStore (Directory.absent : Dir).mkdirAll c).2).2
  held := []
  applied := 0
  done := 0

/-- A follower with room for five entries in an index. After the restart its
log store begins and ends with the first entry, and the command is not applied
again. -/
theorem exactlyOnce_first_entry_left : ∃ n₀ ds n,
    Restart.newNode (Restart.raft goEnv) Directory.absent Directory.absent ⟨1024, 60, 0⟩ =
      (.ok n₀, ds) ∧
    Trace (HarmlessStep goEnv ⟨1024, 60, 0⟩ (Restart.raft goEnv) threeEntries) ⟨n₀, [], 0, 0⟩
      [.storeLogs threeEntries (.ok ()), .apply, .apply, .apply, .restart, .apply] n ∧
    n.done = 3 ∧ ExactlyOnce goEnv ⟨1024, 60, 0⟩ threeEntries n := by
  obtain ⟨ds, hnew⟩ := Restart.newNode_of (Restart.raft goEnv) Directory.absent Directory.absent
    ⟨1024, 60, 0⟩ (by decide +kernel) (by decide +kernel) (by decide +kernel)
  have h₁ : Trace (HarmlessStep goEnv ⟨1024, 60, 0⟩ (Restart.raft goEnv) threeEntries)
      (firstNode ⟨1024, 60, 0⟩) _ _ :=
    Trace.init.snoc ⟨.storeLogs_of threeEntries (.ok ()) (by decide +kernel),
      ⟨0, by decide +kernel, List.prefix_refl _⟩, by decide +kernel⟩
  have h₂ := h₁.snoc ⟨.applyStored_of ⟨1, 1, 5, [1]⟩ (by decide +kernel) (by decide +kernel),
    Event.harmless_apply (by decide +kernel), by decide +kernel⟩
  have h₃ := h₂.snoc ⟨.applyStored_of ⟨2, 1, 1, []⟩ (by decide +kernel) (by decide +kernel),
    Event.harmless_apply (by decide +kernel), by decide +kernel⟩
  have h₄ := h₃.snoc ⟨.applyStored_of ⟨3, 1, 0, Fsm.appendCommand goEnv ⟨[7], 0, 0, 0⟩⟩
    (by decide +kernel) (by decide +kernel), Event.harmless_apply (by decide +kernel),
    by decide +kernel⟩
  have h₅ := h₄.snoc ⟨.restart_of (by decide +kernel) (by decide +kernel) (by decide +kernel)
    (by decide +kernel), Event.harmless_restart (k := 1) (by decide +kernel) (by decide +kernel),
    by decide +kernel⟩
  have h₆ := h₅.snoc ⟨.applyStored_of ⟨1, 1, 5, [1]⟩ (by decide +kernel) (by decide +kernel),
    Event.harmless_apply (by decide +kernel), by decide +kernel⟩
  exact ⟨_, ds, _, hnew, h₆, by decide +kernel,
    exactlyOnce_of_harmless goEnv _ _ (bounds_threeEntries (by decide) rfl) hnew h₆⟩

/-- With room for two the command is the first of the last segment. It is
left, applied again, and there twice. -/
theorem restart_applies_again : ∃ n₀ ds n,
    Restart.newNode (Restart.raft goEnv) Directory.absent Directory.absent ⟨1024, 24, 0⟩ =
      (.ok n₀, ds) ∧
    Trace (Step goEnv ⟨1024, 24, 0⟩ (Restart.raft goEnv)) ⟨n₀, [], 0, 0⟩
      [.storeLogs threeEntries (.ok ()), .apply, .apply, .apply, .restart, .apply, .apply, .apply]
      n ∧
    n.done = 3 ∧ n.applied = 3 ∧ commands goEnv threeEntries = [⟨[7], 0, 0, 0⟩] ∧
    (n.log.1.read goEnv n.log.2 0).1 = .ok ⟨[7], 0, 0, 0⟩ ∧
    (n.log.1.read goEnv n.log.2 1).1 = .ok ⟨[7], 1, 0, 0⟩ ∧
    ¬ ExactlyOnce goEnv ⟨1024, 24, 0⟩ threeEntries n := by
  obtain ⟨ds, hnew⟩ := Restart.newNode_of (Restart.raft goEnv) Directory.absent Directory.absent
    ⟨1024, 24, 0⟩ (by decide +kernel) (by decide +kernel) (by decide +kernel)
  have h₁ : Trace (Step goEnv ⟨1024, 24, 0⟩ (Restart.raft goEnv)) (firstNode ⟨1024, 24, 0⟩) _ _ :=
    Trace.init.snoc (.storeLogs_of threeEntries (.ok ()) (by decide +kernel))
  have h₂ := h₁.snoc (.applyStored_of ⟨1, 1, 5, [1]⟩ (by decide +kernel) (by decide +kernel))
  have h₃ := h₂.snoc (.applyStored_of ⟨2, 1, 1, []⟩ (by decide +kernel) (by decide +kernel))
  have h₄ := h₃.snoc (.applyStored_of ⟨3, 1, 0, Fsm.appendCommand goEnv ⟨[7], 0, 0, 0⟩⟩
    (by decide +kernel) (by decide +kernel))
  have h₅ := h₄.snoc (.restart_of (by decide +kernel) (by decide +kernel) (by decide +kernel)
    (by decide +kernel))
  have h₆ := h₅.snoc (.applyStored_of ⟨1, 1, 5, [1]⟩ (by decide +kernel) (by decide +kernel))
  have h₇ := h₆.snoc (.applyStored_of ⟨2, 1, 1, []⟩ (by decide +kernel) (by decide +kernel))
  have h₈ := h₇.snoc (.applyStored_of ⟨3, 1, 0, Fsm.appendCommand goEnv ⟨[7], 0, 0, 0⟩⟩
    (by decide +kernel) (by decide +kernel))
  refine ⟨_, ds, _, hnew, h₈, by decide +kernel, by decide +kernel, by decide +kernel,
    by decide +kernel, by decide +kernel, fun honce => ?_⟩
  have hread := honce 1
  revert hread
  decide +kernel

end Replica

end DistributedLog
