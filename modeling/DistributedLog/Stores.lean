import DistributedLog.Batch
import DistributedLog.Pebble

/-!
# Two log stores for raft

The repository has two implementations of `raft.LogStore`: `logStore` keeps
the entries in a `log.Log`, `PebbleKVStore` in a database. Here both are
given what raft gives to a log store whose entries never conflict: batches
that continue the log, and deletions of what a snapshot covers. The database
takes every batch; the log takes a batch as far as it finds room, and what it
has taken stays (`LogStore.storeLogs_repWith`).

Up to its last index the log is as good as the database (`stores_agree`):
every entry that the database has there can be read from the log and is the
same. The log may have more, since it forgets whole segments only. The last
indexes are the same until a batch is refused. If they are not, the log takes
no entry any more.
-/

namespace DistributedLog

namespace Stores

open LogStore (Consecutive)

/-- The entries of raft, of which `logStore` uses four fields, and their
coding. -/
structure Entries (Entry : Type) extends Codec Entry where
  view : Entry → RaftLog
  index_view : ∀ e, (view e).index = index e

/-- A `logStore` and a `PebbleKVStore`. -/
structure Pair where
  log : LogState
  db : DB

inductive Event (Entry : Type) where
  -- with what `logStore.StoreLogs` returned
  | storeLogs (logs : List Entry) (res : Result Unit)
  | deletePrefix (m : UInt64)

def Event.Accepted {Entry : Type} : Event Entry → Prop
  | .storeLogs _ res => res = .ok ()
  | .deletePrefix _ => True

variable {Entry : Type}

/-- The same call on both. A batch continues the database. A deletion starts
at the first index of the database, at which the log does not look, and ends
before the last index of the log. -/
inductive Step (E : Env) (C : Entries Entry) : Pair → Event Entry → Pair → Prop where
  | storeLogs {p : Pair} {log' : LogState} {logs : List Entry} {res : Result Unit}
      {last : UInt64} :
      PebbleKVStore.lastIndex p.db = .ok last → last.toNat + logs.length < 2 ^ 64 - 1 →
      Consecutive (last + 1) (logs.map C.view) →
      LogStore.storeLogs E p.log.1 p.log.2 (logs.map C.view) = (res, log') →
      log'.1.FilesFit log'.2 →
      Step E C p (.storeLogs logs res) ⟨log', PebbleKVStore.storeLogs C.toCodec p.db logs⟩
  | deletePrefix {p : Pair} {log' : LogState} {res : Result Unit} {first last m : UInt64} :
      LogStore.lastIndex p.log.1 = .ok last → PebbleKVStore.firstIndex p.db = .ok first →
      m < last → LogStore.deleteRange p.log.1 p.log.2 first m = (res, log') →
      Step E C p (.deletePrefix m) ⟨log', PebbleKVStore.deleteRange p.db first m⟩

/-! ## Batches in the map of entries -/

section maps

open PebbleKVStore (Maps)

variable {index : Entry → UInt64} {m : Maps Entry} {i : UInt64}

theorem logs_storeAll {logs : List Entry} {e : Entry}
    (h : (logs.foldl (Maps.store index) m).logs i = some e) :
    (e ∈ logs ∧ index e = i) ∨ m.logs i = some e := by
  induction logs generalizing m with
  | nil => exact .inr h
  | cons log logs ih =>
      rcases ih h with ⟨hmem, hi⟩ | hstored
      · exact .inl ⟨List.mem_cons_of_mem _ hmem, hi⟩
      · simp only [Maps.store] at hstored
        split at hstored
        · next hi =>
          obtain rfl := Option.some.inj hstored
          exact .inl ⟨List.mem_cons_self, hi⟩
        · exact .inr hstored

theorem isSome_storeAll {logs : List Entry}
    (h : (m.logs i).isSome ∨ ∃ e ∈ logs, index e = i) :
    ((logs.foldl (Maps.store index) m).logs i).isSome := by
  induction logs generalizing m with
  | nil =>
      rcases h with h | ⟨e, he, -⟩
      · exact h
      · cases he
  | cons log logs ih =>
      refine ih ?_
      by_cases hi : index log = i
      · exact .inl (by simp [Maps.store, hi])
      · rcases h with h | ⟨e, he, hei⟩
        · exact .inl (by simpa [Maps.store, hi] using h)
        · rcases List.mem_cons.mp he with rfl | he
          · exact absurd hei hi
          · exact .inr ⟨e, he, hei⟩

end maps

/-! ## The two together -/

open PebbleKVStore (Maps Agrees)

/-- The database has the entries of a sequence from `low` on, and no other. -/
structure Same (C : Entries Entry) (a : AppendOnly Record) (m : Maps Entry) (low : Nat) : Prop where
  base : a.base ≤ low
  next : low ≤ a.next
  bounded : a.next < 2 ^ 64
  -- the last entry is never deleted
  kept : low < a.next ∨ a = ⟨1, []⟩
  entry : ∀ i e, m.logs i = some e → low ≤ i.toNat ∧ i.toNat < a.next ∧ C.index e = i ∧
    a.get? i.toNat = some (C.view e).toRecord
  present : ∀ i : UInt64, low ≤ i.toNat → i.toNat < a.next → (m.logs i).isSome

variable {E : Env} {c : Config} {C : Entries Entry} {a : AppendOnly Record} {m : Maps Entry}
  {low : Nat}

theorem Same.storeAll (h : Same C a m low) {logs : List Entry} {first : UInt64}
    (hfirst : first.toNat = a.next) (hcons : Consecutive first (logs.map C.view))
    (hbound : a.next + logs.length < 2 ^ 64) :
    Same C (a.pushAll ((logs.map C.view).map RaftLog.toRecord))
      (logs.foldl (Maps.store C.index) m) low := by
  have hat : ∀ (k : Nat) (e : Entry), logs[k]? = some e → (C.index e).toNat = a.next + k := by
    intro k e hk
    rw [← C.index_view e, ← hfirst]
    exact hcons k (C.view e) (by rw [List.getElem?_map, hk]; rfl)
  have hlen : ((logs.map C.view).map RaftLog.toRecord).length = logs.length := by simp
  have hnext := h.next
  refine ⟨h.base, by rw [AppendOnly.next_pushAll]; omega,
    by rw [AppendOnly.next_pushAll, hlen]; exact hbound, ?_, fun i e he => ?_,
    fun i hlo hhi => ?_⟩
  · rw [AppendOnly.next_pushAll, hlen]
    cases logs with
    | nil =>
        rw [List.map_nil, List.map_nil, AppendOnly.pushAll_nil]
        exact h.kept
    | cons _ _ =>
        rw [List.length_cons]
        exact .inl (by omega)
  · rw [AppendOnly.next_pushAll, hlen]
    rcases logs_storeAll he with ⟨hmem, rfl⟩ | hold
    · obtain ⟨k, hk⟩ := List.getElem?_of_mem hmem
      have hlt := (List.getElem?_eq_some_iff.mp hk).1
      have hidx := hat k e hk
      refine ⟨by omega, by omega, rfl, ?_⟩
      rw [hidx, AppendOnly.get?_pushAll_next, List.getElem?_map, List.getElem?_map, hk]
      rfl
    · obtain ⟨hlo, hhi, hidx, hget⟩ := h.entry i e hold
      exact ⟨hlo, by omega, hidx, by rw [AppendOnly.get?_pushAll_of_lt hhi]; exact hget⟩
  · rw [AppendOnly.next_pushAll, hlen] at hhi
    refine isSome_storeAll ?_
    rcases Nat.lt_or_ge i.toNat a.next with hlt | hge
    · exact .inl (h.present i hlo hlt)
    · have hk : i.toNat - a.next < logs.length := by omega
      refine .inr ⟨_, List.getElem_mem hk, UInt64.toNat_inj.mp ?_⟩
      rw [hat _ _ (List.getElem?_eq_getElem hk)]
      omega

/-- What `FirstIndex` returns lies below every entry. -/
def Below (m : Maps Entry) (first : UInt64) : Prop := ∀ i e, m.logs i = some e → first ≤ i

theorem Same.delete (h : Same C a m low) {first upTo : UInt64} (hfirst : Below m first) {k : Nat}
    (hk : k ≤ a.items.length) (hdrop : k = 0 ∨ a.base + k ≤ upTo.toNat + 1)
    (hupTo : upTo.toNat + 1 < a.next) :
    Same C (a.dropFront k) (m.delete first upTo) (max low (upTo.toNat + 1)) := by
  have hbase := h.base
  have hnext := h.next
  have hnext' := AppendOnly.next_dropFront hk
  have hbase' : (a.dropFront k).base ≤ max low (upTo.toNat + 1) := by
    change a.base + k ≤ _
    omega
  have hlow : low < a.next := by
    rcases h.kept with hlt | rfl
    · exact hlt
    · exact absurd hupTo (by simp [AppendOnly.next])
  refine ⟨hbase', by rw [hnext']; omega, by rw [hnext']; exact h.bounded,
    .inl (by rw [hnext']; omega), fun i e he => ?_, fun i hlo hhi => ?_⟩
  · simp only [Maps.delete] at he
    split at he
    · cases he
    · next hout =>
      obtain ⟨hlo, hhi, hidx, hget⟩ := h.entry i e he
      have hpast : upTo < i := by
        by_contra hle
        exact hout ⟨hfirst i e he, UInt64.not_lt.mp hle⟩
      rw [UInt64.lt_iff_toNat_lt] at hpast
      refine ⟨by omega, by rw [hnext']; exact hhi, hidx, ?_⟩
      rw [AppendOnly.get?_dropFront_of_le (Nat.le_trans hbase' (by omega))]
      exact hget
  · rw [hnext'] at hhi
    have hout : ¬ (first ≤ i ∧ i ≤ upTo) := by
      rintro ⟨-, hle⟩
      rw [UInt64.le_iff_toNat_le] at hle
      omega
    simp only [Maps.delete, if_neg hout]
    exact h.present i (by omega) hhi

theorem same_empty (C : Entries Entry) : Same C ⟨1, []⟩ Maps.empty 1 where
  base := Nat.le_refl _
  next := Nat.le_refl _
  bounded := by decide
  kept := .inr rfl
  entry _ _ h := by cases h
  present _ hlo hhi := absurd hhi (Nat.not_lt.mpr hlo)

/-- The log stands for the sequence, or for its beginning and has no room. -/
structure Follows (E : Env) (c : Config) (s : LogState) (a : AppendOnly Record)
    (rest : List Record) : Prop where
  pos : 0 < a.base
  rep : ∃ L orphans, s.1.RepWith E c s.2 L orphans ∧ L.Fits E ∧ a = L.abs.pushAll rest ∧
    (rest ≠ [] → c.maxIndexBytes.toNat < 12 * (L.act.len + 1))

/-- The two stores, and what of the entries the log has not taken. -/
def Paired (E : Env) (c : Config) (C : Entries Entry) (p : Pair) (rest : List Record) : Prop :=
  ∃ a m low, Follows E c p.log a rest ∧ Agrees C.toCodec p.db m ∧ Same C a m low

theorem below_firstIndex {db : DB} {first : UInt64} (h : Agrees C.toCodec db m)
    (hfirst : PebbleKVStore.firstIndex db = .ok first) : Below m first := by
  intro i e he
  rcases h.firstIndex with ⟨j, hleast, hj⟩ | ⟨hnone, -⟩
  · rw [hfirst, Except.ok.injEq] at hj
    rw [hj]
    exact hleast.2 (show (m.logs i).isSome by rw [he]; rfl)
  · rw [hnone i] at he
    cases he

/-- Without an entry in the database there has been none in the log. -/
theorem Same.eq_empty (h : Same C a m low) (hnone : ∀ i, m.logs i = none) : a = ⟨1, []⟩ := by
  rcases h.kept with hlt | rfl
  · have hbound := h.bounded
    have hcount : (UInt64.ofNat low).toNat = low := by
      rw [UInt64.toNat_ofNat', Nat.mod_eq_of_lt (by omega)]
    have hlive := h.present (UInt64.ofNat low) (by omega) (by omega)
    rw [hnone] at hlive
    cases hlive
  · rfl

/-- The last index, as the sequence has it. -/
theorem Same.lastIndex {db : DB} (h : Same C a m low) (hagrees : Agrees C.toCodec db m) :
    PebbleKVStore.lastIndex db = .ok (UInt64.ofNat (a.next - 1)) := by
  have hbound := h.bounded
  rcases hagrees.lastIndex with ⟨i, ⟨hlive, hgreatest⟩, hi⟩ | ⟨hnone, hzero⟩
  · obtain ⟨e, he⟩ := Option.isSome_iff_exists.mp hlive
    obtain ⟨hlo, hhi, -⟩ := h.entry i e he
    have hcount : (UInt64.ofNat (a.next - 1)).toNat = a.next - 1 := by
      rw [UInt64.toNat_ofNat', Nat.mod_eq_of_lt (by omega)]
    have hle : UInt64.ofNat (a.next - 1) ≤ i :=
      hgreatest (h.present _ (by omega) (by omega))
    rw [UInt64.le_iff_toNat_le, hcount] at hle
    rw [hi, Except.ok.injEq]
    apply UInt64.toNat_inj.mp
    omega
  · obtain rfl := h.eq_empty hnone
    exact hzero

theorem Same.next_of_lastIndex {db : DB} (h : Same C a m low) (hagrees : Agrees C.toCodec db m)
    (hpos : 0 < a.base) {last : UInt64} (hlast : PebbleKVStore.lastIndex db = .ok last) :
    last.toNat + 1 = a.next := by
  have hbound := h.bounded
  have hbase := h.base
  have hnext := h.next
  rw [h.lastIndex hagrees, Except.ok.injEq] at hlast
  rw [← hlast, UInt64.toNat_ofNat', Nat.mod_eq_of_lt (by omega)]
  omega

/-- A batch, as far as the log takes it. -/
theorem Follows.storeLogs {s s' : LogState} {rest : List Record} {logs : List RaftLog}
    {res : Result Unit} (h : Follows E c s a rest) (hbound : a.next + logs.length < 2 ^ 64)
    (hst : LogStore.storeLogs E s.1 s.2 logs = (res, s')) (hfit : s'.1.FilesFit s'.2) :
    ∃ rest', Follows E c s' (a.pushAll (logs.map RaftLog.toRecord)) rest' ∧
      (rest = [] → res = .ok () → rest' = []) := by
  obtain ⟨L, orphans, hrep, hfits, rfl, hstuck⟩ := h.rep
  rw [AppendOnly.next_pushAll, L.abs_next] at hbound
  rcases eq_or_ne rest [] with rfl | hne
  · obtain ⟨L', orphans', stored, left, rfl, hrep', habs, hres⟩ :=
      LogStore.storeLogs_repWith hrep hst (by omega)
    refine ⟨left.map RaftLog.toRecord, ⟨h.pos, L', orphans', hrep', hrep'.fits hfit, ?_, ?_⟩, ?_⟩
    · rw [AppendOnly.pushAll_nil, List.map_append, habs, AppendOnly.pushAll_append]
    · intro hleft
      rcases hres with ⟨-, rfl⟩ | ⟨-, -, hroom⟩
      · exact absurd rfl hleft
      · exact hroom
    · rintro - rfl
      rcases hres with ⟨-, rfl⟩ | ⟨herr, -⟩
      · rfl
      · cases herr
  · -- a log without room takes nothing
    cases logs with
    | nil =>
        cases hst
        exact ⟨rest, by simpa using h, fun hnil => absurd hnil hne⟩
    | cons log logs =>
        obtain ⟨l', d', orphans', hfull, hrep'⟩ :=
          LogStore.storeLogs_full hrep (hstuck hne) log logs
        rw [hst, Prod.mk.injEq] at hfull
        obtain ⟨-, rfl⟩ := hfull
        exact ⟨rest ++ (log :: logs).map RaftLog.toRecord, ⟨h.pos, L, orphans', hrep', hfits,
          by rw [AppendOnly.pushAll_append], fun _ => hstuck hne⟩, fun hnil => absurd hnil hne⟩

theorem Follows.truncate {s s' : LogState} {rest : List Record} {last upTo : UInt64}
    {res : Result Unit} (h : Follows E c s a rest) (hlast : s.1.highestOffset = .ok last)
    (hlt : upTo < last) (htr : s.1.truncate s.2 upTo = (res, s')) :
    ∃ k, k ≤ a.items.length ∧ (k = 0 ∨ a.base + k ≤ upTo.toNat + 1) ∧ upTo.toNat + 1 < a.next ∧
      Follows E c s' (a.dropFront k) rest := by
  obtain ⟨L, orphans, hrep, hfits, rfl, hstuck⟩ := h.rep
  have hnext : upTo.toNat + 1 < L.next := by
    have hbound : L.next < 2 ^ 64 := L.bounded
    rw [hrep.highestOffset, Except.ok.injEq] at hlast
    rw [UInt64.lt_iff_toNat_lt, ← hlast, UInt64.toNat_ofNat', Nat.mod_eq_of_lt (by omega)] at hlt
    omega
  obtain ⟨L', k, hblocks, hact, habs, hk, hdrop, -⟩ := L.exists_truncate hnext
  obtain ⟨l', d', htr', hrep'⟩ := hrep.truncate hnext hblocks hact
  rw [htr, Prod.mk.injEq] at htr'
  obtain ⟨-, rfl⟩ := htr'
  refine ⟨k, ?_, hdrop, ?_, Nat.lt_of_lt_of_le h.pos (Nat.le_add_right _ _), L', orphans, hrep',
    hfits.of_filter hblocks, ?_, by rw [hact]; exact hstuck⟩
  · exact Nat.le_trans hk (by simp [AppendOnly.pushAll, Layout.abs])
  · rw [AppendOnly.next_pushAll, L.abs_next]
    omega
  · rw [AppendOnly.dropFront_pushAll (a := L.abs) hk, habs]

theorem Paired.step {p p' : Pair} {e : Event Entry} {rest : List Record}
    (h : Paired E c C p rest) (hstep : Step E C p e p') :
    ∃ rest', Paired E c C p' rest' ∧ (rest = [] → e.Accepted → rest' = []) := by
  obtain ⟨a, m, low, hfollows, hagrees, hsame⟩ := h
  cases hstep with
  | @storeLogs log' logs res last hlast hbound hcons hst hfit =>
      have hnext := hsame.next_of_lastIndex hagrees hfollows.pos hlast
      have hfirst : (last + 1).toNat = a.next := by
        have hone : (1 : UInt64).toNat = 1 := rfl
        rw [UInt64.toNat_add, hone, Nat.mod_eq_of_lt (by omega), hnext]
      obtain ⟨rest', hfollows', hcaught⟩ :=
        hfollows.storeLogs (by rw [List.length_map]; omega) hst hfit
      exact ⟨rest', ⟨_, _, low, hfollows', hagrees.storeLogs logs,
        hsame.storeAll hfirst hcons (by omega)⟩, hcaught⟩
  | @deletePrefix log' res first last upTo hlast hfirst hlt hdel =>
      obtain ⟨k, hk, hdrop, hupTo, hfollows'⟩ := hfollows.truncate hlast hlt hdel
      have hbound := hsame.bounded
      exact ⟨rest, ⟨_, _, _, hfollows', hagrees.deleteRange (by omega),
        hsame.delete (below_firstIndex hagrees hfirst) hk hdrop hupTo⟩, fun hnil _ => hnil⟩

/-- The run: what is left out stays empty as long as every batch is taken. -/
theorem Paired.run {p₀ p : Pair} {es : List (Event Entry)} (h : Paired E c C p₀ [])
    (htr : Trace (Step E C) p₀ es p) :
    ∃ rest, Paired E c C p rest ∧ ((∀ e ∈ es, e.Accepted) → rest = []) := by
  induction htr with
  | init => exact ⟨[], h, fun _ => rfl⟩
  | snoc htr hstep ih =>
      obtain ⟨rest, hpaired, hcaught⟩ := ih
      obtain ⟨rest', hpaired', hcaught'⟩ := hpaired.step hstep
      refine ⟨rest', hpaired', fun hall => hcaught' (hcaught fun e he => ?_) ?_⟩
      · exact hall e (List.mem_append_left _ he)
      · exact hall _ (List.mem_append_right _ (List.mem_singleton_self _))

/-! ## What they show -/

/-- The database has the entries from its first index on. -/
theorem Same.live {db : DB} (h : Same C a m low) (hagrees : Agrees C.toCodec db m)
    {first i : UInt64} (hfirst : PebbleKVStore.firstIndex db = .ok first) (hle : first ≤ i)
    {r : Record} (hr : a.get? i.toNat = some r) : (m.logs i).isSome := by
  have hhi : i.toNat < a.next := AppendOnly.lt_next_of_get? hr
  rcases hagrees.firstIndex with ⟨j, ⟨hlive, -⟩, hj⟩ | ⟨hnone, -⟩
  · rw [hfirst, Except.ok.injEq] at hj
    obtain ⟨e, he⟩ := Option.isSome_iff_exists.mp hlive
    rw [← hj] at he
    rw [UInt64.le_iff_toNat_le] at hle
    exact h.present i (Nat.le_trans (h.entry first e he).1 hle) hhi
  · obtain rfl := h.eq_empty hnone
    simp [AppendOnly.get?] at hr

/-- What the two show up to the last index of each. -/
structure Agree (E : Env) (C : Entries Entry) (p : Pair) (last last' : UInt64) : Prop where
  lastIndex : LogStore.lastIndex p.log.1 = .ok last
  lastIndex_db : PebbleKVStore.lastIndex p.db = .ok last'
  le : last ≤ last'
  /-- Every entry of the database that the log has got to is in the log. -/
  getLog_of_db : ∀ i out e, PebbleKVStore.getLog C.toCodec p.db i out = .ok e →
    i ≤ last' ∧ (i ≤ last → (LogStore.getLog E p.log.1 p.log.2 i).1 = .ok (C.view e))
  /-- Every entry of the log from the first one of the database on is in the
  database. -/
  getLog_of_log : ∀ first i log out, PebbleKVStore.firstIndex p.db = .ok first → first ≤ i →
    (LogStore.getLog E p.log.1 p.log.2 i).1 = .ok log →
    ∃ e, PebbleKVStore.getLog C.toCodec p.db i out = .ok e ∧ C.view e = log

section shown

variable {s : LogState} {rest : List Record} {i : UInt64}

/-- What the log returns for an entry of the database that it has got to. -/
theorem Same.getLog_view (h : Same C (a.pushAll rest) m low) (hshows : Shows E s a) {e : Entry}
    (he : m.logs i = some e) (hlt : i.toNat < a.next) :
    (LogStore.getLog E s.1 s.2 i).1 = .ok (C.view e) := by
  obtain ⟨-, -, hidx, hrec⟩ := h.entry i e he
  rw [AppendOnly.get?_pushAll_of_lt hlt] at hrec
  rw [LogStore.getLog_of_get? hshows hrec, ← hidx, ← C.index_view e, LogStore.toRaftLog_toRecord]

/-- An entry that the log returns is one of the sequence. -/
theorem get?_of_getLog (hshows : Shows E s a) {log : RaftLog}
    (hlog : (LogStore.getLog E s.1 s.2 i).1 = .ok log) :
    i.toNat < a.next ∧ ∃ r, a.get? i.toNat = some r := by
  rw [LogStore.getLog_shows hshows, Log.readOf] at hlog
  cases hr : a.get? i.toNat with
  | none =>
      rw [hr] at hlog
      cases hlog
  | some r => exact ⟨AppendOnly.lt_next_of_get? hr, r, rfl⟩

theorem logs_of_getLog {db : DB} (hagrees : Agrees C.toCodec db m) {out : Entry} {e : Entry}
    (he : PebbleKVStore.getLog C.toCodec db i out = .ok e) : m.logs i = some e := by
  rw [hagrees.shows.getLog i out] at he
  cases hm : m.logs i with
  | none =>
      rw [hm] at he
      cases he
  | some e' =>
      rw [hm] at he
      cases he
      rfl

end shown

theorem Paired.agree {p : Pair} {rest : List Record} (hM : c.maxIndexBytes.toNat ≤ 12 * 2 ^ 32)
    (h : Paired E c C p rest) : ∃ last last', Agree E C p last last' ∧
      (rest = [] → last = last') := by
  obtain ⟨a, m, low, hfollows, hagrees, hsame⟩ := h
  obtain ⟨L, orphans, hrep, hfits, rfl, hstuck⟩ := hfollows.rep
  have hpos : 0 < L.abs.base := hfollows.pos
  have hbound := hsame.bounded
  have hnext := AppendOnly.next_pushAll L.abs rest
  have hge : L.abs.base ≤ L.abs.next := Nat.le_add_right _ _
  have hshows := hrep.shows hM hfits
  have hlast : (UInt64.ofNat (L.abs.next - 1)).toNat = L.abs.next - 1 := by
    rw [UInt64.toNat_ofNat', Nat.mod_eq_of_lt (by omega)]
  have hlast' : (UInt64.ofNat ((L.abs.pushAll rest).next - 1)).toNat =
      (L.abs.pushAll rest).next - 1 := by
    rw [UInt64.toNat_ofNat', Nat.mod_eq_of_lt (by omega)]
  refine ⟨_, _, ⟨hshows.highest, hsame.lastIndex hagrees, ?_, fun i out e he => ?_,
    fun first i log out hfirst hle hlog => ?_⟩, ?_⟩
  · rw [UInt64.le_iff_toNat_le, hlast, hlast']
    omega
  · have hm := logs_of_getLog hagrees he
    obtain ⟨-, hlt, -⟩ := hsame.entry i e hm
    refine ⟨?_, fun hle => hsame.getLog_view hshows hm ?_⟩
    · rw [UInt64.le_iff_toNat_le, hlast']
      omega
    · rw [UInt64.le_iff_toNat_le, hlast] at hle
      omega
  · obtain ⟨hlt, r, hr⟩ := get?_of_getLog hshows hlog
    rw [← AppendOnly.get?_pushAll_of_lt hlt rest] at hr
    obtain ⟨e, he⟩ := Option.isSome_iff_exists.mp (hsame.live hagrees hfirst hle hr)
    refine ⟨e, by rw [hagrees.shows.getLog, he]; rfl, ?_⟩
    rw [hsame.getLog_view hshows he hlt, Except.ok.injEq] at hlog
    exact hlog
  · rintro rfl
    rw [AppendOnly.pushAll_nil]

/-- A log that has not taken every entry takes none. -/
theorem Paired.stuck {p : Pair} {rest : List Record} (h : Paired E c C p rest) (hne : rest ≠ [])
    (log : RaftLog) (logs : List RaftLog) :
    (LogStore.storeLogs E p.log.1 p.log.2 (log :: logs)).1 = .error (.err .eof) := by
  obtain ⟨a, m, low, hfollows, -⟩ := h
  obtain ⟨L, orphans, hrep, -, -, hstuck⟩ := hfollows.rep
  obtain ⟨l', d', -, hfull, -⟩ := LogStore.storeLogs_full hrep (hstuck hne) log logs
  rw [hfull]

/-- Both stores as raft finds them at first. -/
def started (c : Config) : Pair := ⟨(LogStore.newLogStore Directory.empty c).2, ∅⟩

theorem paired_started (E : Env) (C : Entries Entry) (hM : c.maxIndexBytes.toNat < 2 ^ 63) :
    Paired E ({ c with initialOffset := 1 } : Config).withDefaults C (started c) [] := by
  obtain ⟨l₀, d₀, hnew, L, hrep, hfits, habs⟩ :=
    Simulates.start E { c with initialOffset := 1 } hM
  rw [started, LogStore.newLogStore, hnew]
  refine ⟨L.abs, _, 1, ⟨by rw [habs]; exact Nat.one_pos, L, [], hrep.repWith, hfits,
    (AppendOnly.pushAll_nil _).symm, fun hne => absurd rfl hne⟩, .empty C.toCodec, ?_⟩
  rw [habs]
  exact same_empty C

/-- **The two stores agree as far as the log goes.** In every run of batches
that continue the database and of deletions at the front, whether the log
takes the batches or not, both have the same entries up to the last index of
the log. As long as every batch was taken that is the last index of both; once
it is not, the log refuses every batch. -/
theorem stores_agree (E : Env) (c : Config) (hM : c.maxIndexBytes.toNat ≤ 12 * 2 ^ 32)
    (C : Entries Entry) {es : List (Event Entry)} {p : Pair}
    (htr : Trace (Step E C) (started c) es p) :
    ∃ last last', Agree E C p last last' ∧ ((∀ e ∈ es, e.Accepted) → last = last') ∧
      (last ≠ last' → ∀ log logs,
        (LogStore.storeLogs E p.log.1 p.log.2 (log :: logs)).1 = .error (.err .eof)) := by
  obtain ⟨rest, hpaired, hcaught⟩ :=
    (paired_started E C (Nat.lt_of_le_of_lt hM (by decide))).run htr
  obtain ⟨last, last', hagree, hsame⟩ :=
    hpaired.agree (Config.withDefaults_le (c := { c with initialOffset := 1 }) hM)
  exact ⟨last, last', hagree, fun hall => hsame (hcaught hall),
    fun hne => hpaired.stuck fun hnil => hne (hsame hnil)⟩

/-- Entries that are no more than their index. -/
def indexEntries : Entries UInt64 where
  toCodec := PebbleKVStore.indexCodec
  view i := ⟨i, 1, 0, []⟩
  index_view _ := rfl

theorem lastIndex_of_paired {p : Pair} {last : UInt64} (hM : c.maxIndexBytes.toNat ≤ 12 * 2 ^ 32)
    (h : Paired E c C p []) (hlast : LogStore.lastIndex p.log.1 = .ok last) :
    PebbleKVStore.lastIndex p.db = .ok last := by
  obtain ⟨last₁, last₂, hagree, hsame⟩ := h.agree hM
  rw [hagree.lastIndex_db, ← hsame rfl, ← hagree.lastIndex, hlast]

theorem firstIndex_of_least {db : DB} {i : UInt64} (h : Agrees C.toCodec db m)
    (hlive : (m.logs i).isSome) (hleast : ∀ j, (m.logs j).isSome → i ≤ j) :
    PebbleKVStore.firstIndex db = .ok i := by
  rcases h.firstIndex with ⟨j, hj, hfirst⟩ | ⟨hnone, -⟩
  · rw [hfirst, UInt64.le_antisymm (hj.2 hlive) (hleast j hj.1)]
  · rw [hnone] at hlive
    cases hlive

/-- Two entries, of which the first is deleted, and a third that finds no
room in the log. -/
theorem trace_third_refused : ∃ p, Trace (Step goEnv indexEntries) (started ⟨1024, 25, 0⟩)
      [.storeLogs [1, 2] (.ok ()), .deletePrefix 1, .storeLogs [3] (.error (.err .eof))] p ∧
    LogStore.lastIndex p.log.1 = .ok 2 := by
  have hcons : Consecutive (0 + 1) ([1, 2].map indexEntries.view) := by
    intro i log hi
    match i, hi with
    | 0, hi | 1, hi =>
        cases hi
        rfl
  have hcons' : Consecutive (2 + 1) ([3].map indexEntries.view) := by
    intro i log hi
    match i, hi with
    | 0, hi =>
        cases hi
        rfl
  have hpaired := paired_started goEnv indexEntries (c := ⟨1024, 25, 0⟩) (by decide)
  have hagrees : Agrees indexEntries.toCodec
      (PebbleKVStore.storeLogs indexEntries.toCodec ∅ [1, 2]) _ :=
    (Agrees.empty indexEntries.toCodec).storeLogs [1, 2]
  have hfirst : PebbleKVStore.firstIndex
      (PebbleKVStore.storeLogs indexEntries.toCodec ∅ [1, 2]) = .ok 1 := by
    refine firstIndex_of_least hagrees rfl fun j hj => ?_
    obtain ⟨e, he⟩ := Option.isSome_iff_exists.mp hj
    rcases logs_storeAll he with ⟨hmem, rfl⟩ | hnone
    · have hall : ∀ e ∈ ([1, 2] : List UInt64), 1 ≤ e := by simp
      exact hall e hmem
    · cases hnone
  have h₁ : Trace (Step goEnv indexEntries) (started ⟨1024, 25, 0⟩)
      [.storeLogs [1, 2] (.ok ())] _ :=
    Trace.init.snoc (.storeLogs (lastIndex_of_paired (by decide) hpaired (by decide +kernel))
      (by decide) hcons (Prod.ext (by decide +kernel) rfl) (by decide +kernel))
  have h₂ := h₁.snoc (.deletePrefix (m := 1) (by decide +kernel : LogStore.lastIndex _ = .ok 2)
    hfirst (by decide) (Prod.ext (by decide +kernel : _ = Except.ok ()) rfl))
  obtain ⟨rest, hpaired₂, hcaught⟩ := hpaired.run h₂
  obtain rfl : rest = [] := hcaught (by simp [Event.Accepted])
  have hlast : PebbleKVStore.lastIndex _ = .ok 2 :=
    lastIndex_of_paired (by decide) hpaired₂ (by decide +kernel)
  exact ⟨_, h₂.snoc (.storeLogs hlast (by decide) hcons' (Prod.ext (by decide +kernel) rfl)
    (by decide +kernel)), by decide +kernel⟩

theorem stores_agree_third_refused : ∃ p, Trace (Step goEnv indexEntries) (started ⟨1024, 25, 0⟩)
      [.storeLogs [1, 2] (.ok ()), .deletePrefix 1, .storeLogs [3] (.error (.err .eof))] p ∧
    ∃ last, Agree goEnv indexEntries p 2 last := by
  obtain ⟨p, htr, hlast⟩ := trace_third_refused
  obtain ⟨last, last', hagree, -⟩ := stores_agree goEnv ⟨1024, 25, 0⟩ (by decide) indexEntries htr
  obtain rfl : last = 2 := Except.ok.inj (hagree.lastIndex.symm.trans hlast)
  exact ⟨p, htr, last', hagree⟩

end Stores

end DistributedLog
