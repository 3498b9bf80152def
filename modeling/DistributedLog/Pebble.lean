import Mathlib.Order.Bounds.Defs
import DistributedLog.Record

/-!
# The pebble store refines two maps

`raftpebble.PebbleKVStore` keeps raft's log entries and raft's own values in
one pebble database. A log entry stands under `0x00` and the eight
big-endian bytes of its index, a value under `0x01` and its key. So the two
halves are apart, and within the first the order of the keys is the order of
the indexes (`compare_logKey`), which is what range deletions and the two
ends of an iterator need.

`Maps` is what the store is for, and `Shows` everything that its methods
show of such a pair of maps. Every run is carried by one relation,
`Agrees`: each key of the database encodes an entry of one of the maps.
Runs leave out one argument: `DeleteRange` up to the largest index there is,
where the exclusive upper end wraps round to zero (`deletesRange_iff`).

pebble itself is the ordered map `DB`; the msgpack codec is a parameter.
-/

namespace DistributedLog

/-! ## pebble -/

/-- A `pebble.DB`: byte strings in lexicographic order, a proper prefix
first. -/
abbrev DB := Std.ExtTreeMap Bytes Bytes

namespace DB

/-- Whether a key lies in the range from `lower` up to, not including,
`upper`. -/
def inRange (lower upper key : Bytes) : Bool :=
  (compare lower key).isLE && compare key upper == .lt

/-- `DB.Get`: nil exactly for an absent key. -/
def get (db : DB) (key : Bytes) : Option Bytes := db[key]?

/-- `DB.Set`. -/
def set (db : DB) (key val : Bytes) : DB := db.insert key val

/-- `DB.DeleteRange`. -/
def deleteRange (db : DB) (start stop : Bytes) : DB :=
  db.filter fun key _ => !inRange start stop key

/-- `DB.Apply` of a batch of `Batch.Set`s. -/
def apply (db : DB) (batch : List (Bytes × Bytes)) : DB :=
  batch.foldl (fun db kv => db.set kv.1 kv.2) db

/-- `Iterator.First` within the bounds, and the key that it is then at. -/
def first (db : DB) (lower upper : Bytes) : Option Bytes :=
  (db.filter fun key _ => inRange lower upper key).minKey?

/-- `Iterator.Last` within the bounds, and the key that it is then at. -/
def last (db : DB) (lower upper : Bytes) : Option Bytes :=
  (db.filter fun key _ => inRange lower upper key).maxKey?

theorem get_empty (key : Bytes) : get ∅ key = none :=
  Std.ExtTreeMap.getElem?_empty

theorem get_set (db : DB) (key val key' : Bytes) :
    (db.set key val).get key' = if key = key' then some val else db.get key' := by
  simp only [get, set, Std.ExtTreeMap.getElem?_insert, Std.LawfulEqCmp.compare_eq_iff_eq]

theorem get_filter (db : DB) (f : Bytes → Bool) (key : Bytes) :
    get (db.filter fun k _ => f k) key = if f key then db.get key else none := by
  rw [get, get, Std.ExtTreeMap.getElem?_filter']
  cases f key <;> cases db[key]? <;> rfl

theorem get_deleteRange (db : DB) (start stop key : Bytes) :
    (db.deleteRange start stop).get key = if inRange start stop key then none else db.get key := by
  rw [deleteRange, get_filter]
  cases inRange start stop key <;> rfl

theorem mem_iff_get {db : DB} {key : Bytes} : key ∈ db ↔ (db.get key).isSome :=
  Std.ExtTreeMap.mem_iff_isSome_getElem?

/-- The keys that an iterator with bounds is at. -/
theorem mem_range {db : DB} {lower upper key : Bytes} :
    (key ∈ db.filter fun k _ => inRange lower upper k) ↔
      (db.get key).isSome ∧ inRange lower upper key := by
  rw [mem_iff_get, get_filter]
  cases inRange lower upper key <;> simp

theorem first_eq_some {db : DB} {lower upper key : Bytes} (h : db.first lower upper = some key) :
    ((db.get key).isSome ∧ inRange lower upper key) ∧
      ∀ key', (db.get key').isSome → inRange lower upper key' → (compare key key').isLE := by
  obtain ⟨hmem, hle⟩ := Std.ExtTreeMap.minKey?_eq_some_iff_mem_and_forall.mp h
  exact ⟨mem_range.mp hmem, fun key' hkey hin => hle key' (mem_range.mpr ⟨hkey, hin⟩)⟩

theorem last_eq_some {db : DB} {lower upper key : Bytes} (h : db.last lower upper = some key) :
    ((db.get key).isSome ∧ inRange lower upper key) ∧
      ∀ key', (db.get key').isSome → inRange lower upper key' → (compare key' key).isLE := by
  obtain ⟨hmem, hle⟩ := Std.ExtTreeMap.maxKey?_eq_some_iff_mem_and_forall.mp h
  exact ⟨mem_range.mp hmem, fun key' hkey hin => hle key' (mem_range.mpr ⟨hkey, hin⟩)⟩

theorem not_mem_of_range_empty {db : DB} {lower upper : Bytes}
    (h : (db.filter fun k _ => inRange lower upper k) = ∅) {key : Bytes}
    (hin : inRange lower upper key) : ¬ (db.get key).isSome := by
  intro hkey
  have hmem : key ∈ db.filter fun k _ => inRange lower upper k := mem_range.mpr ⟨hkey, hin⟩
  rw [h] at hmem
  exact Std.ExtTreeMap.not_mem_empty hmem

end DB

/-! ## The store -/

/-- The entries that raft hands to the store and their msgpack coding, which
undoes itself. Of an entry the store itself reads the index only. -/
structure Codec (Entry : Type) where
  index : Entry → UInt64
  encodeMsgPack : Entry → Bytes
  /-- Decodes into an entry that is already there. -/
  decodeMsgPack : Bytes → Entry → Option Entry
  decode_encode : ∀ e out, decodeMsgPack (encodeMsgPack e) out = some e

namespace PebbleKVStore

variable {Entry : Type}

def prefixLog : Bytes := [0x00]
def prefixConf : Bytes := [0x01]

def logKey (index : UInt64) : Bytes := prefixLog ++ putUint64 index
def confKey (key : Bytes) : Bytes := prefixConf ++ key

/-- `binary.BigEndian.Uint64` reads the first eight bytes and panics when
there are fewer. -/
def bytesToUint64 (b : Bytes) : Result UInt64 :=
  if b.length < 8 then .error .panic else .ok (getUint64 (b.take 8))

def firstIndex (db : DB) : Result UInt64 :=
  match db.first prefixLog prefixConf with
  | some key => bytesToUint64 (key.drop prefixLog.length)
  | none => .ok 0

def lastIndex (db : DB) : Result UInt64 :=
  match db.last prefixLog prefixConf with
  | some key => bytesToUint64 (key.drop prefixLog.length)
  | none => .ok 0

def getLog (C : Codec Entry) (db : DB) (index : UInt64) (log : Entry) : Result Entry :=
  match db.get (logKey index) with
  | none => .error (.err .logNotFound)
  | some val =>
      match C.decodeMsgPack val log with
      | some log => .ok log
      | none => .error (.err .unmarshal)

def storeLog (C : Codec Entry) (db : DB) (log : Entry) : DB :=
  db.set (logKey (C.index log)) (C.encodeMsgPack log)

def storeLogs (C : Codec Entry) (db : DB) (logs : List Entry) : DB :=
  db.apply (logs.map fun log => (logKey (C.index log), C.encodeMsgPack log))

def deleteRange (db : DB) (min max : UInt64) : DB :=
  db.deleteRange (logKey min) (logKey (max + 1))

def set (db : DB) (key val : Bytes) : DB := db.set (confKey key) val

def setUint64 (db : DB) (key : Bytes) (val : UInt64) : DB := set db key (putUint64 val)

def getValue {α : Type} (db : DB) (key : Bytes) (op : Option Bytes → Result α) : Result α :=
  op (db.get key)

def get (db : DB) (key : Bytes) : Result Bytes :=
  getValue db (confKey key) fun
    | none => .error (.err .keyNotFound)
    | some val => .ok val

def getUint64 (db : DB) (key : Bytes) : Result UInt64 :=
  getValue db (confKey key) fun
    | none => .error (.err .keyNotFound)
    | some val => bytesToUint64 val

/-- The operations that change the store. Deleting up to the largest index
there is would ask for a key past it. -/
inductive Op (Entry : Type) where
  | storeLog (log : Entry)
  | storeLogs (logs : List Entry)
  | deleteRange (min max : UInt64) (bound : max.toNat < 2 ^ 64 - 1)
  | set (key val : Bytes)
  | setUint64 (key : Bytes) (val : UInt64)

/-- The operations of the log store, as opposed to those of the stable
store. -/
def Op.OnLogs : Op Entry → Prop
  | .storeLog _ | .storeLogs _ | .deleteRange _ _ _ => True
  | .set _ _ | .setUint64 _ _ => False

def step (C : Codec Entry) (db : DB) : Op Entry → DB
  | .storeLog log => storeLog C db log
  | .storeLogs logs => storeLogs C db logs
  | .deleteRange min max _ => deleteRange db min max
  | .set key val => set db key val
  | .setUint64 key val => setUint64 db key val

def run (C : Codec Entry) (ops : List (Op Entry)) : DB := ops.foldl (step C) ∅

/-! ## The two maps -/

/-- What the store is for: log entries by index, and values by key. -/
structure Maps (Entry : Type) where
  logs : UInt64 → Option Entry
  values : Bytes → Option Bytes

namespace Maps

def empty : Maps Entry := ⟨fun _ => none, fun _ => none⟩

def store (index : Entry → UInt64) (m : Maps Entry) (e : Entry) : Maps Entry :=
  { m with logs := fun i => if index e = i then some e else m.logs i }

def delete (m : Maps Entry) (min max : UInt64) : Maps Entry :=
  { m with logs := fun i => if min ≤ i ∧ i ≤ max then none else m.logs i }

def put (m : Maps Entry) (key val : Bytes) : Maps Entry :=
  { m with values := fun k => if key = k then some val else m.values k }

def step (index : Entry → UInt64) (m : Maps Entry) : Op Entry → Maps Entry
  | .storeLog log => m.store index log
  | .storeLogs logs => logs.foldl (store index) m
  | .deleteRange min max _ => m.delete min max
  | .set key val => m.put key val
  | .setUint64 key val => m.put key (putUint64 val)

def run (index : Entry → UInt64) (ops : List (Op Entry)) : Maps Entry :=
  ops.foldl (step index) empty

end Maps

/-! ## The keys -/

/-- Keys of log entries are ordered as their indexes. -/
theorem compare_logKey (i j : UInt64) :
    compare (logKey i) (logKey j) = compare i.toNat j.toNat :=
  compare_putUint64 i j

theorem logKey_injective {i j : UInt64} (h : logKey i = logKey j) : i = j := by
  have hput : putUint64 i = putUint64 j := List.append_cancel_left h
  rw [← getUint64_putUint64 i, hput, getUint64_putUint64]

theorem logKey_ne_confKey (i : UInt64) (key : Bytes) : logKey i ≠ confKey key := by
  intro h
  exact absurd (List.cons.inj h).1 (by decide)

theorem isLE_compare_logKey {i j : UInt64} : (compare (logKey i) (logKey j)).isLE ↔ i ≤ j := by
  rw [compare_logKey, Nat.isLE_compare, UInt64.le_iff_toNat_le]

theorem inRange_logKey (i j k : UInt64) :
    DB.inRange (logKey i) (logKey j) (logKey k) ↔ i ≤ k ∧ k < j := by
  rw [DB.inRange, Bool.and_eq_true, isLE_compare_logKey, beq_iff_eq, compare_logKey,
    Nat.compare_eq_lt, UInt64.lt_iff_toNat_lt]

/-- The half-open range of keys that an inclusive range of indexes becomes,
if its upper end has a successor. -/
theorem inRange_logKey_succ {max : UInt64} (hmax : max.toNat < 2 ^ 64 - 1) (min i : UInt64) :
    DB.inRange (logKey min) (logKey (max + 1)) (logKey i) ↔ min ≤ i ∧ i ≤ max := by
  have hsucc : (max + 1).toNat = max.toNat + 1 := by
    rw [UInt64.toNat_add]
    exact Nat.mod_eq_of_lt (by simp; omega)
  rw [inRange_logKey, UInt64.lt_iff_toNat_lt, UInt64.le_iff_toNat_le, hsucc, Nat.lt_succ_iff]
  rfl

theorem inRange_prefix_logKey (i : UInt64) : DB.inRange prefixLog prefixConf (logKey i) := by
  rfl

theorem not_inRange_confKey (i j : UInt64) (key : Bytes) :
    ¬ DB.inRange (logKey i) (logKey j) (confKey key) := by
  intro h
  obtain ⟨-, hlt⟩ := Bool.and_eq_true_iff.mp h
  cases hlt

theorem not_inRange_prefix_confKey (key : Bytes) :
    ¬ DB.inRange prefixLog prefixConf (confKey key) := by
  intro h
  obtain ⟨-, hlt⟩ := Bool.and_eq_true_iff.mp h
  cases key with
  | nil => cases hlt
  | cons b bs => cases hlt

/-! ## Every run -/

/-- Each key of the database encodes an entry of one of the maps. -/
structure Agrees (C : Codec Entry) (db : DB) (m : Maps Entry) : Prop where
  logs : ∀ i, db.get (logKey i) = (m.logs i).map C.encodeMsgPack
  values : ∀ key, db.get (confKey key) = m.values key
  keys : ∀ key, (db.get key).isSome → (∃ i, key = logKey i) ∨ ∃ k, key = confKey k

namespace Agrees

variable {C : Codec Entry} {db : DB} {m : Maps Entry}

theorem empty (C : Codec Entry) : Agrees C ∅ Maps.empty where
  logs i := DB.get_empty _
  values key := DB.get_empty _
  keys key h := by
    rw [DB.get_empty] at h
    cases h

theorem storeLog (h : Agrees C db m) (log : Entry) :
    Agrees C (storeLog C db log) (m.store C.index log) where
  logs i := by
    rw [PebbleKVStore.storeLog, DB.get_set, h.logs, Maps.store]
    by_cases hi : C.index log = i
    · simp [hi]
    · have hne : logKey (C.index log) ≠ logKey i := fun heq => hi (logKey_injective heq)
      simp [hi, hne]
  values key := by
    rw [PebbleKVStore.storeLog, DB.get_set, if_neg (logKey_ne_confKey _ _), h.values, Maps.store]
  keys key hkey := by
    rw [PebbleKVStore.storeLog, DB.get_set] at hkey
    split at hkey
    · rename_i heq
      exact .inl ⟨_, heq.symm⟩
    · exact h.keys key hkey

theorem set (h : Agrees C db m) (key val : Bytes) : Agrees C (set db key val) (m.put key val) where
  logs i := by
    rw [PebbleKVStore.set, DB.get_set, if_neg (logKey_ne_confKey _ _).symm, h.logs, Maps.put]
  values k := by
    rw [PebbleKVStore.set, DB.get_set, h.values, Maps.put]
    simp [confKey]
  keys k hk := by
    rw [PebbleKVStore.set, DB.get_set] at hk
    split at hk
    · rename_i heq
      exact .inr ⟨_, heq.symm⟩
    · exact h.keys k hk

theorem deleteRange (h : Agrees C db m) {min max : UInt64} (hmax : max.toNat < 2 ^ 64 - 1) :
    Agrees C (deleteRange db min max) (m.delete min max) where
  logs i := by
    have hiff := inRange_logKey_succ hmax min i
    rw [PebbleKVStore.deleteRange, DB.get_deleteRange, h.logs, Maps.delete]
    by_cases hi : min ≤ i ∧ i ≤ max
    · rw [if_pos (hiff.mpr hi)]
      simp [hi]
    · rw [if_neg (fun hin => hi (hiff.mp hin))]
      simp [hi]
  values key := by
    rw [PebbleKVStore.deleteRange, DB.get_deleteRange, if_neg (not_inRange_confKey _ _ _),
      h.values, Maps.delete]
  keys key hkey := by
    rw [PebbleKVStore.deleteRange, DB.get_deleteRange] at hkey
    split at hkey
    · cases hkey
    · exact h.keys key hkey

end Agrees

/-- A batch has the effect of its entries one by one. -/
theorem storeLogs_eq (C : Codec Entry) (db : DB) (logs : List Entry) :
    storeLogs C db logs = logs.foldl (storeLog C) db := by
  rw [storeLogs, DB.apply, List.foldl_map]
  rfl

theorem Agrees.storeLogs {C : Codec Entry} {db : DB} {m : Maps Entry} (h : Agrees C db m)
    (logs : List Entry) :
    Agrees C (storeLogs C db logs) (logs.foldl (Maps.store C.index) m) := by
  rw [storeLogs_eq]
  induction logs generalizing db m with
  | nil => exact h
  | cons log logs ih => exact ih (h.storeLog log)

theorem Agrees.step {C : Codec Entry} {db : DB} {m : Maps Entry} (h : Agrees C db m)
    (op : Op Entry) : Agrees C (step C db op) (m.step C.index op) := by
  cases op with
  | storeLog log => exact h.storeLog log
  | storeLogs logs => exact h.storeLogs logs
  | deleteRange min max bound => exact h.deleteRange bound
  | set key val => exact h.set key val
  | setUint64 key val => exact h.set key _

theorem run_agrees (C : Codec Entry) (ops : List (Op Entry)) :
    Agrees C (run C ops) (Maps.run C.index ops) := by
  have h : ∀ (db : DB) (m : Maps Entry), Agrees C db m →
      Agrees C (ops.foldl (step C) db) (ops.foldl (Maps.step C.index) m) := by
    induction ops with
    | nil => exact fun _ _ h => h
    | cons op ops ih => exact fun _ _ h => ih _ _ (h.step op)
  exact h _ _ (Agrees.empty C)

/-! ## What the methods show -/

/-- Everything that the methods of a store show, given the maps. `GetUint64`
takes the number from the first eight bytes of the value, and panics when it
has fewer. -/
structure Shows (C : Codec Entry) (db : DB) (m : Maps Entry) : Prop where
  getLog : ∀ i log, getLog C db i log = (m.logs i).elim (.error (.err .logNotFound)) .ok
  firstIndex : (∃ i, IsLeast {i | (m.logs i).isSome} i ∧ firstIndex db = .ok i) ∨
    (∀ i, m.logs i = none) ∧ PebbleKVStore.firstIndex db = .ok 0
  lastIndex : (∃ i, IsGreatest {i | (m.logs i).isSome} i ∧ lastIndex db = .ok i) ∨
    (∀ i, m.logs i = none) ∧ PebbleKVStore.lastIndex db = .ok 0
  get : ∀ key, get db key = (m.values key).elim (.error (.err .keyNotFound)) .ok
  getUint64 : ∀ key, getUint64 db key = (m.values key).elim (.error (.err .keyNotFound)) fun val =>
    if val.length < 8 then .error .panic else .ok (DistributedLog.getUint64 (val.take 8))
  getUint64_setUint64 : ∀ key n, m.values key = some (putUint64 n) →
    PebbleKVStore.getUint64 db key = .ok n

theorem bytesToUint64_putUint64 (n : UInt64) : bytesToUint64 (putUint64 n) = .ok n := by
  rw [bytesToUint64, length_putUint64, if_neg (by omega),
    List.take_of_length_le (by rw [length_putUint64]), getUint64_putUint64]

/-- The index in the key of a log entry. -/
theorem bytesToUint64_logKey (i : UInt64) :
    bytesToUint64 ((logKey i).drop prefixLog.length) = .ok i :=
  bytesToUint64_putUint64 i

namespace Agrees

variable {C : Codec Entry} {db : DB} {m : Maps Entry}

theorem isSome_get_logKey (h : Agrees C db m) (i : UInt64) :
    (db.get (logKey i)).isSome = (m.logs i).isSome := by
  rw [h.logs, Option.isSome_map]

/-- What lies between the two bounds of the iterators is a log entry. -/
theorem live_of_inRange (h : Agrees C db m) {key : Bytes} (hkey : (db.get key).isSome)
    (hin : DB.inRange prefixLog prefixConf key) : ∃ i, key = logKey i ∧ (m.logs i).isSome := by
  rcases h.keys key hkey with ⟨i, rfl⟩ | ⟨k, rfl⟩
  · exact ⟨i, rfl, (h.isSome_get_logKey i) ▸ hkey⟩
  · exact absurd hin (not_inRange_prefix_confKey k)

theorem logs_eq_none (h : Agrees C db m)
    (hempty : (db.filter fun k _ => DB.inRange prefixLog prefixConf k) = ∅) (i : UInt64) :
    m.logs i = none := by
  have hnot := DB.not_mem_of_range_empty hempty (inRange_prefix_logKey i)
  rw [h.isSome_get_logKey] at hnot
  exact Option.not_isSome_iff_eq_none.mp hnot

theorem firstIndex (h : Agrees C db m) :
    (∃ i, IsLeast {i | (m.logs i).isSome} i ∧ firstIndex db = .ok i) ∨
      (∀ i, m.logs i = none) ∧ PebbleKVStore.firstIndex db = .ok 0 := by
  cases hfirst : db.first prefixLog prefixConf with
  | none =>
      refine .inr ⟨h.logs_eq_none (Std.ExtTreeMap.minKey?_eq_none_iff.mp hfirst), ?_⟩
      rw [PebbleKVStore.firstIndex, hfirst]
  | some key =>
      obtain ⟨⟨hkey, hin⟩, hle⟩ := DB.first_eq_some hfirst
      obtain ⟨i, rfl, hi⟩ := h.live_of_inRange hkey hin
      refine .inl ⟨i, ⟨hi, fun j hj =>
        isLE_compare_logKey.mp (hle _ ?_ (inRange_prefix_logKey j))⟩, ?_⟩
      · rw [h.isSome_get_logKey]
        exact hj
      · rw [PebbleKVStore.firstIndex, hfirst]
        exact bytesToUint64_logKey i

theorem lastIndex (h : Agrees C db m) :
    (∃ i, IsGreatest {i | (m.logs i).isSome} i ∧ lastIndex db = .ok i) ∨
      (∀ i, m.logs i = none) ∧ PebbleKVStore.lastIndex db = .ok 0 := by
  cases hlast : db.last prefixLog prefixConf with
  | none =>
      refine .inr ⟨h.logs_eq_none (Std.ExtTreeMap.maxKey?_eq_none_iff.mp hlast), ?_⟩
      rw [PebbleKVStore.lastIndex, hlast]
  | some key =>
      obtain ⟨⟨hkey, hin⟩, hle⟩ := DB.last_eq_some hlast
      obtain ⟨i, rfl, hi⟩ := h.live_of_inRange hkey hin
      refine .inl ⟨i, ⟨hi, fun j hj =>
        isLE_compare_logKey.mp (hle _ ?_ (inRange_prefix_logKey j))⟩, ?_⟩
      · rw [h.isSome_get_logKey]
        exact hj
      · rw [PebbleKVStore.lastIndex, hlast]
        exact bytesToUint64_logKey i

theorem shows (h : Agrees C db m) : Shows C db m where
  getLog i log := by
    rw [PebbleKVStore.getLog, h.logs]
    cases m.logs i with
    | none => rfl
    | some e => simp [C.decode_encode]
  firstIndex := h.firstIndex
  lastIndex := h.lastIndex
  get key := by
    rw [PebbleKVStore.get, getValue, h.values]
    cases m.values key <;> rfl
  getUint64 key := by
    rw [PebbleKVStore.getUint64, getValue, h.values]
    cases m.values key <;> rfl
  getUint64_setUint64 key n hn := by
    rw [PebbleKVStore.getUint64, getValue, h.values, hn]
    exact bytesToUint64_putUint64 n

end Agrees

/-! ## Independence -/

theorem Maps.values_step (index : Entry → UInt64) (m : Maps Entry) {op : Op Entry}
    (hop : op.OnLogs) : (m.step index op).values = m.values := by
  cases op with
  | storeLog log => rfl
  | storeLogs logs =>
      rw [Maps.step]
      clear hop
      induction logs generalizing m with
      | nil => rfl
      | cons log logs ih => exact ih (m.store index log)
  | deleteRange min max bound => rfl
  | set key val => cases hop
  | setUint64 key val => cases hop

/-- An iterator over the log entries does not meet the values. -/
theorem range_set (db : DB) (key val : Bytes) :
    ((set db key val).filter fun k _ => DB.inRange prefixLog prefixConf k) =
      db.filter fun k _ => DB.inRange prefixLog prefixConf k := by
  refine Std.ExtTreeMap.ext_getElem? fun k => ?_
  have hfilter := DB.get_filter (set db key val) (DB.inRange prefixLog prefixConf) k
  have hfilter' := DB.get_filter db (DB.inRange prefixLog prefixConf) k
  rw [DB.get] at hfilter hfilter'
  rw [hfilter, hfilter', set, DB.get_set]
  by_cases hk : confKey key = k
  · subst hk
    rw [if_neg (not_inRange_prefix_confKey key), if_neg (not_inRange_prefix_confKey key)]
  · rw [if_neg hk]

theorem getLog_set (C : Codec Entry) (db : DB) (key val : Bytes) (i : UInt64) (log : Entry) :
    getLog C (set db key val) i log = getLog C db i log := by
  rw [getLog, getLog, set, DB.get_set, if_neg (logKey_ne_confKey i key).symm]

theorem firstIndex_set (db : DB) (key val : Bytes) :
    firstIndex (set db key val) = firstIndex db := by
  rw [firstIndex, firstIndex, DB.first, range_set, ← DB.first]

theorem lastIndex_set (db : DB) (key val : Bytes) :
    lastIndex (set db key val) = lastIndex db := by
  rw [lastIndex, lastIndex, DB.last, range_set, ← DB.last]

/-- What a step of the log store leaves of the values, and a step of the
stable store of the log entries. -/
structure Independent (C : Codec Entry) (db : DB) : Prop where
  get : ∀ op, op.OnLogs → ∀ key, get (step C db op) key = get db key
  getUint64 : ∀ op, op.OnLogs → ∀ key, getUint64 (step C db op) key = getUint64 db key
  getLog : ∀ op, ¬ op.OnLogs → ∀ i log, getLog C (step C db op) i log = getLog C db i log
  firstIndex : ∀ op, ¬ op.OnLogs → firstIndex (step C db op) = firstIndex db
  lastIndex : ∀ op, ¬ op.OnLogs → lastIndex (step C db op) = lastIndex db

/-- The operations of the stable store all set one value. -/
theorem step_of_not_onLogs (C : Codec Entry) (db : DB) {op : Op Entry} (hop : ¬ op.OnLogs) :
    ∃ key val, step C db op = set db key val := by
  cases op with
  | set key val => exact ⟨key, val, rfl⟩
  | setUint64 key val => exact ⟨key, putUint64 val, rfl⟩
  | _ => exact absurd trivial hop

theorem Agrees.independent {C : Codec Entry} {db : DB} {m : Maps Entry} (h : Agrees C db m) :
    Independent C db where
  get op hop key := by
    rw [(h.step op).shows.get, h.shows.get, Maps.values_step C.index m hop]
  getUint64 op hop key := by
    rw [(h.step op).shows.getUint64, h.shows.getUint64, Maps.values_step C.index m hop]
  getLog op hop i log := by
    obtain ⟨key, val, hset⟩ := step_of_not_onLogs C db hop
    rw [hset, getLog_set]
  firstIndex op hop := by
    obtain ⟨key, val, hset⟩ := step_of_not_onLogs C db hop
    rw [hset, firstIndex_set]
  lastIndex op hop := by
    obtain ⟨key, val, hset⟩ := step_of_not_onLogs C db hop
    rw [hset, lastIndex_set]

/-- The store refines a pair of independent maps. -/
theorem refines_maps (C : Codec Entry) (ops : List (Op Entry)) :
    Shows C (run C ops) (Maps.run C.index ops) ∧ Independent C (run C ops) ∧
      ∀ logs, storeLogs C (run C ops) logs = logs.foldl (storeLog C) (run C ops) :=
  ⟨(run_agrees C ops).shows, (run_agrees C ops).independent, storeLogs_eq C _⟩

/-- Entries that consist of their index, in msgpack's format `uint 64`. -/
def indexCodec : Codec UInt64 where
  index e := e
  encodeMsgPack e := 0xcf :: putUint64 e
  decodeMsgPack
    | 0xcf :: bs, _ => some (DistributedLog.getUint64 bs)
    | _, _ => none
  decode_encode e _ := congrArg some (getUint64_putUint64 e)

/-- A value that is set as bytes need not have the eight that `GetUint64`
asks for. -/
theorem getUint64_panics : ∃ ops : List (Op UInt64), ∃ key val,
    (Maps.run indexCodec.index ops).values key = some val ∧
      getUint64 (run indexCodec ops) key = .error .panic := by
  refine ⟨[.set [0x00] [0x07]], [0x00], [0x07], rfl, ?_⟩
  rw [(run_agrees indexCodec _).shows.getUint64]
  rfl

/-! ## Deleting an inclusive range -/

/-- What `DeleteRange` promises, on a store with whatever content. -/
structure DeletesRange (C : Codec Entry) (db : DB) (min max : UInt64) : Prop where
  deleted : ∀ i, min ≤ i → i ≤ max → ∀ log,
    getLog C (deleteRange db min max) i log = .error (.err .logNotFound)
  others : ∀ i, ¬ (min ≤ i ∧ i ≤ max) → ∀ log,
    getLog C (deleteRange db min max) i log = getLog C db i log
  values : ∀ key, get (deleteRange db min max) key = get db key

theorem getLog_eq_logNotFound_iff {C : Codec Entry} {db : DB} {i : UInt64} {log : Entry} :
    getLog C db i log = .error (.err .logNotFound) ↔ db.get (logKey i) = none := by
  unfold getLog
  cases db.get (logKey i) with
  | none => simp
  | some val => cases hdec : C.decodeMsgPack val log <;> simp [hdec]

theorem get_deleteRange (db : DB) (min max : UInt64) (key : Bytes) :
    get (deleteRange db min max) key = get db key := by
  rw [get, get, getValue, getValue, deleteRange, DB.get_deleteRange,
    if_neg (not_inRange_confKey _ _ _)]

/-- No key comes before the one of index 0, the successor of the largest. -/
theorem getLog_deleteRange_last (C : Codec Entry) (db : DB) (min i : UInt64) (log : Entry) :
    getLog C (deleteRange db min (UInt64.ofNat (2 ^ 64 - 1))) i log = getLog C db i log := by
  have hnot : ¬ DB.inRange (logKey min) (logKey (UInt64.ofNat (2 ^ 64 - 1) + 1)) (logKey i) := by
    rw [inRange_logKey]
    rintro ⟨-, hlt⟩
    exact absurd (UInt64.lt_iff_toNat_lt.mp hlt) (Nat.not_lt_zero _)
  rw [getLog, getLog, deleteRange, DB.get_deleteRange, if_neg hnot]

/-- **When a range is deleted.** The upper end becomes exclusive by adding
one in 64 bits. So a range that ends at the largest index is not deleted at
all, and the promise is kept only if there was nothing to delete. -/
theorem deletesRange_iff [Inhabited Entry] (C : Codec Entry) (db : DB) (min max : UInt64) :
    DeletesRange C db min max ↔
      max.toNat < 2 ^ 64 - 1 ∨ ∀ i, min ≤ i → db.get (logKey i) = none := by
  by_cases hmax : max.toNat < 2 ^ 64 - 1
  · simp only [hmax, true_or, iff_true]
    have hiff := inRange_logKey_succ hmax min
    refine ⟨fun i hlo hhi log => ?_, fun i hi log => ?_, get_deleteRange db min max⟩
    · rw [getLog_eq_logNotFound_iff, deleteRange, DB.get_deleteRange,
        if_pos ((hiff i).mpr ⟨hlo, hhi⟩)]
    · rw [getLog, getLog, deleteRange, DB.get_deleteRange, if_neg (fun hin => hi ((hiff i).mp hin))]
  · have hlast : max = UInt64.ofNat (2 ^ 64 - 1) := by
      apply UInt64.toNat_inj.mp
      have := max.toNat_lt
      rw [UInt64.toNat_ofNat']
      omega
    have hle : ∀ i : UInt64, i ≤ max := by
      intro i
      rw [UInt64.le_iff_toNat_le]
      have := i.toNat_lt
      omega
    simp only [hmax, false_or]
    constructor
    · intro h i hlo
      have hdel := h.deleted i hlo (hle i) default
      rw [hlast, getLog_deleteRange_last] at hdel
      exact getLog_eq_logNotFound_iff.mp hdel
    · intro hnone
      refine ⟨fun i hlo _ log => ?_, fun i _ log => ?_, get_deleteRange db min max⟩
      · rw [hlast, getLog_deleteRange_last]
        exact getLog_eq_logNotFound_iff.mpr (hnone i hlo)
      · rw [hlast, getLog_deleteRange_last]

/-- The entry with index 1, in the range from 1 to the largest index. -/
theorem deleteRange_to_last_keeps :
    getLog indexCodec (deleteRange (storeLog indexCodec ∅ 1) 1 18446744073709551615) 1 0 =
        .ok 1 ∧
      ¬ DeletesRange indexCodec (storeLog indexCodec ∅ 1) 1 18446744073709551615 := by
  have hlast : (18446744073709551615 : UInt64) = UInt64.ofNat (2 ^ 64 - 1) := rfl
  have hkept : getLog indexCodec (deleteRange (storeLog indexCodec ∅ 1) 1 18446744073709551615)
      1 0 = .ok 1 := by
    rw [hlast, getLog_deleteRange_last, getLog, storeLog, DB.get_set]
    rfl
  refine ⟨hkept, fun h => ?_⟩
  have hdel := h.deleted 1 (by decide) (by decide) 0
  rw [hkept] at hdel
  cases hdel

end PebbleKVStore

end DistributedLog
