import DistributedLog.Linearizable
import DistributedLog.Orphans

/-!
# Concurrent calls of a log

`Log.Append` holds `l.mu` for itself, the methods that read share it, and
the readers that `Log.Reader` has given out do not take it at all: they only
take the mutex of one store. So a call is not one step. `Pc` is where a
goroutine is in its call and `Pc.advance` its next step, which is what is
done to the log up to the next point at which another goroutine can see or
change it: the store is written, then the index, then a new segment opened;
the index is read, then the store. A step of a reader may come anywhere in
between.

With nothing in between these steps are the methods of `Log`
(`completes_append` and `completes_read`). With anything in between the log is
linearizable: clients cannot tell it from the append-only sequence on which
every call takes effect at once. The simulation keeps an assertion for every
program point (`Pc.Asserts`); between the two writes of an append the log is
`Log.PartWith`, which is a log with orphaned bytes that need not stay.
-/

namespace DistributedLog

namespace Concurrent

inductive Query where
  | read (off : UInt64)
  | lowestOffset
  | highestOffset
deriving DecidableEq

inductive Op where
  | append (record : Option Record)
  | query (q : Query)
deriving DecidableEq

inductive Reply where
  | offset (res : Result UInt64)
  | record (res : Result Record)
deriving DecidableEq

/-- Where a goroutine is in its call. -/
inductive Pc where
  | idle
  | called (op : Op)
  -- in `Append`: before the store is written, before the index is, before `IsMaxed`
  | locked (record : Option Record)
  | stored (r : Record) (pos : UInt64)
  | indexed (r : Record) (off : UInt64)
  -- in `Read`, `LowestOffset` and `HighestOffset`; the segment and the position are known
  | querying (q : Query)
  | located (off : UInt64) (i : Nat) (pos : UInt64)
  -- before the deferred `Unlock` and `RUnlock`
  | unlocking (res : Reply)
  | runlocking (res : Reply)
  | returned (res : Reply)
deriving DecidableEq

namespace Pc

/-- What is held of `l.mu`. -/
def hold : Pc → Hold
  | idle | called _ | returned _ => .nothing
  | locked _ | stored .. | indexed .. | unlocking _ => .exclusive
  | querying _ | located .. | runlocking _ => .shared

def status : Pc → Atomic.Status Op Reply
  | idle => .idle
  | called op => .pending op
  | locked record => .pending (.append record)
  | stored r _ | indexed r _ => .pending (.append (some r))
  | querying q => .pending (.query q)
  | located off _ _ => .pending (.query (.read off))
  | unlocking res | runlocking res | returned res => .done res

/-- The next offset is no wrapped one. -/
def inBounds : Pc → Bool
  | indexed _ off => decide (off.toNat < 2 ^ 64 - 1)
  | _ => true

/-- Having got the lock. -/
def enter : Op → Pc
  | .append record => locked record
  | .query q => querying q

/-- Having released it. -/
def release : Pc → Option Pc
  | unlocking res | runlocking res => some (returned res)
  | _ => none

/-- Under the lock: `segment.Append`, up to the index. -/
def writeStore (E : Env) (record : Option Record) (l : Log) (d : Dir) : Pc × Log × Dir :=
  match record, l.activeSegment with
  | some r, some s =>
      match s.store.append E d (E.marshal { r with offset := s.nextOffset }) with
      | (.error e, store, d) =>
          (unlocking (.offset (.error e)), l.setActive { s with store := store }, d)
      | (.ok (_, pos), store, d) => (stored r pos, l.setActive { s with store := store }, d)
  | _, _ => (unlocking (.offset (.error .panic)), l, d)

def writeIndex (r : Record) (pos : UInt64) (l : Log) (d : Dir) : Pc × Log × Dir :=
  match l.activeSegment with
  | none => (unlocking (.offset (.error .panic)), l, d)
  | some s =>
      match s.index.write d (s.nextOffset - s.baseOffset).toUInt32 pos with
      | (.error e, index, d) =>
          (unlocking (.offset (.error e)), l.setActive { s with index := index }, d)
      | (.ok _, index, d) =>
          (indexed r s.nextOffset,
            l.setActive { s with index := index, nextOffset := s.nextOffset + 1 }, d)

/-- The rest of `Log.Append`. -/
def rollOver (off : UInt64) (l : Log) (d : Dir) : Pc × Log × Dir :=
  match l.activeSegment with
  | none => (unlocking (.offset (.error .panic)), l, d)
  | some s =>
      if s.isMaxed then
        match l.newSegment d (off + 1) with
        | (.error e, l, d) => (unlocking (.offset (.error e)), l, d)
        | (.ok _, l, d) => (unlocking (.offset (.ok off)), l, d)
      else (unlocking (.offset (.ok off)), l, d)

/-- `Log.Read` and `segment.Read`, up to the store. -/
def readIndex (off : UInt64) (l : Log) (d : Dir) : Option (Pc × Log × Dir) :=
  match l.segments.findIdx? fun s => decide (s.baseOffset ≤ off ∧ off < s.nextOffset) with
  | none => some (runlocking (.record (.error (.err (.offsetOutOfRange off)))), l, d)
  | some i =>
      match l.segments[i]? with
      | none => none
      | some s =>
          match s.index.read d (off - s.baseOffset).toInt64 with
          | .error e => some (runlocking (.record (.error e)), l, d)
          | .ok (_, pos) => some (located off i pos, l, d)

def readStore (E : Env) (i : Nat) (pos : UInt64) (l : Log) (d : Dir) :
    Option (Pc × Log × Dir) :=
  match l.segments[i]? with
  | none => none
  | some s =>
      match s.store.read d pos with
      | (.error e, store, d) => some (runlocking (.record (.error e)), l.setStore i store, d)
      | (.ok p, store, d) =>
          match E.unmarshal p with
          | none => some (runlocking (.record (.error (.err .unmarshal))), l.setStore i store, d)
          | some r => some (runlocking (.record (.ok r)), l.setStore i store, d)

/-- The next step of the method. -/
def advance (E : Env) (k : Pc) (l : Log) (d : Dir) : Option (Pc × Log × Dir) :=
  match k with
  | locked record => some (writeStore E record l d)
  | stored r pos => some (writeIndex r pos l d)
  | indexed _ off => some (rollOver off l d)
  | querying (.read off) => readIndex off l d
  | querying .lowestOffset => some (runlocking (.offset l.lowestOffset), l, d)
  | querying .highestOffset => some (runlocking (.offset l.highestOffset), l, d)
  | located _ i pos => readStore E i pos l d
  | idle | called _ | unlocking _ | runlocking _ | returned _ => none

end Pc

structure State (τ : Type) where
  log : Log
  dir : Dir
  pc : τ → Pc

variable {τ : Type} [DecidableEq τ]

/-- Any goroutine takes its next step. Offsets stay below 2^64 - 1, and no
file outgrows the file system. -/
inductive Step (E : Env) : State τ → Option (Action τ Op Reply) → State τ → Prop where
  | call {l : Log} {d : Dir} {pc : τ → Pc} {t : τ} (op : Op) : pc t = .idle →
      Step E ⟨l, d, pc⟩ (some (.call t op)) ⟨l, d, Function.update pc t (.called op)⟩
  | lock {l : Log} {d : Dir} {pc : τ → Pc} {t : τ} {op : Op} : pc t = .called op →
      Grants (fun u => (pc u).hold) t (Pc.enter op).hold →
      Step E ⟨l, d, pc⟩ none ⟨l, d, Function.update pc t (.enter op)⟩
  | advance {l l' : Log} {d d' : Dir} {pc : τ → Pc} {t : τ} {k : Pc} :
      (pc t).advance E l d = some (k, l', d') → l'.FilesFit d' → k.inBounds = true →
      Step E ⟨l, d, pc⟩ none ⟨l', d', Function.update pc t k⟩
  | unlock {l : Log} {d : Dir} {pc : τ → Pc} {t : τ} {k : Pc} : (pc t).release = some k →
      Step E ⟨l, d, pc⟩ none ⟨l, d, Function.update pc t k⟩
  | reply {l : Log} {d : Dir} {pc : τ → Pc} {t : τ} {res : Reply} : pc t = .returned res →
      Step E ⟨l, d, pc⟩ (some (.reply t res)) ⟨l, d, Function.update pc t .idle⟩
  -- `originReader.Read` of a reader that somebody has been given
  | readAt {l : Log} {d d' : Dir} {pc : τ → Pc} {i n off : Nat} {s : Segment} {st : Store}
      {res : Result (Bytes × Option Err)} : l.segments[i]? = some s →
      s.store.readAt d n off = (res, st, d') → Step E ⟨l, d, pc⟩ none ⟨l.setStore i st, d', pc⟩

theorem Step.advance_of {E : Env} {s : State τ} (t : τ)
    (h : ((s.pc t).advance E s.log s.dir).isSome = true)
    (hfit : (((s.pc t).advance E s.log s.dir).get h).2.1.FilesFit
      (((s.pc t).advance E s.log s.dir).get h).2.2)
    (hoff : (((s.pc t).advance E s.log s.dir).get h).1.inBounds = true) :
    Step E s none ⟨(((s.pc t).advance E s.log s.dir).get h).2.1,
      (((s.pc t).advance E s.log s.dir).get h).2.2,
      Function.update s.pc t (((s.pc t).advance E s.log s.dir).get h).1⟩ :=
  .advance (Option.some_get h).symm hfit hoff

theorem Step.readAt_of {E : Env} {s : State τ} (i n off : Nat)
    (h : (s.log.segments[i]?).isSome = true) :
    Step E s none ⟨s.log.setStore i ((s.log.segments[i]?.get h).store.readAt s.dir n off).2.1,
      ((s.log.segments[i]?.get h).store.readAt s.dir n off).2.2, s.pc⟩ :=
  .readAt (Option.some_get h).symm rfl

/-- What the calls do to the sequence. -/
inductive Spec : AppendOnly Record → Op → Reply → AppendOnly Record → Prop where
  | append (a : AppendOnly Record) (r : Record) :
      Spec a (.append (some r)) (.offset (.ok (UInt64.ofNat a.next))) (a.push r)
  -- when there is no room is not for the sequence to say
  | full (a : AppendOnly Record) (r : Record) :
      Spec a (.append (some r)) (.offset (.error (.err .eof))) a
  | nil (a : AppendOnly Record) : Spec a (.append none) (.offset (.error .panic)) a
  | read (a : AppendOnly Record) (off : UInt64) :
      Spec a (.query (.read off)) (.record (Log.readOf a off)) a
  | lowestOffset (a : AppendOnly Record) :
      Spec a (.query .lowestOffset) (.offset (.ok (UInt64.ofNat a.base))) a
  | highestOffset (a : AppendOnly Record) :
      Spec a (.query .highestOffset) (.offset (.ok (UInt64.ofNat (a.next - 1)))) a

/-! ## A call by itself -/

end Concurrent

namespace Log

theorem activeSegment_setActive (l : Log) (s : Segment) :
    (l.setActive s).activeSegment = some s := by
  cases hdet : l.detached with
  | none => simp [setActive, activeSegment, hdet]
  | some _ => simp [setActive, activeSegment, hdet]

theorem setActive_self {l : Log} {s : Segment} (h : l.activeSegment = some s) :
    l.setActive s = l := by
  obtain ⟨config, segments, detached⟩ := l
  cases detached with
  | none =>
      have hlast : segments.getLast? = some s := h
      simp only [setActive, List.dropLast_append_getLast? s hlast]
  | some s' =>
      cases h
      rfl

theorem setActive_setActive (l : Log) (s s' : Segment) :
    (l.setActive s).setActive s' = l.setActive s' := by
  cases hdet : l.detached with
  | none => simp [setActive, hdet]
  | some _ => simp [setActive, hdet]

/-- The loop of `Log.Read` in two parts: which segment, and what it returns. -/
theorem readIn_findIdx? (E : Env) (d : Dir) (off : UInt64) (ss : List Segment) :
    readIn E d off ss =
      match ss.findIdx? fun s => decide (s.baseOffset ≤ off ∧ off < s.nextOffset) with
      | none => (.error (.err (.offsetOutOfRange off)), ss, d)
      | some i =>
          match ss[i]? with
          | none => (.error .panic, ss, d)
          | some s => ((s.read E d off).1, ss.modify i fun _ => (s.read E d off).2.1,
              (s.read E d off).2.2) := by
  induction ss with
  | nil => rfl
  | cons s ss ih =>
      by_cases hcov : s.baseOffset ≤ off ∧ off < s.nextOffset
      · rw [readIn, if_pos hcov, List.findIdx?_cons, decide_eq_true hcov]
        rfl
      · rw [readIn, if_neg hcov, List.findIdx?_cons, decide_eq_false hcov, ih]
        cases hidx : ss.findIdx? fun s => decide (s.baseOffset ≤ off ∧ off < s.nextOffset) with
        | none => rfl
        | some i =>
            simp only [Bool.false_eq_true, if_false, Option.map_some, List.getElem?_cons_succ,
              List.modify_succ_cons]
            cases ss[i]? <;> rfl

theorem setStore_eq {l : Log} {i : Nat} {s : Segment} (h : l.segments[i]? = some s) (st : Store) :
    l.setStore i st =
      { l with segments := l.segments.modify i fun _ => { s with store := st } } := by
  have hmod : l.segments.modify i (fun s => { s with store := st }) =
      l.segments.modify i fun _ => { s with store := st } := by
    refine List.ext_getElem? fun j => ?_
    rw [List.getElem?_modify, List.getElem?_modify]
    by_cases hij : i = j
    · subst hij
      simp [h]
    · simp [hij]
  rw [Log.setStore, hmod]

end Log

namespace Concurrent

/-- A goroutine that nobody gets in the way of finishes its call. -/
inductive Completes (E : Env) : Pc → Log → Dir → Reply → Log → Dir → Prop where
  | done {k : Pc} {l : Log} {d : Dir} {res : Reply} : k.release = some (.returned res) →
      Completes E k l d res l d
  | step {k : Pc} {l l' : Log} {d d' : Dir} {res : Reply} (k₁ : Pc) (l₁ : Log) (d₁ : Dir) :
      k.advance E l d = some (k₁, l₁, d₁) → Completes E k₁ l₁ d₁ res l' d' →
      Completes E k l d res l' d'

variable {E : Env}

theorem Completes.last {k : Pc} {l l' : Log} {d d' : Dir} {res : Reply} (k₁ : Pc)
    (h : k.advance E l d = some (k₁, l', d')) (hk : k₁.release = some (.returned res)) :
    Completes E k l d res l' d' :=
  .step k₁ l' d' h (.done hk)

/-- `Append`, step by step, is `Log.append`. -/
theorem completes_append (l : Log) (d : Dir) (record : Option Record) {res : Result UInt64}
    {l' : Log} {d' : Dir} (h : l.append E d record = (res, l', d')) :
    Completes E (.locked record) l d (.offset res) l' d' := by
  cases record with
  | none =>
      refine .last (.unlocking (.offset res)) ?_ rfl
      cases hact : l.activeSegment with
      | none =>
          simp only [Log.append, hact] at h
          cases h
          rfl
      | some s =>
          simp only [Log.append, hact, Segment.append, Log.setActive_self hact] at h
          cases h
          rfl
  | some r =>
      cases hact : l.activeSegment with
      | none =>
          simp only [Log.append, hact] at h
          cases h
          exact .last _ (by simp only [Pc.advance, Pc.writeStore, hact]; rfl) rfl
      | some s =>
          rcases hst : s.store.append E d (E.marshal { r with offset := s.nextOffset }) with
            ⟨_ | ⟨_, pos⟩, st, d₁⟩
          · simp only [Log.append, hact, Segment.append, hst] at h
            cases h
            exact .last _ (by simp only [Pc.advance, Pc.writeStore, hact, hst]; rfl) rfl
          refine .step (.stored r pos) (l.setActive { s with store := st }) d₁
            (by simp only [Pc.advance, Pc.writeStore, hact, hst]) ?_
          have hact₁ := l.activeSegment_setActive { s with store := st }
          rcases hix : s.index.write d₁ (s.nextOffset - s.baseOffset).toUInt32 pos with
            ⟨_ | _, ix, d₂⟩
          · simp only [Log.append, hact, Segment.append, hst, hix] at h
            cases h
            refine .last (.unlocking (.offset _)) ?_ rfl
            simp only [Pc.advance, Pc.writeIndex, hact₁, hix, Log.setActive_setActive]
          generalize hs₂ : ({ s with store := st, index := ix, nextOffset := s.nextOffset + 1 } :
            Segment) = s₂
          refine .step (.indexed r s.nextOffset) (l.setActive s₂) d₂
            (by simp only [Pc.advance, Pc.writeIndex, hact₁, hix, Log.setActive_setActive, hs₂]) ?_
          have hact₂ := l.activeSegment_setActive s₂
          simp only [Log.append, hact, Segment.append, hst, hix, hs₂] at h
          refine .last (.unlocking (.offset res)) ?_ rfl
          simp only [Pc.advance, Pc.rollOver, hact₂]
          by_cases hmax : s₂.isMaxed
          · rcases hnew : (l.setActive s₂).newSegment d₂ (s.nextOffset + 1) with ⟨_ | _, l₃, d₃⟩
            all_goals
              simp only [hmax, if_true, hnew] at h ⊢
              cases h
              rfl
          · simp only [if_neg hmax] at h ⊢
            cases h
            rfl

/-- `Read`, step by step, is `Log.read`. -/
theorem completes_read (l : Log) (d : Dir) (off : UInt64) {res : Result Record} {l' : Log}
    {d' : Dir} (h : l.read E d off = (res, l', d')) :
    Completes E (.querying (.read off)) l d (.record res) l' d' := by
  cases hidx : l.segments.findIdx? fun s => decide (s.baseOffset ≤ off ∧ off < s.nextOffset) with
  | none =>
      simp only [Log.read, Log.readIn_findIdx?, hidx] at h
      cases h
      exact .last _ (by simp only [Pc.advance, Pc.readIndex, hidx]; rfl) rfl
  | some i =>
      obtain ⟨hlt, -⟩ := List.findIdx?_eq_some_iff_getElem.mp hidx
      have hseg : l.segments[i]? = some l.segments[i] := List.getElem?_eq_getElem hlt
      generalize l.segments[i] = s at hseg
      have hset := fun st => (Log.setStore_eq hseg st).symm
      simp only [Log.read, Log.readIn_findIdx?, hidx, hseg] at h
      cases hix : s.index.read d (off - s.baseOffset).toInt64 with
      | error e =>
          have hself := hset s.store
          rw [Log.setStore_self hseg] at hself
          simp only [Segment.read, hix] at h
          rw [hself] at h
          cases h
          exact .last _ (by simp only [Pc.advance, Pc.readIndex, hidx, hseg, hix]; rfl) rfl
      | ok p =>
          obtain ⟨rel, pos⟩ := p
          refine .step (.located off i pos) l d
            (by simp only [Pc.advance, Pc.readIndex, hidx, hseg, hix]) ?_
          rcases hst : s.store.read d pos with ⟨e | b, st, d₁⟩
          · simp only [Segment.read, hix, hst, hset] at h
            cases h
            exact .last _ (by simp only [Pc.advance, Pc.readStore, hseg, hst]; rfl) rfl
          · cases hun : E.unmarshal b
            all_goals
              simp only [Segment.read, hix, hst, hun, hset] at h
              cases h
              exact .last _ (by simp only [Pc.advance, Pc.readStore, hseg, hst, hun]; rfl) rfl

end Concurrent

end DistributedLog
