import DistributedLog.Refinement

/-!
# The replicated state machine

`fsm` (`internal/log/distributed/fsm.go`) applies committed commands to a
`log.Log` of its own and rebuilds that log from a snapshot. A command is the
byte that `distributed.Log.apply` puts first, the request type, followed by
the marshalled request.

`Restore` resets the log before it appends the first record, and `Reset`
cannot succeed: it removes the directory and then lists it. So a snapshot
with any record in it is never restored (`restore_fails`), and the records
that were there before are gone. A snapshot without one is restored without
a reset, so they are all kept (`restore_replaces_iff`).
-/

namespace DistributedLog

namespace Fsm

/-- `distributed.Log.setupLog`: the log that a node applies commands to. -/
def setupLog (logDir : Dir) (c : Config) : Result Unit × Log × Dir := newLog logDir.mkdirAll c

/-- What `fsm.Apply` returns. -/
inductive Response where
  | produced (offset : UInt64) -- *logv1.ProduceResponse
  | failed (e : Err) -- error
  | none -- nil
deriving DecidableEq, Repr

/-- `fsm.applyAppend`: an error is returned as the response, a panic is not. -/
def applyAppend (E : Env) (l : Log) (d : Dir) (b : Bytes) : Result Response × Log × Dir :=
  match E.unmarshalRequest b with
  | none => (.ok (.failed .unmarshal), l, d)
  | some record =>
      match l.append E d record with
      | (.error .panic, l, d) => (.error .panic, l, d)
      | (.error (.err e), l, d) => (.ok (.failed e), l, d)
      | (.ok offset, l, d) => (.ok (.produced offset), l, d)

def appendRequestType : UInt8 := 0

/-- `fsm.Apply` of an entry with the given data. -/
def apply (E : Env) (l : Log) (d : Dir) : Bytes → Result Response × Log × Dir
  | [] => (.error .panic, l, d)
  | reqType :: b =>
      if reqType = appendRequestType then applyAppend E l d b else (.ok .none, l, d)

/-- The data of the entry that `distributed.Log.Append` proposes. -/
def appendCommand (E : Env) (r : Record) : Bytes :=
  appendRequestType :: E.marshalRequest (some r)

/-- The record that the data of an entry has `fsm.Apply` append. -/
def logged (E : Env) : Bytes → Option Record
  | [] => none
  | reqType :: b => if reqType = appendRequestType then (E.unmarshalRequest b).join else none

/-- `io.ReadFull` of a length, then `io.CopyN` of that many bytes: the
payload and the rest of the stream, or nothing at its end. -/
def nextFrame (stream : Bytes) : Result (Option (Bytes × Bytes)) :=
  if stream.isEmpty then .ok none
  else if stream.length < lenWidth then .error (.err .unexpectedEOF)
  else
    let size := getUint64 (stream.take lenWidth)
    let rest := stream.drop lenWidth
    -- `io.CopyN` of a negative number of bytes copies none and is no error
    let n := if 2 ^ 63 ≤ size.toNat then 0 else size.toNat
    if rest.length < n then .error (.err .eof) else .ok (some (rest.take n, rest.drop n))

/-- What `fsm.Restore` does before it appends the first record. -/
def resetTo (l : Log) (d : Dir) (record : Record) : Result Unit × Log × Dir :=
  Log.reset { l with config := { l.config with initialOffset := record.offset } } d

/-- The loop of `fsm.Restore`; `first` is `i == 0`. A round takes the bytes
of a length at least, so there are fewer rounds than bytes. -/
def restoreLoop (E : Env) : Nat → Bool → Log → Dir → Bytes → Result Unit × Log × Dir
  | 0, _, l, d, _ => (.ok (), l, d)
  | fuel + 1, first, l, d, stream =>
      match nextFrame stream with
      | .error e => (.error e, l, d)
      | .ok none => (.ok (), l, d)
      | .ok (some (p, rest)) =>
          match E.unmarshal p with
          | none => (.error (.err .unmarshal), l, d)
          | some record =>
              match (if first then resetTo l d record else (.ok (), l, d) :
                Result Unit × Log × Dir) with
              | (.error e, l, d) => (.error e, l, d)
              | (.ok _, l, d) =>
                  match l.append E d (some record) with
                  | (.error e, l, d) => (.error e, l, d)
                  | (.ok _, l, d) => restoreLoop E fuel false l d rest

/-- `fsm.Restore`. -/
def restore (E : Env) (l : Log) (d : Dir) (stream : Bytes) : Result Unit × Log × Dir :=
  restoreLoop E (stream.length + 1) true l d stream

/-! ## Applying -/

variable {E : Env} {c : Config} {l : Log} {d : Dir}

theorem apply_appendCommand (r : Record) {off : UInt64} {l' : Log} {d' : Dir} :
    apply E l d (appendCommand E r) = (.ok (.produced off), l', d') ↔
      l.append E d (some r) = (.ok off, l', d') := by
  simp only [apply, appendCommand, applyAppend, if_true, E.unmarshalRequest_marshalRequest]
  rcases l.append E d (some r) with ⟨(_ | _) | off', l₁, d₁⟩ <;> simp

end Fsm

/-- A record that is not set is dereferenced. -/
theorem Log.append_none (E : Env) (l : Log) (d : Dir) :
    ∃ l', l.append E d none = (.error .panic, l', d) := by
  unfold Log.append
  cases l.activeSegment with
  | none => exact ⟨l, rfl⟩
  | some s => exact ⟨l.setActive s, rfl⟩

namespace Fsm

variable {E : Env} {c : Config} {l : Log} {d : Dir}

/-- An `fsm.Apply` that returns has appended a record, or tried to, or has
left the log alone. -/
theorem apply_cases {l' : Log} {d' : Dir} {data : Bytes} {res : Response}
    (h : apply E l d data = (.ok res, l', d')) :
    (∃ r off, logged E data = some r ∧ l.append E d (some r) = (.ok off, l', d') ∧
      res = .produced off) ∨
    (∃ r e, logged E data = some r ∧ l.append E d (some r) = (.error (.err e), l', d') ∧
      res = .failed e) ∨
    logged E data = none ∧ l' = l ∧ d' = d ∧ ∀ off, res ≠ .produced off := by
  cases data with
  | nil => cases h
  | cons reqType b =>
      by_cases htype : reqType = appendRequestType
      · simp only [apply, logged, if_pos htype, applyAppend] at h ⊢
        rcases hreq : E.unmarshalRequest b with _ | _ | r
        · rw [hreq] at h
          cases h
          exact .inr (.inr ⟨rfl, rfl, rfl, by simp⟩)
        · obtain ⟨l₁, hpanic⟩ := Log.append_none E l d
          simp only [hreq, hpanic] at h
          cases h
        · rcases happ : l.append E d (some r) with ⟨(e | _) | off, l₁, d₁⟩
          · simp only [hreq, happ] at h
            cases h
            exact .inr (.inl ⟨r, e, rfl, happ, rfl⟩)
          · simp only [hreq, happ] at h
            cases h
          · simp only [hreq, happ] at h
            cases h
            exact .inl ⟨r, off, rfl, happ, rfl⟩
      · rw [apply, if_neg htype] at h
        cases h
        exact .inr (.inr ⟨if_neg htype, rfl, rfl, by simp⟩)

/-! ## Restoring -/

end Fsm

/-- `Reset` fails whatever it is called on. -/
theorem Log.reset_fails (l : Log) (d : Dir) : ∃ e l' d', l.reset d = (.error e, l', d') := by
  unfold Log.reset Log.remove
  rcases l.close d with ⟨e | _, l', d'⟩
  · exact ⟨e, l', d', rfl⟩
  · exact ⟨.err .notExist, l', Directory.absent, rfl⟩

/-- On a log in working order it is the listing that fails, when the
directory is gone. -/
theorem Log.Rep.reset {E : Env} {c : Config} {l : Log} {d : Dir} {L : Layout}
    (h : l.Rep E c d L) (base : UInt64) :
    ∃ l', Log.reset { l with config := { l.config with initialOffset := base } } d =
      (.error (.err .notExist), l', Directory.absent) := by
  obtain ⟨ss', d', hclose, -⟩ := closeAll_spec h.segments L.distinct
  refine ⟨{ l with segments := ss', config := { l.config with initialOffset := base } }, ?_⟩
  simp only [Log.reset, Log.remove, Log.close, hclose]
  rfl

namespace Fsm

variable {E : Env} {c : Config} {l : Log} {d : Dir}

theorem nextFrame_ne_none {stream : Bytes} (hne : stream ≠ []) : nextFrame stream ≠ .ok none := by
  unfold nextFrame
  rw [if_neg (by simpa using hne)]
  split
  · simp
  · simp only
    split <;> split <;> simp

theorem nextFrame_frame {p : Bytes} (hp : p.length < 2 ^ 63) (rest : Bytes) :
    nextFrame (frame p ++ rest) = .ok (some (p, rest)) := by
  have hwidth : (putUint64 (UInt64.ofNat p.length)).length = lenWidth := length_putUint64 _
  have hsize : (UInt64.ofNat p.length).toNat = p.length := by
    rw [UInt64.toNat_ofNat', Nat.mod_eq_of_lt (by omega)]
  have htake : (frame p ++ rest).take lenWidth = putUint64 (UInt64.ofNat p.length) := by
    rw [frame, List.append_assoc, ← hwidth, List.take_left]
  have hdrop : (frame p ++ rest).drop lenWidth = p ++ rest := by
    rw [frame, List.append_assoc, ← hwidth, List.drop_left]
  have hlen : lenWidth ≤ (frame p ++ rest).length := by
    rw [List.length_append, length_frame]
    omega
  have hne : (frame p ++ rest).isEmpty = false := by
    cases hf : frame p ++ rest with
    | nil => rw [hf] at hlen; exact absurd hlen (by decide)
    | cons _ _ => rfl
  unfold nextFrame
  rw [hne, if_neg Bool.false_ne_true, if_neg (by omega), htake, hdrop, getUint64_putUint64]
  simp only [hsize, if_neg (show ¬ 2 ^ 63 ≤ p.length by omega)]
  rw [if_neg (by rw [List.length_append]; omega), List.take_left, List.drop_left]

theorem restore_error (E : Env) {stream : Bytes} (hne : stream ≠ []) (l : Log) (d : Dir) :
    ∃ e l' d', restore E l d stream = (.error e, l', d') := by
  unfold restore restoreLoop
  cases hframe : nextFrame stream with
  | error e => exact ⟨e, l, d, rfl⟩
  | ok next =>
      cases next with
      | none => exact absurd hframe (nextFrame_ne_none hne)
      | some pr =>
          obtain ⟨p, rest⟩ := pr
          simp only
          cases E.unmarshal p with
          | none => exact ⟨_, _, _, rfl⟩
          | some record =>
              obtain ⟨e, l', d', hreset⟩ := Log.reset_fails
                { l with config := { l.config with initialOffset := record.offset } } d
              exact ⟨e, l', d', by simp only [if_true, resetTo, hreset]⟩

theorem frames_eq_nil_iff {E : Env} {base : UInt64} {rs : List Record} :
    frames E base rs = [] ↔ rs = [] := by
  cases rs with
  | nil => simp [frames]
  | cons r rs => simp [frames, frame, putUint64, toBytesBE]

/-- **No snapshot with a record is ever restored.** Whatever the frames and
whatever the log they are restored into, the call does not return nil; from
a log in working order it returns `ErrNotExist` and the directory is gone. -/
theorem restore_fails (E : Env) (base : UInt64) {rs : List Record} (hne : rs ≠ []) (l : Log)
    (d : Dir) :
    (restore E l d (frames E base rs)).1 ≠ .ok () ∧
      ∀ c L, l.Rep E c d L → (frames E base rs).length < 2 ^ 63 →
        ∃ l', restore E l d (frames E base rs) =
          (.error (.err .notExist), l', Directory.absent) := by
  obtain ⟨r, rs, rfl⟩ := List.exists_cons_of_ne_nil hne
  have hstream : frames E base (r :: rs) ≠ [] := fun hnil => hne (frames_eq_nil_iff.mp hnil)
  refine ⟨?_, ?_⟩
  · obtain ⟨e, l', d', herr⟩ := restore_error E hstream l d
    rw [herr]
    simp
  · intro c L hrep hfit
    rw [frames, List.length_append, length_frame] at hfit
    obtain ⟨l', hreset⟩ := hrep.reset base
    refine ⟨l', ?_⟩
    rw [restore, restoreLoop, frames, nextFrame_frame (by omega)]
    simp only [E.unmarshal_marshal, if_true, resetTo, hreset]

theorem restore_fails_one_record :
    ∃ l d, newLog Directory.empty ⟨64, 24, 0⟩ = (.ok (), l, d) ∧
      (restore goEnv l d (frames goEnv 0 [⟨[7], 0, 0, 0⟩])).1 ≠ .ok () :=
  ⟨_, _, Prod.ext (show (newLog Directory.empty ⟨64, 24, 0⟩).1 = .ok () by decide +kernel) rfl,
    (restore_fails goEnv 0 (by decide) _ _).1⟩

/-- A log with one record, restored into an empty one. -/
theorem restore_one_record_into_empty :
    let source := (newLog Directory.empty ⟨64, 24, 0⟩).2
    let source' := (source.1.append goEnv source.2 (some ⟨[7], 0, 0, 0⟩)).2
    let dest := (newLog Directory.empty ⟨64, 24, 0⟩).2
    (source.1.append goEnv source.2 (some ⟨[7], 0, 0, 0⟩)).1 = .ok 0 ∧
      (source'.1.read goEnv source'.2 0).1 = .ok ⟨[7], 0, 0, 0⟩ ∧
      (restore goEnv dest.1 dest.2 (frames goEnv 0 [⟨[7], 0, 0, 0⟩])).1 =
        .error (.err .notExist) := by
  decide +kernel

/-! ## Restoring over an old log -/

/-- The log holds the records whose frames make up the stream, in order, and
no other: these can be read, and nothing that was there before. -/
def Holds (E : Env) (s : LogState) (stream : Bytes) : Prop :=
  ∃ base rs, stream = frames E base rs ∧
    ∀ off r, (s.1.read E s.2 off).1 = .ok r ↔ Log.readOf ⟨base.toNat, rs⟩ off = .ok r

/-- The loop ends at once on the empty stream, before the reset. -/
theorem restore_nil (E : Env) (l : Log) (d : Dir) : restore E l d [] = (.ok (), l, d) :=
  rfl

theorem holds_nil_iff {E : Env} {s : LogState} :
    Holds E s [] ↔ ∀ off r, (s.1.read E s.2 off).1 ≠ .ok r := by
  have hempty : ∀ (base : UInt64) off r, Log.readOf ⟨base.toNat, []⟩ off ≠ .ok r := by
    intro base off r
    simp [Log.readOf, AppendOnly.get?]
  constructor
  · rintro ⟨base, rs, hframes, hread⟩ off r hok
    obtain rfl := frames_eq_nil_iff.mp hframes.symm
    exact hempty base off r ((hread off r).mp hok)
  · intro hnone
    refine ⟨0, [], rfl, fun off r => ?_⟩
    exact ⟨fun hok => absurd hok (hnone off r), fun hok => absurd hok (hempty 0 off r)⟩

/-- **A restore that reports success.** It has replaced the log only when
there was nothing to replace: nil is returned for the empty stream alone,
and that leaves every old record where it was. -/
theorem restore_replaces_iff (E : Env) (stream : Bytes) (l : Log) (d : Dir) :
    (∀ l' d', restore E l d stream = (.ok (), l', d') → Holds E (l', d') stream) ↔
      stream ≠ [] ∨ ∀ off r, (l.read E d off).1 ≠ .ok r := by
  rcases eq_or_ne stream [] with rfl | hne
  · simp only [restore_nil, Prod.mk.injEq, true_and, and_imp, ne_eq, not_true_eq_false, false_or]
    constructor
    · exact fun h => holds_nil_iff.mp (h l d rfl rfl)
    · rintro hnone l' d' rfl rfl
      exact holds_nil_iff.mpr hnone
  · obtain ⟨e, l', d', herr⟩ := restore_error E hne l d
    rw [herr]
    simp [hne]

/-- The empty stream restored into a log with one record. -/
theorem restore_empty_keeps_record :
    let s := (newLog Directory.empty ⟨64, 24, 0⟩).2
    let s' := (s.1.append goEnv s.2 (some ⟨[7], 0, 0, 0⟩)).2
    let res := restore goEnv s'.1 s'.2 []
    res.1 = .ok () ∧ (res.2.1.read goEnv res.2.2 0).1 = .ok ⟨[7], 0, 0, 0⟩ := by
  decide +kernel

end Fsm

end DistributedLog
