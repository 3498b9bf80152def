import DistributedLog.Wire

/-!
# Records, errors, and what the code is linked with

`Record` is the `log.v1.Record` message. What the code takes from libraries
outside the repository is gathered in `Env`: protobuf marshalling of a
`Record` and of a `ProduceRequest`, whose one promise is that unmarshalling
undoes marshalling, and the moments at which a `bufio.Writer` hands bytes to
its file, about which nothing is promised.

`goEnv` is the instance that the concrete runs use: the proto3 wire format
of the two messages and a `bufio.Writer` of the default size.
-/

namespace DistributedLog

/-- `log.v1.Record`. -/
structure Record where
  value : Bytes
  offset : UInt64
  term : UInt64
  type : UInt32
deriving DecidableEq, Repr

/-- The errors that the modelled code returns. -/
inductive Err where
  | eof -- io.EOF
  | unexpectedEOF -- io.ErrUnexpectedEOF
  | offsetOutOfRange (off : UInt64) -- log.ErrOffsetOutOfRange{Offset: off}
  | closed -- os.ErrClosed
  | notExist -- os.ErrNotExist
  | invalid -- EINVAL: a negative length or offset, or an empty mapping
  | notMapped -- msync or munmap of memory that is not mapped
  | unmarshal -- a payload that protobuf or msgpack cannot decode
  | logNotFound -- raft.ErrLogNotFound
  | keyNotFound -- raftpebble.ErrKeyNotFound
deriving DecidableEq, Repr

/-- How a call ends other than by returning a value: with an error, or with
a panic (a nil dereference, an index out of range, a fault on unmapped
memory). -/
inductive Fail where
  | err (e : Err)
  | panic
deriving DecidableEq, Repr

abbrev Result (α : Type) := Except Fail α

/-- The library code that the program is linked with. -/
structure Env where
  /-- `proto.Marshal` of a `Record`. It has no string and no required field,
  so marshalling cannot fail. -/
  marshal : Record → Bytes
  /-- `proto.Unmarshal` into a fresh `Record`. -/
  unmarshal : Bytes → Option Record
  unmarshal_marshal : ∀ r, unmarshal (marshal r) = some r
  /-- `proto.Marshal` of a `ProduceRequest`, given its `record` field. -/
  marshalRequest : Option Record → Bytes
  /-- `proto.Unmarshal` into a fresh `ProduceRequest`. -/
  unmarshalRequest : Bytes → Option (Option Record)
  unmarshalRequest_marshalRequest : ∀ r, unmarshalRequest (marshalRequest r) = some r
  /-- `bufio.Writer.Write`: with `b` bytes buffered and `n` more to write,
  how many of these `b + n` bytes it passes on to the file. -/
  spill : Nat → Nat → Nat

/-! ## The wire format of the two messages -/

namespace Wire

/-- A field with its default value is not written. -/
def record (r : Record) : Bytes :=
  (if r.value = [] then [] else lenField 1 r.value) ++
  (if r.offset = 0 then [] else varintField 2 r.offset.toNat) ++
  (if r.term = 0 then [] else varintField 3 r.term.toNat) ++
  (if r.type = 0 then [] else varintField 4 r.type.toNat)

/-- Unknown fields, and known ones of another wire type, are skipped. -/
def recordField (r : Record) : Nat → Value → Option Record
  | 1, .len bs => some { r with value := bs }
  | 2, .varint n => some { r with offset := UInt64.ofNat n }
  | 3, .varint n => some { r with term := UInt64.ofNat n }
  | 4, .varint n => some { r with type := UInt32.ofNat n }
  | _, _ => some r

def readRecord (r : Record) (bs : Bytes) : Option Record :=
  decodeFields recordField (bs.length + 4) r bs

/-- `ProduceRequest`: an unset record is not written. -/
def request : Option Record → Bytes
  | none => []
  | some r => lenField 1 (record r)

def zeroRecord : Record := ⟨[], 0, 0, 0⟩

/-- A record that occurs twice is merged. -/
def requestField (q : Option Record) : Nat → Value → Option (Option Record)
  | 1, .len bs => (readRecord (q.getD zeroRecord) bs).map some
  | _, _ => some q

def readRequest (bs : Bytes) : Option (Option Record) :=
  decodeFields requestField (bs.length + 1) none bs

/-! ## Round trips -/

section optionalField

variable {α : Type} {handle : α → Nat → Value → Option α}

/-- A field that is written only under a condition leaves the decoder at
the next field, one round later if it was written. -/
theorem decodeFields_if {c : Prop} [Decidable c] {field rest : Bytes} {num : Nat} {v : Value}
    (fuel : Nat) (h : readField (field ++ rest) = some (num, v, rest)) {m m' : α}
    (hm : handle m num v = some m') (hc : c → m' = m) {out : α}
    (hrest : ∀ k, fuel ≤ k → decodeFields handle k m' rest = some out) {k : Nat}
    (hk : fuel + 1 ≤ k) :
    decodeFields handle k m ((if c then [] else field) ++ rest) = some out := by
  by_cases hcc : c
  · rw [if_pos hcc, List.nil_append, ← hc hcc]
    exact hrest k (by omega)
  · obtain ⟨k, rfl⟩ := Nat.exists_eq_succ_of_ne_zero (show k ≠ 0 by omega)
    rw [if_neg hcc, decodeFields_field h hm]
    exact hrest k (by omega)

end optionalField

theorem readRecord_record (r : Record) : readRecord zeroRecord (record r) = some r := by
  have hoff : r.offset.toNat < 2 ^ 64 := r.offset.toNat_lt
  have hterm : r.term.toNat < 2 ^ 64 := r.term.toNat_lt
  have htype : r.type.toNat < 2 ^ 64 := by have := r.type.toNat_lt; omega
  unfold readRecord
  generalize hk : (record r).length + 4 = k
  unfold record
  rw [List.append_assoc, List.append_assoc]
  refine decodeFields_if 3 (readField_lenField (by omega) (by omega) _ _) rfl ?_
    (fun k hk => ?_) (by omega)
  · intro h; simp [zeroRecord, h]
  refine decodeFields_if 2 (readField_varintField (by omega) (by omega) hoff _) rfl ?_
    (fun k hk => ?_) hk
  · intro h; simp [zeroRecord, h]
  refine decodeFields_if 1 (readField_varintField (by omega) (by omega) hterm _) rfl ?_
    (fun k hk => ?_) hk
  · intro h; simp [zeroRecord, h]
  rw [← List.append_nil (if r.type = 0 then [] else varintField 4 r.type.toNat)]
  refine decodeFields_if 0 (readField_varintField (by omega) (by omega) htype _) rfl ?_
    (fun k hk => ?_) hk
  · intro h; simp [zeroRecord, h]
  simp [decodeFields]

theorem readRequest_request (q : Option Record) : readRequest (request q) = some q := by
  cases q with
  | none => rfl
  | some r =>
      have h : readField (lenField 1 (record r) ++ []) = some (1, .len (record r), []) :=
        readField_lenField (by omega) (by omega) (record r) []
      have hm : requestField none 1 (.len (record r)) = some (some r) := by
        simp [requestField, readRecord_record]
      unfold readRequest
      generalize (request (some r)).length = k
      rw [request, ← List.append_nil (lenField 1 (record r)), decodeFields_field h hm]
      simp [decodeFields]

end Wire

/-- `bufio.Writer.Write` with a buffer of `size` bytes, `b` of them in use:
bytes that fit are kept; into an empty buffer a larger slice is written
through; otherwise the buffer is filled up and flushed first. -/
def bufioSpill (size b n : Nat) : Nat :=
  if n ≤ size - b then 0
  else if b = 0 then n
  else if n - (size - b) ≤ size then size
  else b + n

/-- The wire format, and the writer that `bufio.NewWriter` makes. -/
def goEnv : Env where
  marshal := Wire.record
  unmarshal := Wire.readRecord Wire.zeroRecord
  unmarshal_marshal := Wire.readRecord_record
  marshalRequest := Wire.request
  unmarshalRequest := Wire.readRequest
  unmarshalRequest_marshalRequest := Wire.readRequest_request
  spill := bufioSpill 4096

end DistributedLog
