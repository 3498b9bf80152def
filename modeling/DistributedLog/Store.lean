import DistributedLog.Directory
import DistributedLog.FileName
import DistributedLog.Record

/-!
# The store: a buffered file of length-prefixed frames

`Store` is the in-memory half of a store file (`internal/log/store.go`): the
bytes that have reached the file are in the directory, the bytes still in
the `bufio.Writer` are in `buf`. The file is opened with `O_APPEND`, so a
write leaves the seek position at the end of the file and `ReadAt` does not
move it.

`Carries s d bs` is what the operations are specified by: file and buffer
together hold exactly `bs`, at whatever point the buffer was last spilled.
Appending extends `bs` by one frame (`append_spec`); reading at the start of
a frame returns its payload (`read_spec`).
-/

namespace DistributedLog

abbrev Dir := Directory Name

/-- The bytes of a frame's length. -/
def lenWidth : Nat := 8

structure Store where
  name : Name
  closed : Bool
  -- the error that a `bufio.Writer` keeps once a write has failed
  failed : Bool
  seek : Nat
  buf : Bytes
  size : UInt64
deriving DecidableEq, Repr

/-- `newStore` on a file that has just been opened. -/
def newStore (d : Dir) (name : Name) : Store where
  name := name
  closed := false
  failed := false
  seek := 0
  buf := []
  size := UInt64.ofNat ((d.content? name).getD []).length

namespace Store

/-- `os.File.Write` of the bytes that the `bufio.Writer` passes on; it makes
no call when there are none. -/
def output (s : Store) (d : Dir) (out : Bytes) : Result Unit × Store × Dir :=
  if out = [] then (.ok (), s, d)
  else if s.closed then (.error (.err .closed), { s with failed := true }, d)
  else
    let d := d.modify s.name (· ++ out)
    (.ok (), { s with seek := ((d.content? s.name).getD []).length }, d)

/-- `bufio.Writer.Write`. -/
def write (E : Env) (s : Store) (d : Dir) (p : Bytes) : Result Unit × Store × Dir :=
  if s.failed then (.error (.err .closed), s, d)
  else
    let all := s.buf ++ p
    let k := E.spill s.buf.length p.length
    match s.output d (all.take k) with
    | (.error e, s, d) => (.error e, s, d)
    | (.ok _, s, d) => (.ok (), { s with buf := all.drop k }, d)

/-- `bufio.Writer.Flush`. -/
def flush (s : Store) (d : Dir) : Result Unit × Store × Dir :=
  if s.failed then (.error (.err .closed), s, d)
  else
    match s.output d s.buf with
    | (.error e, s, d) => (.error e, s, d)
    | (.ok _, s, d) => (.ok (), { s with buf := [] }, d)

/-- `store.Append`: the number of bytes written and the position of the frame. -/
def append (E : Env) (s : Store) (d : Dir) (p : Bytes) :
    Result (UInt64 × UInt64) × Store × Dir :=
  let pos := s.size
  match s.write E d (putUint64 (UInt64.ofNat p.length)) with
  | (.error e, s, d) => (.error e, s, d)
  | (.ok _, s, d) =>
      match s.write E d p with
      | (.error e, s, d) => (.error e, s, d)
      | (.ok _, s, d) =>
          let w := UInt64.ofNat (p.length + lenWidth)
          (.ok (w, pos), { s with size := s.size + w }, d)

/-- `os.File.ReadAt` into a slice of `n` bytes at a non-negative offset: the
bytes read, and `io.EOF` when they are fewer than `n`. -/
def fileReadAt (s : Store) (d : Dir) (n off : Nat) : Bytes × Option Err :=
  if n = 0 then ([], none)
  else if s.closed then ([], some .closed)
  else
    let bs := (((d.content? s.name).getD []).drop off).take n
    (bs, if bs.length < n then some .eof else none)

/-- `s.File.ReadAt(make([]byte, n), int64(pos))`, an incomplete read being
an error. -/
def readFull (s : Store) (d : Dir) (n : Nat) (pos : UInt64) : Result Bytes :=
  if 2 ^ 63 ≤ pos.toNat then .error (.err .invalid)
  else
    match s.fileReadAt d n pos.toNat with
    | (_, some e) => .error (.err e)
    | (bs, none) => .ok bs

/-- `store.Read`: the payload of the frame at `pos`. -/
def read (s : Store) (d : Dir) (pos : UInt64) : Result Bytes × Store × Dir :=
  match s.flush d with
  | (.error e, s, d) => (.error e, s, d)
  | (.ok _, s, d) =>
      match s.readFull d lenWidth pos with
      | .error e => (.error e, s, d)
      | .ok size =>
          -- `make` panics on a length that is no `int`
          if 2 ^ 63 ≤ (getUint64 size).toNat then (.error .panic, s, d)
          else (s.readFull d (getUint64 size).toNat (pos + UInt64.ofNat lenWidth), s, d)

/-- `store.ReadAt`. -/
def readAt (s : Store) (d : Dir) (n off : Nat) : Result (Bytes × Option Err) × Store × Dir :=
  match s.flush d with
  | (.error e, s, d) => (.error e, s, d)
  | (.ok _, s, d) => (.ok (s.fileReadAt d n off), s, d)

/-- `store.Close`. -/
def close (s : Store) (d : Dir) : Result Unit × Store × Dir :=
  match s.flush d with
  | (.error e, s, d) => (.error e, s, d)
  | (.ok _, s, d) =>
      if s.closed then (.error (.err .closed), s, d) else (.ok (), { s with closed := true }, d)

end Store

/-- One frame: the length as an unsigned 64-bit number, then the payload. -/
def frame (p : Bytes) : Bytes := putUint64 (UInt64.ofNat p.length) ++ p

@[simp] theorem length_frame (p : Bytes) : (frame p).length = p.length + lenWidth := by
  rw [frame, List.length_append, length_putUint64, lenWidth, Nat.add_comm]

/-! ## What the operations do to the bytes held -/

namespace Store

/-- File and buffer together hold `bs`, and the store can be written to. -/
structure Carries (s : Store) (d : Dir) (bs : Bytes) : Prop where
  isOpen : s.closed = false
  sound : s.failed = false
  file : ∃ f, d.content? s.name = some f ∧ f ++ s.buf = bs

variable {s : Store} {d : Dir} {bs : Bytes}

/-- What a store holds, in its file and in its buffer. -/
def bytes (s : Store) (d : Dir) : Bytes := (d.content? s.name).getD [] ++ s.buf

theorem Carries.bytes (h : s.Carries d bs) : s.bytes d = bs := by
  obtain ⟨f, hf, hbs⟩ := h.file
  rw [Store.bytes, hf, Option.getD_some, hbs]

theorem output_spec (hopen : s.closed = false) {f : Bytes} (hf : d.content? s.name = some f)
    (out : Bytes) : ∃ k d', s.output d out = (.ok (), { s with seek := k }, d') ∧
      d'.content? s.name = some (f ++ out) ∧ Directory.Touches [s.name] d d' := by
  unfold output
  by_cases hout : out = []
  · subst hout
    refine ⟨s.seek, d, by simp, by simpa using hf, .refl _ _⟩
  · rw [if_neg hout, hopen]
    exact ⟨_, _, rfl, by simp [hf], Directory.touches_modify ..⟩

theorem write_spec (h : s.Carries d bs) (E : Env) (p : Bytes) :
    ∃ s' d', s.write E d p = (.ok (), s', d') ∧ s'.Carries d' (bs ++ p) ∧
      s'.name = s.name ∧ s'.size = s.size ∧ Directory.Touches [s.name] d d' := by
  obtain ⟨f, hf, hbs⟩ := h.file
  obtain ⟨k, d', hout, hc, ht⟩ := output_spec h.isOpen hf
    ((s.buf ++ p).take (E.spill s.buf.length p.length))
  refine ⟨{ s with seek := k, buf := (s.buf ++ p).drop (E.spill s.buf.length p.length) }, d',
    by simp [write, h.sound, hout], ⟨h.isOpen, h.sound, _, hc, ?_⟩, rfl, rfl, ht⟩
  simp [← hbs]

theorem flush_spec (h : s.Carries d bs) :
    ∃ s' d', s.flush d = (.ok (), s', d') ∧ s'.Carries d' bs ∧ d'.content? s.name = some bs ∧
      s'.name = s.name ∧ s'.size = s.size ∧ Directory.Touches [s.name] d d' := by
  obtain ⟨f, hf, hbs⟩ := h.file
  obtain ⟨k, d', hout, hc, ht⟩ := output_spec h.isOpen hf s.buf
  rw [hbs] at hc
  exact ⟨{ s with seek := k, buf := [] }, d', by simp [flush, h.sound, hout],
    ⟨h.isOpen, h.sound, bs, hc, List.append_nil bs⟩, hc, rfl, rfl, ht⟩

theorem append_spec (h : s.Carries d bs) (E : Env) (p : Bytes) :
    ∃ s' d', s.append E d p = (.ok (UInt64.ofNat (p.length + lenWidth), s.size), s', d') ∧
      s'.Carries d' (bs ++ frame p) ∧ s'.name = s.name ∧
      s'.size = s.size + UInt64.ofNat (p.length + lenWidth) ∧
      Directory.Touches [s.name] d d' := by
  obtain ⟨s₁, d₁, hw₁, hc₁, hn₁, hz₁, ht₁⟩ := write_spec h E (putUint64 (UInt64.ofNat p.length))
  obtain ⟨s₂, d₂, hw₂, hc₂, hn₂, hz₂, ht₂⟩ := write_spec hc₁ E p
  rw [List.append_assoc] at hc₂
  rw [hn₁] at ht₂
  refine ⟨{ s₂ with size := s₂.size + UInt64.ofNat (p.length + lenWidth) }, d₂,
    by simp only [append, hw₁, hw₂], ⟨hc₂.isOpen, hc₂.sound, hc₂.file⟩, hn₂.trans hn₁, ?_,
    ht₁.trans ht₂⟩
  rw [hz₂, hz₁]

theorem fileReadAt_of_append (hopen : s.closed = false) {pre mid post : Bytes}
    (hf : d.content? s.name = some (pre ++ mid ++ post)) :
    s.fileReadAt d mid.length pre.length = (mid, none) := by
  unfold fileReadAt
  by_cases hmid : mid = []
  · subst hmid; simp
  · have hpos : mid.length ≠ 0 := fun h => hmid (List.eq_nil_of_length_eq_zero h)
    simp [hpos, hopen, hf]

theorem fileReadAt_of_open (hopen : s.closed = false) {f : Bytes}
    (hf : (d.content? s.name).getD [] = f) (n off : Nat) :
    s.fileReadAt d n off =
      ((f.drop off).take n, if (f.drop off).length < n then some .eof else none) := by
  unfold fileReadAt
  by_cases hn : n = 0
  · simp [hn]
  · have hshort : ((f.drop off).take n).length < n ↔ (f.drop off).length < n := by
      rw [List.length_take]
      omega
    simp only [hn, hopen, hf, hshort, if_false, Bool.false_eq_true]

theorem readFull_of_append (hopen : s.closed = false) {pre mid post : Bytes}
    (hf : d.content? s.name = some (pre ++ mid ++ post)) {n : Nat} (hn : n = mid.length)
    {pos : UInt64} (hpos : pos.toNat = pre.length) (hlt : pre.length < 2 ^ 63) :
    s.readFull d n pos = .ok mid := by
  rw [readFull, if_neg (by omega), hn, hpos, fileReadAt_of_append hopen hf]

/-- Reading at the start of a frame returns its payload. The length is read
back as a 64-bit number and the positions as non-negative `int64`s, so the
bytes up to the end of the frame must fit in a file. -/
theorem read_spec (h : s.Carries d bs) {pre p post : Bytes} (hbs : bs = pre ++ frame p ++ post)
    (hfit : (pre ++ frame p).length < 2 ^ 63) {pos : UInt64} (hpos : pos.toNat = pre.length) :
    ∃ s' d', s.read d pos = (.ok p, s', d') ∧ s'.Carries d' bs ∧
      s'.name = s.name ∧ s'.size = s.size ∧ Directory.Touches [s.name] d d' := by
  obtain ⟨s', d', hfl, hc, hf, hn, hz, ht⟩ := flush_spec h
  rw [List.length_append, length_frame, lenWidth] at hfit
  have hplen : (UInt64.ofNat p.length).toNat = p.length := by
    rw [UInt64.toNat_ofNat', Nat.mod_eq_of_lt (by omega)]
  have hhead : s'.readFull d' lenWidth pos = .ok (putUint64 (UInt64.ofNat p.length)) := by
    have hf' : d'.content? s'.name
        = some (pre ++ putUint64 (UInt64.ofNat p.length) ++ (p ++ post)) := by
      rw [hn, hf, hbs, frame]
      simp
    exact readFull_of_append hc.isOpen hf' (length_putUint64 _).symm hpos (by omega)
  have hbody : s'.readFull d' p.length (pos + UInt64.ofNat lenWidth) = .ok p := by
    have hf' : d'.content? s'.name
        = some (pre ++ putUint64 (UInt64.ofNat p.length) ++ p ++ post) := by
      rw [hn, hf, hbs, frame]
      simp
    refine readFull_of_append hc.isOpen hf' rfl ?_ ?_
    · simp only [UInt64.toNat_add, hpos, lenWidth, List.length_append, length_putUint64,
        UInt64.toNat_ofNat']
      omega
    · simp only [List.length_append, length_putUint64]
      omega
  refine ⟨s', d', ?_, hc, hn, hz, ht⟩
  simp only [read, hfl, hhead, getUint64_putUint64, hplen]
  rw [if_neg (by omega), hbody]

/-- Closing brings every byte to the file. -/
theorem close_spec (h : s.Carries d bs) :
    ∃ s' d', s.close d = (.ok (), s', d') ∧ s'.name = s.name ∧
      d'.content? s.name = some bs ∧ Directory.Touches [s.name] d d' := by
  obtain ⟨s', d', hfl, hc, hf, hn, -, ht⟩ := flush_spec h
  refine ⟨{ s' with closed := true }, d', ?_, hn, hf, ht⟩
  simp [close, hfl, hc.isOpen]

/-- The bytes held depend on nothing but the store's own file. -/
theorem Carries.frame {d' : Dir} (h : s.Carries d bs)
    (hd : d'.content? s.name = d.content? s.name) : s.Carries d' bs :=
  ⟨h.isOpen, h.sound, by rw [hd]; exact h.file⟩

theorem newStore_carries {name : Name} {f : Bytes} (hf : d.content? name = some f) :
    (newStore d name).Carries d f :=
  ⟨rfl, rfl, f, hf, List.append_nil f⟩

end Store

end DistributedLog
