import DistributedLog.Store

/-!
# The index: a memory-mapped table of fixed-width entries

`Index` is the in-memory half of an index file (`internal/log/index.go`).
The file is mapped shared, so reads and writes through the mapping go
straight to the bytes in the directory. While the index is open its file is
padded to `MaxIndexBytes`; only `close` cuts it back to `size`.

`Holds i d M es` specifies the operations: the file is padded to `M` bytes
and starts with the entries `es`, each a 32-bit relative offset and a 64-bit
position.
-/

namespace DistributedLog

/-- `Config.Segment`. -/
structure Config where
  maxStoreBytes : UInt64
  maxIndexBytes : UInt64
  initialOffset : UInt64
deriving DecidableEq, Repr

def offWidth : UInt64 := 4
def posWidth : UInt64 := 8
def entryWidth : UInt64 := offWidth + posWidth

/-- `Truncate`: cut off, or padded with zeros, to `n` bytes. -/
def resize (n : Nat) (bs : Bytes) : Bytes := bs.take n ++ List.replicate (n - bs.length) 0

/-- Overwrite the bytes from `pos` on. -/
def splice (pos : Nat) (p bs : Bytes) : Bytes := bs.take pos ++ p ++ bs.drop (pos + p.length)

structure Index where
  name : Name
  mapped : Bool
  mmapLen : UInt64
  size : UInt64
deriving DecidableEq, Repr

/-- `newIndex`. The length goes through `int64`, so from 2^63 on it is
negative; an empty mapping is refused too, after the file has been cut. -/
def newIndex (d : Dir) (name : Name) (c : Config) : Result Index × Dir :=
  let size := UInt64.ofNat ((d.content? name).getD []).length
  if 2 ^ 63 ≤ c.maxIndexBytes.toNat then (.error (.err .invalid), d)
  else
    let d := d.modify name (resize c.maxIndexBytes.toNat)
    if c.maxIndexBytes = 0 then (.error (.err .invalid), d)
    else (.ok ⟨name, true, c.maxIndexBytes, size⟩, d)

namespace Index

/-- `index.Close`. The first thing it does is take `&i.mmap[0]`. -/
def close (i : Index) (d : Dir) : Result Unit × Index × Dir :=
  if i.mmapLen = 0 then (.error .panic, i, d)
  else if !i.mapped then (.error (.err .notMapped), i, d)
  else
    let i := { i with mapped := false }
    if 2 ^ 63 ≤ i.size.toNat then (.error (.err .invalid), i, d)
    else (.ok (), i, d.modify i.name (resize i.size.toNat))

/-- `i.mmap[lo:hi]`: a panic out of range, a fault once unmapped. -/
def slice (i : Index) (d : Dir) (lo hi : UInt64) : Result Bytes :=
  if i.mapped && decide (lo ≤ hi) && decide (hi ≤ i.mmapLen) then
    .ok ((((d.content? i.name).getD []).drop lo.toNat).take (hi.toNat - lo.toNat))
  else .error .panic

/-- The entry with number `out`. -/
def entryAt (i : Index) (d : Dir) (out : UInt32) : Result (UInt32 × UInt64) :=
  let pos := out.toUInt64 * entryWidth
  if i.size < pos + entryWidth then .error (.err .eof)
  else
    match i.slice d pos (pos + offWidth), i.slice d (pos + offWidth) (pos + entryWidth) with
    | .ok o, .ok p => .ok (getUint32 o, getUint64 p)
    | .error e, _ => .error e
    | _, .error e => .error e

/-- `index.Read`; `-1` asks for the last entry. -/
def read (i : Index) (d : Dir) (n : Int64) : Result (UInt32 × UInt64) :=
  if i.size = 0 then .error (.err .eof)
  else if n = -1 then i.entryAt d (i.size / entryWidth - 1).toUInt32
  else i.entryAt d n.toUInt64.toUInt32

/-- `index.Write`. -/
def write (i : Index) (d : Dir) (off : UInt32) (pos : UInt64) : Result Unit × Index × Dir :=
  if i.mmapLen < i.size + entryWidth then (.error (.err .eof), i, d)
  else
    match i.slice d i.size (i.size + entryWidth) with
    | .error e => (.error e, i, d)
    | .ok _ =>
        (.ok (), { i with size := i.size + entryWidth },
          d.modify i.name (splice i.size.toNat (putUint32 off ++ putUint64 pos)))

end Index

/-! ## Tables of entries -/

def encodeEntry (e : UInt32 × UInt64) : Bytes := putUint32 e.1 ++ putUint64 e.2

def encodeEntries (es : List (UInt32 × UInt64)) : Bytes := es.flatMap encodeEntry

@[simp] theorem length_encodeEntry (e : UInt32 × UInt64) : (encodeEntry e).length = 12 := by
  simp [encodeEntry]

@[simp] theorem length_encodeEntries (es : List (UInt32 × UInt64)) :
    (encodeEntries es).length = 12 * es.length := by
  induction es with
  | nil => rfl
  | cons e es ih =>
      rw [encodeEntries, List.flatMap_cons, List.length_append, length_encodeEntry,
        ← encodeEntries, ih, List.length_cons]
      omega

theorem encodeEntries_append (es : List (UInt32 × UInt64)) (e : UInt32 × UInt64) :
    encodeEntries (es ++ [e]) = encodeEntries es ++ encodeEntry e := by
  simp [encodeEntries]

theorem encodeEntries_split {es : List (UInt32 × UInt64)} {k : Nat} {e : UInt32 × UInt64}
    (h : es[k]? = some e) :
    encodeEntries es = encodeEntries (es.take k) ++ encodeEntry e ++
      encodeEntries (es.drop (k + 1)) := by
  have hk : k < es.length := (List.getElem?_eq_some_iff.mp h).1
  have hes : es = es.take k ++ e :: es.drop (k + 1) := by
    rw [← (List.getElem?_eq_some_iff.mp h).2, ← List.drop_eq_getElem_cons hk,
      List.take_append_drop]
  calc encodeEntries es = encodeEntries (es.take k ++ e :: es.drop (k + 1)) := by rw [← hes]
    _ = _ := by simp [encodeEntries]

theorem take_splice {pos : Nat} {p bs : Bytes} (h : pos ≤ bs.length) :
    (splice pos p bs).take (pos + p.length) = bs.take pos ++ p := by
  have hlen : (bs.take pos ++ p).length = pos + p.length := by
    simp [List.length_take, Nat.min_eq_left h]
  rw [splice, ← hlen, List.take_left]

theorem length_splice {pos : Nat} {p bs : Bytes} (h : pos + p.length ≤ bs.length) :
    (splice pos p bs).length = bs.length := by
  simp only [splice, List.length_append, List.length_take, List.length_drop]
  omega

@[simp] theorem length_resize (n : Nat) (bs : Bytes) : (resize n bs).length = n := by
  simp only [resize, List.length_append, List.length_take, List.length_replicate]
  omega

theorem take_resize {n k : Nat} {bs : Bytes} (hk : k ≤ bs.length) (hn : k ≤ n) :
    (resize n bs).take k = bs.take k := by
  rw [resize, List.take_append_of_le_length (by simp; omega), List.take_take,
    Nat.min_eq_left hn]

/-! ## What the operations do to the entries held -/

namespace Index

structure Holds (i : Index) (d : Dir) (M : UInt64) (es : List (UInt32 × UInt64)) : Prop where
  mapped : i.mapped = true
  mmapLen : i.mmapLen = M
  pos : 0 < M.toNat
  limit : M.toNat < 2 ^ 63
  size : i.size.toNat = 12 * es.length
  room : 12 * es.length ≤ M.toNat
  file : ∃ f, d.content? i.name = some f ∧ f.length = M.toNat ∧
    f.take (12 * es.length) = encodeEntries es

variable {i : Index} {d : Dir} {M : UInt64} {es : List (UInt32 × UInt64)}

theorem toNat_entryWidth : entryWidth.toNat = 12 := rfl

theorem toNat_offWidth : offWidth.toNat = 4 := rfl

/-- Entry `out` starts at 12 times its number, a 32-bit one, so nothing
overflows. -/
theorem toNat_entryPos (out : UInt32) : (out.toUInt64 * entryWidth).toNat = 12 * out.toNat := by
  have hout := out.toNat_lt
  rw [UInt64.toNat_mul, UInt32.toNat_toUInt64, toNat_entryWidth]
  omega

theorem toNat_entryPos_offWidth (out : UInt32) :
    (out.toUInt64 * entryWidth + offWidth).toNat = 12 * out.toNat + 4 := by
  have hout := out.toNat_lt
  rw [UInt64.toNat_add, toNat_entryPos, toNat_offWidth]
  omega

theorem toNat_entryPos_entryWidth (out : UInt32) :
    (out.toUInt64 * entryWidth + entryWidth).toNat = 12 * out.toNat + 12 := by
  have hout := out.toNat_lt
  rw [UInt64.toNat_add, toNat_entryPos, toNat_entryWidth]
  omega

theorem Holds.frame {d' : Dir} (h : i.Holds d M es)
    (hd : d'.content? i.name = d.content? i.name) : i.Holds d' M es :=
  { h with file := by rw [hd]; exact h.file }

/-- A slice of the mapping that lies inside the entries. -/
theorem slice_spec (h : i.Holds d M es) {lo hi : UInt64} (pre : Bytes) {mid : Bytes}
    (post : Bytes) (hes : encodeEntries es = pre ++ mid ++ post) (hlo : lo.toNat = pre.length)
    (hhi : hi.toNat = pre.length + mid.length) : i.slice d lo hi = .ok mid := by
  obtain ⟨f, hf, hlen, htake⟩ := h.file
  have hlen' := congrArg List.length hes
  simp only [length_encodeEntries, List.length_append] at hlen'
  have hf' : f = pre ++ (mid ++ (post ++ f.drop (12 * es.length))) := by
    calc f = f.take (12 * es.length) ++ f.drop (12 * es.length) := (List.take_append_drop ..).symm
      _ = _ := by rw [htake, hes]; simp
  have hroom := h.room
  have h1 : lo ≤ hi := by rw [UInt64.le_iff_toNat_le]; omega
  have h2 : hi ≤ i.mmapLen := by rw [UInt64.le_iff_toNat_le, h.mmapLen]; omega
  rw [slice, h.mapped, decide_eq_true h1, decide_eq_true h2, hf, hlo, hhi]
  simp only [Bool.and_self, if_true, Option.getD_some]
  rw [hf', List.drop_left, Nat.add_sub_cancel_left, List.take_left]

theorem entryAt_spec (h : i.Holds d M es) {out : UInt32} {e : UInt32 × UInt64}
    (he : es[out.toNat]? = some e) : i.entryAt d out = .ok e := by
  have hk : out.toNat < es.length := (List.getElem?_eq_some_iff.mp he).1
  have hpos := toNat_entryPos out
  have hpos4 := toNat_entryPos_offWidth out
  have hpos12 := toNat_entryPos_entryWidth out
  have hlen : (encodeEntries (es.take out.toNat)).length = 12 * out.toNat := by
    rw [length_encodeEntries, List.length_take]; omega
  have hsize : ¬ i.size < out.toUInt64 * entryWidth + entryWidth := by
    rw [UInt64.lt_iff_toNat_lt, hpos12, h.size]; omega
  have hsplit := encodeEntries_split he
  have hoff : i.slice d (out.toUInt64 * entryWidth) (out.toUInt64 * entryWidth + offWidth)
      = .ok (putUint32 e.1) := by
    refine slice_spec h (encodeEntries (es.take out.toNat))
      (putUint64 e.2 ++ encodeEntries (es.drop (out.toNat + 1))) ?_ ?_ ?_
    · rw [hsplit, encodeEntry]; simp
    · rw [hpos, hlen]
    · rw [hpos4, hlen, length_putUint32]
  have hval : i.slice d (out.toUInt64 * entryWidth + offWidth)
      (out.toUInt64 * entryWidth + entryWidth) = .ok (putUint64 e.2) := by
    refine slice_spec h (encodeEntries (es.take out.toNat) ++ putUint32 e.1)
      (encodeEntries (es.drop (out.toNat + 1))) ?_ ?_ ?_
    · rw [hsplit, encodeEntry]; simp
    · rw [hpos4, List.length_append, hlen, length_putUint32]
    · rw [hpos12, List.length_append, hlen, length_putUint32, length_putUint64]
  simp only [entryAt, if_neg hsize, hoff, hval, getUint32_putUint32, getUint64_putUint64]

theorem entryAt_past (h : i.Holds d M es) {out : UInt32} (hout : es.length ≤ out.toNat) :
    i.entryAt d out = .error (.err .eof) := by
  rw [entryAt, if_pos]
  rw [UInt64.lt_iff_toNat_lt, toNat_entryPos_entryWidth, h.size]
  omega

/-- The entry that `index.Read` looks at, among `n`: the last one for -1,
otherwise the one with the number asked for. Both are cut to 32 bits. -/
def entryNo (n : Nat) (x : UInt64) : Nat :=
  if x.toNat = 2 ^ 64 - 1 then (n - 1) % 2 ^ 32 else x.toNat % 2 ^ 32

theorem toInt64_eq_neg_one_iff (x : UInt64) : x.toInt64 = -1 ↔ x.toNat = 2 ^ 64 - 1 := by
  constructor
  · intro hx
    have := congrArg Int64.toUInt64 hx
    rw [UInt64.toUInt64_toInt64] at this
    rw [this]
    rfl
  · intro hx
    have : x = UInt64.ofNat (2 ^ 64 - 1) := UInt64.toNat_inj.mp hx
    rw [this]
    rfl

theorem read_eq (h : i.Holds d M es) (x : UInt64) :
    i.read d x.toInt64 =
      match es[entryNo es.length x]? with
      | some e => .ok e
      | none => .error (.err .eof) := by
  have hsz := h.size
  have hroom := h.room
  have hlim := h.limit
  by_cases hes : es = []
  · have hsize : i.size = 0 := UInt64.toNat_inj.mp (by rw [hsz, hes]; rfl)
    rw [read, if_pos hsize, hes, List.getElem?_nil]
  have hpos := List.length_pos_iff.mpr hes
  have hsize : i.size ≠ 0 := by
    intro h0
    rw [h0, show (0 : UInt64).toNat = 0 from rfl] at hsz
    omega
  -- whichever entry it is, it is there or past the end
  have hentry : ∀ out : UInt32, out.toNat = entryNo es.length x → i.entryAt d out =
      match es[entryNo es.length x]? with
      | some e => .ok e
      | none => .error (.err .eof) := by
    intro out hout
    rw [← hout]
    cases he : es[out.toNat]? with
    | some e => exact entryAt_spec h he
    | none => exact entryAt_past h (List.getElem?_eq_none_iff.mp he)
  rw [read, if_neg hsize]
  by_cases hx : x.toNat = 2 ^ 64 - 1
  · rw [if_pos ((toInt64_eq_neg_one_iff x).mpr hx)]
    refine hentry _ ?_
    have hdiv : (i.size / entryWidth).toNat = es.length := by
      rw [UInt64.toNat_div, hsz, toNat_entryWidth]; omega
    have hone : (1 : UInt64).toNat = 1 := rfl
    have hle : (1 : UInt64) ≤ i.size / entryWidth := by
      rw [UInt64.le_iff_toNat_le, hdiv, hone]; omega
    rw [entryNo, if_pos hx, UInt64.toNat_toUInt32, UInt64.toNat_sub_of_le _ _ hle, hdiv, hone]
  · rw [if_neg (mt (toInt64_eq_neg_one_iff x).mp hx)]
    refine hentry _ ?_
    rw [entryNo, if_neg hx, UInt64.toUInt64_toInt64, UInt64.toNat_toUInt32]

/-- An entry is found under its number modulo 2^32. -/
theorem read_mod (h : i.Holds d M es) {x : UInt64} {e : UInt32 × UInt64}
    (he : es[x.toNat % 2 ^ 32]? = some e) (hx : x.toNat < 2 ^ 64 - 1) :
    i.read d x.toInt64 = .ok e := by
  rw [read_eq h, entryNo, if_neg (by omega), he]

theorem read_last_spec (h : i.Holds d M es) {e : UInt32 × UInt64} (he : es.getLast? = some e)
    (hlen : es.length ≤ 2 ^ 32) : i.read d (-1) = .ok e := by
  have hlast : (UInt64.ofNat (2 ^ 64 - 1)).toNat = 2 ^ 64 - 1 := rfl
  have hpos : 0 < es.length := by
    cases es with
    | nil => cases he
    | cons _ _ => simp
  rw [← (toInt64_eq_neg_one_iff _).mpr hlast, read_eq h, entryNo, if_pos hlast,
    Nat.mod_eq_of_lt (by omega), ← List.getLast?_eq_getElem?, he]

/-- With less mapped than there are entries, the last one is out of reach. -/
theorem read_last_unmapped {n : Nat} (hlarge : i.mmapLen.toNat < i.size.toNat)
    (hsize : i.size.toNat = 12 * n) (hn : n ≤ 2 ^ 32) : i.read d (-1) = .error .panic := by
  have hne : i.size ≠ 0 := by
    intro h0
    rw [h0] at hlarge
    exact absurd hlarge (Nat.not_lt_zero _)
  have hdiv : (i.size / entryWidth).toNat = n := by
    rw [UInt64.toNat_div, hsize, toNat_entryWidth]
    omega
  have hout : (i.size / entryWidth - 1).toUInt32.toNat = n - 1 := by
    have hone : (1 : UInt64).toNat = 1 := rfl
    have hle : (1 : UInt64) ≤ i.size / entryWidth := by
      rw [UInt64.le_iff_toNat_le, hdiv, hone]
      omega
    rw [UInt64.toNat_toUInt32, UInt64.toNat_sub_of_le _ _ hle, hdiv, hone]
    omega
  rw [read, if_neg hne, if_pos rfl]
  generalize (i.size / entryWidth - 1).toUInt32 = out at hout
  have hend := toNat_entryPos_entryWidth out
  have hin : ¬ i.size < out.toUInt64 * entryWidth + entryWidth := by
    rw [UInt64.lt_iff_toNat_lt, hend]
    omega
  have hpast : ¬ out.toUInt64 * entryWidth + entryWidth ≤ i.mmapLen := by
    rw [UInt64.le_iff_toNat_le, hend]
    omega
  have hval : i.slice d (out.toUInt64 * entryWidth + offWidth)
      (out.toUInt64 * entryWidth + entryWidth) = .error .panic := by
    rw [slice, decide_eq_false hpast, Bool.and_false, if_neg Bool.false_ne_true]
  have hoff : (∃ o, i.slice d (out.toUInt64 * entryWidth)
        (out.toUInt64 * entryWidth + offWidth) = .ok o) ∨
      i.slice d (out.toUInt64 * entryWidth) (out.toUInt64 * entryWidth + offWidth) =
        .error .panic := by
    unfold slice
    split
    · exact .inl ⟨_, rfl⟩
    · exact .inr rfl
  rcases hoff with ⟨o, ho⟩ | ho <;> simp only [entryAt, if_neg hin, hval, ho]

theorem read_nil_spec (h : i.Holds d M []) (n : Int64) : i.read d n = .error (.err .eof) := by
  have hsize : i.size = 0 := UInt64.toNat_inj.mp h.size
  rw [read, if_pos hsize]

/-- A further entry fits exactly when twelve more bytes do. -/
theorem write_spec (h : i.Holds d M es) (off : UInt32) (pos : UInt64)
    (hroom : 12 * (es.length + 1) ≤ M.toNat) :
    ∃ d', i.write d off pos = (.ok (), { i with size := i.size + entryWidth }, d') ∧
      Holds { i with size := i.size + entryWidth } d' M (es ++ [(off, pos)]) ∧
      Directory.Touches [i.name] d d' := by
  obtain ⟨f, hf, hlen, htake⟩ := h.file
  have hlim := h.limit
  have hnext : (i.size + entryWidth).toNat = 12 * (es.length + 1) := by
    rw [UInt64.toNat_add, h.size, toNat_entryWidth]; omega
  have hfits : ¬ i.mmapLen < i.size + entryWidth := by
    rw [UInt64.lt_iff_toNat_lt, hnext, h.mmapLen]; omega
  have hslice : ∃ b, i.slice d i.size (i.size + entryWidth) = .ok b := by
    have h1 : i.size ≤ i.size + entryWidth := by
      rw [UInt64.le_iff_toNat_le, hnext, h.size]; omega
    have h2 : i.size + entryWidth ≤ i.mmapLen := by
      rw [UInt64.le_iff_toNat_le, hnext, h.mmapLen]; omega
    rw [slice, h.mapped, decide_eq_true h1, decide_eq_true h2]
    exact ⟨_, rfl⟩
  obtain ⟨b, hb⟩ := hslice
  have he : (putUint32 off ++ putUint64 pos).length = 12 := length_encodeEntry (off, pos)
  refine ⟨d.modify i.name (splice i.size.toNat (putUint32 off ++ putUint64 pos)),
    by simp only [write, if_neg hfits, hb], ?_, Directory.touches_modify ..⟩
  refine ⟨h.mapped, h.mmapLen, h.pos, hlim, ?_, ?_, _,
    Directory.content?_modify_of_some hf _, ?_, ?_⟩
  · rw [hnext, List.length_append, List.length_singleton]
  · rw [List.length_append, List.length_singleton]; exact hroom
  · rw [h.size, length_splice (by rw [he, hlen]; omega), hlen]
  · have hsp := take_splice (p := putUint32 off ++ putUint64 pos)
      (show 12 * es.length ≤ f.length by omega)
    rw [he] at hsp
    rw [h.size, List.length_append, List.length_singleton, Nat.mul_add, Nat.mul_one, hsp, htake,
      encodeEntries_append]
    rfl

theorem write_full (h : i.Holds d M es) (off : UInt32) (pos : UInt64)
    (hroom : M.toNat < 12 * (es.length + 1)) : i.write d off pos = (.error (.err .eof), i, d) := by
  have hlim := h.limit
  have hr := h.room
  have hfull : i.mmapLen < i.size + entryWidth := by
    rw [UInt64.lt_iff_toNat_lt, UInt64.toNat_add, h.size, toNat_entryWidth, h.mmapLen]; omega
  rw [write, if_pos hfull]

/-- Closing cuts the file back to its entries. -/
theorem close_spec (h : i.Holds d M es) :
    ∃ d', i.close d = (.ok (), { i with mapped := false }, d') ∧
      d'.content? i.name = some (encodeEntries es) ∧ Directory.Touches [i.name] d d' := by
  obtain ⟨f, hf, hlen, htake⟩ := h.file
  have hroom := h.room
  have hlim := h.limit
  have hne : i.mmapLen ≠ 0 := by
    intro h0
    have hp := h.pos
    rw [← h.mmapLen, h0] at hp
    exact absurd hp (by decide)
  have hsz : ¬ 2 ^ 63 ≤ i.size.toNat := by rw [h.size]; omega
  refine ⟨d.modify i.name (resize i.size.toNat), ?_, ?_, Directory.touches_modify ..⟩
  · simp only [close, if_neg hne, h.mapped, Bool.not_true, Bool.false_eq_true, if_false,
      if_neg hsz]
  have hr : resize (12 * es.length) f = encodeEntries es := by
    rw [← htake, resize, show 12 * es.length - f.length = 0 by omega]
    simp
  simp [hf, h.size, hr]

/-- Opening sizes the file to the limit and takes its length from before. -/
theorem newIndex_eq {name : Name} {c : Config} {f : Bytes} (hpos : 0 < c.maxIndexBytes.toNat)
    (hlim : c.maxIndexBytes.toNat < 2 ^ 63) (hf : d.content? name = some f) :
    newIndex d name c = (.ok ⟨name, true, c.maxIndexBytes, UInt64.ofNat f.length⟩,
      d.modify name (resize c.maxIndexBytes.toNat)) := by
  have hne : c.maxIndexBytes ≠ 0 := by
    intro h0
    rw [h0] at hpos
    exact absurd hpos (by decide)
  simp only [newIndex, hf, Option.getD_some]
  rw [if_neg (by omega), if_neg hne]

/-- Opening a file that holds exactly some entries, with room for them. -/
theorem newIndex_spec {name : Name} {c : Config} (hpos : 0 < c.maxIndexBytes.toNat)
    (hlim : c.maxIndexBytes.toNat < 2 ^ 63) (hf : d.content? name = some (encodeEntries es))
    (hroom : 12 * es.length ≤ c.maxIndexBytes.toNat) :
    ∃ i d', newIndex d name c = (.ok i, d') ∧ i.name = name ∧ i.Holds d' c.maxIndexBytes es ∧
      Directory.Touches [name] d d' := by
  refine ⟨_, _, newIndex_eq hpos hlim hf, rfl, ?_, Directory.touches_modify ..⟩
  refine ⟨rfl, rfl, hpos, hlim, ?_, hroom, _, Directory.content?_modify_of_some hf _,
    length_resize .., ?_⟩
  · rw [length_encodeEntries, UInt64.toNat_ofNat', Nat.mod_eq_of_lt (by omega)]
  · rw [take_resize (by simp) hroom, ← length_encodeEntries, List.take_length]

end Index

end DistributedLog
