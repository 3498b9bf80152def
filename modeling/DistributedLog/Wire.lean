import Mathlib.Data.Nat.Log
import DistributedLog.BigEndian

/-!
# Protocol-buffer wire format

The part of the wire format that messages of scalar, byte-string and
sub-message fields use: base-128 varints, tagged fields, and a decoder that
folds a field handler over the fields of a message (the handler decides
what an unknown field means). Groups (wire types 3 and 4) are rejected.

A byte list has no largest length, so a length is read as a varint of any
size; on byte strings that fit in memory this is the usual 64-bit reading.

`decodeFields_field` is the rule the round trips use: the decoder consumes
one encoded field and hands its value to the handler.
-/

namespace DistributedLog

namespace Wire

/-- Base-128 groups, least significant first, at most `fuel` of them. -/
def groups : Nat → Nat → Bytes
  | 0, _ => []
  | fuel + 1, n =>
      if n < 128 then [UInt8.ofNat n] else UInt8.ofNat (n % 128 + 128) :: groups fuel (n / 128)

/-- The varint of `n`; `n + 1` groups are always enough. -/
def varint (n : Nat) : Bytes := groups (n + 1) n

/-- Read a varint of at most `fuel` bytes off the front. -/
def readVarint : Nat → Bytes → Option (Nat × Bytes)
  | 0, _ => none
  | _ + 1, [] => none
  | fuel + 1, b :: bs =>
      if b.toNat < 128 then some (b.toNat, bs)
      else (readVarint fuel bs).map fun p => (b.toNat - 128 + 128 * p.1, p.2)

/-- A 64-bit varint has at most ten bytes; larger values overflow. -/
def readUint64 (bs : Bytes) : Option (Nat × Bytes) :=
  (readVarint 10 bs).bind fun p => if p.1 < 2 ^ 64 then some p else none

/-- Exactly `n` bytes off the front. -/
def readBytes (n : Nat) (bs : Bytes) : Option (Bytes × Bytes) :=
  if n ≤ bs.length then some (bs.take n, bs.drop n) else none

/-- A field's payload, by wire type. -/
inductive Value where
  | varint (n : Nat)
  | fixed64 (bs : Bytes)
  | len (bs : Bytes)
  | fixed32 (bs : Bytes)
deriving DecidableEq, Repr

def readValue (wireType : Nat) (bs : Bytes) : Option (Value × Bytes) :=
  match wireType with
  | 0 => (readUint64 bs).map fun p => (.varint p.1, p.2)
  | 1 => (readBytes 8 bs).map fun p => (.fixed64 p.1, p.2)
  | 2 => (readVarint bs.length bs).bind fun p =>
      (readBytes p.1 p.2).map fun q => (.len q.1, q.2)
  | 5 => (readBytes 4 bs).map fun p => (.fixed32 p.1, p.2)
  | _ => none

/-- One tagged field off the front: number, payload, rest. Field number 0
does not exist. -/
def readField (bs : Bytes) : Option (Nat × Value × Bytes) :=
  (readUint64 bs).bind fun p =>
    if p.1 / 8 = 0 then none
    else (readValue (p.1 % 8) p.2).map fun q => (p.1 / 8, q.1, q.2)

/-- Fold the fields of a message into a message value, in at most `fuel`
rounds; each field takes at least one byte. -/
def decodeFields {α : Type} (handle : α → Nat → Value → Option α) :
    Nat → α → Bytes → Option α
  | _, m, [] => some m
  | 0, _, _ :: _ => none
  | fuel + 1, m, b :: bs =>
      match readField (b :: bs) with
      | none => none
      | some (num, v, rest) =>
          match handle m num v with
          | none => none
          | some m' => decodeFields handle fuel m' rest

def varintField (num n : Nat) : Bytes := varint (num * 8) ++ varint n

def lenField (num : Nat) (bs : Bytes) : Bytes :=
  varint (num * 8 + 2) ++ varint bs.length ++ bs

theorem length_groups_of_lt {k n : Nat} (h : n < 128 ^ (k + 1)) (fuel : Nat) :
    (groups fuel n).length ≤ k + 1 := by
  induction k generalizing n fuel with
  | zero =>
      cases fuel with
      | zero => exact Nat.zero_le _
      | succ fuel =>
          rw [groups, if_pos (by simpa using h)]
          exact Nat.le_refl _
  | succ k ih =>
      cases fuel with
      | zero => exact Nat.zero_le _
      | succ fuel =>
          rw [groups]
          split
          · exact Nat.le_add_left 1 _
          · have hdiv : n / 128 < 128 ^ (k + 1) := by
              rw [Nat.pow_succ] at h
              exact Nat.div_lt_of_lt_mul (by rw [Nat.mul_comm]; exact h)
            exact Nat.succ_le_succ (ih hdiv fuel)

/-! ## Reading back what was written -/

/-- A reader with enough fuel takes a varint off the front, whatever fuel
the writer had to spare. -/
theorem readVarint_groups {k n : Nat} (h : n < 128 ^ (k + 1)) {w r : Nat} (hw : k < w)
    (hr : k < r) (rest : Bytes) : readVarint r (groups w n ++ rest) = some (n, rest) := by
  induction k generalizing n w r with
  | zero =>
      obtain ⟨w, rfl⟩ := Nat.exists_eq_succ_of_ne_zero (show w ≠ 0 by omega)
      obtain ⟨r, rfl⟩ := Nat.exists_eq_succ_of_ne_zero (show r ≠ 0 by omega)
      have hn : n < 128 := by simpa using h
      have hb : (UInt8.ofNat n).toNat = n := by
        rw [UInt8.toNat_ofNat', Nat.mod_eq_of_lt (by omega)]
      simp [groups, readVarint, hn, hb]
  | succ k ih =>
      obtain ⟨w, rfl⟩ := Nat.exists_eq_succ_of_ne_zero (show w ≠ 0 by omega)
      obtain ⟨r, rfl⟩ := Nat.exists_eq_succ_of_ne_zero (show r ≠ 0 by omega)
      by_cases hn : n < 128
      · have hb : (UInt8.ofNat n).toNat = n := by
          rw [UInt8.toNat_ofNat', Nat.mod_eq_of_lt (by omega)]
        simp [groups, readVarint, hn, hb]
      · have hb : (UInt8.ofNat (n % 128 + 128)).toNat = n % 128 + 128 := by
          rw [UInt8.toNat_ofNat', Nat.mod_eq_of_lt (by omega)]
        have hdiv : n / 128 < 128 ^ (k + 1) := by
          rw [Nat.div_lt_iff_lt_mul (by omega), ← Nat.pow_succ]
          exact h
        rw [groups, if_neg hn, List.cons_append, readVarint, hb, if_neg (by omega),
          ih hdiv (by omega) (by omega)]
        simp only [Option.map_some, Option.some.injEq, Prod.mk.injEq, and_true]
        omega

theorem lt_pow_succ_self (n : Nat) : n < 128 ^ (n + 1) :=
  Nat.lt_of_lt_of_le (Nat.lt_pow_self (by omega)) (Nat.pow_le_pow_right (by omega) (by omega))

theorem readUint64_varint {n : Nat} (h : n < 2 ^ 64) (rest : Bytes) :
    readUint64 (varint n ++ rest) = some (n, rest) := by
  rcases Nat.lt_or_ge n 9 with hn | hn
  · rw [readUint64, varint, readVarint_groups (lt_pow_succ_self n) (by omega) (by omega),
      Option.bind_some, if_pos h]
  · have hlt : n < 128 ^ (9 + 1) := by omega
    rw [readUint64, varint, readVarint_groups hlt (by omega) (by omega), Option.bind_some,
      if_pos h]

theorem length_groups_le {k n w : Nat} (h : 128 ^ k ≤ n) (hw : k < w) :
    k < (groups w n).length := by
  induction k generalizing n w with
  | zero =>
      obtain ⟨w, rfl⟩ := Nat.exists_eq_succ_of_ne_zero (show w ≠ 0 by omega)
      rw [groups]
      split <;> simp
  | succ k ih =>
      obtain ⟨w, rfl⟩ := Nat.exists_eq_succ_of_ne_zero (show w ≠ 0 by omega)
      have hpos : 0 < 128 ^ k := Nat.pow_pos (by omega)
      rw [Nat.pow_succ] at h
      have hdiv : 128 ^ k ≤ n / 128 := by rw [Nat.le_div_iff_mul_le (by omega)]; exact h
      have := ih hdiv (w := w) (by omega)
      rw [groups, if_neg (by omega), List.length_cons]
      omega

/-- A reader whose fuel is the length of the input has enough of it. -/
theorem readVarint_varint (n : Nat) (rest : Bytes) :
    readVarint (varint n ++ rest).length (varint n ++ rest) = some (n, rest) := by
  obtain ⟨k, hlo, hhi⟩ : ∃ k, (n = 0 ∨ 128 ^ k ≤ n) ∧ n < 128 ^ (k + 1) := by
    rcases Nat.eq_zero_or_pos n with rfl | hn
    · exact ⟨0, Or.inl rfl, by omega⟩
    · exact ⟨Nat.log 128 n, Or.inr (Nat.pow_log_le_self 128 (by omega)),
        Nat.lt_pow_succ_log_self (by omega) n⟩
  rcases hlo with rfl | hlo
  · exact readVarint_groups (k := 0) (by omega) (by omega) (by simp [varint, groups]) rest
  · have hk : k < n + 1 := by
      have := Nat.lt_of_lt_of_le (Nat.lt_pow_self (n := k) (show 1 < 128 by omega)) hlo
      omega
    have hlen := length_groups_le hlo hk
    exact readVarint_groups hhi hk (by rw [List.length_append, varint]; omega) rest

theorem readBytes_append (bs rest : Bytes) :
    readBytes bs.length (bs ++ rest) = some (bs, rest) := by
  rw [readBytes, if_pos (by simp)]
  simp

theorem readField_varintField {num n : Nat} (hnum : 0 < num) (hnum' : num < 2 ^ 29)
    (hn : n < 2 ^ 64) (rest : Bytes) :
    readField (varintField num n ++ rest) = some (num, .varint n, rest) := by
  have hdiv : num * 8 / 8 = num := by omega
  have hmod : num * 8 % 8 = 0 := by omega
  rw [readField, varintField, List.append_assoc, readUint64_varint (by omega)]
  simp only [Option.bind_some, hdiv, hmod, if_neg (show num ≠ 0 by omega), readValue]
  rw [readUint64_varint hn]
  rfl

theorem readField_lenField {num : Nat} (hnum : 0 < num) (hnum' : num < 2 ^ 29) (bs rest : Bytes) :
    readField (lenField num bs ++ rest) = some (num, .len bs, rest) := by
  have hdiv : (num * 8 + 2) / 8 = num := by omega
  have hmod : (num * 8 + 2) % 8 = 2 := by omega
  rw [readField, lenField, List.append_assoc, List.append_assoc, readUint64_varint (by omega)]
  simp only [Option.bind_some, hdiv, hmod, if_neg (show num ≠ 0 by omega), readValue]
  rw [readVarint_varint, Option.bind_some, readBytes_append]
  rfl

/-- The decoder on a field in front: the handler gets its value. -/
theorem decodeFields_field {α : Type} {handle : α → Nat → Value → Option α} {field rest : Bytes}
    {num : Nat} {v : Value} (h : readField (field ++ rest) = some (num, v, rest))
    {m m' : α} (hm : handle m num v = some m') (fuel : Nat) :
    decodeFields handle (fuel + 1) m (field ++ rest) = decodeFields handle fuel m' rest := by
  cases hfr : field ++ rest with
  | nil => rw [hfr] at h; simp [readField, readUint64, readVarint] at h
  | cons b bs =>
      rw [hfr] at h
      rw [decodeFields, h]
      simp only [hm]

end Wire

end DistributedLog
