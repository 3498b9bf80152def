import Mathlib.Tactic.Ring

/-!
# Big-endian byte strings

A natural number as exactly `w` bytes, most significant first, and back.
`ofBytesBE_toBytesBE` is the round trip (what does not fit in the width is
cut off, as a fixed-width machine word cuts it off), and `compare_ofBytesBE`
says that byte strings of one length compare as the numbers they denote.
-/

namespace DistributedLog

abbrev Bytes := List UInt8

/-- The `w` big-endian bytes of `n`. -/
def toBytesBE : Nat → Nat → Bytes
  | 0, _ => []
  | w + 1, n => UInt8.ofNat (n / 256 ^ w % 256) :: toBytesBE w n

/-- The number that big-endian bytes denote. -/
def ofBytesBE : Bytes → Nat
  | [] => 0
  | b :: bs => b.toNat * 256 ^ bs.length + ofBytesBE bs

@[simp] theorem length_toBytesBE (w n : Nat) : (toBytesBE w n).length = w := by
  induction w with
  | zero => rfl
  | succ w ih => simp only [toBytesBE, List.length_cons, ih]

theorem ofBytesBE_toBytesBE (w n : Nat) : ofBytesBE (toBytesBE w n) = n % 256 ^ w := by
  induction w with
  | zero => simp only [toBytesBE, ofBytesBE, Nat.pow_zero, Nat.mod_one]
  | succ w ih =>
      have hb : n / 256 ^ w % 256 % 2 ^ 8 = n / 256 ^ w % 256 :=
        Nat.mod_eq_of_lt (by omega)
      rw [toBytesBE, ofBytesBE, length_toBytesBE, ih, UInt8.toNat_ofNat', hb,
        Nat.pow_succ, Nat.mod_mul]
      ring

theorem ofBytesBE_toBytesBE_of_lt {w n : Nat} (h : n < 256 ^ w) :
    ofBytesBE (toBytesBE w n) = n := by
  rw [ofBytesBE_toBytesBE, Nat.mod_eq_of_lt h]

/-- `binary.BigEndian.PutUint64`. -/
def putUint64 (x : UInt64) : Bytes := toBytesBE 8 x.toNat

/-- `binary.BigEndian.Uint64`. -/
def getUint64 (bs : Bytes) : UInt64 := UInt64.ofNat (ofBytesBE bs)

/-- `binary.BigEndian.PutUint32`. -/
def putUint32 (x : UInt32) : Bytes := toBytesBE 4 x.toNat

/-- `binary.BigEndian.Uint32`. -/
def getUint32 (bs : Bytes) : UInt32 := UInt32.ofNat (ofBytesBE bs)

@[simp] theorem length_putUint64 (x : UInt64) : (putUint64 x).length = 8 :=
  length_toBytesBE 8 _

@[simp] theorem length_putUint32 (x : UInt32) : (putUint32 x).length = 4 :=
  length_toBytesBE 4 _

@[simp] theorem getUint64_putUint64 (x : UInt64) : getUint64 (putUint64 x) = x := by
  have h : x.toNat < 256 ^ 8 := x.toNat_lt
  rw [getUint64, putUint64, ofBytesBE_toBytesBE_of_lt h, UInt64.ofNat_toNat]

@[simp] theorem getUint32_putUint32 (x : UInt32) : getUint32 (putUint32 x) = x := by
  have h : x.toNat < 256 ^ 4 := x.toNat_lt
  rw [getUint32, putUint32, ofBytesBE_toBytesBE_of_lt h, UInt32.ofNat_toNat]

/-! ## Order -/

theorem ofBytesBE_lt (bs : Bytes) : ofBytesBE bs < 256 ^ bs.length := by
  induction bs with
  | nil => simp [ofBytesBE]
  | cons b bs ih =>
      have hb : b.toNat + 1 ≤ 256 := b.toNat_lt
      have hmul := Nat.mul_le_mul_right (256 ^ bs.length) hb
      rw [ofBytesBE, List.length_cons, Nat.pow_succ']
      rw [Nat.add_mul] at hmul
      omega

/-- The first digit decides, and the rest of the digits decide between
numbers with the same first digit. -/
theorem compare_digits {a b m n k : Nat} (hm : m < k) (hn : n < k) :
    compare (a * k + m) (b * k + n) = (compare a b).then (compare m n) := by
  rcases Nat.lt_trichotomy a b with hab | rfl | hab
  · have hmul := Nat.mul_le_mul_right k (show a + 1 ≤ b from hab)
    rw [Nat.add_mul] at hmul
    rw [Nat.compare_eq_lt.mpr hab, Nat.compare_eq_lt.mpr (by omega)]
    rfl
  · rw [Nat.compare_eq_eq.mpr rfl]
    show _ = compare m n
    rcases Nat.lt_trichotomy m n with hmn | rfl | hmn
    · rw [Nat.compare_eq_lt.mpr hmn, Nat.compare_eq_lt.mpr (by omega)]
    · rw [Nat.compare_eq_eq.mpr rfl, Nat.compare_eq_eq.mpr rfl]
    · rw [Nat.compare_eq_gt.mpr hmn, Nat.compare_eq_gt.mpr (by omega)]
  · have hmul := Nat.mul_le_mul_right k (show b + 1 ≤ a from hab)
    rw [Nat.add_mul] at hmul
    rw [Nat.compare_eq_gt.mpr hab, Nat.compare_eq_gt.mpr (by omega)]
    rfl

/-- Byte strings of one length are ordered as the numbers they denote. -/
theorem compare_ofBytesBE {bs cs : Bytes} (h : bs.length = cs.length) :
    compare bs cs = compare (ofBytesBE bs) (ofBytesBE cs) := by
  induction bs generalizing cs with
  | nil =>
      rw [List.eq_nil_of_length_eq_zero h.symm]
      rfl
  | cons b bs ih =>
      cases cs with
      | nil => simp at h
      | cons c cs =>
          have hlen : bs.length = cs.length := Nat.succ.inj h
          have hcs : ofBytesBE cs < 256 ^ bs.length := hlen ▸ ofBytesBE_lt cs
          rw [List.compare_cons_cons, ih hlen, UInt8.compare_eq_toNat_compare_toNat, ofBytesBE,
            ofBytesBE, ← hlen, compare_digits (ofBytesBE_lt bs) hcs]

theorem compare_putUint64 (x y : UInt64) :
    compare (putUint64 x) (putUint64 y) = compare x.toNat y.toNat := by
  have hx : x.toNat < 256 ^ 8 := x.toNat_lt
  have hy : y.toNat < 256 ^ 8 := y.toNat_lt
  rw [compare_ofBytesBE (by simp), putUint64, putUint64, ofBytesBE_toBytesBE_of_lt hx,
    ofBytesBE_toBytesBE_of_lt hy]

/-- So byte strings of one length that denote the same number are equal, and
the round trip goes the other way too. -/
theorem toBytesBE_ofBytesBE (bs : Bytes) : toBytesBE bs.length (ofBytesBE bs) = bs := by
  have hlen : (toBytesBE bs.length (ofBytesBE bs)).length = bs.length := length_toBytesBE _ _
  have hcmp := compare_ofBytesBE hlen
  rw [ofBytesBE_toBytesBE_of_lt (ofBytesBE_lt bs), Nat.compare_eq_eq.mpr rfl] at hcmp
  exact Std.LawfulEqCmp.eq_of_compare hcmp

theorem putUint64_getUint64 {bs : Bytes} (h : bs.length = 8) : putUint64 (getUint64 bs) = bs := by
  have hlt : ofBytesBE bs < 2 ^ 64 := by
    have hlt := ofBytesBE_lt bs
    rw [h] at hlt
    exact hlt
  have hback := toBytesBE_ofBytesBE bs
  rw [h] at hback
  rw [putUint64, getUint64, UInt64.toNat_ofNat', Nat.mod_eq_of_lt hlt, hback]

end DistributedLog
