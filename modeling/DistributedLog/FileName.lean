import Mathlib.Algebra.Group.Nat.Defs
import Mathlib.Data.List.Basic

/-!
# Numbered file names

Names of the form `<number><extension>` as the Go standard library writes
and reads them: `fmt.Sprintf("%d", n)`, `path.Ext`, `strings.TrimSuffix`
and `strconv.ParseUint(s, 10, 0)`. A Go string is a list of characters
here; only ASCII names occur.

`baseOfName_numbered` is the round trip: the number is read back from any
numbered name.
-/

namespace DistributedLog

abbrev Name := List Char

/-- `fmt.Sprintf("%d", n)`. -/
def formatUint (n : UInt64) : Name := Nat.toDigits 10 n.toNat

/-- Neither the dot that starts an extension nor a path separator. -/
def inElement (c : Char) : Bool := c ≠ '.' && c ≠ '/'

/-- `path.Ext`: the suffix from the last dot of the last path element, or
nothing when there is no dot. -/
def ext (name : Name) : Name :=
  match name.reverse.dropWhile inElement with
  | '.' :: _ => '.' :: (name.reverse.takeWhile inElement).reverse
  | _ => []

/-- `strings.TrimSuffix`. -/
def trimSuffix (name suffix : Name) : Name :=
  if suffix.isSuffixOf name then name.take (name.length - suffix.length) else name

/-- The digit loop of `strconv.ParseUint`: the value so far is `n`. A
character that is no digit gives 0 (`ErrSyntax`), a value past 64 bits the
largest one (`ErrRange`). -/
def parseDigits (n : Nat) : Name → UInt64
  | [] => UInt64.ofNat n
  | c :: cs =>
      if c.isDigit then
        let n' := 10 * n + (c.toNat - '0'.toNat)
        if n' < 2 ^ 64 then parseDigits n' cs else UInt64.ofNat (2 ^ 64 - 1)
      else 0

/-- The value `strconv.ParseUint(s, 10, 0)` returns, its error ignored. -/
def parseUint (s : Name) : UInt64 := parseDigits 0 s

/-- The number that a file name is read as. -/
def baseOfName (name : Name) : UInt64 := parseUint (trimSuffix name (ext name))

/-! ## Reading a number back -/

theorem le_ofDigitChars (cs : List Char) (n : Nat) : n ≤ Nat.ofDigitChars 10 cs n := by
  rw [Nat.ofDigitChars_eq_ofDigitChars_zero]
  have := Nat.le_mul_of_pos_left n (Nat.pow_pos (n := cs.length) (show 0 < 10 by omega))
  omega

theorem parseDigits_eq {cs : List Char} (hcs : ∀ c ∈ cs, c.isDigit) {n : Nat}
    (hlt : Nat.ofDigitChars 10 cs n < 2 ^ 64) :
    parseDigits n cs = UInt64.ofNat (Nat.ofDigitChars 10 cs n) := by
  induction cs generalizing n with
  | nil => rfl
  | cons c cs ih =>
      rw [Nat.ofDigitChars_cons] at hlt ⊢
      have hle := le_ofDigitChars cs (10 * n + (c.toNat - '0'.toNat))
      rw [parseDigits, if_pos (hcs c (List.mem_cons_self ..))]
      simp only
      rw [if_pos (by omega)]
      exact ih (fun c' hc' => hcs c' (List.mem_cons_of_mem _ hc')) hlt

@[simp] theorem parseUint_formatUint (n : UInt64) : parseUint (formatUint n) = n := by
  have hval : Nat.ofDigitChars 10 (Nat.toDigits 10 n.toNat) 0 = n.toNat :=
    Nat.ofDigitChars_toDigits (by omega) (by omega)
  rw [parseUint, formatUint, parseDigits_eq, hval, UInt64.ofNat_toNat]
  · exact fun c hc => Nat.isDigit_of_mem_toDigits (by omega) (by omega) hc
  · rw [hval]; exact n.toNat_lt

theorem ext_append (p : Name) {e : Name} (he : ∀ c ∈ e, inElement c) :
    ext (p ++ '.' :: e) = '.' :: e := by
  have hrev : (p ++ '.' :: e).reverse = e.reverse ++ '.' :: p.reverse := by simp
  have he' : ∀ c ∈ e.reverse, inElement c := fun c hc => he c (List.mem_reverse.mp hc)
  have hdot : inElement '.' = false := rfl
  rw [ext, hrev, List.dropWhile_append_of_pos he', List.takeWhile_append_of_pos he']
  simp [hdot]

theorem trimSuffix_append (p s : Name) : trimSuffix (p ++ s) s = p := by
  have hs : s.isSuffixOf (p ++ s) = true := List.isSuffixOf_iff_suffix.mpr ⟨p, rfl⟩
  rw [trimSuffix, if_pos hs]
  simp

/-- The number is read back from a numbered name. -/
theorem baseOfName_numbered (n : UInt64) {e : Name} (he : ∀ c ∈ e, inElement c) :
    baseOfName (formatUint n ++ '.' :: e) = n := by
  rw [baseOfName, ext_append _ he, trimSuffix_append, parseUint_formatUint]

end DistributedLog
