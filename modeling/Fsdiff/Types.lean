import Fsdiff.Data.Bytes
import Mathlib.Data.Int.Basic
import Mathlib.Tactic.Positivity

/-! Error codes, enumerations and fixed-width arithmetic shared by the library.
Unsigned words are natural numbers below a power of two and signed words are
integers; a conversion that can change the value is written out. -/
namespace Fsdiff

abbrev Bytes := List UInt8

/-- `fsd_error_t` without its success value. -/
inductive FsdError where
  | invalidArg | outOfMemory | io | corruptData | badMagic | badVersion | badBlockSize
  | sizeMismatch | notInitialized | cancelled | fileNotFound | permission | mmapFailed
  | truncated | badOperation
  deriving DecidableEq, Repr

/-- `fsd_match_type_t`: what the matching stages decided about a destination block. -/
inductive MatchType where
  | none | identity | relocate | partialMatch | zero | one
  deriving DecidableEq, Repr

/-- `fsd_op_type_t`, the values of bits 7-5 of an operation's first byte. -/
def opCopyIdentity : ℕ := 0
def opCopyRelocate : ℕ := 1
def opZero : ℕ := 2
def opOne : ℕ := 3
def opCopyAdd : ℕ := 4
def opLiteral : ℕ := 5

/-- `FSD_HEADER_SIZE` -/
def headerSize : ℕ := 32

/-- The largest `int64_t`. -/
def int64Max : ℕ := 2 ^ 63 - 1

/-- The largest `uint32_t`. -/
def uint32Max : ℕ := 2 ^ 32 - 1

/-- A result stored in a `uint64_t` or a 64-bit `size_t`. -/
def u64 (n : ℕ) : ℕ := n % 2 ^ 64

/-- A difference stored in a `uint64_t` or a 64-bit `size_t`. -/
def u64Sub (a b : ℕ) : ℕ := u64 (a + (2 ^ 64 - b))

/-- A value converted to a two's complement word of `w` bits. Irreducible, so that
a comparison of two of them is never decided by unfolding. -/
@[irreducible] def signed (w : ℕ) (x : ℤ) : ℤ := Int.bmod x (2 ^ w)

/-- A value converted to `int64_t`. -/
def int64 (x : ℤ) : ℤ := signed 64 x

theorem u64_of_lt {n : ℕ} (h : n < 2 ^ 64) : u64 n = n := Nat.mod_eq_of_lt h

theorem u64_lt (n : ℕ) : u64 n < 2 ^ 64 := Nat.mod_lt _ (by decide)

theorem u64Sub_of_le {a b : ℕ} (hb : b ≤ a) (ha : a < 2 ^ 64) : u64Sub a b = a - b := by
  rw [u64Sub, show a + (2 ^ 64 - b) = a - b + 2 ^ 64 by omega, u64, Nat.add_mod_right]
  exact Nat.mod_eq_of_lt (by omega)

theorem signed_of_range {w : ℕ} {x : ℤ} (hw : 1 ≤ w) (hl : -2 ^ (w - 1) ≤ x) (hu : x < 2 ^ (w - 1)) :
    signed w x = x := by
  obtain ⟨v, rfl⟩ := Nat.exists_eq_add_of_le' hw
  simp only [Nat.add_sub_cancel] at hl hu
  have hp : ((2 ^ (v + 1) : ℕ) : ℤ) = 2 * 2 ^ v := by push_cast; ring
  rw [signed]
  apply Int.bmod_eq_of_le <;> omega

theorem int64_of_range {x : ℤ} (hl : -2 ^ 63 ≤ x) (hu : x < 2 ^ 63) : int64 x = x :=
  signed_of_range (by norm_num) hl hu

theorem int64_add_two_pow (x : ℤ) : int64 (x + 2 ^ 64) = int64 x := by
  rw [int64, int64, signed, signed]
  exact Int.add_bmod_right x (2 ^ 64)

theorem int64_natCast {n : ℕ} (h : n < 2 ^ 63) : int64 n = n :=
  int64_of_range (by omega) (by exact_mod_cast h)

theorem signed_range (w : ℕ) (hw : 1 ≤ w) (x : ℤ) :
    -2 ^ (w - 1) ≤ signed w x ∧ signed w x < 2 ^ (w - 1) := by
  obtain ⟨v, rfl⟩ := Nat.exists_eq_add_of_le' hw
  have hp : ((2 ^ (v + 1) : ℕ) : ℤ) = 2 * 2 ^ v := by push_cast; ring
  have hlo := Int.le_bmod (x := x) (m := 2 ^ (v + 1)) (by positivity)
  have hhi := Int.bmod_lt (x := x) (m := 2 ^ (v + 1)) (by positivity)
  simp only [signed, Nat.add_sub_cancel]
  omega

end Fsdiff
