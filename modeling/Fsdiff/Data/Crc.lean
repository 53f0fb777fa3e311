import Mathlib.Data.List.Basic
import Mathlib.Algebra.Order.Group.Nat

/-! Reflected checksums of cyclic redundancy. A shift register takes the message bit by bit;
as it is linear, the bits of a whole group can be taken at once with the help of a table. -/
namespace Crc
variable {w : ℕ}

/-- One bit of the message. The bit that falls out of the register and the one that comes in
decide together whether the polynomial is added. -/
def clock (poly crc : BitVec w) (bit : Bool) : BitVec w :=
  if crc.getLsbD 0 ^^ bit then (crc >>> 1) ^^^ poly else crc >>> 1

/-- The register after a message. -/
def serial (poly crc : BitVec w) (bits : List Bool) : BitVec w := bits.foldl (clock poly) crc

/-- The register after `n` zeros. -/
def shifts (poly : BitVec w) (n : ℕ) (crc : BitVec w) : BitVec w :=
  serial poly crc (List.replicate n false)

/-- The low `n` bits of a word, the lowest first. -/
def lowBits (n : ℕ) (x : BitVec w) : List Bool := (List.range n).map x.getLsbD

variable {poly crc x y : BitVec w} {n : ℕ}

theorem clock_xor (poly x y : BitVec w) (bit : Bool) :
    clock poly (x ^^^ y) bit = clock poly x bit ^^^ clock poly y false := by
  have hpoly : ∀ a b : BitVec w, a ^^^ (b ^^^ poly) = a ^^^ b ^^^ poly := by
    intro a b
    rw [BitVec.xor_assoc]
  have hswap : ∀ a b : BitVec w, a ^^^ poly ^^^ b = a ^^^ b ^^^ poly := by
    intro a b
    rw [BitVec.xor_assoc, BitVec.xor_comm poly b, ← BitVec.xor_assoc]
  have hcancel : ∀ a : BitVec w, a ^^^ poly ^^^ poly = a := by
    intro a
    rw [BitVec.xor_assoc, BitVec.xor_self, BitVec.xor_zero]
  unfold clock
  rw [BitVec.getLsbD_xor, BitVec.ushiftRight_xor_distrib]
  cases x.getLsbD 0 <;> cases y.getLsbD 0 <;> cases bit <;>
    simp [hpoly, hswap, hcancel]

theorem serial_xor (poly x y : BitVec w) (bits : List Bool) :
    serial poly (x ^^^ y) bits = serial poly x bits ^^^ shifts poly bits.length y := by
  induction bits generalizing x y with
  | nil => rfl
  | cons bit bits ih =>
    change serial poly (clock poly (x ^^^ y) bit) bits = _
    rw [clock_xor, ih]
    rfl

theorem lowBits_succ (n : ℕ) (x : BitVec w) : lowBits (n + 1) x = lowBits n x ++ [x.getLsbD n] := by
  simp [lowBits, List.range_succ]

@[simp] theorem length_lowBits (n : ℕ) (x : BitVec w) : (lowBits n x).length = n := by
  simp [lowBits]

/-- A register that ends in the message itself is only moved down. -/
theorem serial_of_low_eq (h : ∀ i < n, y.getLsbD i = x.getLsbD i) :
    serial poly y (lowBits n x) = y >>> n := by
  induction n with
  | zero => simp [lowBits, serial]
  | succ n ih =>
    have hlow : (y >>> n).getLsbD 0 = x.getLsbD n := by
      rw [BitVec.getLsbD_ushiftRight, Nat.add_zero]
      exact h n (Nat.lt_succ_self n)
    rw [lowBits_succ, serial, List.foldl_append]
    change clock poly (serial poly y (lowBits n x)) (x.getLsbD n) = _
    rw [ih fun i hi => h i (Nat.lt_succ_of_lt hi), clock, hlow, Bool.xor_self, BitVec.shiftRight_add]
    rfl

/-- A group of bits at once: the register moves down, and the entry of a table is added that
belongs to the bits falling out and the bits coming in. -/
theorem serial_lowBits (poly crc x : BitVec w) (n : ℕ) :
    serial poly crc (lowBits n x) =
      shifts poly n ((crc ^^^ x) &&& BitVec.ofNat w (2 ^ n - 1)) ^^^ (crc >>> n) := by
  let mask : BitVec w := BitVec.ofNat w (2 ^ n - 1)
  have hmask : ∀ i, i < w → mask.getLsbD i = decide (i < n) := by
    intro i hi
    rw [BitVec.getLsbD_ofNat, Nat.testBit_two_pow_sub_one, decide_eq_true hi, Bool.true_and]
  let y := crc ^^^ ((crc ^^^ x) &&& mask)
  have hsplit : crc = y ^^^ ((crc ^^^ x) &&& mask) := by
    rw [BitVec.xor_assoc, BitVec.xor_self, BitVec.xor_zero]
  have hlow : ∀ i < n, y.getLsbD i = x.getLsbD i := by
    intro i hi
    by_cases hw : i < w
    · simp only [y, BitVec.getLsbD_xor, BitVec.getLsbD_and, hmask i hw, decide_eq_true hi, Bool.and_true]
      cases crc.getLsbD i <;> simp
    · rw [BitVec.getLsbD_of_ge _ _ (Nat.le_of_not_lt hw), BitVec.getLsbD_of_ge _ _ (Nat.le_of_not_lt hw)]
  have hhigh : y >>> n = crc >>> n := by
    apply BitVec.eq_of_getLsbD_eq
    intro i _
    rw [BitVec.getLsbD_ushiftRight, BitVec.getLsbD_ushiftRight]
    by_cases hw : n + i < w
    · have hout : decide (n + i < n) = false := decide_eq_false (by omega)
      simp only [y, BitVec.getLsbD_xor, BitVec.getLsbD_and, hmask _ hw, hout, Bool.and_false,
        Bool.xor_false]
    · rw [BitVec.getLsbD_of_ge _ _ (Nat.le_of_not_lt hw), BitVec.getLsbD_of_ge _ _ (Nat.le_of_not_lt hw)]
  calc serial poly crc (lowBits n x)
      = serial poly (y ^^^ ((crc ^^^ x) &&& mask)) (lowBits n x) := by rw [← hsplit]
    _ = serial poly y (lowBits n x) ^^^ shifts poly n ((crc ^^^ x) &&& mask) := by
        rw [serial_xor, length_lowBits]
    _ = shifts poly n ((crc ^^^ x) &&& mask) ^^^ (crc >>> n) := by
        rw [serial_of_low_eq hlow, hhigh, BitVec.xor_comm]

end Crc
