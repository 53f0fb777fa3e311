import Mathlib.Algebra.GroupWithZero.Nat
import Mathlib.Data.List.Basic
import Mathlib.Order.Basic

/-! Sets of naturals as arrays of words: 64 bits each, or one byte. -/
namespace Bitmap

abbrev Words := List (BitVec 64)

/-- `1ULL << (index % 64)` -/
def mask (index : ℕ) : BitVec 64 := 1#64 <<< (index % 64)

/-- `bitmap[index / 64] |= mask` -/
def set (bm : Words) (index : ℕ) : Words := bm.modify (index / 64) (· ||| mask index)

/-- `bitmap[index / 64] &= ~mask` -/
def clear (bm : Words) (index : ℕ) : Words := bm.modify (index / 64) (· &&& ~~~mask index)

/-- `(bitmap[index / 64] & mask) != 0`; false outside the array. -/
def test (bm : Words) (index : ℕ) : Bool := (bm.getD (index / 64) 0 &&& mask index) != 0#64

section Masks
variable {w k : ℕ}

theorem getLsbD_or_mask (x : BitVec w) (hk : k < w) (j : ℕ) :
    (x ||| 1#w <<< k).getLsbD j = (decide (k = j) || x.getLsbD j) := by
  rw [← BitVec.twoPow_eq, BitVec.getLsbD_or, BitVec.getLsbD_twoPow, Bool.or_comm]
  simp [hk]

theorem getLsbD_and_not_mask (x : BitVec w) (hk : k < w) {j : ℕ} (hj : j < w) :
    (x &&& ~~~(1#w <<< k)).getLsbD j = (!decide (k = j) && x.getLsbD j) := by
  rw [← BitVec.twoPow_eq, BitVec.getLsbD_and, BitVec.getLsbD_not, BitVec.getLsbD_twoPow,
    Bool.and_comm]
  simp [hk, hj]

theorem and_mask_bne_zero (x : BitVec w) (hk : k < w) :
    ((x &&& 1#w <<< k) != 0#w) = x.getLsbD k := by
  have hne : BitVec.twoPow w k ≠ 0#w := by
    intro h0
    have := congrArg (·.getLsbD k) h0
    simp [hk] at this
  rw [← BitVec.twoPow_eq, BitVec.and_twoPow]
  split_ifs with hb
  · rw [hb]
    simpa using hne
  · simpa using hb

theorem getD_modify (bm : List (BitVec w)) (f : BitVec w → BitVec w) (k j : ℕ)
    (hk : k < bm.length) :
    (bm.modify k f).getD j 0 = if k = j then f (bm.getD j 0) else bm.getD j 0 := by
  simp only [List.getD_eq_getElem?_getD, List.getElem?_modify]
  split_ifs with h
  · subst h
    simp [List.getElem?_eq_getElem hk]
  · simp

end Masks

@[simp] theorem length_set (bm : Words) (i : ℕ) : (set bm i).length = bm.length := by
  simp [set]

@[simp] theorem length_clear (bm : Words) (i : ℕ) : (clear bm i).length = bm.length := by
  simp [clear]

theorem test_eq (bm : Words) (i : ℕ) : test bm i = (bm.getD (i / 64) 0).getLsbD (i % 64) :=
  and_mask_bne_zero _ (Nat.mod_lt _ (by decide))

@[simp] theorem test_set (bm : Words) (i j : ℕ) (hi : i / 64 < bm.length) :
    test (set bm i) j = (decide (i = j) || test bm j) := by
  rw [test_eq, test_eq, set, getD_modify _ _ _ _ hi]
  split_ifs with h
  · have hij : i % 64 = j % 64 ↔ i = j := by omega
    rw [mask, getLsbD_or_mask _ (Nat.mod_lt _ (by decide))]
    simp only [hij]
  · have : i ≠ j := fun hij => h (hij ▸ rfl)
    simp [this]

@[simp] theorem test_clear (bm : Words) (i j : ℕ) (hi : i / 64 < bm.length) :
    test (clear bm i) j = (!decide (i = j) && test bm j) := by
  rw [test_eq, test_eq, clear, getD_modify _ _ _ _ hi]
  split_ifs with h
  · have hij : i % 64 = j % 64 ↔ i = j := by omega
    rw [mask, getLsbD_and_not_mask _ (Nat.mod_lt _ (by decide)) (Nat.mod_lt _ (by decide))]
    simp only [hij]
  · have : i ≠ j := fun hij => h (hij ▸ rfl)
    simp [this]

/-! ### Arrays of bytes -/

/-- `bits[index / 8] |= 1 << (index % 8)` -/
def setBits (bits : List (BitVec 8)) (index : ℕ) : List (BitVec 8) :=
  bits.modify (index / 8) (· ||| 1#8 <<< (index % 8))

/-- `(bits[index / 8] & (1 << (index % 8))) != 0` -/
def testBits (bits : List (BitVec 8)) (index : ℕ) : Bool :=
  (bits.getD (index / 8) 0 &&& 1#8 <<< (index % 8)) != 0#8

@[simp] theorem length_setBits (bits : List (BitVec 8)) (i : ℕ) :
    (setBits bits i).length = bits.length := by
  simp [setBits]

theorem testBits_setBits (bits : List (BitVec 8)) (i j : ℕ) (hi : i / 8 < bits.length) :
    testBits (setBits bits i) j = (decide (i = j) || testBits bits j) := by
  rw [testBits, testBits, setBits, and_mask_bne_zero _ (Nat.mod_lt _ (by decide)),
    and_mask_bne_zero _ (Nat.mod_lt _ (by decide)), getD_modify _ _ _ _ hi]
  split_ifs with h
  · have hij : i % 8 = j % 8 ↔ i = j := by omega
    rw [getLsbD_or_mask _ (Nat.mod_lt _ (by decide))]
    simp only [hij]
  · have : i ≠ j := fun hij => h (hij ▸ rfl)
    simp [this]

theorem testBits_replicate_zero (n j : ℕ) : testBits (List.replicate n 0) j = false := by
  rw [testBits, and_mask_bne_zero _ (Nat.mod_lt _ (by decide)), List.getD_eq_getElem?_getD,
    List.getElem?_replicate]
  split_ifs <;> exact BitVec.getLsbD_zero

/-! ### Counting -/

/-- Brian Kernighan's loop: `while (word) { word &= (word - 1); count++; }`. A word has at
most 64 bits to clear. -/
def popcountLoop : ℕ → BitVec 64 → ℕ → ℕ
  | 0, _, count => count
  | fuel + 1, word, count =>
    if word = 0 then count else popcountLoop fuel (word &&& (word - 1)) (count + 1)

def popcount (word : BitVec 64) : ℕ := popcountLoop 64 word 0

/-- The set bits among the `m` lowest. -/
def bitCount (m n : ℕ) : ℕ := (List.range m).countP (n.testBit ·)

theorem bitCount_succ (m n : ℕ) : bitCount (m + 1) n = n % 2 + bitCount m (n / 2) := by
  have hshift : (fun i => n.testBit i) ∘ Nat.succ = fun i => (n / 2).testBit i := by
    funext i
    exact Nat.testBit_succ n i
  unfold bitCount
  rw [List.range_succ_eq_map, List.countP_cons, List.countP_map, hshift, Nat.testBit_zero,
    Nat.add_comm]
  rcases Nat.mod_two_eq_zero_or_one n with h | h <;> simp [h]

/-- `n & (n - 1)` has one bit less. -/
theorem bitCount_and_pred (m : ℕ) {n : ℕ} (hn : n ≠ 0) (hm : n < 2 ^ m) :
    bitCount m (n &&& (n - 1)) + 1 = bitCount m n := by
  induction m generalizing n with
  | zero => omega
  | succ m ih =>
    rw [bitCount_succ, bitCount_succ, Nat.and_div_two,
      show (n &&& (n - 1)) % 2 = (n % 2) &&& ((n - 1) % 2) from Nat.and_mod_two_pow (n := 1)]
    rcases Nat.mod_two_eq_zero_or_one n with h | h
    · have hhalf : (n - 1) / 2 = n / 2 - 1 := by omega
      rw [hhalf, h, ← ih (n := n / 2) (by omega) (by omega)]
      simp
    · have hhalf : (n - 1) / 2 = n / 2 := by omega
      have heven : (n - 1) % 2 = 0 := by omega
      rw [hhalf, Nat.and_self, heven, h, Nat.and_zero]
      omega

theorem popcountLoop_eq (fuel : ℕ) (word : BitVec 64) (count : ℕ)
    (hf : bitCount 64 word.toNat ≤ fuel) :
    popcountLoop fuel word count = count + bitCount 64 word.toNat := by
  induction fuel generalizing word count with
  | zero =>
    rw [popcountLoop]
    omega
  | succ fuel ih =>
    rw [popcountLoop]
    split_ifs with h
    · subst h
      simp [bitCount]
    · have hne : word.toNat ≠ 0 := fun h0 => h (BitVec.eq_of_toNat_eq (by simpa using h0))
      have hpred : (word - 1).toNat = word.toNat - 1 := by
        rw [BitVec.toNat_sub_of_le]
        · rfl
        · exact BitVec.le_def.mpr (Nat.one_le_iff_ne_zero.mpr hne)
      have hclear := bitCount_and_pred 64 hne word.isLt
      rw [← hpred, ← BitVec.toNat_and] at hclear
      rw [ih _ _ (by omega)]
      omega

theorem popcount_eq (word : BitVec 64) : popcount word = bitCount 64 word.toNat := by
  have hle : bitCount 64 word.toNat ≤ 64 := by
    have := List.countP_le_length (p := (word.toNat.testBit ·)) (l := List.range 64)
    rwa [List.length_range] at this
  rw [popcount, popcountLoop_eq 64 word 0 hle, Nat.zero_add]

/-- All words together. -/
theorem sum_popcount (bm : Words) :
    (bm.map popcount).sum = (List.range (64 * bm.length)).countP (test bm) := by
  induction bm with
  | nil => rfl
  | cons word bm ih =>
    have hfirst : ∀ i ∈ List.range 64, test (word :: bm) i = true ↔ word.toNat.testBit i = true := by
      intro i hi
      have hlt := List.mem_range.mp hi
      have hdiv : i / 64 = 0 := by omega
      rw [test_eq, hdiv, Nat.mod_eq_of_lt hlt]
      rfl
    have hrest : test (word :: bm) ∘ (64 + ·) = test bm := by
      funext i
      have hdiv : (64 + i) / 64 = i / 64 + 1 := by omega
      have hmod : (64 + i) % 64 = i % 64 := by omega
      rw [Function.comp_apply, test_eq, test_eq, hdiv, hmod]
      rfl
    rw [List.map_cons, List.sum_cons, popcount_eq, ih, List.length_cons, Nat.mul_succ, Nat.add_comm,
      Nat.add_comm (64 * bm.length), List.range_add, List.countP_append, List.countP_map, hrest,
      List.countP_congr hfirst, Nat.add_comm]
    rfl

end Bitmap
