import Fsdiff.Data.Lanes
import Fsdiff.Simd.Kernels

/-! The vector kernels of `simd_avx2.c` and `simd_neon.c`, the loops of `stage_identity.c` that
stand in for a missing table, and the tables themselves. The registers of a kernel are chunks of
its arrays; what the intrinsics do with them is what `Lanes` says. -/
namespace Fsdiff
open ByteString Chunks Lanes

/-! ### AVX2 -/

/-- `_mm256_movemask_epi8(_mm256_cmpeq_epi8(v, w))` -/
def avx2Mask (v w : Bytes) : ℕ := movemask (cmpeq v w)

/-- Registers in which all lanes compare equal to `byte`, then single bytes. -/
def avx2IsFilled (byte : UInt8) : Bytes → Bool :=
  allChunks 32 (fun v => avx2Mask v (List.replicate 32 byte) = 0xFFFFFFFF) (· = byte)

/-- `fsd_avx2_is_zero` -/
def avx2IsZero : Bytes → Bool := avx2IsFilled 0x00

/-- `fsd_avx2_is_one` -/
def avx2IsOne : Bytes → Bool := avx2IsFilled 0xFF

/-- `fsd_avx2_count_matches` -/
def avx2CountMatches : Bytes → Bytes → ℕ :=
  sumChunks 32 (fun xa xb => popcount 32 (avx2Mask xa xb)) matchCount

/-! ### NEON -/

/-- `vgetq_lane_u64(vreinterpretq_u64_u8(v), i)` -/
def lane64 (v : Bytes) (i : ℕ) : ℕ := leNat (window v (i * 8) 8)

def neonIsFilled (byte : UInt8) : Bytes → Bool :=
  allChunks 16 (fun v =>
    let cmp := cmpeq v (List.replicate 16 byte)
    lane64 cmp 0 = 0xFFFFFFFFFFFFFFFF && lane64 cmp 1 = 0xFFFFFFFFFFFFFFFF) (· = byte)

/-- `fsd_neon_is_zero` -/
def neonIsZero : Bytes → Bool := neonIsFilled 0x00

/-- `fsd_neon_is_one` -/
def neonIsOne : Bytes → Bool := neonIsFilled 0xFF

/-- The equal lanes of two registers: ones in the lanes that compare equal, and three pairwise
sums, which leave two lanes. -/
def neonMatches (va vb : Bytes) : ℕ :=
  let ones := shiftDown 7 (cmpeq va vb)
  let sum64 := paddl (paddl (paddl (ones.map UInt8.toNat)))
  sum64.getD 0 0 + sum64.getD 1 0

/-- `fsd_neon_count_matches` -/
def neonCountMatches : Bytes → Bytes → ℕ := sumChunks 16 neonMatches matchCount

/-! ### Without a table -/

/-- The fallback loops of `is_zero_block` and `is_one_block`. -/
def blockIsFilled (word : ℕ) (byte : UInt8) (block : Bytes) : Bool :=
  let count := block.length / 8
  let tail := block.drop (count * 8)
  let remaining := block.length % 8
  (List.range count).all (fun i => wordAt block i = word) && (tail.take remaining).all (· = byte)

/-- `is_zero_block` when `g_fsd_simd.is_zero` is null. -/
def isZeroBlock : Bytes → Bool := blockIsFilled 0 0x00

/-- `is_one_block` when `g_fsd_simd.is_one` is null. -/
def isOneBlock : Bytes → Bool := blockIsFilled 0xFFFFFFFFFFFFFFFF 0xFF

section Filled
variable {v : UInt8} {c : Bytes}

theorem avx2Mask_eq_iff (hc : c.length = 32) :
    avx2Mask c (List.replicate 32 v) = 0xFFFFFFFF ↔ ∀ x ∈ c, x = v := by
  have hmask := movemask_cmpeq_iff (a := c) (b := List.replicate 32 v) (by rw [hc, List.length_replicate])
  have hlanes := cmpeq_replicate (v := c) (x := v)
  rw [hc] at hmask hlanes
  exact hmask.trans hlanes

theorem avx2IsFilled_iff (v : UInt8) (data : Bytes) :
    avx2IsFilled v data = true ↔ data = List.replicate data.length v :=
  allChunks_filled (fun _ hc => by rw [decide_eq_true_eq, avx2Mask_eq_iff hc]) data

theorem lanes64_eq_iff (hc : c.length = 16) :
    lane64 c 0 = 0xFFFFFFFFFFFFFFFF ∧ lane64 c 1 = 0xFFFFFFFFFFFFFFFF ↔ ∀ x ∈ c, x = 0xFF := by
  have hword : leNat (List.replicate 8 0xFF) = 0xFFFFFFFFFFFFFFFF := by decide
  have hrest : c.drop 16 = [] := List.drop_eq_nil_of_le hc.le
  rw [forall_mem_chunks (k := 8), hc, lane64, lane64, ← hword,
    leNat_filled_iff (length_window (by omega)), leNat_filled_iff (length_window (by omega))]
  constructor
  · rintro ⟨h0, h1⟩
    refine ⟨?_, by simp [hrest]⟩
    intro i hi
    obtain rfl | rfl : i = 0 ∨ i = 1 := by omega
    · exact h0
    · exact h1
  · rintro ⟨h, -⟩
    exact ⟨h 0 (by decide), h 1 (by decide)⟩

theorem neonIsFilled_iff (v : UInt8) (data : Bytes) :
    neonIsFilled v data = true ↔ data = List.replicate data.length v := by
  apply allChunks_filled
  intro c hc
  have hlanes := cmpeq_replicate (v := c) (x := v)
  rw [hc] at hlanes
  have hlen : (cmpeq c (List.replicate 16 v)).length = 16 := by
    rw [length_cmpeq, hc, List.length_replicate, min_self]
  dsimp only
  rw [Bool.and_eq_true, decide_eq_true_eq, decide_eq_true_eq, lanes64_eq_iff hlen, hlanes]

/-- The tail of the fallback loops is all that is left. -/
theorem blockIsFilled_eq (word : ℕ) (byte : UInt8) : blockIsFilled word byte = scalarIsFilled word byte := by
  funext block
  have hmod := Nat.div_add_mod block.length 8
  have htail : (block.drop (block.length / 8 * 8)).take (block.length % 8) =
      block.drop (block.length / 8 * 8) := by
    apply List.take_of_length_le
    rw [List.length_drop]
    omega
  rw [blockIsFilled, htail, scalarIsFilled]

end Filled

section Count
variable {a b : Bytes}

theorem avx2CountMatches_eq (h : a.length = b.length) : avx2CountMatches a b = matchCount a b := by
  refine sumChunks_eq rfl (fun _ _ _ _ => matchCount_append) ?_ h
  intro c d hc hd
  have hbits := popcount_cmpeq (hc.trans hd.symm)
  rw [hc] at hbits
  exact hbits

theorem neonMatches_eq (ha : a.length = 16) (hb : b.length = 16) : neonMatches a b = matchCount a b := by
  have hlen : ((shiftDown 7 (cmpeq a b)).map UInt8.toNat).length = 16 := by
    rw [List.length_map, shiftDown, List.length_map, length_cmpeq, ha, hb, min_self]
  have hsum := sum_cmpeq_shift a b
  unfold neonMatches
  dsimp only
  generalize (shiftDown 7 (cmpeq a b)).map UInt8.toNat = ones at hlen hsum ⊢
  have h8 : (paddl ones).length = 8 := by rw [length_paddl, hlen]
  have h4 : (paddl (paddl ones)).length = 4 := by rw [length_paddl, h8]
  have h2 : (paddl (paddl (paddl ones))).length = 2 := by rw [length_paddl, h4]
  have htotal : (paddl (paddl (paddl ones))).sum = matchCount a b := by
    rw [sum_paddl (by rw [h4]), sum_paddl (by rw [h8]), sum_paddl (by rw [hlen]), hsum, matchCount]
  generalize paddl (paddl (paddl ones)) = sum64 at h2 htotal
  obtain ⟨x, y, rfl⟩ := List.length_eq_two.mp h2
  rw [← htotal]
  simp

theorem neonCountMatches_eq (h : a.length = b.length) : neonCountMatches a b = matchCount a b :=
  sumChunks_eq rfl (fun _ _ _ _ => matchCount_append) (fun _ _ => neonMatches_eq) h

end Count

/-! ### Tables -/

/-- The table that `setup_avx2_dispatch` installs. -/
def avx2Kernels : Kernels where
  isZero := avx2IsZero
  isOne := avx2IsOne
  countMatches := avx2CountMatches
  isZero_iff := avx2IsFilled_iff 0x00
  isOne_iff := avx2IsFilled_iff 0xFF
  countMatches_eq _ _ := avx2CountMatches_eq

/-- The table that `setup_neon_dispatch` installs. -/
def neonKernels : Kernels where
  isZero := neonIsZero
  isOne := neonIsOne
  countMatches := neonCountMatches
  isZero_iff := neonIsFilled_iff 0x00
  isOne_iff := neonIsFilled_iff 0xFF
  countMatches_eq _ _ := neonCountMatches_eq

/-- What the callers run without a table: their own loops, and `fsd_scalar_count_matches`. -/
def fallbackKernels : Kernels where
  isZero := isZeroBlock
  isOne := isOneBlock
  countMatches := scalarCountMatches
  isZero_iff _ := by
    rw [isZeroBlock, blockIsFilled_eq]
    exact scalarIsZero_iff
  isOne_iff _ := by
    rw [isOneBlock, blockIsFilled_eq]
    exact scalarIsOne_iff
  countMatches_eq _ _ := scalarCountMatches_eq

/-- The tables of `simd_dispatch.c`. -/
inductive Backend where
  | scalar
  | avx2
  | neon
deriving DecidableEq, Repr

/-- `g_fsd_simd`; before `fsd_simd_init` all its entries are null. -/
def dispatch : Option Backend → Kernels
  | none => fallbackKernels
  | some .scalar => scalarKernels
  | some .avx2 => avx2Kernels
  | some .neon => neonKernels

end Fsdiff
