import Fsdiff.Patch.Decoder
import Mathlib.Tactic.Linarith

/-! Source offsets of the three copying operations in 64-bit arithmetic, under the
single cap on `dest_blocks` that the decoder checks upfront. -/
namespace Fsdiff.Patch
open ByteString

section Bounds
variable {patch : Bytes} (L : Layout patch)

theorem Layout.blockSize_ge : 32 ≤ L.blockSize := L.header.blockSize_ge

theorem Layout.blockSize_le : L.blockSize ≤ 2 ^ 24 := L.header.blockSize_le

/-- The upfront cap: the whole image is addressable as `int64_t`. -/
theorem Layout.image_lt : L.destBlocks * L.blockSize < 2 ^ 63 := by
  have hb : 0 < L.header.blockSize := lt_of_lt_of_le (by decide) L.header.blockSize_ge
  have h := (Nat.le_div_iff_mul_le hb).mp L.destBlocks_le
  exact lt_of_le_of_lt h (by decide)

theorem Layout.opEnd_le : L.opEnd ≤ L.diffEnd := Nat.le_add_right _ _

theorem Layout.diffEnd_le : L.diffEnd ≤ patch.length := L.streams_le

theorem Layout.hi_le (st : Stream) : L.hi st ≤ patch.length := by
  have h := L.diffEnd_le
  have ho := L.opEnd_le
  cases st <;> simp only [Layout.hi] <;> omega

theorem Layout.block_le {b : ℕ} (h : b < L.destBlocks) :
    b * L.blockSize + L.blockSize ≤ L.destBlocks * L.blockSize := by
  have := Nat.mul_le_mul_right L.blockSize (show b + 1 ≤ L.destBlocks from h)
  rwa [add_mul, one_mul] at this

theorem Layout.block_lt {b : ℕ} (h : b < L.destBlocks) :
    b * L.blockSize + L.blockSize < 2 ^ 63 := (L.block_le h).trans_lt L.image_lt

theorem Layout.destBlocks_lt : L.destBlocks < 2 ^ 58 := by
  have h := L.image_lt
  have hb := L.blockSize_ge
  nlinarith

end Bounds

section Exactness
variable {patch : Bytes} (L : Layout patch) {destBlock i : ℕ}

theorem identityOffset_eq (hb : destBlock + i < L.destBlocks) :
    identityOffset L destBlock i = (destBlock + i) * L.blockSize := by
  have h := L.block_lt hb
  have hd := L.destBlocks_lt
  rw [identityOffset, u64_of_lt (n := destBlock + i) (by omega), u64_of_lt (by omega)]

theorem relocateBlock_eq {offset : ℤ} (hb : destBlock + i < L.destBlocks)
    (ho : |offset| ≤ 2 ^ 32 - 1) :
    relocateBlock destBlock i offset = destBlock + i + offset := by
  have hd := L.destBlocks_lt
  have ho' := abs_le.mp ho
  rw [relocateBlock, u64_of_lt (by omega), int64_natCast (by omega),
    int64_of_range (by push_cast; omega) (by push_cast; omega)]
  push_cast
  ring

/-- The slack of one bit left by the cap covers the widest relocation. -/
theorem relocate_end_lt {offset : ℤ} (hb : destBlock + i < L.destBlocks)
    (ho : |offset| ≤ 2 ^ 32 - 1) :
    (destBlock + i + offset).toNat * L.blockSize + L.blockSize < 2 ^ 64 := by
  have hlt := L.block_lt hb
  have hs := L.blockSize_le
  have hn : (destBlock + i + offset).toNat ≤ destBlock + i + (2 ^ 32 - 1) := by
    have := (abs_le.mp ho).2
    omega
  have hm := Nat.mul_le_mul_right L.blockSize hn
  rw [add_mul] at hm
  have hw : (2 ^ 32 - 1) * L.blockSize ≤ (2 ^ 32 - 1) * 2 ^ 24 := Nat.mul_le_mul_left _ hs
  omega

theorem relocateOffset_eq {offset : ℤ} (hb : destBlock + i < L.destBlocks)
    (ho : |offset| ≤ 2 ^ 32 - 1) :
    relocateOffset L (destBlock + i + offset) =
      (destBlock + i + offset).toNat * L.blockSize := by
  have h := relocate_end_lt L hb ho
  rw [relocateOffset, u64_of_lt (by omega)]

theorem copyAddPos_def (hb : destBlock + i < L.destBlocks) (byteOffset : ℤ) :
    copyAddPos L destBlock i byteOffset =
      int64 (((destBlock + i) * L.blockSize : ℕ) + byteOffset) := by
  have h := L.block_lt hb
  have hd := L.destBlocks_lt
  rw [copyAddPos, u64_of_lt (n := destBlock + i) (by omega), u64_of_lt (by omega),
    int64_natCast (by omega)]

theorem copyAddPos_eq {byteOffset : ℤ} (hb : destBlock + i < L.destBlocks) (hl : -2 ^ 31 ≤ byteOffset)
    (hu : (((destBlock + i) * L.blockSize : ℕ) : ℤ) + byteOffset < 2 ^ 63) :
    copyAddPos L destBlock i byteOffset = ((destBlock + i) * L.blockSize : ℕ) + byteOffset := by
  rw [copyAddPos_def L hb, int64_of_range (by omega) hu]

/-- Wrapped or not, a position that is not negative leaves room for a block. -/
theorem copyAddPos_end_lt (destBlock i : ℕ) (byteOffset : ℤ) :
    (copyAddPos L destBlock i byteOffset).toNat + L.blockSize < 2 ^ 64 := by
  have h := (signed_range 64 (by decide) (int64 (u64 (u64 (destBlock + i) * L.blockSize)) + byteOffset)).2
  have hs := L.blockSize_le
  change copyAddPos L destBlock i byteOffset < 2 ^ 63 at h
  omega

end Exactness

/-- The offset arithmetic for block `destBlock + i` gives the mathematical values:
`offset` is a relocation in blocks, `byteOffset` a `COPY_ADD` distance in bytes. -/
structure ExactOffsets {patch : Bytes} (L : Layout patch) (destBlock i : ℕ)
    (offset byteOffset : ℤ) : Prop where
  identity : identityOffset L destBlock i = (destBlock + i) * L.blockSize
  identity_end : u64 (identityOffset L destBlock i + L.blockSize) =
    (destBlock + i) * L.blockSize + L.blockSize
  relocate : relocateBlock destBlock i offset = destBlock + i + offset
  relocate_offset : 0 ≤ (destBlock : ℤ) + i + offset →
    (relocateOffset L (relocateBlock destBlock i offset) : ℤ) =
      (destBlock + i + offset) * L.blockSize
  relocate_end : 0 ≤ (destBlock : ℤ) + i + offset →
    (u64 (relocateOffset L (relocateBlock destBlock i offset) + L.blockSize) : ℤ) =
      (destBlock + i + offset) * L.blockSize + L.blockSize
  copyAdd : copyAddPos L destBlock i byteOffset = (destBlock + i) * L.blockSize + byteOffset
  copyAdd_end : 0 ≤ ((destBlock : ℤ) + i) * L.blockSize + byteOffset →
    (u64 ((copyAddPos L destBlock i byteOffset).toNat + L.blockSize) : ℤ) =
      (destBlock + i) * L.blockSize + byteOffset + L.blockSize

/-- For a given block, the only computation the cap does not protect is the
addition of `byte_offset`. -/
theorem exactOffsets_iff {patch : Bytes} (L : Layout patch) {destBlock i : ℕ}
    {offset byteOffset : ℤ} (hb : destBlock + i < L.destBlocks) (ho : |offset| ≤ 2 ^ 32 - 1)
    (hl : -2 ^ 31 ≤ byteOffset) :
    ExactOffsets L destBlock i offset byteOffset ↔
      ((destBlock : ℤ) + i) * L.blockSize + byteOffset < 2 ^ 63 := by
  have hlt := L.block_lt hb
  have hid := identityOffset_eq L hb
  have hrb := relocateBlock_eq L hb ho
  have hro := relocateOffset_eq L hb ho
  have hre := relocate_end_lt L hb ho
  constructor
  · intro h
    have hr := (signed_range 64 (by decide)
      (int64 (u64 (u64 (destBlock + i) * L.blockSize)) + byteOffset)).2
    rw [← h.copyAdd]
    exact hr
  · intro hu
    have hc : copyAddPos L destBlock i byteOffset = (destBlock + i) * L.blockSize + byteOffset := by
      rw [copyAddPos_eq L hb hl (by push_cast; exact hu)]
      push_cast
      ring
    have hcast : 0 ≤ (destBlock : ℤ) + i + offset →
        ((destBlock + i + offset).toNat : ℤ) = destBlock + i + offset := Int.toNat_of_nonneg
    refine ⟨hid, ?_, hrb, ?_, ?_, hc, ?_⟩
    · rw [hid, u64_of_lt (by omega)]
    · intro h0
      rw [hrb, hro]
      push_cast
      rw [hcast h0]
    · intro h0
      rw [hrb, hro, u64_of_lt hre]
      push_cast
      rw [hcast h0]
    · intro h0
      rw [u64_of_lt (copyAddPos_end_lt L destBlock i byteOffset), hc]
      push_cast
      rw [Int.toNat_of_nonneg h0]

/-- All source offsets of a patch are computed exactly if and only if its last
block leaves room for the largest `byte_offset`. The cap alone does not give this. -/
theorem offsets_exact_iff {patch : Bytes} (L : Layout patch) :
    (∀ destBlock i offset byteOffset, destBlock + i < L.destBlocks → |offset| ≤ 2 ^ 32 - 1 →
        -2 ^ 31 ≤ byteOffset → byteOffset < 2 ^ 31 → ExactOffsets L destBlock i offset byteOffset) ↔
      (L.destBlocks - 1) * L.blockSize + 2 ^ 31 ≤ 2 ^ 63 := by
  constructor
  · intro h
    rcases Nat.eq_zero_or_pos L.destBlocks with hz | hpos
    · rw [hz]
      norm_num
    have hlast : (L.destBlocks - 1) + 0 < L.destBlocks := by omega
    have he := (exactOffsets_iff L hlast (by norm_num : |(0 : ℤ)| ≤ 2 ^ 32 - 1)
      (by norm_num : (-2 ^ 31 : ℤ) ≤ 2 ^ 31 - 1)).mp
      (h _ 0 0 (2 ^ 31 - 1) hlast (by norm_num) (by norm_num) (by norm_num))
    have hz : (((L.destBlocks - 1) * L.blockSize : ℕ) : ℤ) + (2 ^ 31 - 1) < 2 ^ 63 := by
      push_cast
      simpa using he
    omega
  · intro h destBlock i offset byteOffset hb ho hl hu
    rw [exactOffsets_iff L hb ho hl]
    have hm := Nat.mul_le_mul_right L.blockSize (show destBlock + i ≤ L.destBlocks - 1 by omega)
    have hz : (((destBlock + i) * L.blockSize : ℕ) : ℤ) ≤ 2 ^ 63 - 2 ^ 31 := by omega
    push_cast at hz
    linarith

/-- 32-byte blocks at the cap: `byte_offset = INT32_MAX` in the last block takes
`src_byte_pos` past `INT64_MAX`, to a large negative number. -/
theorem copyAddPos_wraps_at_cap :
    ∃ L : Layout (headerWrite (2 ^ 58 - 1) 5 0 0),
      patchLayout (headerWrite (2 ^ 58 - 1) 5 0 0) = .ok L ∧
      copyAddPos L (2 ^ 58 - 2) 0 (2 ^ 31 - 1) = -2 ^ 63 + 2 ^ 31 - 65 ∧
      ¬ ∀ destBlock i offset byteOffset, destBlock + i < L.destBlocks → |offset| ≤ 2 ^ 32 - 1 →
        -2 ^ 31 ≤ byteOffset → byteOffset < 2 ^ 31 →
          ExactOffsets L destBlock i offset byteOffset := by
  refine ⟨⟨⟨5, 2 ^ 58 - 1, 0, 0, by decide, by decide⟩, by decide, by decide⟩, rfl, by decide +kernel, ?_⟩
  intro h
  have hx := (h (2 ^ 58 - 2) 0 0 (2 ^ 31 - 1) (by decide) (by decide) (by decide) (by decide)).copyAdd
  revert hx
  decide +kernel

end Fsdiff.Patch
