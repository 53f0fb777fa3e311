import Fsdiff.Stages.Records

/-! `block_search.c`: the search over byte offsets that the two partial stages share. -/
namespace Fsdiff.Stages
open ByteString

/-- `prescreen_len` -/
def prescreenLen : ℕ := 128

/-- `prescreen_min`. It is 0, and with it the prescreen off, for small blocks and low
thresholds. -/
def prescreenMin (bs thresholdCount : ℕ) : ℕ :=
  if 1024 ≤ bs then thresholdCount * prescreenLen / bs else 0

section Search
variable (K : Kernels) (src : Bytes) (srcSize : ℕ) (destBlock : Bytes) (bs thresholdCount : ℕ)

/-- `src_pos < 0 || (size_t)(src_pos + block_size) > src_size` -/
def OutOfBounds (srcPos : ℤ) : Prop := srcPos < 0 ∨ (srcSize : ℤ) < srcPos + bs

instance (srcPos : ℤ) : Decidable (OutOfBounds srcSize bs srcPos) :=
  inferInstanceAs (Decidable (_ ∨ _))

/-- `count_fn(src + src_pos, dest_block, block_size)` -/
def countAt (srcPos : ℤ) : ℕ := K.countMatches (window src srcPos.toNat bs) destBlock

/-- `sample`: the matches in two windows, at the start and in the middle of the block. -/
def sampleAt (srcPos : ℤ) : ℕ :=
  K.countMatches (window src srcPos.toNat prescreenLen) (window destBlock 0 prescreenLen) +
    K.countMatches (window src (srcPos.toNat + bs / 2) prescreenLen)
      (window destBlock (bs / 2) prescreenLen)

/-- The prescreen is on and rejects the position. -/
def ScreenedOut (srcPos : ℤ) : Prop :=
  prescreenMin bs thresholdCount ≠ 0 ∧
    sampleAt K src destBlock bs srcPos < prescreenMin bs thresholdCount

instance (srcPos : ℤ) : Decidable (ScreenedOut K src destBlock bs thresholdCount srcPos) :=
  inferInstanceAs (Decidable (_ ∧ _))

/-- The loop of `fsd_block_search_best` over `n` offsets from `offset` on. -/
def blockSearchLoop (centerPos : ℤ) : ℕ → ℤ → ℤ → ℕ → ℤ × ℕ
  | 0, _, bestOffset, bestCount => (bestOffset, bestCount)
  | n + 1, offset, bestOffset, bestCount =>
    let srcPos := centerPos + offset
    if OutOfBounds srcSize bs srcPos then
      blockSearchLoop centerPos n (offset + 1) bestOffset bestCount
    else if ScreenedOut K src destBlock bs thresholdCount srcPos then
      blockSearchLoop centerPos n (offset + 1) bestOffset bestCount
    else
      let matchCount := countAt K src destBlock bs srcPos
      if bestCount < matchCount then
        -- no remaining offset can beat a perfect match
        if matchCount = bs then (offset, matchCount)
        else blockSearchLoop centerPos n (offset + 1) offset matchCount
      else blockSearchLoop centerPos n (offset + 1) bestOffset bestCount

/-- `fsd_block_search_best`: the offset and its count. The offset is -1 and the count
below the threshold when nothing was found. -/
def blockSearchBest (centerPos minOffset maxOffset : ℤ) : ℤ × ℕ :=
  blockSearchLoop K src srcSize destBlock bs thresholdCount centerPos
    (maxOffset + 1 - minOffset).toNat minOffset (-1) (thresholdCount - 1)

/-- A count that reaches the threshold is that of the window at `srcPos`, within the
source. -/
def CountedAt (srcPos : ℤ) (count : ℕ) : Prop :=
  thresholdCount ≤ count →
    ¬ OutOfBounds srcSize bs srcPos ∧ count = countAt K src destBlock bs srcPos

end Search

section Found
variable {K : Kernels} {src : Bytes} {srcSize : ℕ} {destBlock : Bytes} {bs thresholdCount : ℕ}
variable {centerPos : ℤ}

theorem blockSearchLoop_counted (n : ℕ) (offset bestOffset : ℤ) (bestCount : ℕ)
    (h : CountedAt K src srcSize destBlock bs thresholdCount (centerPos + bestOffset) bestCount) :
    let best := blockSearchLoop K src srcSize destBlock bs thresholdCount centerPos n offset
      bestOffset bestCount
    CountedAt K src srcSize destBlock bs thresholdCount (centerPos + best.1) best.2 := by
  induction n generalizing offset bestOffset bestCount with
  | zero => exact h
  | succ n ih =>
    unfold blockSearchLoop
    dsimp only
    split_ifs with hb hs hlt heq
    · exact ih _ _ _ h
    · exact ih _ _ _ h
    · exact fun _ => ⟨hb, rfl⟩
    · exact ih _ _ _ fun _ => ⟨hb, rfl⟩
    · exact ih _ _ _ h

variable (K src srcSize destBlock bs centerPos)

/-- What the search finds lies in the source and has the count it reports. The seed, one
below the threshold, is never taken for a find. -/
theorem blockSearchBest_counted (ht : 0 < thresholdCount) (minOffset maxOffset : ℤ) :
    let best := blockSearchBest K src srcSize destBlock bs thresholdCount centerPos minOffset maxOffset
    CountedAt K src srcSize destBlock bs thresholdCount (centerPos + best.1) best.2 := by
  apply blockSearchLoop_counted
  intro h
  omega

end Found

section Windows
variable {K : Kernels} {J : Comparison} {srcSize i : ℕ} {srcPos : ℤ}

theorem Comparison.accepts_of_count (hsize : srcSize ≤ J.src.length) (hi : i < J.destBlocks)
    (hb : ¬ OutOfBounds srcSize J.bs srcPos)
    (hc : J.threshold ≤ countAt K J.src (J.destBlock i) J.bs srcPos) :
    J.Accepts i srcPos.toNat := by
  unfold OutOfBounds at hb
  have hend : srcPos.toNat + J.bs ≤ J.src.length := by omega
  constructor
  · exact hend
  · rw [countAt, K.countMatches_eq _ _ (by rw [length_window hend, J.length_destBlock hi])] at hc
    exact hc

theorem CountedAt.accepts {count : ℕ}
    (h : CountedAt K J.src srcSize (J.destBlock i) J.bs J.threshold srcPos count)
    (hsize : srcSize ≤ J.src.length) (hi : i < J.destBlocks) (hc : J.threshold ≤ count) :
    J.Accepts i srcPos.toNat := by
  obtain ⟨hb, rfl⟩ := h hc
  exact Comparison.accepts_of_count hsize hi hb hc

end Windows

end Fsdiff.Stages
