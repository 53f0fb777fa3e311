import Fsdiff.Core.BlockTracker
import Fsdiff.Data.Exec
import Fsdiff.Simd.Kernels
import Mathlib.Data.Rat.Floor

/-! What the matching stages share: the tracker that they update, pool memory that may
run out at any call, and cancel flags that another thread may set at any time. -/
namespace Fsdiff.Stages
open ByteString

/-- The outcome of the `n`-th pool allocation and of the `n`-th look at the cancel
flags. -/
structure Env where
  poolAlloc : ℕ → Bool
  cancelled : ℕ → Bool

/-- The tracker, and the calls made so far. -/
structure World where
  tracker : Tracker
  allocs : ℕ := 0
  checks : ℕ := 0

abbrev StageM := EStateM FsdError World

section Calls
variable (env : Env)

/-- `fsd_pool_alloc(..) != NULL` -/
def poolAlloc : StageM Bool := do
  let n := (← get).allocs
  modify fun w => { w with allocs := n + 1 }
  pure (env.poolAlloc n)

/-- `if (cancelled) return FSD_ERR_CANCELLED` -/
def checkCancelled : StageM Unit := do
  let n := (← get).checks
  modify fun w => { w with checks := n + 1 }
  if env.cancelled n then throw .cancelled else pure ()

end Calls

def updateTracker (f : Tracker → Tracker) : StageM Unit :=
  modify fun w => { w with tracker := f w.tracker }

/-- `if (err != FSD_SUCCESS) return err` -/
def raise {α : Type} : Except FsdError α → StageM α
  | .ok a => pure a
  | .error e => throw e

/-- `block_size` bytes of an image from block `i` on. -/
def blockAt (bs : ℕ) (image : Bytes) (i : ℕ) : Bytes := window image (i * bs) bs

/-- `delta[i] = dest_block[i] - src_block[i]` -/
def deltaOf (destBlock srcBlock : Bytes) : Bytes := List.zipWith (· - ·) destBlock srcBlock

/-- How both partial stages record a window: memory for the delta, then the delta, then
`set_match` and `set_delta`. Without memory nothing happens. -/
def recordWindow (env : Env) (bs : ℕ) (src dest : Bytes) (destIdx srcPos : ℕ) : StageM Bool := do
  if ← poolAlloc env then
    updateTracker fun t => (t.setMatch destIdx .partialMatch (srcPos / bs)).setDelta destIdx
      (srcPos % bs : ℕ) (some (deltaOf (blockAt bs dest destIdx) (window src srcPos bs)))
    pure true
  else pure false

/-- `stage->threshold`. A `float` is the rational number that it denotes, and 0 if it
denotes none. -/
def stageThreshold (threshold : ℚ) : ℚ :=
  if 0 < threshold ∧ threshold < 1 then threshold else 1 / 2

/-- `threshold_count`. The block size is a power of two, so the `float` product is exact. -/
def thresholdCount (bs : ℕ) (threshold : ℚ) : ℕ :=
  let count := (stageThreshold threshold * bs).floor.toNat
  if count = 0 then 1 else count

/-- `DEFAULT_SEARCH_RADIUS_BLOCKS` -/
def defaultSearchRadiusBlocks : ℕ := 8

/-- `search_range` in bytes. -/
def searchRange (bs : ℕ) (searchRadiusBlocks : ℤ) : ℕ :=
  (if searchRadiusBlocks ≤ 0 then defaultSearchRadiusBlocks else searchRadiusBlocks.toNat) * bs

theorem thresholdCount_pos (bs : ℕ) (threshold : ℚ) : 0 < thresholdCount bs threshold := by
  unfold thresholdCount
  dsimp only
  split_ifs <;> omega

theorem thresholdCount_le {bs : ℕ} (hbs : 0 < bs) (threshold : ℚ) :
    thresholdCount bs threshold ≤ bs := by
  have hlt : stageThreshold threshold ≤ 1 := by
    unfold stageThreshold
    split_ifs with h
    · exact h.2.le
    · norm_num
  have hfloor : (stageThreshold threshold * bs).floor ≤ bs := by
    have hle : stageThreshold threshold * bs ≤ ((bs : ℤ) : ℚ) := by
      rw [Int.cast_natCast]
      exact mul_le_of_le_one_left (Nat.cast_nonneg bs) hlt
    rw [← Rat.floor_intCast (bs : ℤ)]
    exact Rat.floor_monotone hle
  unfold thresholdCount
  dsimp only
  split_ifs <;> omega

end Fsdiff.Stages
