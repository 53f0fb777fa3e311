import Fsdiff.Core.Crc32
import Fsdiff.Stages.Records

/-! `stage_identity.c`: constant blocks and blocks that did not move, and a CRC-32 for
every other block. -/
namespace Fsdiff.Stages
open Exec

section Stage
variable (K : Kernels) (bs : ℕ) (src dest : Bytes)

/-- Loop body for the blocks that both images have. -/
def identityCommonBlock (i : ℕ) : StageM Unit :=
  let destBlock := blockAt bs dest i
  if K.isZero destBlock then updateTracker (·.setMatch i .zero 0)
  else if K.isOne destBlock then updateTracker (·.setMatch i .one 0)
  else if blockAt bs src i = destBlock then updateTracker (·.setMatch i .identity i)
  else updateTracker (·.setCrc32 i (crc32 destBlock))

/-- Loop body for the blocks beyond the source. -/
def identityDestBlock (i : ℕ) : StageM Unit :=
  let destBlock := blockAt bs dest i
  if K.isZero destBlock then updateTracker (·.setMatch i .zero 0)
  else if K.isOne destBlock then updateTracker (·.setMatch i .one 0)
  else updateTracker (·.setCrc32 i (crc32 destBlock))

/-- `fsd_identity_stage_run` -/
def identityStageRun (srcBlocks destBlocks : ℕ) : StageM Unit := do
  let commonBlocks := if srcBlocks < destBlocks then srcBlocks else destBlocks
  iterM (fun i _ => identityCommonBlock K bs src dest i) commonBlocks 0 ()
  iterM (fun i _ => identityDestBlock K bs dest i) (destBlocks - commonBlocks) commonBlocks ()

end Stage

section Soundness
variable {K : Kernels} {J : Comparison} {i : ℕ}

theorem advancing_zero (hi : i < J.destBlocks) (hz : K.isZero (J.destBlock i) = true) :
    Advancing J (updateTracker (·.setMatch i .zero 0)) := by
  have hblock := (K.isZero_iff _).mp hz
  rw [Comparison.length_destBlock hi] at hblock
  exact advancing_updateTracker fun t ht => ht.setMatch (by decide) fun _ => hblock

theorem advancing_one (hi : i < J.destBlocks) (ho : K.isOne (J.destBlock i) = true) :
    Advancing J (updateTracker (·.setMatch i .one 0)) := by
  have hblock := (K.isOne_iff _).mp ho
  rw [Comparison.length_destBlock hi] at hblock
  exact advancing_updateTracker fun t ht => ht.setMatch (by decide) fun _ => hblock

theorem identityCommonBlock_advancing (hi : i < J.destBlocks) (hs : i < J.srcBlocks) :
    Advancing J (identityCommonBlock K J.bs J.src J.dest i) := by
  unfold identityCommonBlock
  apply Advancing.ite
  · exact advancing_zero hi
  intro _
  apply Advancing.ite
  · exact advancing_one hi
  intro _
  apply Advancing.ite
  · intro heq
    exact advancing_updateTracker fun t ht => ht.setMatch (by decide) fun _ => ⟨rfl, hs, heq.symm⟩
  · intro _
    exact advancing_updateTracker fun t ht => ht.setCrc32 _

theorem identityDestBlock_advancing (hi : i < J.destBlocks) :
    Advancing J (identityDestBlock K J.bs J.dest i) := by
  unfold identityDestBlock
  apply Advancing.ite
  · exact advancing_zero hi
  intro _
  apply Advancing.ite
  · exact advancing_one hi
  · intro _
    exact advancing_updateTracker fun t ht => ht.setCrc32 _

theorem identityStageRun_advancing (K : Kernels) (J : Comparison) :
    Advancing J (identityStageRun K J.bs J.src J.dest J.srcBlocks J.destBlocks) := by
  unfold identityStageRun
  apply Advancing.bind
  · apply Advancing.iterM
    intro i _ _ hi
    rw [zero_add] at hi
    apply identityCommonBlock_advancing
    · split_ifs at hi <;> omega
    · split_ifs at hi <;> omega
  · intro _
    apply Advancing.iterM
    intro i _ _ hi
    apply identityDestBlock_advancing
    split_ifs at hi <;> omega

end Soundness

end Fsdiff.Stages
