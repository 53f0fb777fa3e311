import Fsdiff.Patch.Decoder

/-! Faults of the files can stop a run, but a run that succeeds in spite of them is the
run without them. -/
namespace Fsdiff.Patch
open Exec

variable (m : Machine) {patch : Bytes} (L : Layout patch)

theorem sourceReadAt_refines (offset len : ℕ) :
    Refines (sourceReadAt m offset len) (sourceReadAt (reliable m.src) offset len) := by
  unfold sourceReadAt
  apply (Refines.refl get).bind
  intro s
  apply (Refines.refl (modify _)).bind
  intro _
  dsimp only [reliable]
  cases m.readFault s.reads with
  | none => exact .refl _
  | some e => exact refines_throw _ _

theorem writeBlock_refines (buf : Bytes) :
    Refines (writeBlock m buf) (writeBlock (reliable m.src) buf) := by
  unfold writeBlock
  apply (Refines.refl get).bind
  intro s
  dsimp only [reliable]
  cases m.writeFault s.writes with
  | none => exact .refl _
  | some k =>
    -- the short write is reported, whatever was stored
    intro _ _ _ h
    cases h

theorem fetchBlock_refines (pos : ℕ) :
    Refines (fetchBlock m L pos) (fetchBlock (reliable m.src) L pos) :=
  .ite (.refl _) (sourceReadAt_refines m pos L.blockSize)

theorem forBlocks_refines {count : ℕ} {body body' : ℕ → Dec Unit}
    (h : ∀ i, Refines (body i) (body' i)) : Refines (forBlocks count body) (forBlocks count body') :=
  .iterM (fun i _ => h i) count 0 ()

theorem fetch_write_refines (pos : ℕ) :
    Refines (fetchBlock m L pos >>= writeBlock m)
      (fetchBlock (reliable m.src) L pos >>= writeBlock (reliable m.src)) :=
  (fetchBlock_refines m L pos).bind (writeBlock_refines m)

theorem copyRelocateBlock_refines (destBlock : ℕ) (offset : ℤ) (i : ℕ) :
    Refines (copyRelocateBlock m L destBlock offset i)
      (copyRelocateBlock (reliable m.src) L destBlock offset i) :=
  .ite (.refl _) (fetch_write_refines m L _)

theorem writeLiteral_refines (litPtr : ℕ) :
    Refines (writeLiteral m L litPtr) (writeLiteral (reliable m.src) L litPtr) := by
  apply Refines.ite (.refl _)
  apply (Refines.refl _).bind
  intro buf
  exact (writeBlock_refines m buf).bind fun _ => .refl _

theorem copyAddBlock_refines (r : Region) (diffFmt destBlock : ℕ) (byteOffset : ℤ) (blk cursor : ℕ) :
    Refines (copyAddBlock m L r diffFmt destBlock byteOffset blk cursor)
      (copyAddBlock (reliable m.src) L r diffFmt destBlock byteOffset blk cursor) := by
  apply Refines.ite (.refl _)
  apply (fetchBlock_refines m L _).bind
  intro buf
  apply Refines.ite
  · apply (Refines.refl _).bind
    exact fun buf => (writeBlock_refines m buf).bind fun _ => .refl _
  · apply (Refines.refl _).bind
    exact fun s => (writeBlock_refines m s.buf).bind fun _ => .refl _

theorem applyCopyAdd_refines (b : UInt8) (c : Cursors) :
    Refines (applyCopyAdd m L b c) (applyCopyAdd (reliable m.src) L b c) := by
  apply Refines.ite (.refl _)
  apply (Refines.refl _).bind
  rintro ⟨byteOffset, opPtr⟩
  apply (Refines.refl _).bind
  rintro ⟨count, opPtr⟩
  apply Refines.ite (.refl _)
  apply (Refines.refl _).bind
  rintro ⟨diffLen, opPtr⟩
  apply Refines.ite (.refl _)
  apply (Refines.iterM (copyAddBlock_refines m L _ _ _ byteOffset) count 0 _).bind
  exact fun _ => .refl _

theorem applyCounted_refines (b : UInt8) (count opPtr : ℕ) (c : Cursors) :
    Refines (applyCounted m L b count opPtr c) (applyCounted (reliable m.src) L b count opPtr c) := by
  unfold applyCounted
  split
  · exact (forBlocks_refines fun _ => fetch_write_refines m L _).bind fun _ => .refl _
  · apply (Refines.refl _).bind
    rintro ⟨offset, opPtr⟩
    exact (forBlocks_refines (copyRelocateBlock_refines m L _ offset)).bind fun _ => .refl _
  · exact (forBlocks_refines fun _ => writeBlock_refines m _).bind fun _ => .refl _
  · exact (forBlocks_refines fun _ => writeBlock_refines m _).bind fun _ => .refl _
  · exact (Refines.iterM (fun _ => writeLiteral_refines m L) count 0 _).bind fun _ => .refl _
  · exact .refl _

theorem applyOp_refines (c : Cursors) : Refines (applyOp m L c) (applyOp (reliable m.src) L c) := by
  apply (Refines.refl _).bind
  intro b
  apply Refines.ite (applyCopyAdd_refines m L b c)
  apply (Refines.refl _).bind
  rintro ⟨count, opPtr⟩
  exact .ite (.refl _) (applyCounted_refines m L b count opPtr c)

theorem opLoop_refines (fuel : ℕ) (c : Cursors) :
    Refines (opLoop m L fuel c) (opLoop (reliable m.src) L fuel c) := by
  induction fuel generalizing c with
  | zero => exact .refl _
  | succ fuel ih => exact .ite ((applyOp_refines m L c).bind ih) (.refl _)

/-- A success with faults around is the success without them. -/
theorem patchApply_reliable {c : Cursors} {o : Output} (h : patchApply m patch = .ok c o) :
    patchApply (reliable m.src) patch = .ok c o := by
  unfold patchApply at h ⊢
  cases hL : patchLayout patch with
  | error e =>
    rw [hL] at h
    cases h
  | ok L =>
    rw [hL] at h
    have hops : Refines (applyOps m L) (applyOps (reliable m.src) L) :=
      (opLoop_refines m L _ _).bind fun _ => .refl _
    exact hops _ _ _ h

end Fsdiff.Patch
