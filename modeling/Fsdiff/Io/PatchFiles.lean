import Fsdiff.Data.Stdio
import Fsdiff.Io.Path
import Fsdiff.Patch.Safety

/-! `fsd_patch_apply` with the files around the decoder. The result of the last `fclose` is not
looked at, and one exit behind `fopen` leaves the file that it created. -/
namespace Fsdiff.Io
open ByteString Exec Patch

/-- What may fail around a run: opening the source and the patch, `fopen`, the allocation of
`block_buf`, reads and writes, and the last `fclose`. Of the bytes that `fwrite` has taken,
`drained` have left the buffer before that. -/
structure PatchSurroundings where
  sourceOpen : Option FsdError
  patchOpen : Option FsdError
  fopen : Bool
  blockBufMemory : Bool
  machine : Machine
  drained : ℕ
  close : Stdio.Answer

/-- How a run ends: the code, what the output path names then, and whether it was opened. -/
structure PatchOutcome where
  result : Except Stop Unit
  output : Path
  opened : Bool

section Run
variable (S : PatchSurroundings)

/-- What `fclose(output)` makes of the bytes that were taken. -/
def closeOutput (written : Bytes) : Bool × Bytes :=
  Stdio.Stream.fclose ⟨written.take S.drained, fun _ => S.close, written.drop S.drained, 0, false⟩

/-- From `fopen(output_path, "wb")` on. -/
def applyToFile {patch : Bytes} (L : Layout patch) (out : Path) : PatchOutcome :=
  if S.fopen = false then ⟨.error (.fail .io), out, false⟩
  else if S.blockBufMemory = false then
    ⟨.error (.fail .outOfMemory), out.opened (closeOutput S []).2, true⟩
  else
    match applyOps S.machine L {} with
    | .ok _ o => ⟨.ok (), out.opened (closeOutput S o.written).2, true⟩
    | .error e o => ⟨.error e, out.removed (closeOutput S o.written).2, true⟩

/-- `fsd_patch_apply` -/
def patchApply (patch : Bytes) (out : Path) : PatchOutcome :=
  match S.sourceOpen with
  | some e => ⟨.error (.fail e), out, false⟩
  | none =>
    match S.patchOpen with
    | some e => ⟨.error (.fail e), out, false⟩
    | none =>
      match patchLayout patch with
      | .error e => ⟨.error (.fail e), out, false⟩
      | .ok L => applyToFile S L out

end Run

section Close
variable {S : PatchSurroundings}

/-- A close that succeeds loses nothing, and one that fails loses what was still buffered and
it did not write. -/
theorem closeOutput_eq_iff (written : Bytes) :
    (closeOutput S written).2 = written ↔
      S.close.ok = true ∨ written.length ≤ S.drained + S.close.moved := by
  unfold closeOutput Stdio.Stream.fclose Stdio.Stream.fflush
  dsimp only
  split_ifs with hok
  · simp [hok]
  · have htake : written.take S.drained ++ (written.drop S.drained).take S.close.moved =
        written.take (S.drained + S.close.moved) := (List.take_add).symm
    rw [htake, List.take_eq_self_iff]
    simp [hok]

theorem patchApply_steps {patch : Bytes} {out : Path} (h : (patchApply S patch out).result = .ok ()) :
    ∃ L c o, patchLayout patch = .ok L ∧ applyOps S.machine L {} = .ok c o ∧
      patchApply S patch out = ⟨.ok (), out.opened (closeOutput S o.written).2, true⟩ := by
  unfold patchApply at h ⊢
  cases hsource : S.sourceOpen with
  | some e => simp [hsource] at h
  | none =>
    cases hpatch : S.patchOpen with
    | some e => simp [hsource, hpatch] at h
    | none =>
      cases hL : patchLayout patch with
      | error e => simp [hsource, hpatch, hL] at h
      | ok L =>
        simp only [hsource, hpatch, hL] at h ⊢
        unfold applyToFile at h ⊢
        split_ifs at h ⊢
        cases hrun : applyOps S.machine L {} with
        | error e o => simp [hrun] at h
        | ok c o => exact ⟨L, c, o, rfl, hrun, rfl⟩

end Close

/-- After a run that reports success the output holds the image that the decoder produced
exactly if the last `fclose` succeeded or had nothing left to lose. -/
theorem patchApply_complete_iff (S : PatchSurroundings) (patch : Bytes) (out : Path)
    (h : (patchApply S patch out).result = .ok ()) :
    ∃ L c o, patchLayout patch = .ok L ∧ applyOps S.machine L {} = .ok c o ∧
      o.written.length = L.destBlocks * L.blockSize ∧
      ((patchApply S patch out).output.contents = o.written ↔
        S.close.ok = true ∨ L.destBlocks * L.blockSize ≤ S.drained + S.close.moved) := by
  obtain ⟨L, c, o, hL, hrun, heq⟩ := patchApply_steps h
  have hlen : o.written.length = L.destBlocks * L.blockSize := applyOps_ends.of_ok hrun
  refine ⟨L, c, o, hL, hrun, hlen, ?_⟩
  rw [heq, Path.opened_contents, closeOutput_eq_iff, hlen]

/-- Nothing fails but, perhaps, the last `fclose`; all is still in the buffer then. -/
def undrained (close : Stdio.Answer) : PatchSurroundings where
  sourceOpen := none
  patchOpen := none
  fopen := true
  blockBufMemory := true
  machine := reliable []
  drained := 0
  close := close

theorem patchApply_complete_zeroBlockPatch :
    (patchApply (undrained ⟨true, 0⟩) zeroBlockPatch ⟨.missing, []⟩).result = .ok () ∧
      ∃ L c o, patchLayout zeroBlockPatch = .ok L ∧ applyOps (reliable []) L {} = .ok c o ∧
        (patchApply (undrained ⟨true, 0⟩) zeroBlockPatch ⟨.missing, []⟩).output.contents = o.written := by
  have hok : (patchApply (undrained ⟨true, 0⟩) zeroBlockPatch ⟨.missing, []⟩).result = .ok () := rfl
  obtain ⟨L, c, o, hL, hrun, -, hiff⟩ := patchApply_complete_iff _ _ _ hok
  exact ⟨hok, L, c, o, hL, hrun, hiff.mpr (.inl rfl)⟩

/-- A block of zeros is reported as written, and the file is empty. -/
theorem patchApply_close_loses :
    (patchApply (undrained ⟨false, 0⟩) zeroBlockPatch ⟨.missing, []⟩).result = .ok () ∧
      (patchApply (undrained ⟨false, 0⟩) zeroBlockPatch ⟨.missing, []⟩).output = ⟨.regular, []⟩ ∧
      ∃ L c o, patchLayout zeroBlockPatch = .ok L ∧ applyOps (reliable []) L {} = .ok c o ∧
        o.written = List.replicate 32 0 ∧ L.destBlocks * L.blockSize = 32 := by
  refine ⟨rfl, rfl, ⟨⟨5, 1, 1, 0, by decide, by decide⟩, by decide, by decide⟩, ⟨33, 33, 33, 1⟩,
    ⟨List.replicate 32 0, 0, 1, [32], [], []⟩, rfl, rfl, rfl, rfl⟩

/-! ### What a failed run leaves -/

/-- No partial output: after an error behind `fopen` a file that may be removed is gone, and a
file of another kind is never removed. -/
def LeavesNothing (r : PatchOutcome) (out : Path) : Prop :=
  (∀ e, r.result = .error e → r.opened = true → out.kind ≠ .other → r.output.kind = .missing) ∧
    (out.kind = .other → r.output.kind = .other)

section Leaves
variable {S : PatchSurroundings} {out : Path}

theorem leavesNothing_unopened (e : Stop) : LeavesNothing ⟨.error e, out, false⟩ out := by
  constructor
  · intro _ _ hopened
    cases hopened
  · exact fun h => h

/-- Only the exit for want of `block_buf` forgets the file. -/
theorem applyToFile_leavesNothing_iff {patch : Bytes} (L : Layout patch) :
    LeavesNothing (applyToFile S L out) out ↔
      S.fopen = false ∨ S.blockBufMemory = true ∨ out.kind = .other := by
  unfold applyToFile
  by_cases hopen : S.fopen = false
  · rw [if_pos hopen]
    simp only [hopen, true_or, iff_true]
    exact leavesNothing_unopened _
  rw [if_neg hopen]
  by_cases hmem : S.blockBufMemory = false
  · rw [if_pos hmem]
    constructor
    · intro h
      by_contra hcond
      simp only [not_or] at hcond
      exact Path.opened_kind_ne_missing (h.1 _ rfl rfl hcond.2.2)
    · intro hcond
      have hother : out.kind = .other := by simpa [hopen, hmem] using hcond
      constructor
      · exact fun _ _ _ hne => absurd hother hne
      · exact Path.opened_kind_other
  · rw [if_neg hmem]
    have htrue : S.blockBufMemory = true := by simpa using hmem
    simp only [htrue, true_or, or_true, iff_true]
    cases applyOps S.machine L {} with
    | ok c o =>
      constructor
      · intro _ he
        cases he
      · exact Path.opened_kind_other
    | error e o =>
      constructor
      · exact fun _ _ _ => Path.removed_kind_missing
      · exact Path.removed_kind_other

end Leaves

/-- A run leaves no partial output exactly if it does not get to the allocation of `block_buf`
with a file that could be removed, or that allocation succeeds. -/
theorem patchApply_leavesNothing_iff (S : PatchSurroundings) (patch : Bytes) (out : Path) :
    LeavesNothing (patchApply S patch out) out ↔
      S.sourceOpen ≠ none ∨ S.patchOpen ≠ none ∨ (∃ e, patchLayout patch = .error e) ∨
        S.fopen = false ∨ S.blockBufMemory = true ∨ out.kind = .other := by
  unfold patchApply
  cases S.sourceOpen with
  | some e => simpa using leavesNothing_unopened (.fail e)
  | none =>
    cases S.patchOpen with
    | some e => simpa using leavesNothing_unopened (.fail e)
    | none =>
      cases hL : patchLayout patch with
      | error e => simpa using leavesNothing_unopened (.fail e)
      | ok L => simpa using applyToFile_leavesNothing_iff L

/-- `malloc(block_size)` fails: the file that `fopen` created is left behind. -/
theorem patchApply_leaves_empty_file :
    (patchApply { undrained ⟨true, 0⟩ with blockBufMemory := false } zeroBlockPatch
        ⟨.missing, []⟩).result = .error (.fail .outOfMemory) ∧
      (patchApply { undrained ⟨true, 0⟩ with blockBufMemory := false } zeroBlockPatch
        ⟨.missing, []⟩).output = ⟨.regular, []⟩ ∧
      ¬ LeavesNothing (patchApply { undrained ⟨true, 0⟩ with blockBufMemory := false } zeroBlockPatch
        ⟨.missing, []⟩) ⟨.missing, []⟩ := by
  refine ⟨rfl, rfl, ?_⟩
  intro h
  have hgone := h.1 (.fail .outOfMemory) rfl rfl (by decide)
  exact absurd hgone (by decide)

end Fsdiff.Io
