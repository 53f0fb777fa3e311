import Fsdiff.Diff
import Fsdiff.Io.SourceReader
import Fsdiff.Stages.Cancellation
import Fsdiff.Stages.Hypotheses

/-! `fsd_diff_files` over the two backends of the source reader. A pointer is the bytes that can
be read behind it, and `none` is `NULL`. -/
namespace Fsdiff.Io
open Exec Pread Stages

/-- `FSD_SOURCE_MMAP` and `FSD_SOURCE_DIRECT` -/
inductive Backend where
  | mmap | direct
  deriving DecidableEq, Repr

/-- How the direct reader is opened, and the turns that its loops may take. -/
structure DirectSetup where
  sector : ℕ
  scratch : Bytes
  fuel : ℕ

/-- `fsd_source_reader_data` on a reader that has just been opened. -/
def sourceData (src : Source) (setup : DirectSetup) : Backend → Except ReadFault (Option Bytes)
  | .mmap => .ok (mmapData src.file)
  | .direct =>
    match directData src setup.fuel (openDirect src setup.sector setup.scratch) with
    | .ok buf _ => .ok (some buf)
    | .error e _ => .error e

/-- The filesystem index of two images. A file is never longer than an `off_t` can say. -/
def imagesIndex (src dest : Bytes) (bs : ℕ) : FsmapIndex bs src.length (dest.length / bs) :=
  if h : src.length ≤ int64Max ∧ dest.length ≤ int64Max then .ofImages h.1 h.2 bs
  else .inactive bs src.length (dest.length / bs)

section Run
variable (env : Stages.Env) (encoderEnv : Encoder.Env) (K : Kernels) (opts : DiffOptions)

/-- From the stages to the patch. -/
def diffStaged (ctrl : StageController) (src dest : Bytes) : Except FsdError Bytes :=
  match controllerRun env K ctrl src dest (imagesIndex src dest ctrl.blockSize)
      { tracker := ctrl.tracker } with
  | .error e _ => .error e
  | .ok _ w =>
    match Encoder.encode encoderEnv opts.blockSize w.tracker dest {} with
    | .error e _ => .error e
    | .ok _ s => .ok (Encoder.patchFile opts.blockSizeLog2 (dest.length / opts.blockSize) s)

/-- `fsd_diff_files` from the size check on, with the check at the head of
`fsd_stage_controller_run`. The stages stay within the sizes that they are given. -/
def diffMapped (srcData : Option Bytes) (srcSize : ℕ) (destData : Option Bytes) (destSize : ℕ) :
    Except FsdError Bytes :=
  if destSize % opts.blockSize ≠ 0 then .error .sizeMismatch
  else
    match controllerCreate opts (srcSize / opts.blockSize) (destSize / opts.blockSize) with
    | .error e => .error e
    | .ok ctrl =>
      match srcData, destData with
      | some srcData, some destData =>
        diffStaged env encoderEnv K opts ctrl (srcData.take srcSize) (destData.take destSize)
      | _, _ => .error .invalidArg

/-- `fsd_diff_create` and `fsd_diff_files` with a source mode. -/
def diffThrough (src : Source) (setup : DirectSetup) (dest : Bytes) (backend : Backend) :
    Except ReadFault Bytes :=
  if opts.blockSizeLog2 < 5 ∨ 24 < opts.blockSizeLog2 then .error (.code .badBlockSize)
  else
    match sourceData src setup backend with
    | .error e => .error e
    | .ok srcData =>
      match diffMapped env encoderEnv K opts srcData src.file.length (mmapData dest) dest.length with
      | .error e => .error (.code e)
      | .ok patch => .ok patch

end Run

section Data
variable {src : Source} {setup : DirectSetup}

/-- Nothing fails around the source, and its reads are interrupted finitely often. -/
structure Source.Reliable (src : Source) : Prop where
  answers_ne : ∀ n, src.answers n ≠ .failed
  interrupted : ∃ N, ∀ n, N ≤ n → src.answers n ≠ .interrupted
  memory : ∀ n, src.memory n = true

/-- The direct reader hands out a buffer that begins with the file, also for an empty one. -/
theorem sourceData_direct (h : src.Reliable) (hsize : src.file.length < 2 ^ 63) {sector : ℕ}
    (hsector : sector < 2 ^ 31) (scratch : Bytes) :
    ∃ bound, ∀ fuel, bound ≤ fuel → ∃ buf, sourceData src ⟨sector, scratch, fuel⟩ .direct = .ok (some buf) ∧
      buf.take src.file.length = src.file := by
  obtain ⟨N, hfin⟩ := h.interrupted
  obtain ⟨k, hk, halign⟩ := exists_checkedAlignment (show 12 ≤ 31 by decide) hsector.le
  refine ⟨src.file.length + 2 ^ k + N + 1, ?_⟩
  intro fuel hfuel
  have hdata := @directData_makes src (openDirect src sector scratch) N fuel rfl k hk halign nofun hsize
    hfin (show src.file.length + 2 ^ k + N < fuel by omega)
  unfold sourceData
  dsimp only
  cases hrun : directData src fuel (openDirect src sector scratch) with
  | ok buf r => exact ⟨buf, rfl, (hdata.of_ok hrun).1⟩
  | error e r =>
    rcases (hdata.of_error hrun).1 with ⟨_, j, _, _, hfailed⟩ | ⟨_, hrefused⟩
    · exact absurd hfailed (h.answers_ne j)
    · rw [h.memory] at hrefused
      cases hrefused

end Data

section Errors
variable {K : Kernels} {opts : DiffOptions}

theorem imagesIndex_error {src dest : Bytes} {bs : ℕ} {t : Tracker} {e : FsdError}
    (h : (imagesIndex src dest bs).build t = .error e) : e = .outOfMemory := by
  unfold imagesIndex at h
  split_ifs at h with hsize
  · unfold FsmapIndex.ofImages at h
    split_ifs at h with hbs
    · change fsmapStageBuildIndex bs src dest t = .error e at h
      unfold fsmapStageBuildIndex at h
      split at h
      · cases h
      · cases h
      · split at h
        · cases h
          rfl
        · split at h
          · cases h
            rfl
          · cases h
    · cases h
  · cases h

def calm : Stages.Env := ⟨fun _ => true, fun _ => false⟩

theorem diffStaged_ne_invalidArg {encoderEnv : Encoder.Env} (henc : ¬ encoderEnv.Faulty)
    (ctrl : StageController) (src dest : Bytes) :
    diffStaged calm encoderEnv K opts ctrl src dest ≠ .error .invalidArg := by
  have hrun : Stops _ (controllerRun calm K ctrl src dest (imagesIndex src dest ctrl.blockSize)) :=
    controllerRun_stops (E := (· = .outOfMemory)) (fun _ => rfl) fun _ _ => imagesIndex_error
  unfold diffStaged
  split
  · next e w hw =>
    intro heq
    cases heq
    rcases (hrun _).of_error hw with h | ⟨h, _⟩ <;> cases h
  · next w hw =>
    split
    · next e s hs =>
      intro heq
      cases heq
      rcases (Encoder.encode_stops w.tracker {}).of_error hs with h | ⟨n, hn⟩
      · cases h
      · exact henc (.inr ⟨n, by simp [hn]⟩)
    · exact nofun

/-- Where both pointers are there, this is the diff of two images. -/
theorem diffMapped_eq {env : Stages.Env} {encoderEnv : Encoder.Env} {src dest srcData : Bytes}
    (hlog : ¬ (opts.blockSizeLog2 < 5 ∨ 24 < opts.blockSizeLog2))
    (hsrc : srcData.take src.length = src) :
    diffMapped env encoderEnv K opts (some srcData) src.length (some dest) dest.length =
      Fsdiff.diffFiles env encoderEnv K opts src dest (imagesIndex src dest) := by
  unfold diffMapped
  dsimp only
  rw [hsrc, List.take_length]
  unfold Fsdiff.diffFiles encodeImages
  rw [if_neg hlog]
  split_ifs
  · rfl
  cases controllerCreate opts (src.length / opts.blockSize) (dest.length / opts.blockSize) with
  | error e => rfl
  | ok ctrl =>
    dsimp only
    unfold diffStaged
    cases controllerRun env K ctrl src dest (imagesIndex src dest ctrl.blockSize) { tracker := ctrl.tracker } with
    | error e w => rfl
    | ok _ w =>
      dsimp only
      cases Encoder.encode encoderEnv opts.blockSize w.tracker dest {} with
      | error e s => rfl
      | ok _ s => rfl

end Errors

/-- Both backends give the same code and the same patch if the source is not empty, and only
then: the mapping of an empty file is `NULL`, which the stages refuse. -/
theorem diffThrough_agree_iff (K : Kernels) (opts : DiffOptions) (hlo : 5 ≤ opts.blockSizeLog2)
    (hhi : opts.blockSizeLog2 ≤ 24) (hopts : opts.enableRelocation = true → opts.enableIdentity = true)
    (src : Source) (hsrc : src.Reliable) (hsize : src.file.length < 2 ^ 63) {sector : ℕ}
    (hsector : sector < 2 ^ 31) (scratch dest : Bytes) (hdest : dest ≠ [])
    (hmod : dest.length % opts.blockSize = 0) :
    ∃ bound, ∀ fuel, bound ≤ fuel →
      (diffThrough calm Encoder.faultless K opts src ⟨sector, scratch, fuel⟩ dest .mmap =
          diffThrough calm Encoder.faultless K opts src ⟨sector, scratch, fuel⟩ dest .direct ↔
        src.file ≠ []) := by
  obtain ⟨bound, hdirect⟩ := sourceData_direct hsrc hsize hsector scratch
  refine ⟨bound, ?_⟩
  intro fuel hfuel
  obtain ⟨buf, hbuf, htake⟩ := hdirect fuel hfuel
  have hlog : ¬ (opts.blockSizeLog2 < 5 ∨ 24 < opts.blockSizeLog2) := by omega
  have hlen : 0 < dest.length := List.length_pos_of_ne_nil hdest
  have hmap : mmapData dest = some dest := if_neg hlen.ne'
  have hmmap : sourceData src ⟨sector, scratch, fuel⟩ .mmap = .ok (mmapData src.file) := rfl
  unfold diffThrough
  rw [if_neg hlog, if_neg hlog, hbuf, hmmap, hmap]
  dsimp only
  constructor
  · intro heq hempty
    have hblocks : 0 < dest.length / opts.blockSize :=
      Nat.div_pos (Nat.le_of_dvd hlen (Nat.dvd_of_mod_eq_zero hmod)) (Nat.two_pow_pos _)
    obtain ⟨ctrl, hctrl⟩ := exists_controllerCreate opts hopts (src.file.length / opts.blockSize) hblocks
    have hnull : mmapData src.file = none := by rw [hempty]; rfl
    have hne := @diffStaged_ne_invalidArg K opts Encoder.faultless Encoder.not_faulty_faultless ctrl
      (buf.take src.file.length) (dest.take dest.length)
    unfold diffMapped at heq
    simp only [hnull, hctrl, if_neg (not_not.mpr hmod)] at heq
    split at heq
    · next e hdirect =>
      cases heq
      exact hne hdirect
    · cases heq
  · intro hne
    have hpos : 0 < src.file.length := List.length_pos_of_ne_nil hne
    have hsome : mmapData src.file = some src.file := if_neg hpos.ne'
    rw [hsome, diffMapped_eq hlog htake, diffMapped_eq hlog List.take_length]

/-- Seven bytes, read two at a time after an interruption. -/
def shortSource : Source :=
  ⟨[1, 2, 3, 4, 5, 6, 7], fun n => if n = 0 then .interrupted else .upTo 2, fun _ => true⟩

theorem shortSource_reliable : shortSource.Reliable := by
  refine ⟨?_, ⟨1, ?_⟩, fun _ => rfl⟩
  · intro n
    by_cases hn : n = 0
    · rw [show shortSource.answers n = .interrupted from if_pos hn]
      exact nofun
    · rw [show shortSource.answers n = .upTo 2 from if_neg hn]
      exact nofun
  · intro n hn
    rw [show shortSource.answers n = .upTo 2 from if_neg (by omega)]
    exact nofun

theorem diffThrough_agree_iff_shortSource :
    ∃ bound, ∀ fuel, bound ≤ fuel →
      (diffThrough calm Encoder.faultless scalarKernels { blockSizeLog2 := 5 } shortSource
            ⟨512, List.replicate (2 ^ 20) 0, fuel⟩ (List.replicate 32 7) .mmap =
          diffThrough calm Encoder.faultless scalarKernels { blockSizeLog2 := 5 } shortSource
            ⟨512, List.replicate (2 ^ 20) 0, fuel⟩ (List.replicate 32 7) .direct ↔
        shortSource.file ≠ []) :=
  diffThrough_agree_iff scalarKernels { blockSizeLog2 := 5 } (by decide) (by decide) (fun _ => rfl)
    shortSource shortSource_reliable (by decide) (by decide) _ _ (by decide) (by decide)

/-- Nothing against a zero block: an invalid argument to one backend, a patch to the other. -/
theorem diffThrough_disagree :
    let src : Source := ⟨[], fun _ => .upTo 1, fun _ => true⟩
    diffThrough calm Encoder.faultless scalarKernels { blockSizeLog2 := 5 } src ⟨512, List.replicate (2 ^ 20) 0, 1⟩
        (List.replicate 32 0) .mmap = .error (.code .invalidArg) ∧
      diffThrough calm Encoder.faultless scalarKernels { blockSizeLog2 := 5 } src ⟨512, List.replicate (2 ^ 20) 0, 1⟩
        (List.replicate 32 0) .direct = .ok (Encoder.patchFile 5 1 { op := [0x58] }) := by
  decide +kernel

end Fsdiff.Io
