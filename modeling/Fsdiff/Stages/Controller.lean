import Fsdiff.Stages.Fsmap
import Fsdiff.Stages.Identity
import Fsdiff.Stages.PartialMatch
import Fsdiff.Stages.Relocation

/-! `stage_controller.c`: the four stages in order on one tracker. -/
namespace Fsdiff.Stages
open Exec

/-- What the pipeline reads of `fsd_diff_options_t`, with the values of
`fsd_diff_options_init`. -/
structure DiffOptions where
  blockSizeLog2 : ℕ := 12
  enableIdentity : Bool := true
  enableRelocation : Bool := true
  enablePartial : Bool := true
  partialThreshold : ℚ := 1 / 2
  searchRadius : ℤ := 8
  enableFsmap : Bool := true
deriving DecidableEq

/-- `fsd_stage_controller_t` with what its stages were created with. -/
structure StageController where
  blockSize : ℕ
  enableIdentity : Bool
  enableRelocation : Bool
  enableFsmap : Bool
  enablePartial : Bool
  srcBlocks : ℕ
  thresholdCount : ℕ
  searchRange : ℕ
  tracker : Tracker

/-- `1ULL << opts->block_size_log2` -/
def DiffOptions.blockSize (opts : DiffOptions) : ℕ := 2 ^ opts.blockSizeLog2

/-- `fsd_stage_controller_create`, its allocations succeeding. -/
def controllerCreate (opts : DiffOptions) (srcBlocks destBlocks : ℕ) :
    Except FsdError StageController :=
  if opts.enableRelocation ∧ ¬ opts.enableIdentity then .error .invalidArg
  else do
    let tracker ← Tracker.create destBlocks opts.blockSize
    pure {
      blockSize := opts.blockSize
      enableIdentity := opts.enableIdentity
      enableRelocation := opts.enableRelocation
      enableFsmap := opts.enableFsmap
      enablePartial := opts.enablePartial
      srcBlocks := srcBlocks
      thresholdCount := thresholdCount opts.blockSize opts.partialThreshold
      searchRange := searchRange opts.blockSize opts.searchRadius
      tracker := tracker }

section Run
variable (env : Env) (K : Kernels) (ctrl : StageController) (src dest : Bytes)
variable (index : FsmapIndex ctrl.blockSize src.length (dest.length / ctrl.blockSize))

/-- A stage that may be off: `if (enabled) { if (cancelled) return ..; .. }` -/
def stagePart (enabled : Bool) (body : StageM Unit) : StageM Unit :=
  if enabled then do
    checkCancelled env
    body
  else pure ()

def identityPart : StageM Unit :=
  stagePart env ctrl.enableIdentity <|
    identityStageRun K ctrl.blockSize src dest (src.length / ctrl.blockSize)
      (dest.length / ctrl.blockSize)

def relocationPart : StageM Unit :=
  stagePart env ctrl.enableRelocation <|
    relocationBuildIndex env ctrl.blockSize src ctrl.srcBlocks >>=
      relocationStageRun ctrl.blockSize src dest

def fsmapPart : StageM Unit :=
  stagePart env ctrl.enableFsmap <|
    fsmapBuildIndex ctrl.blockSize src index >>=
      fsmapStageRun env K ctrl.blockSize ctrl.thresholdCount ctrl.searchRange src dest

def partialPart : StageM Unit :=
  stagePart env ctrl.enablePartial <|
    partialStageRun env K ctrl.blockSize ctrl.thresholdCount ctrl.searchRange src dest
      (src.length / ctrl.blockSize)

/-- The parts of `fsd_stage_controller_run`. -/
def stageParts : List (StageM Unit) :=
  [identityPart env K ctrl src dest, relocationPart env ctrl src dest,
    fsmapPart env K ctrl src dest index, partialPart env K ctrl src dest]

def runParts : List (StageM Unit) → StageM Unit
  | [] => pure ()
  | part :: parts => do
    part
    runParts parts

/-- `fsd_stage_controller_run` -/
def controllerRun : StageM Unit := do
  runParts (stageParts env K ctrl src dest index)
  updateTracker Tracker.finalize

def StageController.comparison (ctrl : StageController) (src dest : Bytes) : Comparison :=
  { bs := ctrl.blockSize, threshold := ctrl.thresholdCount, src := src, dest := dest }

end Run

section Soundness
variable {env : Env} {K : Kernels} {ctrl : StageController} {src dest : Bytes}
variable {opts : DiffOptions}

/-- `ctrl` is what `create` makes for two images. -/
structure StageController.For (ctrl : StageController) (src dest : Bytes) : Prop where
  blockSize_pos : 0 < ctrl.blockSize
  srcBlocks_eq : ctrl.srcBlocks = src.length / ctrl.blockSize
  threshold_pos : 0 < ctrl.thresholdCount
  threshold_le : ctrl.thresholdCount ≤ ctrl.blockSize
  sound : Sound (ctrl.comparison src dest) ctrl.tracker

theorem controllerCreate_for (h : controllerCreate opts (src.length / opts.blockSize)
    (dest.length / opts.blockSize) = .ok ctrl) :
    ctrl.blockSize = opts.blockSize ∧ ctrl.For src dest := by
  unfold controllerCreate at h
  split_ifs at h
  cases hcreate : Tracker.create (dest.length / opts.blockSize) opts.blockSize with
  | error e =>
    rw [hcreate] at h
    cases h
  | ok t =>
    rw [hcreate] at h
    cases h
    have hpos : 0 < opts.blockSize := Nat.two_pow_pos _
    obtain ⟨hinv, hcount, _, hblocks⟩ := Tracker.create_spec hcreate
    refine ⟨rfl, hpos, rfl, thresholdCount_pos _ _, thresholdCount_le hpos _, hinv, hcount, ?_⟩
    intro i b hb
    rw [hblocks i b hb]
    trivial

theorem controllerCreate_error {srcBlocks destBlocks : ℕ} {e : FsdError}
    (h : controllerCreate opts srcBlocks destBlocks = .error e) : e = .invalidArg := by
  unfold controllerCreate at h
  split_ifs at h
  · cases h
    rfl
  cases hcreate : Tracker.create destBlocks opts.blockSize with
  | error e' =>
    rw [hcreate] at h
    cases h
    unfold Tracker.create at hcreate
    split_ifs at hcreate
    cases hcreate
    rfl
  | ok t =>
    rw [hcreate] at h
    cases h

/-- Relocation needs the checksums of the identity stage; nothing else is refused. -/
theorem exists_controllerCreate (opts : DiffOptions)
    (hopts : opts.enableRelocation = true → opts.enableIdentity = true)
    (srcBlocks : ℕ) {destBlocks : ℕ} (hd : 0 < destBlocks) :
    ∃ ctrl, controllerCreate opts srcBlocks destBlocks = .ok ctrl := by
  have hpos : 0 < opts.blockSize := Nat.two_pow_pos _
  have hon : ¬ (opts.enableRelocation = true ∧ ¬ opts.enableIdentity = true) :=
    fun h => h.2 (hopts h.1)
  obtain ⟨t, ht⟩ := Tracker.exists_create hd hpos
  rw [controllerCreate, if_neg hon, ht]
  exact ⟨_, rfl⟩

theorem stagePart_advancing {J : Comparison} {enabled : Bool} {body : StageM Unit}
    (h : Advancing J body) : Advancing J (stagePart env enabled body) := by
  apply Advancing.ite
  · intro _
    exact advancing_checkCancelled.bind fun _ => h
  · exact fun _ => advancing_pure ()

theorem relocationPart_advancing (h : ctrl.For src dest) :
    Advancing (ctrl.comparison src dest) (relocationPart env ctrl src dest) := by
  apply stagePart_advancing
  intro w hw
  rw [h.srcBlocks_eq]
  have hbuild := relocationBuildIndex_ends env (ctrl.comparison src dest) w
  apply Ends.bind (hbuild.weaken ?_)
  · intro table w₁ hpost
    obtain ⟨htable, hw₁⟩ := hpost
    have hrun := relocationStageRun_advancing htable w₁ (hw₁ ▸ hw)
    rw [Advances, hw₁] at hrun
    exact hrun
  · intro _ w₁ hw₁
    rw [hw₁]
    exact hw.advances

theorem stageParts_advancing (env : Env) (K : Kernels) (h : ctrl.For src dest)
    (index : FsmapIndex ctrl.blockSize src.length (dest.length / ctrl.blockSize)) :
    ∀ part ∈ stageParts env K ctrl src dest index, Advancing (ctrl.comparison src dest) part := by
  intro part hpart
  simp only [stageParts, List.mem_cons, List.not_mem_nil, or_false] at hpart
  rcases hpart with rfl | rfl | rfl | rfl
  · apply stagePart_advancing
    exact identityStageRun_advancing K (ctrl.comparison src dest)
  · exact relocationPart_advancing h
  · apply stagePart_advancing
    exact fsmapStage_advancing (J := ctrl.comparison src dest) h.blockSize_pos h.threshold_pos
      h.threshold_le index
  · apply stagePart_advancing
    exact partialStageRun_advancing (J := ctrl.comparison src dest) h.blockSize_pos h.threshold_pos

theorem runParts_advancing {J : Comparison} {parts : List (StageM Unit)}
    (h : ∀ part ∈ parts, Advancing J part) : Advancing J (runParts parts) := by
  induction parts with
  | nil => exact advancing_pure ()
  | cons part parts ih =>
    unfold runParts
    apply Advancing.bind
    · exact h part List.mem_cons_self
    · exact fun _ => ih fun p hp => h p (List.mem_cons_of_mem _ hp)

/-- After any number of parts the tracker says only what is true of the images, also when
a part stopped with an error, and the part that comes next keeps every match it finds.
This is so for all options that `create` accepts, and whatever memory and cancel flags
do. -/
theorem stageParts_truthful (env : Env) (K : Kernels) (opts : DiffOptions) (src dest : Bytes)
    (hcreate : controllerCreate opts (src.length / opts.blockSize) (dest.length / opts.blockSize) =
      .ok ctrl)
    (index : FsmapIndex ctrl.blockSize src.length (dest.length / ctrl.blockSize)) (n : ℕ) :
    Ends (runParts ((stageParts env K ctrl src dest index).take n) { tracker := ctrl.tracker })
      (fun _ w => Sound (ctrl.comparison src dest) w.tracker ∧
        ∀ part, (stageParts env K ctrl src dest index)[n]? = some part →
          Advances (ctrl.comparison src dest) w (part w))
      (fun _ w => Sound (ctrl.comparison src dest) w.tracker) := by
  obtain ⟨_, hfor⟩ := controllerCreate_for hcreate
  have hparts := stageParts_advancing env K hfor index
  have hrun : Advancing (ctrl.comparison src dest)
      (runParts ((stageParts env K ctrl src dest index).take n)) :=
    runParts_advancing fun part hpart => hparts part (List.mem_of_mem_take hpart)
  apply (hrun { tracker := ctrl.tracker } hfor.sound).mono
  · intro _ w hw
    refine ⟨hw.1, ?_⟩
    intro part hpart
    exact hparts part (List.mem_of_getElem? hpart) w hw.1
  · exact fun _ _ hw => hw.1

/-- The second of two blocks moved. Without memory for its entry in the hash table it is left to the
partial stage, and without memory for the table itself the run ends there. -/
theorem stageParts_truthful_twoBlocks :
    let opts : DiffOptions := { blockSizeLog2 := 5 }
    let src : Bytes := List.replicate 40 7
    let dest : Bytes := List.replicate 32 0 ++ List.replicate 32 7
    ∃ ctrl, controllerCreate opts (src.length / opts.blockSize) (dest.length / opts.blockSize) = .ok ctrl ∧
      (∃ w, runParts ((stageParts ⟨fun n => n ≠ 2, fun _ => false⟩ scalarKernels ctrl src dest
            (.inactive _ _ _)).take 4) { tracker := ctrl.tracker } = .ok () w ∧
        w.tracker.blocks.map (·.matchType) = [.zero, .partialMatch] ∧ Sound (ctrl.comparison src dest) w.tracker) ∧
      ∃ w, runParts ((stageParts ⟨fun n => n ≠ 1, fun _ => false⟩ scalarKernels ctrl src dest
            (.inactive _ _ _)).take 4) { tracker := ctrl.tracker } = .error .outOfMemory w ∧
        w.tracker.blocks.map (·.matchType) = [.zero, .none] ∧ Sound (ctrl.comparison src dest) w.tracker := by
  intro opts src dest
  obtain ⟨ctrl, hcreate, heval⟩ := exists_ok_of_any
    (x := controllerCreate opts (src.length / opts.blockSize) (dest.length / opts.blockSize))
    (fun ctrl =>
      let out := fun refused : ℕ => ending (runParts ((stageParts ⟨fun n => n ≠ refused, fun _ => false⟩
        scalarKernels ctrl src dest (.inactive _ _ _)).take 4) { tracker := ctrl.tracker })
      ((out 2).1 = .ok () ∧ (out 2).2.tracker.blocks.map (·.matchType) = [.zero, .partialMatch]) ∧
        (out 1).1 = .error .outOfMemory ∧ (out 1).2.tracker.blocks.map (·.matchType) = [.zero, .none])
    (by decide +kernel)
  obtain ⟨⟨hok, hfound⟩, herror, hleft⟩ := of_decide_eq_true heval
  have hsound := fun env => stageParts_truthful env scalarKernels opts src dest hcreate (.inactive _ _ _) 4
  have hrun := eq_ok_of_ending hok
  have hstopped := eq_error_of_ending herror
  exact ⟨ctrl, hcreate, ⟨_, hrun, hfound, ((hsound _).of_ok hrun).1⟩, _, hstopped, hleft,
    (hsound _).of_error hstopped⟩

end Soundness

end Fsdiff.Stages
