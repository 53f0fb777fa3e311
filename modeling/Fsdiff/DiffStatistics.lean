import Fsdiff.DiffSize
import Fsdiff.Encoding.Statistics
import Fsdiff.Stages.Progress

/-! The statistics that `fsd_diff_files` publishes, against the patch that it writes. -/
namespace Fsdiff
open ByteString Exec Stages

/-- `fsd_diff_stats_t` without the time. -/
structure DiffStats where
  totalBlocks : ℕ
  identityMatches : ℕ
  relocateMatches : ℕ
  partialMatches : ℕ
  zeroBlocks : ℕ
  oneBlocks : ℕ
  literalBlocks : ℕ
  patchSize : ℕ
deriving DecidableEq, Repr

/-- `ctx->stats`, as it is updated behind the last `fclose`. -/
def statsOf (t : Tracker) (destBlocks : ℕ) (s : Encoder.Streams) : DiffStats where
  totalBlocks := destBlocks
  identityMatches := t.identityCount
  relocateMatches := t.relocateCount
  partialMatches := t.partialCount
  zeroBlocks := t.zeroCount
  oneBlocks := t.oneCount
  literalBlocks := t.literalCount
  patchSize := headerSize + s.op.length + s.diff.length + s.lit.length

def DiffStats.blocks (stats : DiffStats) : MatchType → ℕ
  | .identity => stats.identityMatches
  | .relocate => stats.relocateMatches
  | .partialMatch => stats.partialMatches
  | .zero => stats.zeroBlocks
  | .one => stats.oneBlocks
  | .none => stats.literalBlocks

/-- `fsd_diff_files` with the statistics. -/
def diffFilesStats (env : Stages.Env) (encoderEnv : Encoder.Env) (K : Kernels) (opts : DiffOptions)
    (src dest : Bytes) (index : ∀ bs, FsmapIndex bs src.length (dest.length / bs)) :
    Except FsdError (Bytes × DiffStats) := do
  let (t, s) ← encodeImages env encoderEnv K opts src dest index
  let destBlocks := dest.length / opts.blockSize
  pure (Encoder.patchFile opts.blockSizeLog2 destBlocks s, statsOf t destBlocks s)

/-- The operations of a patch, by the length that its header gives. -/
def operationBytes (patch : Bytes) : Bytes := window patch headerSize (leNat (window patch 16 8))

theorem operationBytes_patchFile {log2 destBlocks : ℕ} {s : Encoder.Streams} (h : s.op.length < 2 ^ 64) :
    operationBytes (Encoder.patchFile log2 destBlocks s) = s.op := by
  unfold operationBytes Encoder.patchFile
  rw [(headerWrite_lengths _ _ _ _ _).1, leNat_leBytes_of_lt h, window,
    List.drop_left' (length_headerWrite _ _ _ _), List.take_left' rfl]

section Pipeline
variable {env : Stages.Env} {encoderEnv : Encoder.Env} {K : Kernels} {opts : DiffOptions}
variable {src dest : Bytes} {index : ∀ bs, FsmapIndex bs src.length (dest.length / bs)}

theorem diffFilesStats_steps {patch : Bytes} {stats : DiffStats}
    (h : diffFilesStats env encoderEnv K opts src dest index = .ok (patch, stats)) :
    ∃ t s, encodeImages env encoderEnv K opts src dest index = .ok (t, s) ∧
      patch = Encoder.patchFile opts.blockSizeLog2 (dest.length / opts.blockSize) s ∧
      stats = statsOf t (dest.length / opts.blockSize) s := by
  unfold diffFilesStats at h
  cases hrun : encodeImages env encoderEnv K opts src dest index with
  | error e =>
    rw [hrun] at h
    cases h
  | ok ts =>
    obtain ⟨t, s⟩ := ts
    rw [hrun] at h
    cases h
    exact ⟨t, s, rfl, rfl, rfl⟩

/-- After a run that succeeds every counter is the number of blocks of its type. -/
theorem controllerRun_finalized {ctrl : StageController} {w : World}
    (hcreate : controllerCreate opts (src.length / opts.blockSize) (dest.length / opts.blockSize) = .ok ctrl)
    {index : FsmapIndex ctrl.blockSize src.length (dest.length / ctrl.blockSize)}
    (hw : controllerRun env K ctrl src dest index { tracker := ctrl.tracker } = .ok () w) :
    w.tracker.Finalized := by
  obtain ⟨-, htracker⟩ := tracker_of_controllerCreate hcreate
  obtain ⟨calls, hcalls⟩ := (controllerRun_calls env K ctrl src dest index _).of_ok hw
  obtain ⟨hcons, -⟩ := Tracker.runCalls_consistent (Tracker.create_consistent htracker) calls
  rw [hcalls]
  exact (hcons.finalize 0).1

theorem Stages.Recorded.reachable {J : Comparison} {i : ℕ} {b : BlockState} (h : Recorded J i b)
    (hbs : 0 < J.bs) (hi : i < J.destBlocks) (hsrc : J.src.length ≤ 2 ^ 31) (hdest : J.dest.length ≤ 2 ^ 31) :
    Encoder.Reachable J.bs i b := by
  have hblock : i * J.bs + J.bs ≤ J.dest.length := by
    rw [← Nat.succ_mul]
    exact (Nat.mul_le_mul_right _ hi).trans (Nat.div_mul_le_self _ _)
  cases hty : b.matchType with
  | relocate =>
    have hsrcBlocks : J.srcBlocks ≤ J.src.length := Nat.div_le_self _ _
    have hdestBlocks : J.destBlocks ≤ J.dest.length := Nat.div_le_self _ _
    exact reachable_of_recorded h (by omega) (by omega) hty J.bs
  | partialMatch =>
    simp only [Recorded, hty] at h
    obtain ⟨-, -, p, hp, ⟨hin, -⟩, -⟩ := h
    have hwindow : Encoder.windowPos J.bs b = p := hp.symm
    have hdistance : Encoder.byteDistance J.bs i b = (p : ℤ) - (i * J.bs : ℕ) := by
      rw [Encoder.byteDistance_eq (by omega) (by omega) (by omega), hwindow]
    simp only [Encoder.Reachable, hty, hdistance]
    omega
  | _ => simp [Encoder.Reachable, hty]

/-- The counts of the operations are the counters of the tracker. -/
theorem storedBlocks_eq_counter {t : Tracker} {bs : ℕ} {s : Encoder.Streams} (hfinal : t.Finalized)
    (hs : Encoder.encode encoderEnv bs t dest {} = .ok () s) (hcount : t.count < 2 ^ 32)
    (hreach : ∀ i b, t.get i = some b → Encoder.Reachable bs i b) (ty : MatchType) :
    Encoder.storedBlocks (Encoder.operationFor ty) s.op = t.counter ty := by
  apply (Encoder.storedBlocks_iff ty hfinal hs ((Encoder.forall_reachable_iff bs t.blocks).mpr hreach)).mpr
  intro r hr _
  rw [Encoder.decodedCount_eq_iff]
  have hle : r.1 + Encoder.runCount bs t.blocks r.1 r.2 ≤ t.blocks.length :=
    Encoder.runCount_le (Encoder.mem_runs hr)
  have hlength : t.count = t.blocks.length := rfl
  omega

theorem blocks_statsOf (t : Tracker) (destBlocks : ℕ) (s : Encoder.Streams) (ty : MatchType) :
    (statsOf t destBlocks s).blocks ty = t.counter ty := by
  cases ty <;> rfl

/-- The statistics of a diff that succeeds: the blocks are those of the destination, the count of every
type is the number of blocks that were matched so, which makes all of them, the size is that of the
patch, and for images of at most `2^31` bytes the counts are also those of the blocks that the patch
stores. -/
theorem diffFilesStats_agree (env : Stages.Env) (encoderEnv : Encoder.Env) (K : Kernels) (opts : DiffOptions)
    (src dest : Bytes) (index : ∀ bs, FsmapIndex bs src.length (dest.length / bs)) (patch : Bytes)
    (stats : DiffStats) (h : diffFilesStats env encoderEnv K opts src dest index = .ok (patch, stats)) :
    diffFiles env encoderEnv K opts src dest index = .ok patch ∧
      stats.totalBlocks * opts.blockSize = dest.length ∧
      (∃ t s, encodeImages env encoderEnv K opts src dest index = .ok (t, s) ∧
        ∀ ty, stats.blocks ty = t.typeCount ty) ∧
      stats.identityMatches + stats.relocateMatches + stats.partialMatches + stats.zeroBlocks +
        stats.oneBlocks + stats.literalBlocks = stats.totalBlocks ∧
      stats.patchSize = patch.length ∧
      (src.length ≤ 2 ^ 31 → dest.length ≤ 2 ^ 31 → ∀ ty,
        stats.blocks ty = Encoder.storedBlocks (Encoder.operationFor ty) (operationBytes patch)) := by
  obtain ⟨t, s, hrun, hpatch, hstats⟩ := diffFilesStats_steps h
  obtain ⟨-, hhi, hmod, ctrl, w, hcreate, hw, rfl, hs⟩ := encodeImages_steps hrun
  obtain ⟨hbs, hfor⟩ := controllerCreate_for hcreate
  obtain ⟨htc, hrec⟩ := (controllerRun_recorded hfor (index ctrl.blockSize)).of_ok hw
  have hfinal := controllerRun_finalized hcreate hw
  have hdest : dest.length / opts.blockSize * opts.blockSize = dest.length :=
    Nat.div_mul_cancel (Nat.dvd_of_mod_eq_zero hmod)
  have hfst : diffFiles env encoderEnv K opts src dest index = .ok patch := by
    rw [diffFiles, hrun, hpatch]
    rfl
  refine ⟨hfst, ?_, ⟨w.tracker, s, hrun, fun ty => ?_⟩, ?_, ?_, ?_⟩
  · rw [hstats]
    exact hdest
  · rw [hstats, blocks_statsOf]
    exact hfinal.counter_eq ty
  · have hsum := Tracker.sum_typeCount w.tracker
    simp only [← hfinal.counter_eq] at hsum
    rw [hstats]
    exact hsum.trans (by rw [htc, hbs]; rfl)
  · rw [hstats, hpatch]
    simp only [statsOf, Encoder.patchFile, List.length_append, length_headerWrite]
    omega
  · intro hsrcLen hdestLen ty
    have hpos : 0 < opts.blockSize := Nat.two_pow_pos _
    have hle : opts.blockSize ≤ 2 ^ 24 := Nat.pow_le_pow_right (by decide) hhi
    have hblocks : dest.length / opts.blockSize ≤ 2 ^ 31 := (Nat.div_le_self _ _).trans hdestLen
    rw [hbs] at htc
    have hop : s.op.length < 2 ^ 64 := by
      have hsize := Encoder.encode_size_le (by omega) hs
      have hmul := Nat.mul_le_mul hblocks (show opts.blockSize + opts.blockSize / 128 + 14 ≤ 2 ^ 25 by omega)
      rw [htc] at hsize
      omega
    have hreach : ∀ i b, w.tracker.get i = some b → Encoder.Reachable opts.blockSize i b := by
      intro i b hb
      have hi : i < (ctrl.comparison src dest).destBlocks := by
        have hlt := Tracker.get_lt hb
        rwa [htc, ← hbs] at hlt
      rw [← hbs]
      exact (hrec i b hb).reachable hfor.blockSize_pos hi hsrcLen hdestLen
    rw [hpatch, hstats, operationBytes_patchFile hop, blocks_statsOf]
    exact (storedBlocks_eq_counter hfinal hs (by omega) hreach ty).symm

def patchworkStats : DiffStats where
  totalBlocks := 4
  identityMatches := 0
  relocateMatches := 1
  partialMatches := 1
  zeroBlocks := 1
  oneBlocks := 0
  literalBlocks := 1
  patchSize := 80

theorem diffFilesStats_agree_patchwork :
    diffFilesStats ⟨fun _ => true, fun _ => false⟩ Encoder.faultless scalarKernels
        { blockSizeLog2 := 5, searchRadius := 2 } patchworkSource patchworkImage
        (fun bs => .inactive bs _ _) = .ok (patchworkPatch, patchworkStats) ∧
      ∀ ty, patchworkStats.blocks ty =
        Encoder.storedBlocks (Encoder.operationFor ty) (operationBytes patchworkPatch) := by
  have hrun : diffFilesStats ⟨fun _ => true, fun _ => false⟩ Encoder.faultless scalarKernels
      { blockSizeLog2 := 5, searchRadius := 2 } patchworkSource patchworkImage
      (fun bs => .inactive bs _ _) = .ok (patchworkPatch, patchworkStats) := by decide +kernel
  obtain ⟨-, -, -, -, -, hagree⟩ := diffFilesStats_agree _ _ _ _ _ _ _ _ _ hrun
  exact ⟨hrun, hagree (by decide +kernel) (by decide +kernel)⟩

end Pipeline

end Fsdiff
