import Fsdiff.Simd.Vectors
import Fsdiff.Stages.Controller
import Fsdiff.Stages.SearchBest

/-! The pipeline under different dispatch tables. Two tables count alike only on arrays of one
length, so that the runs agree because no stage counts past the end of an image. -/
namespace Fsdiff.Stages
open ByteString Exec

theorem isZero_congr (K K' : Kernels) : K.isZero = K'.isZero := by
  funext data
  rw [Bool.eq_iff_iff, K.isZero_iff, K'.isZero_iff]

theorem isOne_congr (K K' : Kernels) : K.isOne = K'.isOne := by
  funext data
  rw [Bool.eq_iff_iff, K.isOne_iff, K'.isOne_iff]

theorem identityStageRun_congr (K K' : Kernels) : identityStageRun K = identityStageRun K' := by
  funext bs src dest srcBlocks destBlocks
  simp only [identityStageRun, identityCommonBlock, identityDestBlock, isZero_congr K K',
    isOne_congr K K']

/-! ### Searches -/

section Search
variable (K K' : Kernels) {src destBlock : Bytes} {bs thresholdCount srcSize : ℕ}

theorem countAt_congr (hlen : destBlock.length = bs) (hsize : srcSize ≤ src.length) {srcPos : ℤ}
    (hb : ¬ OutOfBounds srcSize bs srcPos) :
    countAt K src destBlock bs srcPos = countAt K' src destBlock bs srcPos := by
  have hin : ¬ OutOfBounds src.length bs srcPos := by
    unfold OutOfBounds at hb ⊢
    omega
  rw [countAt_eq hlen hin, countAt_eq hlen hin]

theorem screenedOut_congr (hlen : destBlock.length = bs) (hsize : srcSize ≤ src.length) {srcPos : ℤ}
    (hb : ¬ OutOfBounds srcSize bs srcPos) :
    ScreenedOut K src destBlock bs thresholdCount srcPos ↔
      ScreenedOut K' src destBlock bs thresholdCount srcPos := by
  have hin : ¬ OutOfBounds src.length bs srcPos := by
    unfold OutOfBounds at hb ⊢
    omega
  by_cases h1024 : 1024 ≤ bs
  · rw [ScreenedOut, ScreenedOut, sampleAt_eq hlen h1024 hin, sampleAt_eq hlen h1024 hin]
  · simp [ScreenedOut, prescreenMin, h1024]

theorem blockSearchLoop_congr (hlen : destBlock.length = bs) (hsize : srcSize ≤ src.length)
    (centerPos : ℤ) (n : ℕ) (offset bestOffset : ℤ) (bestCount : ℕ) :
    blockSearchLoop K src srcSize destBlock bs thresholdCount centerPos n offset bestOffset bestCount =
      blockSearchLoop K' src srcSize destBlock bs thresholdCount centerPos n offset bestOffset
        bestCount := by
  induction n generalizing offset bestOffset bestCount with
  | zero => rfl
  | succ n ih =>
    rw [blockSearchLoop, blockSearchLoop]
    dsimp only
    by_cases hb : OutOfBounds srcSize bs (centerPos + offset)
    · rw [if_pos hb, if_pos hb, ih]
    · simp only [if_neg hb, screenedOut_congr K K' hlen hsize hb, countAt_congr K K' hlen hsize hb, ih]

theorem blockSearchBest_congr (hlen : destBlock.length = bs) (hsize : srcSize ≤ src.length)
    (centerPos minOffset maxOffset : ℤ) :
    blockSearchBest K src srcSize destBlock bs thresholdCount centerPos minOffset maxOffset =
      blockSearchBest K' src srcSize destBlock bs thresholdCount centerPos minOffset maxOffset :=
  blockSearchLoop_congr K K' hlen hsize _ _ _ _ _

theorem quickProbe_congr (hlen : destBlock.length = bs) (hsize : srcSize ≤ src.length) (destPos : ℤ)
    (probes : List ℤ) :
    quickProbe K bs thresholdCount src srcSize destBlock destPos probes =
      quickProbe K' bs thresholdCount src srcSize destBlock destPos probes := by
  unfold quickProbe
  congr 1
  funext pos
  by_cases hb : OutOfBounds srcSize bs pos
  · rw [if_pos hb, if_pos hb]
  · rw [if_neg hb, if_neg hb, countAt_congr K K' hlen hsize hb]

theorem sweepBest_congr (hlen : destBlock.length = bs) (hsize : srcSize ≤ src.length) (searchRange : ℕ)
    (destPos : ℤ) (prev : PrevMatch) :
    sweepBest K bs thresholdCount searchRange src srcSize destBlock destPos prev =
      sweepBest K' bs thresholdCount searchRange src srcSize destBlock destPos prev := by
  rw [sweepBest, sweepBest, quickProbe_congr K K' hlen hsize, blockSearchBest_congr K K' hlen hsize]

theorem partialBest_congr (hlen : destBlock.length = bs) (hsize : srcSize ≤ src.length)
    (searchRange : ℕ) (destPos : ℤ) (prev : PrevMatch) :
    partialBest K bs thresholdCount searchRange src srcSize destBlock destPos prev =
      partialBest K' bs thresholdCount searchRange src srcSize destBlock destPos prev := by
  rw [partialBest, partialBest, sweepBest_congr K K' hlen hsize]
  dsimp only
  rw [blockSearchBest_congr K K' hlen hsize]

theorem fsmapWindow_congr (hlen : destBlock.length = bs) {hypPos : ℕ} (hpos : hypPos + bs ≤ src.length)
    (searchRange : ℕ) :
    fsmapWindow K bs thresholdCount searchRange src destBlock hypPos =
      fsmapWindow K' bs thresholdCount searchRange src destBlock hypPos := by
  have hwin : (window src hypPos bs).length = destBlock.length := by rw [length_window hpos, hlen]
  have hexact : K.countMatches (window src hypPos bs) destBlock =
      K'.countMatches (window src hypPos bs) destBlock := by
    rw [K.countMatches_eq _ _ hwin, K'.countMatches_eq _ _ hwin]
  simp only [fsmapWindow, hexact, blockSearchBest_congr K K' hlen le_rfl]

end Search

/-! ### Stages -/

section Stages
variable (env : Env) (K K' : Kernels) {J : Comparison} (range : ℕ)

theorem fsmapLoop_congr {hyps : List Hypothesis} (hdest : ∀ h ∈ hyps, h.destBlock < J.destBlocks)
    (hsrc : ∀ h ∈ hyps, h.srcPos + J.bs ≤ J.src.length) (n : ℕ) :
    fsmapLoop env K J.bs J.threshold range J.src J.dest n hyps =
      fsmapLoop env K' J.bs J.threshold range J.src J.dest n hyps := by
  induction hyps generalizing n with
  | nil => rfl
  | cons hyp hyps ih =>
    have hlen := Comparison.length_destBlock (hdest hyp List.mem_cons_self)
    have hwin : fsmapWindow K J.bs J.threshold range J.src (J.destBlock hyp.destBlock) hyp.srcPos =
        fsmapWindow K' J.bs J.threshold range J.src (J.destBlock hyp.destBlock) hyp.srcPos :=
      fsmapWindow_congr K K' hlen (hsrc hyp List.mem_cons_self) range
    have hbody : fsmapHypothesis env K J.bs J.threshold range J.src J.dest hyp =
        fsmapHypothesis env K' J.bs J.threshold range J.src J.dest hyp := by
      rw [Comparison.destBlock] at hwin
      rw [fsmapHypothesis, fsmapHypothesis, hwin]
    rw [fsmapLoop, fsmapLoop, hbody, ih (fun h hh => hdest h (List.mem_cons_of_mem _ hh))
      (fun h hh => hsrc h (List.mem_cons_of_mem _ hh))]

theorem fsmapStage_congr (index : FsmapIndex J.bs J.src.length J.destBlocks) :
    (fsmapBuildIndex J.bs J.src index >>= fsmapStageRun env K J.bs J.threshold range J.src J.dest) =
      (fsmapBuildIndex J.bs J.src index >>= fsmapStageRun env K' J.bs J.threshold range J.src J.dest) := by
  funext w
  cases hbuild : index.build w.tracker with
  | error e =>
    have hrun : fsmapBuildIndex J.bs J.src index w = .error e w := by
      rw [fsmapBuildIndex, get_bind, hbuild]
      rfl
    rw [bind_of_error hrun, bind_of_error hrun]
  | ok hyps =>
    have hrun : fsmapBuildIndex J.bs J.src index w = .ok hyps w := by
      rw [fsmapBuildIndex, get_bind, hbuild]
      rfl
    rw [bind_of_ok hrun, bind_of_ok hrun, fsmapStageRun, fsmapStageRun,
      fsmapLoop_congr env K K' range (index.destBlock_lt _ _ hbuild) (index.srcPos_le _ _ hbuild)]

theorem extendMatch_congr {srcSize : ℕ} (hsize : srcSize ≤ J.src.length) (bestOffset : ℤ) (n : ℕ)
    {extIdx : ℕ} (hn : extIdx + n ≤ J.destBlocks) :
    extendMatch env K J.bs J.threshold J.src J.dest srcSize bestOffset n extIdx =
      extendMatch env K' J.bs J.threshold J.src J.dest srcSize bestOffset n extIdx := by
  induction n generalizing extIdx with
  | zero => rfl
  | succ n ih =>
    have hlen := Comparison.length_destBlock (J := J) (show extIdx < J.destBlocks by omega)
    rw [extendMatch, extendMatch, ih (by omega)]
    congr 1
    funext w
    by_cases hb : OutOfBounds srcSize J.bs ((extIdx * J.bs : ℕ) + bestOffset)
    · simp only [if_pos hb]
    · rw [Comparison.destBlock] at hlen
      simp only [if_neg hb, countAt_congr K K' hlen hsize hb]

theorem partialBlock_congr {srcSize : ℕ} (hsize : srcSize ≤ J.src.length) {destIdx : ℕ}
    (hi : destIdx < J.destBlocks) (prev : PrevMatch) :
    partialBlock env K J.bs J.threshold range J.src J.dest srcSize J.destBlocks destIdx prev =
      partialBlock env K' J.bs J.threshold range J.src J.dest srcSize J.destBlocks destIdx prev := by
  have hlen := Comparison.length_destBlock hi
  rw [Comparison.destBlock] at hlen
  rw [partialBlock, partialBlock]
  dsimp only
  rw [partialBest_congr K K' hlen hsize, extendMatch_congr env K K' hsize _ _ (by omega)]

end Stages

/-! ### Runs -/

/-- Two programs that do the same to every sound tracker. -/
def Agree (J : Comparison) {α : Type} (x y : StageM α) : Prop := ∀ w, Sound J w.tracker → x w = y w

section Runs
variable {J : Comparison} {env : Env}

theorem agree_of_eq {α : Type} {x y : StageM α} (h : x = y) : Agree J x y := fun w _ => congrFun h w

theorem agree_refl {α : Type} (x : StageM α) : Agree J x x := agree_of_eq rfl

theorem Agree.bind {α β : Type} {x y : StageM α} {f g : α → StageM β} (hx : Agree J x y)
    (hadv : Advancing J x) (hf : ∀ a, Agree J (f a) (g a)) : Agree J (x >>= f) (y >>= g) := by
  intro w hw
  have hsame := hx w hw
  have hkept := hadv w hw
  cases hrun : x w with
  | error e w' => rw [bind_of_error hrun, bind_of_error (hsame ▸ hrun)]
  | ok a w' =>
    rw [bind_of_ok hrun, bind_of_ok (hsame ▸ hrun)]
    exact hf a w' (hkept.of_ok hrun).1

theorem stagePart_agree {enabled : Bool} {x y : StageM Unit} (h : Agree J x y) :
    Agree J (stagePart env enabled x) (stagePart env enabled y) := by
  cases enabled with
  | false => exact agree_refl _
  | true => exact (agree_refl _).bind advancing_checkCancelled fun _ => h

theorem runParts_agree {parts parts' : List (StageM Unit)} (h : List.Forall₂ (Agree J) parts parts')
    (hadv : ∀ part ∈ parts, Advancing J part) : Agree J (runParts parts) (runParts parts') := by
  induction h with
  | nil => exact agree_refl _
  | cons hpart _ ih =>
    obtain ⟨hfirst, hrest⟩ := List.forall_mem_cons.mp hadv
    exact hpart.bind hfirst fun _ => ih hrest

theorem partialStageRun_agree (K K' : Kernels) (range : ℕ) :
    Agree J (partialStageRun env K J.bs J.threshold range J.src J.dest J.srcBlocks)
      (partialStageRun env K' J.bs J.threshold range J.src J.dest J.srcBlocks) := by
  intro w hw
  have hsize : J.srcBlocks * J.bs ≤ J.src.length := Nat.div_mul_le_self _ _
  rw [partialStageRun, partialStageRun, get_bind, get_bind, hw.count_eq]
  dsimp only
  rw [iterM_congr fun destIdx prev _ hi => ?_]
  simp only [partialBlock_congr env K K' range hsize (show destIdx < J.destBlocks by omega)]

end Runs

section Controller
variable {ctrl : StageController} {src dest : Bytes}

theorem stageParts_agree (env : Env) (K K' : Kernels)
    (index : FsmapIndex ctrl.blockSize src.length (dest.length / ctrl.blockSize)) :
    List.Forall₂ (Agree (ctrl.comparison src dest)) (stageParts env K ctrl src dest index)
      (stageParts env K' ctrl src dest index) := by
  refine .cons ?_ (.cons (agree_refl _) (.cons ?_ (.cons ?_ .nil)))
  · apply stagePart_agree
    exact agree_of_eq (by rw [identityStageRun_congr K K'])
  · apply stagePart_agree
    exact agree_of_eq (fsmapStage_congr (J := ctrl.comparison src dest) env K K' ctrl.searchRange index)
  · apply stagePart_agree
    exact partialStageRun_agree (J := ctrl.comparison src dest) K K' ctrl.searchRange

/-- Whichever table is installed, the run is the same. -/
theorem controllerRun_agree (env : Env) (K K' : Kernels) (hfor : ctrl.For src dest)
    (index : FsmapIndex ctrl.blockSize src.length (dest.length / ctrl.blockSize)) :
    Agree (ctrl.comparison src dest) (controllerRun env K ctrl src dest index)
      (controllerRun env K' ctrl src dest index) := by
  have hparts := stageParts_advancing env K hfor index
  exact (runParts_agree (stageParts_agree env K K' index) hparts).bind (runParts_advancing hparts)
    fun _ => agree_refl _

end Controller

/-- All kernels compute the same, each by its own words or registers and whatever is left at the
end of an array; and the pipeline computes one tracker, whichever of them it runs on. -/
theorem kernels_agree :
    (∀ a b : Bytes, a.length = b.length →
      ∀ f ∈ [scalarCountMatches, avx2CountMatches, neonCountMatches],
        f a b = (List.range a.length).countP fun k => decide (a[k]? = b[k]?)) ∧
    (∀ data : Bytes, ∀ f ∈ [scalarIsZero, avx2IsZero, neonIsZero, isZeroBlock],
      f data = true ↔ ∀ x ∈ data, x = 0x00) ∧
    (∀ data : Bytes, ∀ f ∈ [scalarIsOne, avx2IsOne, neonIsOne, isOneBlock],
      f data = true ↔ ∀ x ∈ data, x = 0xFF) ∧
    ∀ (env : Env) (opts : DiffOptions) (src dest : Bytes) (ctrl : StageController),
      controllerCreate opts (src.length / opts.blockSize) (dest.length / opts.blockSize) = .ok ctrl →
      ∀ (index : FsmapIndex ctrl.blockSize src.length (dest.length / ctrl.blockSize))
        (backend backend' : Option Backend),
        controllerRun env (dispatch backend) ctrl src dest index { tracker := ctrl.tracker } =
          controllerRun env (dispatch backend') ctrl src dest index { tracker := ctrl.tracker } := by
  refine ⟨?_, ?_, ?_, ?_⟩
  · intro a b h f hf
    have hcount : f a b = matchCount a b := by
      simp only [List.mem_cons, List.not_mem_nil, or_false] at hf
      rcases hf with rfl | rfl | rfl
      · exact scalarCountMatches_eq h
      · exact avx2CountMatches_eq h
      · exact neonCountMatches_eq h
    rw [hcount, matchCount_eq_countP h]
  · intro data f hf
    rw [← List.eq_replicate_length]
    simp only [List.mem_cons, List.not_mem_nil, or_false] at hf
    rcases hf with rfl | rfl | rfl | rfl
    · exact scalarKernels.isZero_iff data
    · exact avx2Kernels.isZero_iff data
    · exact neonKernels.isZero_iff data
    · exact fallbackKernels.isZero_iff data
  · intro data f hf
    rw [← List.eq_replicate_length]
    simp only [List.mem_cons, List.not_mem_nil, or_false] at hf
    rcases hf with rfl | rfl | rfl | rfl
    · exact scalarKernels.isOne_iff data
    · exact avx2Kernels.isOne_iff data
    · exact neonKernels.isOne_iff data
    · exact fallbackKernels.isOne_iff data
  · intro env opts src dest ctrl hcreate index backend backend'
    obtain ⟨-, hfor⟩ := controllerCreate_for hcreate
    exact controllerRun_agree env _ _ hfor index _ hfor.sound

/-- Arrays of 33 bytes, one more than a register, and a pipeline without filesystem hypotheses. -/
theorem kernels_agree_sample :
    (∀ f ∈ [scalarCountMatches, avx2CountMatches, neonCountMatches],
      f (List.replicate 33 7) (7 :: List.replicate 31 0 ++ [7]) = 2) ∧
    ∃ ctrl, controllerCreate { blockSizeLog2 := 5 } 1 2 = .ok ctrl ∧
      ∀ index backend, controllerRun ⟨fun _ => true, fun _ => false⟩ (dispatch backend) ctrl
          (List.replicate 32 7) (List.replicate 64 7) index { tracker := ctrl.tracker } =
        controllerRun ⟨fun _ => true, fun _ => false⟩ (dispatch none) ctrl
          (List.replicate 32 7) (List.replicate 64 7) index { tracker := ctrl.tracker } := by
  obtain ⟨hcount, -, -, hrun⟩ := kernels_agree
  obtain ⟨ctrl, hcreate⟩ := exists_controllerCreate { blockSizeLog2 := 5 } (fun _ => rfl) 1
    (show 0 < 2 by decide)
  refine ⟨?_, ctrl, hcreate, ?_⟩
  · intro f hf
    rw [hcount _ _ (by decide) f hf]
    decide
  · intro index backend
    exact hrun _ { blockSizeLog2 := 5 } (List.replicate 32 7) (List.replicate 64 7) ctrl hcreate index
      backend none

end Fsdiff.Stages
