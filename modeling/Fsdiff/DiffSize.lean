import Fsdiff.Diff
import Fsdiff.Encoding.PatchSize
import Fsdiff.Stages.Classification

/-! What `fsd_diff_files` puts into a patch besides operations, and how much that can be. -/
namespace Fsdiff
open ByteString Exec Format Stages

def dataBytes (patch : Bytes) : Bytes := patch.drop (headerSize + leNat (window patch 16 8))

namespace Stages

section Exact
variable {J : Comparison} {i : ℕ}

theorem Comparison.lastEqual_eq_none {n : ℕ} (h : J.lastEqual i n = none) :
    ∀ j < n, J.srcBlock j ≠ J.destBlock i := by
  induction n with
  | zero => exact fun j hj => absurd hj (Nat.not_lt_zero j)
  | succ n ih =>
    rw [Comparison.lastEqual] at h
    split_ifs at h with hne
    intro j hj
    rcases Nat.lt_succ_iff_lt_or_eq.mp hj with hj | rfl
    · exact ih h j hj
    · exact hne

theorem identityState_ne_partial (J : Comparison) (i : ℕ) :
    (J.identityState i).matchType ≠ .partialMatch := by
  unfold Comparison.identityState
  split_ifs <;> simp

/-- A block that is constant or that the source has needs no data after the two exact stages. -/
theorem classify_bare (h : J.Findable i) : Encoder.Bare (J.classify i).matchType := by
  unfold Comparison.classify
  by_cases hnone : (J.identityState i).matchType = .none
  · rw [if_pos hnone]
    obtain ⟨hz, -, hstate⟩ := identityState_none hnone
    cases hlast : J.lastEqual i J.srcBlocks with
    | some j => simp [Encoder.Bare]
    | none =>
      have hsrc := Comparison.lastEqual_eq_none hlast
      rcases h with hzero | hone | ⟨j, hj, heq⟩
      · exact absurd hzero hz
      · rw [Comparison.identityState, if_neg hz, if_pos hone] at hnone
        cases hnone
      · exact absurd heq (hsrc j hj)
  · rw [if_neg hnone]
    exact ⟨hnone, identityState_ne_partial J i⟩

theorem Recorded.findable {b : BlockState} (h : Recorded J i b) (hb : Encoder.Bare b.matchType) :
    J.Findable i := by
  cases hty : b.matchType with
  | none => exact absurd hty hb.1
  | partialMatch => exact absurd hty hb.2
  | zero =>
    simp only [Recorded, hty] at h
    exact .inl h
  | one =>
    simp only [Recorded, hty] at h
    exact .inr (.inl h)
  | identity =>
    simp only [Recorded, hty] at h
    exact .inr (.inr ⟨i, h.2.1, h.2.2.symm⟩)
  | relocate =>
    simp only [Recorded, hty] at h
    exact .inr (.inr ⟨b.srcIndex, h.2.1, h.2.2.symm⟩)

end Exact

section Controller
variable {env : Env} {K : Kernels} {ctrl : StageController} {src dest : Bytes}

theorem checkCancelled_keeps (env : Env) (w : World) :
    Ends (checkCancelled env w) (fun _ w' => w'.tracker = w.tracker) (fun _ _ => True) := by
  change Ends ((if env.cancelled w.checks then throw .cancelled else pure () : StageM Unit)
    { w with checks := w.checks + 1 }) _ _
  apply ends_ite
  · exact fun _ => trivial
  · exact fun _ => rfl

theorem controllerCreate_options {opts : DiffOptions} {srcBlocks destBlocks : ℕ}
    (h : controllerCreate opts srcBlocks destBlocks = .ok ctrl) :
    (ctrl.enableRelocation = true → ctrl.enableIdentity = true) ∧
      ctrl.enableRelocation = opts.enableRelocation ∧
      Tracker.create destBlocks ctrl.blockSize = .ok ctrl.tracker := by
  unfold controllerCreate at h
  split_ifs at h with hon
  cases hcreate : Tracker.create destBlocks opts.blockSize with
  | error e =>
    rw [hcreate] at h
    cases h
  | ok t =>
    rw [hcreate] at h
    cases h
    exact ⟨fun hrel => not_not.mp fun hid => hon ⟨hrel, hid⟩, rfl, hcreate⟩

theorem stagePart_ends {enabled : Bool} (hon : enabled = true) {body : StageM Unit} {w : World}
    {Q : World → Prop} (hbody : ∀ w', w'.tracker = w.tracker → Ends (body w') (fun _ => Q) (fun _ _ => True)) :
    Ends (stagePart env enabled body w) (fun _ => Q) (fun _ _ => True) := by
  rw [stagePart, if_pos hon]
  exact (checkCancelled_keeps env w).bind fun _ w' hw' => hbody w' hw'

/-- After a whole run the blocks without data are those that the exact stages look for: the
stages behind them keep what these found, and record only what is true. -/
theorem controllerRun_bare (hpool : ∀ n, env.poolAlloc n = true) (h : ctrl.For src dest)
    (hcreate : Tracker.create (dest.length / ctrl.blockSize) ctrl.blockSize = .ok ctrl.tracker)
    (h8 : 8 ∣ ctrl.blockSize) (hid : ctrl.enableIdentity = true) (hrel : ctrl.enableRelocation = true)
    (index : FsmapIndex ctrl.blockSize src.length (dest.length / ctrl.blockSize)) :
    Ends (controllerRun env K ctrl src dest index { tracker := ctrl.tracker })
      (fun _ w => ∀ i b, w.tracker.get i = some b →
        (Encoder.Bare b.matchType ↔ (ctrl.comparison src dest).Findable i))
      (fun _ _ => True) := by
  set J := ctrl.comparison src dest
  have hparts := stageParts_advancing env K h index
  rw [stageParts, List.forall_mem_cons, List.forall_mem_cons] at hparts
  obtain ⟨hadv₁, hadv₂, hadv⟩ := hparts
  have hidentity : Ends (identityPart env K ctrl src dest { tracker := ctrl.tracker })
      (fun _ w => Filled J J.identityState newState J.destBlocks w.tracker) (fun _ _ => True) := by
    apply stagePart_ends hid
    intro w hw
    apply Ends.of_total (identityStageRun_fills (J := J) K ?_)
    rw [hw]
    exact filled_create hcreate
  have hrelocation (w : World) (hw : Filled J J.identityState newState J.destBlocks w.tracker) :
      Ends (relocationPart env ctrl src dest w)
        (fun _ w' => Filled J J.classify J.identityState J.destBlocks w'.tracker) (fun _ _ => True) := by
    apply stagePart_ends hrel
    intro w₁ hw₁
    rw [h.srcBlocks_eq]
    apply Ends.of_total
    apply (relocationBuildIndex_holds (J := J) hpool w₁).bind
    rintro table w₂ ⟨hx, hw₂⟩
    exact relocationStageRun_fills h8 hx (by rw [hw₂, hw₁]; exact hw)
  unfold controllerRun stageParts runParts runParts
  refine Ends.bind (Q := fun _ w => ∃ w₂ : World, Filled J J.classify J.identityState J.destBlocks w₂.tracker ∧
    Sound J w.tracker ∧ Kept w₂.tracker w.tracker) ?_ ?_
  · apply ((hidentity.and (hadv₁ _ h.sound)).weaken fun _ _ _ => trivial).bind
    rintro _ w₁ ⟨hfill₁, hsound₁, -⟩
    apply (((hrelocation w₁ hfill₁).and (hadv₂ w₁ hsound₁)).weaken fun _ _ _ => trivial).bind
    rintro _ w₂ ⟨hfill₂, hsound₂, -⟩
    apply ((runParts_advancing hadv w₂ hsound₂).weaken fun _ _ _ => trivial).imp
    rintro _ w ⟨hsound, hkept⟩
    exact ⟨w₂, hfill₂, hsound, hkept⟩
  · rintro _ w ⟨w₂, hfill, hsound, hkept⟩
    change ∀ i b, w.tracker.finalize.get i = some b → _
    unfold Tracker.get
    rw [Tracker.finalize_blocks]
    intro i b hb
    refine ⟨(hsound.recorded i b hb).findable, fun hfind => ?_⟩
    have hi : i < J.destBlocks := hsound.count_eq ▸ Tracker.get_lt hb
    have hbare := classify_bare hfind
    obtain ⟨b', hb', hsame, -⟩ := hkept.same i _ (hfill.done i hi hi) hbare.1
    rw [show w.tracker.get i = some b from hb] at hb'
    cases hb'
    rw [hsame]
    exact hbare

end Controller

end Stages

section Pipeline
variable {env : Stages.Env} {encoderEnv : Encoder.Env} {K : Kernels} {opts : DiffOptions}
variable {src dest : Bytes} {index : ∀ bs, FsmapIndex bs src.length (dest.length / bs)} {patch : Bytes}

theorem dataBytes_patchFile {log2 destBlocks : ℕ} {s : Encoder.Streams} (h : s.op.length < 2 ^ 64) :
    dataBytes (Encoder.patchFile log2 destBlocks s) = s.diff ++ s.lit := by
  unfold dataBytes Encoder.patchFile
  rw [(headerWrite_lengths _ _ _ _ _).1, leNat_leBytes_of_lt h, ← List.append_assoc,
    List.drop_left' (by rw [List.length_append, length_headerWrite])]

theorem diffFiles_size_le (h : diffFiles env encoderEnv K opts src dest index = .ok patch) :
    ∃ s, patch = Encoder.patchFile opts.blockSizeLog2 (dest.length / opts.blockSize) s ∧
      s.op.length + s.diff.length + s.lit.length ≤
        dest.length + dest.length / opts.blockSize * (opts.blockSize / 128 + 14) := by
  obtain ⟨hlo, hhi, hmod, ctrl, w, s, hcreate, hw, hs, hpatch⟩ := diffFiles_steps h
  obtain ⟨hbs, hfor⟩ := controllerCreate_for hcreate
  obtain ⟨htc, -⟩ := (controllerRun_recorded hfor (index ctrl.blockSize)).of_ok hw
  have hlt : opts.blockSize < 2 ^ 64 := Nat.pow_lt_pow_right (by decide) (by omega)
  have hsize := Encoder.encode_size_le hlt hs
  have hdest : dest.length / opts.blockSize * opts.blockSize = dest.length :=
    Nat.div_mul_cancel (Nat.dvd_of_mod_eq_zero hmod)
  refine ⟨s, hpatch, hsize.trans (le_of_eq ?_)⟩
  rw [htc, hbs, Nat.add_assoc, Nat.mul_add, hdest]

/-- A patch is never much longer than the image: what it adds is the header, and for each block
one operation and the lengths inside its diff data. -/
theorem length_diffFiles_le (env : Stages.Env) (encoderEnv : Encoder.Env) (K : Kernels)
    (opts : DiffOptions) (src dest : Bytes)
    (index : ∀ bs, FsmapIndex bs src.length (dest.length / bs)) (patch : Bytes)
    (h : diffFiles env encoderEnv K opts src dest index = .ok patch) :
    patch.length ≤
      headerSize + dest.length + dest.length / opts.blockSize * (opts.blockSize / 128 + 14) := by
  obtain ⟨s, rfl, hsize⟩ := diffFiles_size_le h
  simp only [Encoder.patchFile, List.length_append, length_headerWrite]
  omega

theorem length_diffFiles_le_patchwork :
    let opts : DiffOptions := { blockSizeLog2 := 5, searchRadius := 2 }
    patchworkPatch.length ≤ headerSize + patchworkImage.length +
      patchworkImage.length / opts.blockSize * (opts.blockSize / 128 + 14) :=
  length_diffFiles_le _ _ _ _ _ _ _ _ diffFiles_patchwork

theorem reachable_of_recorded {J : Comparison} {i : ℕ} {b : BlockState} (h : Recorded J i b)
    (hi : i < 2 ^ 32) (hsrc : J.srcBlocks < 2 ^ 32) (hty : b.matchType = .relocate) (bs : ℕ) :
    Encoder.Reachable bs i b := by
  simp only [Recorded, hty] at h
  have hlt : b.srcIndex < 2 ^ 32 := h.2.1.trans hsrc
  simp only [Encoder.Reachable, hty]
  rw [Encoder.relocateDistance_eq (by omega) (by omega)]
  omega

/-- With memory for the index and relocation on, a patch holds operations only exactly when every
block of the image is constant or is a block of the source, wherever it lies. -/
theorem dataBytes_diffFiles_eq_nil_iff (env : Stages.Env) (hpool : ∀ n, env.poolAlloc n = true)
    (encoderEnv : Encoder.Env) (K : Kernels) (opts : DiffOptions)
    (hrel : opts.enableRelocation = true) (src dest : Bytes)
    (index : ∀ bs, FsmapIndex bs src.length (dest.length / bs))
    (hsrc : src.length / opts.blockSize < 2 ^ 32) (hcount : dest.length / opts.blockSize < 2 ^ 32)
    (patch : Bytes) (h : diffFiles env encoderEnv K opts src dest index = .ok patch) :
    dataBytes patch = [] ↔ ∀ i < dest.length / opts.blockSize,
      blockAt opts.blockSize dest i = List.replicate opts.blockSize 0x00 ∨
      blockAt opts.blockSize dest i = List.replicate opts.blockSize 0xFF ∨
      ∃ j < src.length / opts.blockSize, blockAt opts.blockSize src j = blockAt opts.blockSize dest i := by
  obtain ⟨hlo, hhi, hmod, ctrl, w, s, hcreate, hw, hs, rfl⟩ := diffFiles_steps h
  obtain ⟨hbs, hfor⟩ := controllerCreate_for hcreate
  obtain ⟨hon, hrel', htracker⟩ := controllerCreate_options hcreate
  obtain ⟨htc, hrec⟩ := (controllerRun_recorded hfor (index ctrl.blockSize)).of_ok hw
  have h8 : 8 ∣ ctrl.blockSize := by
    rw [hbs]
    exact pow_dvd_pow 2 (show 3 ≤ opts.blockSizeLog2 by omega)
  have hbare := (controllerRun_bare hpool hfor (by rw [hbs] at htracker ⊢; exact htracker) h8
    (hon (hrel'.trans hrel)) (hrel'.trans hrel) (index ctrl.blockSize)).of_ok hw
  rw [hbs] at htc
  have hpos : 0 < opts.blockSize := Nat.two_pow_pos _
  have hle : opts.blockSize ≤ 2 ^ 24 := Nat.pow_le_pow_right (by decide) hhi
  have hdest : dest.length / opts.blockSize * opts.blockSize = dest.length :=
    Nat.div_mul_cancel (Nat.dvd_of_mod_eq_zero hmod)
  have hlen : dest.length ≤ 2 ^ 32 * 2 ^ 24 := by
    rw [← hdest]
    exact Nat.mul_le_mul hcount.le hle
  have hsize := Encoder.encode_size_le (by omega) hs
  have hop : s.op.length < 2 ^ 64 := by
    have hmul := Nat.mul_le_mul hcount.le (show opts.blockSize + opts.blockSize / 128 + 14 ≤ 2 ^ 25 by omega)
    rw [htc] at hsize
    omega
  have hreach : ∀ i b, w.tracker.get i = some b → b.matchType = .relocate →
      Encoder.Reachable opts.blockSize i b := by
    intro i b hb hty
    have hi := Tracker.get_lt hb
    exact reachable_of_recorded (hrec i b hb) (by omega) (by rw [← hbs] at hsrc; exact hsrc) hty _
  rw [dataBytes_patchFile hop, List.append_eq_nil_iff,
    Encoder.no_data_iff hpos hs (by rw [htc, hdest]) (by omega) hreach]
  constructor
  · intro hall i hi
    obtain ⟨b, hb⟩ := Tracker.exists_get (t := w.tracker) (i := i) (by rw [htc]; exact hi)
    rw [← hbs]
    exact (hbare i b hb).mp (hall i b hb)
  · intro hall i b hb
    have hi := Tracker.get_lt hb
    rw [htc] at hi
    have hfind := hall i hi
    rw [← hbs] at hfind
    exact (hbare i b hb).mpr hfind

/-- Two blocks that changed places, and a zero block between them. -/
def shuffledSource : Bytes := List.replicate 32 1 ++ List.replicate 32 2

def shuffledImage : Bytes := List.replicate 32 2 ++ List.replicate 32 0 ++ List.replicate 32 1

def shuffledPatch : Bytes :=
  Encoder.patchFile 5 3 { op := [0x20, 0x00, 0x01, 0x58, 0x21, 0x00, 0x02] }

theorem diffFiles_shuffled :
    diffFiles ⟨fun _ => true, fun _ => false⟩ Encoder.faultless scalarKernels { blockSizeLog2 := 5 }
      shuffledSource shuffledImage (fun bs => .inactive bs _ _) = .ok shuffledPatch := by
  decide +kernel

theorem dataBytes_diffFiles_eq_nil_iff_shuffled : dataBytes shuffledPatch = [] :=
  (dataBytes_diffFiles_eq_nil_iff _ (fun _ => rfl) _ _ _ rfl _ _ _ (by decide) (by decide) _
    diffFiles_shuffled).mpr (by decide)

end Pipeline

end Fsdiff
