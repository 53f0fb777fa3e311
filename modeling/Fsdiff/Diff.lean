import Fsdiff.Encoding.Codec
import Fsdiff.Patch.Faults
import Fsdiff.Stages.Controller

/-! `fsd_diff_files` from the two images to the bytes of the patch, and back through the
decoder. -/
namespace Fsdiff
open ByteString Exec Format Patch Stages

section Run
variable (env : Stages.Env) (encoderEnv : Encoder.Env) (K : Kernels) (opts : DiffOptions)
variable (src dest : Bytes) (index : ∀ bs, FsmapIndex bs src.length (dest.length / bs))

/-- `fsd_diff_create` and `fsd_diff_files` on mapped images, up to the flush of the streams. Failures
of the files around it only end a run earlier. -/
def encodeImages : Except FsdError (Tracker × Encoder.Streams) :=
  if opts.blockSizeLog2 < 5 ∨ 24 < opts.blockSizeLog2 then .error .badBlockSize
  else if dest.length % opts.blockSize ≠ 0 then .error .sizeMismatch
  else
    match controllerCreate opts (src.length / opts.blockSize) (dest.length / opts.blockSize) with
    | .error e => .error e
    | .ok ctrl =>
      match controllerRun env K ctrl src dest (index ctrl.blockSize) { tracker := ctrl.tracker } with
      | .error e _ => .error e
      | .ok _ w =>
        match Encoder.encode encoderEnv opts.blockSize w.tracker dest {} with
        | .error e _ => .error e
        | .ok _ s => .ok (w.tracker, s)

/-- The patch that `fsd_diff_files` writes: the header joined with the streams. -/
def diffFiles : Except FsdError Bytes := do
  let (_, s) ← encodeImages env encoderEnv K opts src dest index
  pure (Encoder.patchFile opts.blockSizeLog2 (dest.length / opts.blockSize) s)

end Run

section Bridge
variable {J : Comparison} {i : ℕ} {b : BlockState}

theorem zipWith_add_deltaOf {destBlock srcBlock : Bytes} (h : destBlock.length = srcBlock.length) :
    List.zipWith (· + ·) srcBlock (deltaOf destBlock srcBlock) = destBlock := by
  unfold deltaOf
  induction destBlock generalizing srcBlock with
  | nil =>
    obtain rfl : srcBlock = [] := List.length_eq_zero_iff.mp h.symm
    rfl
  | cons d destBlock ih =>
    cases srcBlock with
    | nil => cases h
    | cons s srcBlock =>
      rw [List.zipWith_cons_cons, List.zipWith_cons_cons, ih (Nat.succ.inj h), UInt8.add_comm,
        UInt8.sub_add_cancel]

theorem Stages.Comparison.block_le {k : ℕ} (hk : k < J.srcBlocks) : (k + 1) * J.bs ≤ J.src.length :=
  (Nat.mul_le_mul_right _ hk).trans (Nat.div_mul_le_self _ _)

/-- What the stages record is what the encoder relies on. -/
theorem Stages.Recorded.truthful (h : Recorded J i b) (hi : i < J.destBlocks) :
    Encoder.Truthful J.bs J.src J.dest i b := by
  unfold Encoder.Truthful
  cases hty : b.matchType with
  | none => trivial
  | zero =>
    simp only [Recorded, hty] at h
    exact h
  | one =>
    simp only [Recorded, hty] at h
    exact h
  | identity =>
    simp only [Recorded, hty] at h
    exact ⟨Comparison.block_le h.2.1, h.2.2⟩
  | relocate =>
    simp only [Recorded, hty] at h
    exact ⟨Comparison.block_le h.2.1, h.2.2⟩
  | partialMatch =>
    simp only [Recorded, hty] at h
    obtain ⟨_, _, p, hp, ⟨hin, _⟩, hdelta⟩ := h
    have hlen : (J.destBlock i).length = (window J.src p J.bs).length := by
      rw [J.length_destBlock hi, length_window hin]
    have hpos : Encoder.windowPos J.bs b = p := hp.symm
    dsimp only
    rw [hpos, hdelta, Int.toNat_natCast]
    refine ⟨Int.natCast_nonneg p, by exact_mod_cast hin, ?_, (zipWith_add_deltaOf hlen).symm⟩
    intro d hd
    cases hd
    rw [deltaOf, List.length_zipWith, hlen, min_self, length_window hin]

end Bridge

section Pipeline
variable {env : Stages.Env} {encoderEnv : Encoder.Env} {K : Kernels} {opts : DiffOptions}
variable {src dest : Bytes} {index : ∀ bs, FsmapIndex bs src.length (dest.length / bs)} {patch : Bytes}

theorem controllerRun_recorded {ctrl : StageController} (h : ctrl.For src dest)
    (index : FsmapIndex ctrl.blockSize src.length (dest.length / ctrl.blockSize)) :
    Ends (controllerRun env K ctrl src dest index { tracker := ctrl.tracker })
      (fun _ w => w.tracker.count = dest.length / ctrl.blockSize ∧
        ∀ i b, w.tracker.get i = some b → Recorded (ctrl.comparison src dest) i b)
      (fun _ _ => True) := by
  have hrun := runParts_advancing (stageParts_advancing env K h index)
    { tracker := ctrl.tracker } h.sound
  apply Ends.bind (hrun.weaken fun _ _ _ => trivial)
  intro _ w hpost
  obtain ⟨hsound, _⟩ := hpost
  change w.tracker.finalize.count = _ ∧ ∀ i b, w.tracker.finalize.get i = some b → _
  unfold Tracker.count Tracker.get
  rw [Tracker.finalize_blocks]
  exact ⟨hsound.count_eq, hsound.recorded⟩

theorem encodeImages_ok {ctrl : StageController} {w : World} {s : Encoder.Streams}
    (hlog : ¬ (opts.blockSizeLog2 < 5 ∨ 24 < opts.blockSizeLog2)) (hmod : ¬ dest.length % opts.blockSize ≠ 0)
    (hcreate : controllerCreate opts (src.length / opts.blockSize) (dest.length / opts.blockSize) = .ok ctrl)
    (hw : controllerRun env K ctrl src dest (index ctrl.blockSize) { tracker := ctrl.tracker } = .ok () w)
    (hs : Encoder.encode encoderEnv opts.blockSize w.tracker dest {} = .ok () s) :
    encodeImages env encoderEnv K opts src dest index = .ok (w.tracker, s) := by
  rw [encodeImages, if_neg hlog, if_neg hmod, hcreate]
  dsimp only
  rw [hw]
  dsimp only
  rw [hs]

/-- The steps up to the streams. -/
theorem encodeImages_steps {t : Tracker} {s : Encoder.Streams}
    (h : encodeImages env encoderEnv K opts src dest index = .ok (t, s)) :
    5 ≤ opts.blockSizeLog2 ∧ opts.blockSizeLog2 ≤ 24 ∧ dest.length % opts.blockSize = 0 ∧
      ∃ ctrl w,
        controllerCreate opts (src.length / opts.blockSize) (dest.length / opts.blockSize) = .ok ctrl ∧
        controllerRun env K ctrl src dest (index ctrl.blockSize) { tracker := ctrl.tracker } = .ok () w ∧
        w.tracker = t ∧ Encoder.encode encoderEnv opts.blockSize t dest {} = .ok () s := by
  unfold encodeImages at h
  split_ifs at h with hlog hmod
  rw [not_or, not_lt, not_lt] at hlog
  refine ⟨hlog.1, hlog.2, not_not.mp hmod, ?_⟩
  cases hcreate : controllerCreate opts (src.length / opts.blockSize) (dest.length / opts.blockSize) with
  | error e =>
    rw [hcreate] at h
    cases h
  | ok ctrl =>
    simp only [hcreate] at h
    cases hw : controllerRun env K ctrl src dest (index ctrl.blockSize) { tracker := ctrl.tracker } with
    | error e w =>
      rw [hw] at h
      cases h
    | ok _ w =>
      simp only [hw] at h
      cases hs : Encoder.encode encoderEnv opts.blockSize w.tracker dest {} with
      | error e s =>
        rw [hs] at h
        cases h
      | ok _ s =>
        simp only [hs] at h
        cases h
        exact ⟨ctrl, w, rfl, hw, rfl, hs⟩

/-- The steps of a diff that succeeded. -/
theorem diffFiles_steps (h : diffFiles env encoderEnv K opts src dest index = .ok patch) :
    5 ≤ opts.blockSizeLog2 ∧ opts.blockSizeLog2 ≤ 24 ∧ dest.length % opts.blockSize = 0 ∧
      ∃ ctrl w s,
        controllerCreate opts (src.length / opts.blockSize) (dest.length / opts.blockSize) = .ok ctrl ∧
        controllerRun env K ctrl src dest (index ctrl.blockSize) { tracker := ctrl.tracker } =
          .ok () w ∧
        Encoder.encode encoderEnv opts.blockSize w.tracker dest {} = .ok () s ∧
        patch = Encoder.patchFile opts.blockSizeLog2 (dest.length / opts.blockSize) s := by
  unfold diffFiles at h
  cases hrun : encodeImages env encoderEnv K opts src dest index with
  | error e =>
    rw [hrun] at h
    cases h
  | ok ts =>
    obtain ⟨t, s⟩ := ts
    rw [hrun] at h
    cases h
    obtain ⟨hlo, hhi, hmod, ctrl, w, hcreate, hw, rfl, hs⟩ := encodeImages_steps hrun
    exact ⟨hlo, hhi, hmod, ctrl, w, s, hcreate, hw, hs, rfl⟩

theorem codable_of_recorded (hlo : 5 ≤ opts.blockSizeLog2) (hhi : opts.blockSizeLog2 ≤ 24)
    (hsrc : src.length < 2 ^ 63) (hcount : dest.length / opts.blockSize < 2 ^ 32)
    (hdest : dest.length = dest.length / opts.blockSize * opts.blockSize) {t : Tracker}
    (htc : t.count = dest.length / opts.blockSize) {J : Comparison}
    (hJ : J.bs = opts.blockSize ∧ J.src = src ∧ J.dest = dest)
    (hrec : ∀ i b, t.get i = some b → Recorded J i b) :
    Encoder.Codable opts.blockSize src dest t.blocks := by
  obtain ⟨hbs, rfl, rfl⟩ := hJ
  have hlen : t.blocks.length = J.dest.length / opts.blockSize := htc
  refine ⟨Nat.pow_le_pow_right (n := 2) (by decide) hlo, Nat.pow_le_pow_right (n := 2) (by decide) hhi,
    by omega, by rw [hlen]; exact hdest, hsrc, ?_⟩
  intro i b hb
  have hi : i < J.destBlocks := by
    have hlt := Tracker.get_lt hb
    rw [htc, ← hbs] at hlt
    exact hlt
  rw [← hbs]
  exact (hrec i b hb).truthful hi

/-- A patch that a diff produced spells a script of the format that denotes the
destination. -/
theorem diffFiles_compiles (hsrc : src.length < 2 ^ 63)
    (hcount : dest.length / opts.blockSize < 2 ^ 32)
    (h : diffFiles env encoderEnv K opts src dest index = .ok patch) :
    5 ≤ opts.blockSizeLog2 ∧ opts.blockSizeLog2 ≤ 24 ∧
      dest.length = dest.length / opts.blockSize * opts.blockSize ∧
      ∃ s script, patch = Encoder.patchFile opts.blockSizeLog2 (dest.length / opts.blockSize) s ∧
        s.op = opStream script ∧ s.diff = diffStream script ∧
        Encoder.Compiles opts.blockSize src dest 0 (dest.length / opts.blockSize) script s.lit := by
  obtain ⟨hlo, hhi, hmod, ctrl, w, s, hcreate, hw, hs, hpatch⟩ := diffFiles_steps h
  have hdest : dest.length = dest.length / opts.blockSize * opts.blockSize :=
    (Nat.div_mul_cancel (Nat.dvd_of_mod_eq_zero hmod)).symm
  obtain ⟨hbs, hfor⟩ := controllerCreate_for hcreate
  obtain ⟨htc, hrec⟩ := (controllerRun_recorded hfor (index ctrl.blockSize)).of_ok hw
  rw [hbs] at htc
  have hcod := codable_of_recorded hlo hhi hsrc hcount hdest htc ⟨hbs, rfl, rfl⟩ hrec
  obtain ⟨script, hop, hdiff, hcomp⟩ := (Encoder.encode_compiles hcod).of_ok hs
  rw [htc] at hcomp
  exact ⟨hlo, hhi, hdest, s, script, hpatch, hop, hdiff, hcomp⟩

/-- End to end: the patch of two images, applied to the first, is the second. The size of
a file is an `off_t`. -/
theorem patchApply_diffFiles (env : Stages.Env) (encoderEnv : Encoder.Env) (K : Kernels)
    (opts : DiffOptions) (src dest : Bytes)
    (index : ∀ bs, FsmapIndex bs src.length (dest.length / bs)) (hsrc : src.length < 2 ^ 63)
    (hcount : dest.length / opts.blockSize < 2 ^ 32) (patch : Bytes)
    (h : diffFiles env encoderEnv K opts src dest index = .ok patch) :
    ∃ c o, patchApply (reliable src) patch = .ok c o ∧ o.written = dest := by
  obtain ⟨hlo, hhi, hdest, s, script, rfl, hop, hdiff, hcomp⟩ := diffFiles_compiles hsrc hcount h
  have hends := Encoder.patchApply_compiled hlo hhi hcount hdest hop hdiff hcomp
  obtain ⟨c, o, hok, hwritten, _⟩ := hends.exists_ok
  exact ⟨c, o, hok, hwritten⟩

/-- An image of a zero block, the first source block moved, a window at byte 5 of the
source with its first byte changed, and a block of its own. -/
def patchworkSource : Bytes := (List.range 72).map fun i => UInt8.ofNat (i * 7 + 1)

def patchworkImage : Bytes :=
  List.replicate 32 0 ++ window patchworkSource 0 32 ++ (0 :: window patchworkSource 6 31) ++
    List.replicate 32 3

def patchworkPatch : Bytes :=
  Encoder.patchFile 5 4
    { op := [0x58, 0x21, 0x00, 0x01, 0x81, 0xC5, 0xFF, 0x00, 0x03, 0x00, 0x00, 0x00, 0xB8]
      diff := [1, 220, 31]
      lit := List.replicate 32 3 }

theorem diffFiles_patchwork :
    diffFiles ⟨fun _ => true, fun _ => false⟩ Encoder.faultless scalarKernels
      { blockSizeLog2 := 5, searchRadius := 2 } patchworkSource patchworkImage
      (fun bs => .inactive bs _ _) = .ok patchworkPatch := by
  decide +kernel

theorem patchApply_diffFiles_patchwork :
    ∃ c o, patchApply (reliable patchworkSource) patchworkPatch = .ok c o ∧
      o.written = patchworkImage :=
  patchApply_diffFiles _ _ _ _ _ _ _ (by decide +kernel) (by decide +kernel) _
    diffFiles_patchwork

end Pipeline

/-! ### Truncated patches -/

section Truncated
variable {log2 count : ℕ} {src dest cut : Bytes} {s : Encoder.Streams} {script : Script}

theorem exists_cut {a b : Bytes} (h : cut <+: a ++ b) (hne : cut ≠ a ++ b)
    (hlen : a.length ≤ cut.length) : ∃ b', cut = a ++ b' ∧ b' <+: b ∧ b' ≠ b := by
  obtain ⟨b', rfl⟩ := List.prefix_of_prefix_length_le (List.prefix_append a b) h hlen
  refine ⟨b', rfl, (List.prefix_append_right_inj a).mp h, ?_⟩
  rintro rfl
  exact hne rfl

/-- The checks on the header accept a cut patch only if the cut is in the literals. -/
theorem patchLayout_cut (hlo : 5 ≤ log2) (hhi : log2 ≤ 24) (hcount : count < 2 ^ 32)
    (hop : s.op = opStream script) (hdiff : s.diff = diffStream script)
    (h : Encoder.Compiles (2 ^ log2) src dest 0 count script s.lit)
    (hcut : cut <+: Encoder.patchFile log2 count s) (hne : cut ≠ Encoder.patchFile log2 count s)
    {L : Layout cut} (hL : patchLayout cut = .ok L) :
    ∃ lits, cut = patchBytes log2 script lits ∧ lits.length < s.lit.length := by
  have htotal : totalCount (script.map Prod.fst) = count := by
    have := h.total_eq
    omega
  have hbs : 2 ^ log2 ≤ 2 ^ 24 := Nat.pow_le_pow_right (by decide) hhi
  have hsize : count * 2 ^ log2 ≤ 2 ^ 32 * 2 ^ 24 := Nat.mul_le_mul hcount.le hbs
  obtain ⟨hoplen, hdifflen⟩ := length_streams_le h.legal
  rw [htotal] at hoplen hdifflen
  have hread := patchLayout_header hL
  have hheader := headerReadMemory_length hread
  obtain ⟨body, rfl, hbody, hbne⟩ := exists_cut hcut hne (by rw [length_headerWrite]; exact hheader)
  rw [headerReadMemory_headerWrite _ _ _ _ _ hlo hhi (by omega) (by rw [hop]; omega)
    (by rw [hdiff]; omega)] at hread
  have hfields := Except.ok.inj hread
  have hstreams := L.streams_le
  rw [← hfields, List.length_append, length_headerWrite] at hstreams
  dsimp only at hstreams
  rw [← List.append_assoc] at hbody hbne
  obtain ⟨lits, rfl, hlits, hlne⟩ := exists_cut hbody hbne (by rw [List.length_append]; omega)
  refine ⟨lits, ?_, ?_⟩
  · rw [patchBytes, htotal, hop, hdiff, List.append_assoc]
  · exact lt_of_le_of_ne hlits.length_le fun hlen => hlne (hlits.eq_of_length hlen)

/-- With literals missing the decoder does not get to the end. -/
theorem patchApply_cut (hlo : 5 ≤ log2) (hhi : log2 ≤ 24) (hcount : count < 2 ^ 32)
    (hop : s.op = opStream script) (hdiff : s.diff = diffStream script)
    (h : Encoder.Compiles (2 ^ log2) src dest 0 count script s.lit)
    (hcut : cut <+: Encoder.patchFile log2 count s) (hne : cut ≠ Encoder.patchFile log2 count s)
    (c : Cursors) (o : Output) : patchApply (reliable src) cut ≠ .ok c o := by
  intro hok
  cases hL : patchLayout cut with
  | error e =>
    rw [patchApply, hL] at hok
    cases hok
  | ok L =>
    obtain ⟨lits, rfl, hshort⟩ := patchLayout_cut hlo hhi hcount hop hdiff h hcut hne hL
    have hsize : totalCount (script.map Prod.fst) * 2 ^ log2 ≤ 2 ^ 62 := by
      have htotal := h.total_eq
      have hbs : 2 ^ log2 ≤ 2 ^ 24 := Nat.pow_le_pow_right (by decide) hhi
      calc totalCount (script.map Prod.fst) * 2 ^ log2 ≤ 2 ^ 32 * 2 ^ 24 :=
            Nat.mul_le_mul (by omega) hbs
        _ ≤ 2 ^ 62 := by norm_num
    have hrun := (patchApply_script src lits hlo hhi h.legal hsize).of_ok hok
    have hsome := (applyPatch_isSome_iff (2 ^ log2) src (script.map Prod.fst) 0 lits).mp
      (by rw [hrun.1]; rfl)
    have hlit := h.lit_len
    omega

/-- No strict prefix of a patch that a diff produced is applied with success, whatever
the files around the decoder do. -/
theorem patchApply_truncated (env : Stages.Env) (encoderEnv : Encoder.Env) (K : Kernels)
    (opts : DiffOptions) (src dest : Bytes)
    (index : ∀ bs, FsmapIndex bs src.length (dest.length / bs)) (hsrc : src.length < 2 ^ 63)
    (hcount : dest.length / opts.blockSize < 2 ^ 32) (patch : Bytes)
    (h : diffFiles env encoderEnv K opts src dest index = .ok patch) (cut : Bytes)
    (hcut : cut <+: patch) (hne : cut ≠ patch) (m : Machine) (hm : m.src = src) :
    ∃ err o, patchApply m cut = .error (.fail err) o := by
  obtain ⟨hlo, hhi, _, s, script, rfl, hop, hdiff, hcomp⟩ := diffFiles_compiles hsrc hcount h
  cases hr : patchApply m cut with
  | ok c o =>
    have hok := patchApply_reliable m hr
    rw [hm] at hok
    exact absurd hok (patchApply_cut hlo hhi hcount hop hdiff hcomp hcut hne c o)
  | error e o =>
    obtain ⟨err, rfl⟩ := (patchApply_defined m cut).of_error hr
    exact ⟨err, o, rfl⟩

/-- One literal byte is missing. -/
theorem patchApply_truncated_patchwork :
    ∃ err o, patchApply (reliable patchworkSource) patchworkPatch.dropLast = .error (.fail err) o :=
  patchApply_truncated _ _ _ _ _ _ _ (by decide +kernel) (by decide +kernel) _
    diffFiles_patchwork _ (List.dropLast_prefix _) (by decide) _ rfl

end Truncated

end Fsdiff
