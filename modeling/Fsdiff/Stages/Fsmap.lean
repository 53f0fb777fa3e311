import Fsdiff.Stages.BlockSearch

/-! `stage_fsmap.c`: where two filesystems put the same bytes of the same file, a block
is looked for at the position that the source filesystem names, and around it. -/
namespace Fsdiff.Stages
open ByteString Exec

/-- `hypothesis_t` -/
structure Hypothesis where
  destBlock : ℕ
  srcPos : ℕ
deriving DecidableEq, Repr

/-- What `fsd_fsmap_stage_build_index` makes of two images: hypotheses about the blocks
that the tracker has not matched, or an error. It appends none that is out of bounds, and
it appends none at all for images that are no ext filesystems. -/
structure FsmapIndex (bs srcSize destBlocks : ℕ) where
  build : Tracker → Except FsdError (List Hypothesis)
  destBlock_lt : ∀ t hyps, build t = .ok hyps → ∀ h ∈ hyps, h.destBlock < destBlocks
  srcPos_le : ∀ t hyps, build t = .ok hyps → ∀ h ∈ hyps, h.srcPos + bs ≤ srcSize

/-- `stage->inactive`: one of the images is no supported filesystem. -/
def FsmapIndex.inactive (bs srcSize destBlocks : ℕ) : FsmapIndex bs srcSize destBlocks where
  build _ := .ok []
  destBlock_lt := by
    rintro _ _ ⟨⟩ h hh
    cases hh
  srcPos_le := by
    rintro _ _ ⟨⟩ h hh
    cases hh

/-- `CANCEL_CHECK_INTERVAL` -/
def cancelCheckInterval : ℕ := 256

section Stage
variable (env : Env) (K : Kernels) (bs thresholdCount searchRange : ℕ) (src dest : Bytes)

/-- The window that the stage takes for a block: the hypothesis itself, or a better one
that the sweep around it finds. -/
def fsmapWindow (destBlock : Bytes) (hypPos : ℕ) : Option ℕ :=
  let exactCount := K.countMatches (window src hypPos bs) destBlock
  if exactCount < bs then
    let sweep := blockSearchBest K src src.length destBlock bs thresholdCount hypPos
      (-searchRange) searchRange
    let cand := hypPos + sweep.1
    let best : ℕ × ℕ :=
      if exactCount < sweep.2 ∧ sweep.1 ≠ 0 ∧ ¬ OutOfBounds src.length bs cand then
        (cand.toNat, sweep.2)
      else (hypPos, exactCount)
    if best.2 < thresholdCount then none else some best.1
  else some hypPos

/-- `if ((h % CANCEL_CHECK_INTERVAL) == 0 && fsmap_cancelled(stage))` -/
def fsmapCheckCancelled (h : ℕ) : StageM Unit :=
  if h % cancelCheckInterval = 0 then checkCancelled env else pure ()

def recordFound (destIdx : ℕ) : Option ℕ → StageM Unit
  | none => pure ()
  | some srcPos => do
    let _ ← recordWindow env bs src dest destIdx srcPos
    pure ()

/-- Loop body of `fsd_fsmap_stage_run`. -/
def fsmapHypothesis (hyp : Hypothesis) : StageM Unit := do
  if (← get).tracker.isUnmatched hyp.destBlock then
    recordFound env bs src dest hyp.destBlock (fsmapWindow K bs thresholdCount searchRange src
      (blockAt bs dest hyp.destBlock) hyp.srcPos)
  else pure ()

def fsmapLoop : ℕ → List Hypothesis → StageM Unit
  | _, [] => pure ()
  | h, hyp :: hyps => do
    fsmapCheckCancelled env h
    fsmapHypothesis env K bs thresholdCount searchRange src dest hyp
    fsmapLoop (h + 1) hyps

/-- `fsd_fsmap_stage_run` -/
def fsmapStageRun (hyps : List Hypothesis) : StageM Unit :=
  fsmapLoop env K bs thresholdCount searchRange src dest 0 hyps

/-- `fsd_fsmap_stage_build_index`, which only reads the tracker. -/
def fsmapBuildIndex {destBlocks : ℕ} (index : FsmapIndex bs src.length destBlocks) :
    StageM (List Hypothesis) := do
  raise (index.build (← get).tracker)

end Stage

section Soundness
variable {env : Env} {K : Kernels} {J : Comparison} {range : ℕ}

/-- The window that the stage takes matches the block well enough. With a perfect match
the threshold is not looked at, which is why it must not exceed the block size. -/
theorem fsmapWindow_accepts (ht : 0 < J.threshold) (hle : J.threshold ≤ J.bs) {i hypPos p : ℕ}
    (hi : i < J.destBlocks) (hpos : hypPos + J.bs ≤ J.src.length)
    (h : fsmapWindow K J.bs J.threshold range J.src (J.destBlock i) hypPos = some p) :
    J.Accepts i p := by
  have hhyp : J.threshold ≤ K.countMatches (window J.src hypPos J.bs) (J.destBlock i) →
      J.Accepts i hypPos := by
    intro hc
    have hb : ¬ OutOfBounds J.src.length J.bs (hypPos : ℤ) := by
      unfold OutOfBounds
      omega
    exact Comparison.accepts_of_count le_rfl hi hb hc
  unfold fsmapWindow at h
  dsimp only at h
  have hsweep := blockSearchBest_counted K J.src J.src.length (J.destBlock i) J.bs hypPos ht
    (-range) range
  dsimp only at hsweep
  generalize blockSearchBest K J.src J.src.length (J.destBlock i) J.bs J.threshold hypPos (-range)
    range = sweep at h hsweep
  by_cases hexact : K.countMatches (window J.src hypPos J.bs) (J.destBlock i) < J.bs
  · rw [if_pos hexact] at h
    by_cases hbetter : K.countMatches (window J.src hypPos J.bs) (J.destBlock i) < sweep.2 ∧
        sweep.1 ≠ 0 ∧ ¬ OutOfBounds J.src.length J.bs (hypPos + sweep.1)
    · rw [if_pos hbetter] at h
      split_ifs at h with hmiss
      cases h
      exact hsweep.accepts le_rfl hi (not_lt.mp hmiss)
    · rw [if_neg hbetter] at h
      split_ifs at h with hmiss
      cases h
      exact hhyp (not_lt.mp hmiss)
  · rw [if_neg hexact] at h
    cases h
    exact hhyp (hle.trans (not_lt.mp hexact))

theorem fsmapHypothesis_advancing (hbs : 0 < J.bs) (ht : 0 < J.threshold) (hle : J.threshold ≤ J.bs)
    {hyp : Hypothesis} (hi : hyp.destBlock < J.destBlocks) (hpos : hyp.srcPos + J.bs ≤ J.src.length) :
    Advancing J (fsmapHypothesis env K J.bs J.threshold range J.src J.dest hyp) := by
  apply advancing_get
  intro w hw
  apply ends_ite
  · intro hu
    change Advances J w (recordFound env J.bs J.src J.dest hyp.destBlock
      (fsmapWindow K J.bs J.threshold range J.src (J.destBlock hyp.destBlock) hyp.srcPos) w)
    cases hwin : fsmapWindow K J.bs J.threshold range J.src (J.destBlock hyp.destBlock) hyp.srcPos with
    | none => exact hw.advances
    | some p =>
      have hp := fsmapWindow_accepts ht hle hi hpos hwin
      apply (recordWindow_advances hbs hw hu hp).bind
      exact fun _ => advancing_pure ()
  · exact fun _ => hw.advances

theorem fsmapLoop_advancing (hbs : 0 < J.bs) (ht : 0 < J.threshold) (hle : J.threshold ≤ J.bs)
    {hyps : List Hypothesis} (hdest : ∀ h ∈ hyps, h.destBlock < J.destBlocks)
    (hsrc : ∀ h ∈ hyps, h.srcPos + J.bs ≤ J.src.length) (n : ℕ) :
    Advancing J (fsmapLoop env K J.bs J.threshold range J.src J.dest n hyps) := by
  induction hyps generalizing n with
  | nil => exact advancing_pure ()
  | cons hyp hyps ih =>
    unfold fsmapLoop
    apply Advancing.bind
    · apply Advancing.ite
      · exact fun _ => advancing_checkCancelled
      · exact fun _ => advancing_pure ()
    intro _
    apply Advancing.bind
    · exact fsmapHypothesis_advancing hbs ht hle (hdest hyp List.mem_cons_self)
        (hsrc hyp List.mem_cons_self)
    · intro _
      exact ih (fun h hh => hdest h (List.mem_cons_of_mem _ hh))
        (fun h hh => hsrc h (List.mem_cons_of_mem _ hh)) (n + 1)

theorem fsmapStage_advancing (hbs : 0 < J.bs) (ht : 0 < J.threshold) (hle : J.threshold ≤ J.bs)
    (index : FsmapIndex J.bs J.src.length J.destBlocks) :
    Advancing J (fsmapBuildIndex J.bs J.src index >>=
      fsmapStageRun env K J.bs J.threshold range J.src J.dest) := by
  intro w hw
  apply Ends.bind (x := fsmapBuildIndex J.bs J.src index)
    (Q := fun hyps w' => w' = w ∧ index.build w.tracker = .ok hyps)
  · change Ends (raise (index.build w.tracker) w) _ _
    cases hbuild : index.build w.tracker with
    | ok hyps => exact ⟨rfl, rfl⟩
    | error e => exact hw.advances
  · intro hyps _ hpost
    obtain ⟨rfl, hbuild⟩ := hpost
    exact fsmapLoop_advancing hbs ht hle (index.destBlock_lt _ _ hbuild)
      (index.srcPos_le _ _ hbuild) 0 _ hw

end Soundness

end Fsdiff.Stages
