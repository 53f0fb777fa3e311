import Fsdiff.Stages.Fsmap
import Fsdiff.Stages.SearchBest

/-! What `fsd_fsmap_stage_run` decides about a hypothesis. The sweep answers -1 with one less
than the threshold when it has found nothing, and the stage takes this answer for a window: it
then drops the hypothesis, as it would have done without. -/
namespace Fsdiff.Stages
open ByteString Exec

section Window
variable (K : Kernels) (bs thresholdCount searchRange : ℕ) (src destBlock : Bytes) (hypPos : ℕ)

def sweepAround : ℤ × ℕ :=
  blockSearchBest K src src.length destBlock bs thresholdCount hypPos (-searchRange) searchRange

def sweepCount : Option ℕ :=
  if sweepAround K bs thresholdCount searchRange src destBlock hypPos = (-1, thresholdCount - 1) then none
  else some (sweepAround K bs thresholdCount searchRange src destBlock hypPos).2

def bestCount : ℕ :=
  (sweepCount K bs thresholdCount searchRange src destBlock hypPos).elim
    (equalBytes src destBlock bs hypPos) (max (equalBytes src destBlock bs hypPos))

variable {K bs thresholdCount searchRange src destBlock hypPos}

/-- The sweep finds nothing, or a window of the source that reaches the threshold. -/
theorem sweepAround_cases (hlen : destBlock.length = bs) (hpos : 1 ≤ thresholdCount) :
    (sweepAround K bs thresholdCount searchRange src destBlock hypPos = (-1, thresholdCount - 1) ∧
      bestCount K bs thresholdCount searchRange src destBlock hypPos =
        equalBytes src destBlock bs hypPos) ∨
    ∃ o m, sweepAround K bs thresholdCount searchRange src destBlock hypPos = (o, m) ∧
      thresholdCount ≤ m ∧ m ≤ bs ∧ ¬ OutOfBounds src.length bs (hypPos + o) ∧
      m = equalBytes src destBlock bs (hypPos + o) ∧
      bestCount K bs thresholdCount searchRange src destBlock hypPos =
        max (equalBytes src destBlock bs hypPos) m := by
  have hbest := blockSearchBest_bestOf K src hlen thresholdCount hypPos (-searchRange) searchRange
  change FirstMax.BestOf _ _ _ (sweepAround K bs thresholdCount searchRange src destBlock hypPos) at hbest
  unfold bestCount sweepCount
  generalize sweepAround K bs thresholdCount searchRange src destBlock hypPos = sweep at hbest ⊢
  rcases hbest with ⟨-, rfl⟩ | ⟨hlt, hmem, hcount, -⟩
  · left
    rw [if_pos rfl]
    exact ⟨rfl, rfl⟩
  · right
    dsimp only at hlt hcount
    have hle : sweep.2 ≤ bs := by
      rw [hcount]
      exact equalBytes_le hlen _
    have hne : sweep ≠ (-1, thresholdCount - 1) := by
      rintro rfl
      exact lt_irrefl _ hlt
    rw [if_neg hne]
    refine ⟨sweep.1, sweep.2, rfl, by omega, hle, ?_, hcount, rfl⟩
    obtain ⟨-, hnonneg, hend⟩ := hmem.1
    unfold OutOfBounds
    omega

/-- The stage takes a window exactly if the better of the two counts reaches the threshold. It
is a window with this count, and the hypothesis itself if that has it. -/
theorem fsmapWindow_spec (hlen : destBlock.length = bs) (hpos : 1 ≤ thresholdCount)
    (hle : thresholdCount ≤ bs) (hhyp : hypPos + bs ≤ src.length) :
    (fsmapWindow K bs thresholdCount searchRange src destBlock hypPos = none ∧
      bestCount K bs thresholdCount searchRange src destBlock hypPos < thresholdCount) ∨
    ∃ q : ℕ, fsmapWindow K bs thresholdCount searchRange src destBlock hypPos = some q ∧
      thresholdCount ≤ bestCount K bs thresholdCount searchRange src destBlock hypPos ∧
      q + bs ≤ src.length ∧
      equalBytes src destBlock bs q = bestCount K bs thresholdCount searchRange src destBlock hypPos ∧
      (bestCount K bs thresholdCount searchRange src destBlock hypPos =
        equalBytes src destBlock bs hypPos → q = hypPos) := by
  have hexact : K.countMatches (window src hypPos bs) destBlock =
      equalBytes src destBlock bs hypPos := by
    apply K.countMatches_eq
    rw [length_window hhyp, hlen]
  have hfull : equalBytes src destBlock bs hypPos ≤ bs := equalBytes_le hlen _
  have hcases := @sweepAround_cases K bs thresholdCount searchRange src destBlock hypPos hlen hpos
  unfold sweepAround at hcases
  unfold fsmapWindow
  dsimp only
  rw [hexact]
  by_cases hlt : equalBytes src destBlock bs hypPos < bs
  · rw [if_pos hlt]
    rcases hcases with ⟨hsweep, hbest⟩ | ⟨o, m, hsweep, hm, -, hin, hcount, hbest⟩
    · rw [hsweep, hbest]
      dsimp only
      -- the answer for nothing found is below the threshold, like what it replaces
      by_cases hreach : equalBytes src destBlock bs hypPos < thresholdCount
      · left
        refine ⟨?_, hreach⟩
        rw [if_pos]
        split_ifs <;> dsimp only <;> omega
      · right
        refine ⟨hypPos, ?_, not_lt.mp hreach, hhyp, rfl, fun _ => rfl⟩
        have hkept : ¬ (equalBytes src destBlock bs hypPos < thresholdCount - 1 ∧ (-1 : ℤ) ≠ 0 ∧
            ¬ OutOfBounds src.length bs (hypPos + -1)) := by
          intro h
          omega
        rw [if_neg hkept, if_neg hreach]
    · right
      rw [hsweep, hbest]
      dsimp only
      by_cases hbetter : equalBytes src destBlock bs hypPos < m
      · have hne : o ≠ 0 := by
          rintro rfl
          rw [add_zero] at hcount
          omega
        have hnonneg : 0 ≤ (hypPos : ℤ) + o := by
          unfold OutOfBounds at hin
          omega
        refine ⟨(hypPos + o).toNat, ?_, by omega, ?_, ?_, by omega⟩
        · have htaken : equalBytes src destBlock bs hypPos < m ∧ o ≠ 0 ∧
              ¬ OutOfBounds src.length bs (hypPos + o) := ⟨hbetter, hne, hin⟩
          rw [if_pos htaken, if_neg (not_lt.mpr hm)]
        · unfold OutOfBounds at hin
          omega
        · rw [Int.toNat_of_nonneg hnonneg, ← hcount]
          omega
      · refine ⟨hypPos, ?_, by omega, hhyp, by omega, fun _ => rfl⟩
        have hkept : ¬ (equalBytes src destBlock bs hypPos < m ∧ o ≠ 0 ∧
            ¬ OutOfBounds src.length bs (hypPos + o)) := fun h => hbetter h.1
        rw [if_neg hkept, if_neg (by dsimp only; omega)]
  · right
    have hbest : bestCount K bs thresholdCount searchRange src destBlock hypPos =
        equalBytes src destBlock bs hypPos := by
      rcases hcases with ⟨-, hbest⟩ | ⟨o, m, -, -, hm, -, -, hbest⟩ <;> omega
    refine ⟨hypPos, if_neg hlt, by omega, hhyp, hbest.symm, fun _ => rfl⟩

end Window

/-! ### The run -/

section Run
variable (K : Kernels) (bs thresholdCount searchRange : ℕ) (src dest : Bytes)

/-- What the stage makes of the state of an unmatched block, memory for the difference given. -/
def fsmapDecision (hyp : Hypothesis) (s : BlockState) : BlockState :=
  match fsmapWindow K bs thresholdCount searchRange src (blockAt bs dest hyp.destBlock) hyp.srcPos with
  | none => s
  | some q =>
    { s with
      matchType := .partialMatch
      srcIndex := q / bs
      byteOffset := (q % bs : ℕ)
      delta := some (deltaOf (blockAt bs dest hyp.destBlock) (window src q bs)) }

variable {K bs thresholdCount searchRange src dest}
variable {env : Env} {w : World} {b : ℕ}

/-- Another block is left alone. -/
def Untouched (b : ℕ) (w w' : World) : Prop :=
  w'.tracker.get b = w.tracker.get b ∧ (w.tracker.Inv → w'.tracker.Inv)

theorem Untouched.trans {w₁ w₂ : World} (h : Untouched b w w₁) (h' : Untouched b w₁ w₂) :
    Untouched b w w₂ :=
  ⟨h'.1.trans h.1, fun hinv => h'.2 (h.2 hinv)⟩

theorem fsmapHypothesis_untouched {hyp : Hypothesis} (hne : hyp.destBlock ≠ b) :
    Ends (fsmapHypothesis env K bs thresholdCount searchRange src dest hyp w)
      (fun _ w' => Untouched b w w') (fun _ _ => False) := by
  unfold fsmapHypothesis
  rw [get_bind]
  apply ends_ite
  swap
  · intro _
    exact ⟨rfl, fun h => h⟩
  intro _
  cases fsmapWindow K bs thresholdCount searchRange src (blockAt bs dest hyp.destBlock) hyp.srcPos with
  | none => exact ⟨rfl, fun h => h⟩
  | some q =>
    apply Ends.bind (x := recordWindow env bs src dest hyp.destBlock q)
      (Q := fun _ w' => Untouched b w w')
    · apply Ends.bind (x := poolAlloc env) (Q := fun _ w' => w'.tracker = w.tracker) (s := w) rfl
      intro ok w₁ hw
      apply ends_ite
      · intro _
        constructor
        · change (Tracker.setDelta (w₁.tracker.setMatch _ _ _) _ _ _).get b = _
          rw [Tracker.get_setDelta, if_neg hne, Tracker.get_setMatch, if_neg hne, hw]
        · intro hinv
          change (Tracker.setDelta (w₁.tracker.setMatch _ _ _) _ _ _).Inv
          rw [hw]
          exact (hinv.setMatch (by decide) _).setDelta _ _
      · intro _
        change Untouched b w w₁
        rw [Untouched, hw]
        exact ⟨rfl, fun h => h⟩
    · exact fun _ _ h => h

theorem fsmapCheckCancelled_untouched (n : ℕ) :
    Ends (fsmapCheckCancelled env n w) (fun _ w' => Untouched b w w' ∧ w'.allocs = w.allocs)
      (fun e w' => e = .cancelled ∧ (∃ k, env.cancelled k = true) ∧ Untouched b w w') := by
  unfold fsmapCheckCancelled
  apply ends_ite
  · intro _
    unfold checkCancelled
    rw [get_bind]
    change Ends ((if env.cancelled w.checks then throw .cancelled else pure () : StageM Unit)
      { w with checks := w.checks + 1 }) _ _
    apply ends_ite
    · exact fun h => ⟨rfl, ⟨w.checks, h⟩, rfl, fun h => h⟩
    · exact fun _ => ⟨⟨rfl, fun h => h⟩, rfl⟩
  · exact fun _ => ⟨⟨rfl, fun h => h⟩, rfl⟩

theorem fsmapLoop_untouched (hyps : List Hypothesis) (hne : ∀ h ∈ hyps, h.destBlock ≠ b) (n : ℕ)
    (w : World) :
    Ends (fsmapLoop env K bs thresholdCount searchRange src dest n hyps w)
      (fun _ w' => Untouched b w w')
      (fun e w' => e = .cancelled ∧ (∃ k, env.cancelled k = true) ∧ Untouched b w w') := by
  induction hyps generalizing n w with
  | nil => exact ⟨rfl, fun h => h⟩
  | cons hyp hyps ih =>
    unfold fsmapLoop
    apply (fsmapCheckCancelled_untouched n).bind
    rintro _ w₁ ⟨hw₁, -⟩
    apply (fsmapHypothesis_untouched (hne hyp List.mem_cons_self)).of_total.bind
    intro _ w₂ hw₂
    have hw := hw₁.trans hw₂
    apply (ih (fun h hh => hne h (List.mem_cons_of_mem _ hh)) (n + 1) w₂).mono
    · exact fun _ w₃ hw₃ => hw.trans hw₃
    · rintro e w₃ ⟨he, hc, hw₃⟩
      exact ⟨he, hc, hw.trans hw₃⟩

theorem fsmapLoop_append (pre post : List Hypothesis) (n : ℕ) :
    fsmapLoop env K bs thresholdCount searchRange src dest n (pre ++ post) =
      (do
        fsmapLoop env K bs thresholdCount searchRange src dest n pre
        fsmapLoop env K bs thresholdCount searchRange src dest (n + pre.length) post) := by
  induction pre generalizing n with
  | nil => rfl
  | cons hyp pre ih =>
    rw [List.cons_append, fsmapLoop, fsmapLoop, ih (n + 1), List.length_cons]
    simp only [bind_assoc]
    rw [show n + 1 + pre.length = n + (pre.length + 1) by omega]

/-- The turn for a block that is unmatched. -/
theorem fsmapHypothesis_decides {hyp : Hypothesis} {s : BlockState} (hinv : w.tracker.Inv)
    (hs : w.tracker.get hyp.destBlock = some s) (hun : w.tracker.isUnmatched hyp.destBlock = true)
    (halloc : env.poolAlloc w.allocs = true) :
    Ends (fsmapHypothesis env K bs thresholdCount searchRange src dest hyp w)
      (fun _ w' => w'.tracker.get hyp.destBlock =
        some (fsmapDecision K bs thresholdCount searchRange src dest hyp s)) (fun _ _ => False) := by
  have hnone := (hinv.isUnmatched_iff hs).mp hun
  unfold fsmapHypothesis
  rw [get_bind, if_pos hun]
  unfold fsmapDecision
  cases fsmapWindow K bs thresholdCount searchRange src (blockAt bs dest hyp.destBlock) hyp.srcPos with
  | none => exact hs
  | some q =>
    have hrecord : recordWindow env bs src dest hyp.destBlock q w =
        .ok true { w with
          allocs := w.allocs + 1
          tracker := (w.tracker.setMatch hyp.destBlock .partialMatch (q / bs)).setDelta hyp.destBlock
            (q % bs : ℕ) (some (deltaOf (blockAt bs dest hyp.destBlock) (window src q bs))) } := by
      unfold recordWindow
      rw [bind_of_ok (show poolAlloc env w = .ok true { w with allocs := w.allocs + 1 } by
        rw [← halloc]
        rfl), if_pos rfl]
      rfl
    change Ends ((do
      let _ ← recordWindow env bs src dest hyp.destBlock q
      pure () : StageM Unit) w) _ _
    rw [bind_of_ok hrecord]
    change (Tracker.setDelta (w.tracker.setMatch _ _ _) _ _ _).get _ = _
    rw [Tracker.get_setDelta, if_pos rfl, Tracker.get_setMatch, if_pos rfl, hs, Option.map_some,
      if_pos hnone, Option.map_some]

theorem untouched_of_reached {w₀ : World} {pre : List Hypothesis}
    (hne : ∀ h ∈ pre, h.destBlock ≠ b)
    (hreached : (do
      fsmapLoop env K bs thresholdCount searchRange src dest 0 pre
      fsmapCheckCancelled env pre.length) w₀ = .ok () w) : Untouched b w₀ w := by
  have hrun : Ends ((do
      fsmapLoop env K bs thresholdCount searchRange src dest 0 pre
      fsmapCheckCancelled env pre.length) w₀) (fun _ w' => Untouched b w₀ w') (fun _ _ => True) := by
    apply ((fsmapLoop_untouched pre hne 0 w₀).weaken fun _ _ _ => trivial).bind
    intro _ w₁ hw₁
    apply (fsmapCheckCancelled_untouched pre.length).mono
    · exact fun _ w₂ hw₂ => hw₁.trans hw₂.1
    · exact fun _ _ _ => trivial
  exact hrun.of_ok hreached

theorem fsmapStageRun_of_reached {w₀ : World} {pre : List Hypothesis} (hyp : Hypothesis)
    (post : List Hypothesis)
    (hreached : (do
      fsmapLoop env K bs thresholdCount searchRange src dest 0 pre
      fsmapCheckCancelled env pre.length) w₀ = .ok () w) :
    fsmapStageRun env K bs thresholdCount searchRange src dest (pre ++ hyp :: post) w₀ =
      (do
        fsmapHypothesis env K bs thresholdCount searchRange src dest hyp
        fsmapLoop env K bs thresholdCount searchRange src dest (pre.length + 1) post) w := by
  unfold fsmapStageRun
  rw [fsmapLoop_append, zero_add, fsmapLoop, ← bind_assoc]
  exact bind_of_ok hreached

/-- The decision, by the two counts. -/
theorem fsmapDecision_cases (hpos : 1 ≤ thresholdCount) (hle : thresholdCount ≤ bs) {hyp : Hypothesis}
    (hdest : (hyp.destBlock + 1) * bs ≤ dest.length) (hsrc : hyp.srcPos + bs ≤ src.length)
    (s : BlockState) :
    let destBlock := blockAt bs dest hyp.destBlock
    let best := bestCount K bs thresholdCount searchRange src destBlock hyp.srcPos
    (best < thresholdCount ∧ fsmapDecision K bs thresholdCount searchRange src dest hyp s = s) ∨
    thresholdCount ≤ best ∧ ∃ q : ℕ, q + bs ≤ src.length ∧
      fsmapDecision K bs thresholdCount searchRange src dest hyp s =
        { s with
          matchType := .partialMatch
          srcIndex := q / bs
          byteOffset := (q % bs : ℕ)
          delta := some (deltaOf destBlock (window src q bs)) } ∧
      equalBytes src destBlock bs q = best ∧
      (best = equalBytes src destBlock bs hyp.srcPos → q = hyp.srcPos) := by
  intro destBlock best
  have hlen : destBlock.length = bs := by
    apply length_window
    rw [add_mul, one_mul] at hdest
    exact hdest
  unfold fsmapDecision
  rcases fsmapWindow_spec (K := K) hlen hpos hle hsrc with ⟨hwin, hbest⟩ | ⟨q, hwin, hbest, hq, hcount, htie⟩
  · left
    rw [hwin]
    exact ⟨hbest, rfl⟩
  · right
    rw [hwin]
    exact ⟨hbest, q, hq, rfl, hcount, htie⟩

end Run

/-- A hypothesis that the run reaches, with its block still unmatched and memory for the
difference, is recorded exactly if the better of the count at its position and the best of the
sweep reaches the threshold. The window that is recorded has that many equal bytes and is the
hypothesis itself on a tie. The block ends as `fsmapDecision` says, which is told nothing about
the other hypotheses; only a cancel request keeps the run from returning. -/
theorem fsmapStageRun_decides (env : Env) (K : Kernels) {bs thresholdCount : ℕ}
    (hpos : 1 ≤ thresholdCount) (hle : thresholdCount ≤ bs) (searchRange : ℕ) (src dest : Bytes)
    (pre post : List Hypothesis) (hyp : Hypothesis)
    (hdistinct : ((pre ++ hyp :: post).map Hypothesis.destBlock).Nodup)
    (hdest : (hyp.destBlock + 1) * bs ≤ dest.length) (hsrc : hyp.srcPos + bs ≤ src.length)
    {w₀ w : World} (hinv : w₀.tracker.Inv)
    (hreached : (do
      fsmapLoop env K bs thresholdCount searchRange src dest 0 pre
      fsmapCheckCancelled env pre.length) w₀ = .ok () w)
    (hun : w.tracker.isUnmatched hyp.destBlock = true) (halloc : env.poolAlloc w.allocs = true) :
    let destBlock := blockAt bs dest hyp.destBlock
    let best := bestCount K bs thresholdCount searchRange src destBlock hyp.srcPos
    ∃ s, w₀.tracker.get hyp.destBlock = some s ∧ s.matchType = .none ∧
      Ends (fsmapStageRun env K bs thresholdCount searchRange src dest (pre ++ hyp :: post) w₀)
        (fun _ w' => w'.tracker.get hyp.destBlock =
          some (fsmapDecision K bs thresholdCount searchRange src dest hyp s))
        (fun e w' => e = .cancelled ∧ (∃ n, env.cancelled n = true) ∧
          w'.tracker.get hyp.destBlock =
            some (fsmapDecision K bs thresholdCount searchRange src dest hyp s)) ∧
      ((fsmapDecision K bs thresholdCount searchRange src dest hyp s).matchType = .partialMatch ↔
        thresholdCount ≤ best) ∧
      (best < thresholdCount → fsmapDecision K bs thresholdCount searchRange src dest hyp s = s) ∧
      (thresholdCount ≤ best → ∃ q : ℕ, q + bs ≤ src.length ∧
        fsmapDecision K bs thresholdCount searchRange src dest hyp s =
          { s with
            matchType := .partialMatch
            srcIndex := q / bs
            byteOffset := (q % bs : ℕ)
            delta := some (deltaOf destBlock (window src q bs)) } ∧
        equalBytes src destBlock bs q = best ∧
        (best = equalBytes src destBlock bs hyp.srcPos → q = hyp.srcPos)) := by
  intro destBlock best
  -- the other hypotheses are about other blocks
  rw [List.map_append, List.map_cons, List.nodup_append, List.nodup_cons] at hdistinct
  have hpre : ∀ h ∈ pre, h.destBlock ≠ hyp.destBlock := by
    intro h hh
    exact hdistinct.2.2 _ (List.mem_map_of_mem hh) _ List.mem_cons_self
  have hpost : ∀ h ∈ post, h.destBlock ≠ hyp.destBlock := by
    intro h hh heq
    exact hdistinct.2.1.1 (heq ▸ List.mem_map_of_mem hh)
  obtain ⟨hget, hinv'⟩ := untouched_of_reached hpre hreached
  have hlt : hyp.destBlock < w.tracker.count := by
    by_contra hge
    rw [Tracker.isUnmatched, if_pos (not_lt.mp hge)] at hun
    cases hun
  obtain ⟨s, hs⟩ := Tracker.exists_get hlt
  refine ⟨s, hget ▸ hs, ((hinv' hinv).isUnmatched_iff hs).mp hun, ?_, ?_⟩
  · rw [fsmapStageRun_of_reached hyp post hreached]
    apply (fsmapHypothesis_decides (hinv' hinv) hs hun halloc).of_total.bind
    intro _ w₁ hw₁
    apply (fsmapLoop_untouched post hpost (pre.length + 1) w₁).mono
    · exact fun _ w₂ hw₂ => hw₂.1.trans hw₁
    · rintro e w₂ ⟨he, hc, hw₂⟩
      exact ⟨he, hc, hw₂.1.trans hw₁⟩
  · have hnone := ((hinv' hinv).isUnmatched_iff hs).mp hun
    rcases @fsmapDecision_cases K bs thresholdCount searchRange src dest hpos hle hyp hdest hsrc s with
      ⟨hbest, hdec⟩ | ⟨hbest, q, hq, hdec, hcount, htie⟩
    · refine ⟨?_, fun _ => hdec, fun h => absurd hbest (not_lt.mpr h)⟩
      rw [hdec, hnone]
      exact ⟨fun h => (by cases h), fun h => absurd hbest (not_lt.mpr h)⟩
    · refine ⟨?_, fun h => absurd h (not_lt.mpr hbest), fun _ => ⟨q, hq, hdec, hcount, htie⟩⟩
      rw [hdec]
      exact ⟨fun _ => hbest, fun _ => rfl⟩

def shiftedWorld : World where
  tracker := { blocks := [{ destIndex := 0 }], blockSize := 2, bitmap := [1] }

theorem fsmapStageRun_decides_shifted :
    Ends (fsmapStageRun ⟨fun _ => true, fun _ => false⟩ scalarKernels 2 1 2 [5, 1, 2, 9] [1, 2] [⟨0, 0⟩]
        shiftedWorld)
      (fun _ w' => ∃ b, w'.tracker.get 0 = some b ∧ b.matchType = .partialMatch) (fun _ _ => False) := by
  have hinv : shiftedWorld.tracker.Inv := by
    have hcreate : Tracker.create 1 2 = .ok shiftedWorld.tracker := rfl
    exact (Tracker.create_spec hcreate).1
  obtain ⟨s, -, -, hrun, hiff, -⟩ := fsmapStageRun_decides ⟨fun _ => true, fun _ => false⟩ scalarKernels
    (le_refl 1) (show 1 ≤ 2 by decide) 2 [5, 1, 2, 9] [1, 2] [] [] ⟨0, 0⟩ (by decide) (by decide)
    (by decide) hinv (w := { shiftedWorld with checks := 1 }) rfl rfl rfl
  apply hrun.mono
  · intro _ w' hw'
    exact ⟨_, hw', hiff.mpr (by decide)⟩
  · rintro e w' ⟨-, ⟨n, hn⟩, -⟩
    cases hn

end Fsdiff.Stages
