import Fsdiff.Stages.Completeness
import Fsdiff.Stages.PartialMatch
import Fsdiff.Stages.SearchBest

/-! What the partial stage leaves unmatched: with memory for its deltas, a block is left only if
none of the windows that the stage may count for it is good enough. -/
namespace Fsdiff.Stages
open ByteString Exec FirstMax

/-! ### The source blocks -/

/-- The whole blocks of the source: the bytes that the partial stage looks at. -/
def Comparison.whole (J : Comparison) : Bytes := J.src.take (J.srcBlocks * J.bs)

section Whole
variable {K : Kernels} {J : Comparison} {destBlock : Bytes} {srcPos : ℤ}

theorem Comparison.length_whole (J : Comparison) : J.whole.length = J.srcBlocks * J.bs := by
  rw [Comparison.whole, List.length_take]
  exact min_eq_left (Nat.div_mul_le_self _ _)

theorem Comparison.window_whole {p n : ℕ} (h : p + n ≤ J.srcBlocks * J.bs) :
    window J.whole p n = window J.src p n := by
  apply window_ext
  intro k hk
  rw [Comparison.whole, List.getElem?_take, if_pos (by omega)]

theorem countAt_whole (hb : ¬ OutOfBounds (J.srcBlocks * J.bs) J.bs srcPos) :
    countAt K J.whole destBlock J.bs srcPos = countAt K J.src destBlock J.bs srcPos := by
  unfold OutOfBounds at hb
  rw [countAt, countAt, J.window_whole (by omega)]

theorem screenedOut_whole {t : ℕ} (hb : ¬ OutOfBounds (J.srcBlocks * J.bs) J.bs srcPos) :
    ScreenedOut K J.whole destBlock J.bs t srcPos ↔ ScreenedOut K J.src destBlock J.bs t srcPos := by
  unfold OutOfBounds at hb
  unfold ScreenedOut
  by_cases h1024 : 1024 ≤ J.bs
  · have hsample : sampleAt K J.whole destBlock J.bs srcPos = sampleAt K J.src destBlock J.bs srcPos := by
      unfold sampleAt prescreenLen
      rw [J.window_whole (by omega), J.window_whole (by omega)]
    rw [hsample]
  · simp [prescreenMin, h1024]

theorem blockSearchLoop_whole (t : ℕ) (centerPos : ℤ) (n : ℕ) (offset bestOffset : ℤ) (bestCount : ℕ) :
    blockSearchLoop K J.whole (J.srcBlocks * J.bs) destBlock J.bs t centerPos n offset bestOffset
        bestCount =
      blockSearchLoop K J.src (J.srcBlocks * J.bs) destBlock J.bs t centerPos n offset bestOffset
        bestCount := by
  induction n generalizing offset bestOffset bestCount with
  | zero => rfl
  | succ n ih =>
    unfold blockSearchLoop
    dsimp only
    by_cases hb : OutOfBounds (J.srcBlocks * J.bs) J.bs (centerPos + offset)
    · rw [if_pos hb, if_pos hb, ih]
    · rw [if_neg hb, if_neg hb, countAt_whole hb]
      by_cases hs : ScreenedOut K J.src destBlock J.bs t (centerPos + offset)
      · rw [if_pos hs, if_pos ((screenedOut_whole hb).mpr hs), ih]
      · rw [if_neg hs, if_neg fun h => hs ((screenedOut_whole hb).mp h)]
        simp only [ih]

/-- A search that ends below the threshold has found no candidate that reaches it. -/
theorem no_candidate_of_best_lt {t : ℕ} (ht : 0 < t) (hlen : destBlock.length = J.bs)
    {centerPos lo hi : ℤ}
    (h : (blockSearchBest K J.src (J.srcBlocks * J.bs) destBlock J.bs t centerPos lo hi).2 < t) :
    ∀ o, Candidate J.whole destBlock J.bs t centerPos lo hi o →
      equalBytes J.whole destBlock J.bs (centerPos + o) < t := by
  have hbest := blockSearchBest_bestOf K J.whole hlen t centerPos lo hi
  rw [blockSearchBest, J.length_whole, blockSearchLoop_whole] at hbest
  intro o ho
  rcases hbest with ⟨hnone, -⟩ | ⟨hlt, -⟩
  · have : equalBytes J.whole destBlock J.bs (centerPos + o) ≤ t - 1 := hnone o ho
    omega
  · change t - 1 < (blockSearchBest K J.src (J.srcBlocks * J.bs) destBlock J.bs t centerPos lo hi).2 at hlt
    omega

end Whole

/-! ### What is missed -/

/-- The position behind the source window of the block before, if that one came from elsewhere. -/
def Continues (bs : ℕ) (t : Tracker) (i : ℕ) (pos : ℤ) : Prop :=
  ∃ b, 0 < i ∧ t.get (i - 1) = some b ∧ (b.matchType = .relocate ∨ b.matchType = .partialMatch) ∧
    pos = b.srcIndex * bs + b.byteOffset + bs

/-- None of the windows for block `i` is good enough: of those within `range` bytes of its own
position, those up to `range` bytes behind the window of the block before, and these two positions
themselves, which are counted without the prescreen. -/
structure Missed (J : Comparison) (range : ℕ) (t : Tracker) (i : ℕ) : Prop where
  near : ∀ o, Candidate J.whole (J.destBlock i) J.bs J.threshold (i * J.bs : ℕ) (-range) range o →
    equalBytes J.whole (J.destBlock i) J.bs ((i * J.bs : ℕ) + o) < J.threshold
  behind : ∀ pos, Continues J.bs t i pos →
    ∀ o, Candidate J.whole (J.destBlock i) J.bs J.threshold pos 0 range o →
      equalBytes J.whole (J.destBlock i) J.bs (pos + o) < J.threshold
  probes : ∀ pos : ℤ, pos = (i * J.bs : ℕ) ∨ Continues J.bs t i pos →
    0 ≤ pos → pos + J.bs ≤ J.whole.length →
      equalBytes J.whole (J.destBlock i) J.bs pos < quickAccept J.bs J.threshold

section Block
variable {env : Env} {K : Kernels} {J : Comparison} {range : ℕ} {t : Tracker} {i : ℕ}

theorem threshold_le_quickAccept (bs t : ℕ) : t ≤ quickAccept bs t := by
  unfold quickAccept
  dsimp only
  split_ifs with h
  · exact le_rfl
  · exact not_lt.mp h

theorem notePrevious_iff (hcount : i < t.count) (prev : PrevMatch) (h0 : i = 0 → prev.wasRelocated = false)
    (pos : ℤ) :
    Continues J.bs t i pos ↔
      (notePrevious J.bs t i prev).wasRelocated = true ∧
        pos = (notePrevious J.bs t i prev).srcPos + J.bs := by
  unfold notePrevious Continues
  by_cases hi : i = 0
  · rw [if_pos hi, h0 hi]
    simp [hi]
  · obtain ⟨b, hb⟩ := Tracker.exists_get (t := t) (i := i - 1) (by omega)
    rw [if_neg hi, hb]
    dsimp only
    constructor
    · rintro ⟨b', -, hb', hty, rfl⟩
      obtain rfl := Option.some.inj hb'
      rw [if_pos hty]
      exact ⟨rfl, rfl⟩
    · rintro ⟨hre, rfl⟩
      split_ifs at hre ⊢ with hty
      exact ⟨b, Nat.pos_of_ne_zero hi, rfl, hty, rfl⟩

/-- The searches for a block end below the threshold only if its windows are not good enough. -/
theorem missed_of_partialBest_lt (ht : 0 < J.threshold) (hi : i < J.destBlocks) {prev : PrevMatch}
    (hprev : ∀ pos, Continues J.bs t i pos ↔ prev.wasRelocated = true ∧ pos = prev.srcPos + J.bs)
    (h : (partialBest K J.bs J.threshold range J.src (J.srcBlocks * J.bs) (J.destBlock i)
      (i * J.bs : ℕ) prev).2 < J.threshold) : Missed J range t i := by
  have hlen := J.length_destBlock hi
  have hquick := threshold_le_quickAccept J.bs J.threshold
  -- the sweep ends below the threshold, and so does the search behind the block before
  obtain ⟨hsweep, hreloc⟩ : (sweepBest K J.bs J.threshold range J.src (J.srcBlocks * J.bs) (J.destBlock i)
        (i * J.bs : ℕ) prev).2 < J.threshold ∧
      (prev.wasRelocated = true → (blockSearchBest K J.src (J.srcBlocks * J.bs) (J.destBlock i) J.bs
        J.threshold (prev.srcPos + J.bs) 0 range).2 < J.threshold) := by
    unfold partialBest at h
    dsimp only at h
    split_ifs at h with h1 h2
    · omega
    · refine ⟨h, fun _ => ?_⟩
      by_contra hge
      exact h2 ⟨not_lt.mp hge, by omega⟩
    · refine ⟨h, fun hre => absurd ⟨h, hre⟩ h1⟩
  unfold sweepBest at hsweep
  cases hprobe : quickProbe K J.bs J.threshold J.src (J.srcBlocks * J.bs) (J.destBlock i) (i * J.bs : ℕ)
      (probesOf J.bs (i * J.bs : ℕ) prev) with
  | some found =>
    rw [hprobe] at hsweep
    obtain ⟨pos, -, hpos⟩ := List.exists_of_findSome?_eq_some hprobe
    dsimp only at hpos
    split_ifs at hpos with hb hc
    obtain rfl := Option.some.inj hpos
    dsimp only at hsweep
    omega
  | none =>
    rw [hprobe] at hsweep
    refine ⟨no_candidate_of_best_lt ht hlen hsweep, ?_, ?_⟩
    · intro pos hpos
      obtain ⟨hre, rfl⟩ := (hprev pos).mp hpos
      exact no_candidate_of_best_lt ht hlen (hreloc hre)
    · intro pos hpos hnonneg hend
      have hmem : pos ∈ probesOf J.bs (i * J.bs : ℕ) prev := by
        unfold probesOf
        rcases hpos with rfl | hpos
        · split_ifs <;> simp
        · obtain ⟨hre, rfl⟩ := (hprev pos).mp hpos
          simp [hre]
      have hnone := List.findSome?_eq_none_iff.mp hprobe pos hmem
      rw [J.length_whole] at hend
      have hb : ¬ OutOfBounds (J.srcBlocks * J.bs) J.bs pos := by
        unfold OutOfBounds
        omega
      dsimp only at hnone
      rw [if_neg hb] at hnone
      split_ifs at hnone with hc
      have hwin : ¬ OutOfBounds J.whole.length J.bs pos := by
        rw [J.length_whole]
        exact hb
      rw [← countAt_whole hb, countAt_eq hlen hwin] at hc
      exact not_le.mp hc

theorem recordWindow_ends (hpool : ∀ n, env.poolAlloc n = true) (w : World) (p : ℕ) :
    Ends (recordWindow env J.bs J.src J.dest i p w)
      (fun ok w' => ok = true ∧ (∀ k, k ≠ i → w'.tracker.get k = w.tracker.get k) ∧
        ∀ b, w'.tracker.get i = some b → b.matchType ≠ .none)
      (fun _ _ => False) := by
  apply Ends.bind (poolAlloc_ends hpool w)
  rintro _ w₁ ⟨rfl, hw₁⟩
  rw [if_pos rfl]
  refine ⟨rfl, fun k hk => ?_, fun b hb => ?_⟩
  · change ((w₁.tracker.setMatch i .partialMatch _).setDelta i _ _).get k = _
    rw [Tracker.get_setDelta, if_neg hk.symm, Tracker.get_setMatch, if_neg hk.symm, hw₁]
  · change ((w₁.tracker.setMatch i .partialMatch _).setDelta i _ _).get i = some b at hb
    rw [Tracker.get_setDelta, if_pos rfl, Tracker.get_setMatch, if_pos rfl] at hb
    obtain ⟨b₁, hb₁, rfl⟩ := Option.map_eq_some_iff.mp hb
    obtain ⟨b₀, hb₀, rfl⟩ := Option.map_eq_some_iff.mp hb₁
    split_ifs with hm
    · exact MatchType.noConfusion
    · exact hm

theorem extendMatch_ends (hpool : ∀ n, env.poolAlloc n = true) (bestOffset : ℤ) (n extIdx : ℕ)
    (w : World) :
    Ends (extendMatch env K J.bs J.threshold J.src J.dest (J.srcBlocks * J.bs) bestOffset n extIdx w)
      (fun _ w' => ∀ k < extIdx, w'.tracker.get k = w.tracker.get k) (fun _ _ => False) := by
  induction n generalizing extIdx w with
  | zero => exact fun _ _ => rfl
  | succ n ih =>
    unfold extendMatch
    change Ends ((if w.tracker.isUnmatched extIdx then _ else pure () : StageM Unit) w) _ _
    refine ends_ite (fun _ => ?_) fun _ _ _ => rfl
    refine ends_ite (fun _ _ _ => rfl) fun _ => ?_
    refine ends_ite (fun _ _ _ => rfl) fun _ => ?_
    apply Ends.bind (recordWindow_ends hpool w _)
    rintro _ w₁ ⟨rfl, hother, -⟩
    rw [if_pos rfl]
    apply (ih (extIdx + 1) w₁).imp
    intro _ w₂ hw₂ k hk
    rw [hw₂ k (by omega), hother k (by omega)]

/-- One turn of the loop: the blocks before are left alone, and the block is left unmatched only
if its windows are not good enough. -/
theorem partialBlock_ends (hpool : ∀ n, env.poolAlloc n = true) (ht : 0 < J.threshold)
    (hi : i < J.destBlocks) {w : World} (hw : Sound J w.tracker) {prev : PrevMatch}
    (hprev : ∀ pos, Continues J.bs w.tracker i pos ↔ prev.wasRelocated = true ∧ pos = prev.srcPos + J.bs) :
    Ends (partialBlock env K J.bs J.threshold range J.src J.dest (J.srcBlocks * J.bs) J.destBlocks i
        prev w)
      (fun _ w' => (∀ k < i, w'.tracker.get k = w.tracker.get k) ∧
        ∀ b, w'.tracker.get i = some b → b.matchType = .none → Missed J range w.tracker i)
      (fun _ _ => False) := by
  have hcounted := partialBest_counted K J.bs range J.src (J.destBlock i) (J.srcBlocks * J.bs)
    (i * J.bs : ℕ) ht prev
  unfold partialBlock
  change Ends ((if w.tracker.isUnmatched i then _ else pure () : StageM Unit) w) _ _
  apply ends_ite
  · intro _
    dsimp only
    apply ends_ite
    · intro hc
      refine ends_ite (fun hb => absurd hb (hcounted hc).1) fun _ => ?_
      apply Ends.bind (recordWindow_ends hpool w _)
      rintro _ w₁ ⟨rfl, hother, hmatched⟩
      rw [if_pos rfl]
      apply (extendMatch_ends hpool _ _ (i + 1) w₁).imp
      intro _ w₂ hw₂
      refine ⟨fun k hk => ?_, fun b hb hm => ?_⟩
      · rw [hw₂ k (by omega), hother k (by omega)]
      · rw [hw₂ i (Nat.lt_succ_self i)] at hb
        exact absurd hm (hmatched b hb)
    · intro hc
      exact ⟨fun _ _ => rfl, fun _ _ _ => missed_of_partialBest_lt ht hi hprev (not_le.mp hc)⟩
  · intro hu
    refine ⟨fun _ _ => rfl, fun b hb hm => ?_⟩
    exact absurd ((hw.inv.isUnmatched_iff hb).mpr hm) hu

theorem Missed.of_get {t' : Tracker} (h : Missed J range t i)
    (hget : 0 < i → t'.get (i - 1) = t.get (i - 1)) : Missed J range t' i := by
  have hcont : ∀ pos, Continues J.bs t' i pos → Continues J.bs t i pos := by
    rintro pos ⟨b, hi, hb, hty, rfl⟩
    exact ⟨b, hi, hget hi ▸ hb, hty, rfl⟩
  exact ⟨h.near, fun pos hpos => h.behind pos (hcont pos hpos),
    fun pos hpos => h.probes pos (hpos.imp id (hcont pos))⟩

end Block

/-- The loop of the stage before block `n`: the blocks before it are settled. The note about the
block before is not set at the start. -/
structure Swept (J : Comparison) (range : ℕ) (t₀ : Tracker) (n : ℕ) (prev : PrevMatch) (t : Tracker) :
    Prop where
  sound : Sound J t
  kept : Kept t₀ t
  start : n = 0 → prev.wasRelocated = false
  missed : ∀ i < n, ∀ b, t.get i = some b → b.matchType = .none → Missed J range t i

/-- With memory for every delta, the stage ends, keeps the matches it finds, records only good
windows, and leaves a block unmatched only if none of the windows it may count is good enough. -/
theorem partialStageRun_complete (env : Env) (hpool : ∀ n, env.poolAlloc n = true) (K : Kernels)
    (J : Comparison) (hbs : 0 < J.bs) (ht : 0 < J.threshold) (range : ℕ) (w : World)
    (hw : Sound J w.tracker) :
    Ends (partialStageRun env K J.bs J.threshold range J.src J.dest J.srcBlocks w)
      (fun _ w' => Sound J w'.tracker ∧ Kept w.tracker w'.tracker ∧
        ∀ i < J.destBlocks, w'.tracker.isUnmatched i = true → Missed J range w'.tracker i)
      (fun _ _ => False) := by
  have hsize : J.srcBlocks * J.bs ≤ J.src.length := Nat.div_mul_le_self _ _
  have hstart : Swept J range w.tracker 0 {} w.tracker :=
    ⟨hw, .refl _, fun _ => rfl, fun i hi => absurd hi (Nat.not_lt_zero i)⟩
  unfold partialStageRun
  rw [get_bind, hw.count_eq]
  apply Ends.bind (Ends.iterM_zero
    (fun n prev (w' : World) => Swept J range w.tracker n prev w'.tracker) _ _ _ ?_ hstart)
  · intro _ w₁ h₁
    refine ⟨h₁.sound, h₁.kept, fun i hi hu => ?_⟩
    obtain ⟨b, hb⟩ := Tracker.exists_get (t := w₁.tracker) (i := i) (h₁.sound.count_eq.symm ▸ hi)
    exact h₁.missed i hi b hb ((h₁.sound.inv.isUnmatched_iff hb).mp hu)
  · intro i prev w₁ hi h₁
    rw [get_bind]
    have hprev : ∀ pos, Continues J.bs w₁.tracker i pos ↔ _ :=
      notePrevious_iff (h₁.sound.count_eq.symm ▸ hi) prev h₁.start
    have hadvance : Advances J w₁ (partialBlock env K J.bs J.threshold range J.src J.dest
        (J.srcBlocks * J.bs) J.destBlocks i (notePrevious J.bs w₁.tracker i prev) w₁) :=
      partialBlock_advancing hbs ht hsize hi _ w₁ h₁.sound
    have hturn := hadvance.and (partialBlock_ends hpool ht hi h₁.sound hprev)
    apply Ends.bind (hturn.weaken fun _ _ h => h.2)
    rintro _ w₂ ⟨⟨hsound, hkept⟩, hsame, hmissed⟩
    refine ⟨hsound, h₁.kept.trans hkept, fun h0 => absurd h0 (Nat.succ_ne_zero i), fun k hk b hb hm => ?_⟩
    rcases Nat.lt_succ_iff_lt_or_eq.mp hk with hlt | rfl
    · rw [hsame k hlt] at hb
      exact (h₁.missed k hlt b hb hm).of_get fun _ => hsame (k - 1) (by omega)
    · exact (hmissed b hb hm).of_get fun hpos => hsame (k - 1) (by omega)

/-- A block that is found one byte further on, and one that agrees with the source in three quarters
of its bytes, but in none that the prescreen looks at. -/
def screenedBlocks : Comparison where
  bs := 1024
  threshold := 512
  src := (List.replicate 256 [1, 2, 3, 4]).flatten ++ (List.replicate 128 0 ++ List.replicate 384 7 ++
    List.replicate 128 0 ++ List.replicate 384 7)
  dest := (List.replicate 255 [2, 3, 4, 1]).flatten ++ [2, 3, 4, 0] ++ List.replicate 1024 7

/-- Kernels that look at one byte after the other. -/
def bytewiseKernels : Kernels where
  isZero data := data = List.replicate data.length 0x00
  isOne data := data = List.replicate data.length 0xFF
  countMatches := matchCount
  isZero_iff _ := decide_eq_true_iff
  isOne_iff _ := decide_eq_true_iff
  countMatches_eq _ _ _ := rfl

theorem partialStageRun_complete_screenedBlocks :
    ∃ t w', Tracker.create 2 1024 = .ok t ∧ Sound screenedBlocks t ∧
      partialStageRun ⟨fun _ => true, fun _ => false⟩ bytewiseKernels screenedBlocks.bs screenedBlocks.threshold 2
        screenedBlocks.src screenedBlocks.dest screenedBlocks.srcBlocks { tracker := t } = .ok () w' ∧
      w'.tracker.isUnmatched 0 = false ∧ w'.tracker.isUnmatched 1 = true ∧
      Missed screenedBlocks 2 w'.tracker 1 := by
  obtain ⟨t, ht⟩ := Tracker.exists_create (show 0 < 2 by decide) (show 0 < 1024 by decide)
  obtain ⟨hinv, hcount, -, hblocks⟩ := Tracker.create_spec ht
  have hsound : Sound screenedBlocks t :=
    ⟨hinv, by rw [hcount]; decide +kernel, fun i b hb => by rw [hblocks i b hb]; trivial⟩
  have hrun := partialStageRun_complete ⟨fun _ => true, fun _ => false⟩ (fun _ => rfl) bytewiseKernels
    screenedBlocks (by decide) (by decide) 2 { tracker := t } hsound
  obtain ⟨_, w', hok, -, -, hmissed⟩ := hrun.exists_ok
  have hleft : (w'.tracker.isUnmatched 0, w'.tracker.isUnmatched 1) = (false, true) := by
    have hstate := congrArg (fun r => (stateOf r).map fun w : World =>
      (w.tracker.isUnmatched 0, w.tracker.isUnmatched 1)) hok
    rw [Tracker.create, if_neg (by decide)] at ht
    cases ht
    apply Option.some.inj
    rw [← show _ = some _ from hstate]
    decide +kernel
  obtain ⟨h0, h1⟩ := Prod.mk.inj hleft
  exact ⟨t, w', ht, hsound, hok, h0, h1, hmissed 1 (by decide +kernel) h1⟩

end Fsdiff.Stages
