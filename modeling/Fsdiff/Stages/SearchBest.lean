import Fsdiff.Data.FirstMax
import Fsdiff.Stages.BlockSearch

/-! What `fsd_block_search_best` finds: the first of the best offsets that the prescreen lets
through. The prescreen looks at 256 bytes of the block, so it never drops a window in which
few bytes differ. -/
namespace Fsdiff.Stages
open ByteString FirstMax

/-! ### Candidates -/

section Candidates
variable (src destBlock : Bytes) (bs thresholdCount : ℕ) (centerPos minOffset maxOffset : ℤ)

/-- The bytes in which the source from `srcPos` on agrees with the block. -/
def equalBytes (srcPos : ℤ) : ℕ := matchCount (window src srcPos.toNat bs) destBlock

def InBounds (offset : ℤ) : Prop :=
  (minOffset ≤ offset ∧ offset ≤ maxOffset) ∧
    0 ≤ centerPos + offset ∧ centerPos + offset + bs ≤ src.length

/-- The agreeing bytes among the first 128 and the 128 from the middle on. -/
def sampledBytes (srcPos : ℤ) : ℕ :=
  matchCount (window src srcPos.toNat 128) (window destBlock 0 128) +
    matchCount (window src (srcPos.toNat + bs / 2) 128) (window destBlock (bs / 2) 128)

/-- An offset that is counted in full. -/
def Candidate (offset : ℤ) : Prop :=
  InBounds src bs centerPos minOffset maxOffset offset ∧
    (bs < 1024 ∨ thresholdCount * 128 / bs = 0 ∨
      thresholdCount * 128 / bs ≤ sampledBytes src destBlock bs (centerPos + offset))

end Candidates

section Counts
variable {src destBlock : Bytes} {bs thresholdCount : ℕ} {centerPos minOffset maxOffset offset : ℤ}

theorem matchCount_le_length (a b : Bytes) : matchCount a b ≤ b.length := by
  unfold matchCount
  calc
    _ ≤ (a.zip b).length := List.countP_le_length
    _ ≤ b.length := by
      rw [List.length_zip]
      exact min_le_right _ _

theorem matchCount_eq_length_iff {a b : Bytes} (h : a.length = b.length) :
    matchCount a b = b.length ↔ a = b := by
  unfold matchCount
  constructor
  · intro hc
    have hlen : (a.zip b).length = b.length := by
      rw [List.length_zip, h, min_self]
    rw [← hlen, List.countP_eq_length] at hc
    apply List.ext_getElem h
    intro i hi hi'
    have hmem : (a[i], b[i]) ∈ a.zip b := by
      rw [← List.getElem_zip (h := by omega)]
      exact List.getElem_mem _
    simpa using hc _ hmem
  · rintro rfl
    rw [List.countP_eq_length.mpr]
    · simp
    · intro p hp
      obtain ⟨i, hi, rfl⟩ := List.getElem_of_mem hp
      simp

end Counts

/-! ### The loop -/

section Loop
variable {K : Kernels} {src destBlock : Bytes} {bs thresholdCount : ℕ}
variable {centerPos minOffset maxOffset offset : ℤ}

theorem countAt_eq (hlen : destBlock.length = bs) {srcPos : ℤ}
    (hb : ¬ OutOfBounds src.length bs srcPos) :
    countAt K src destBlock bs srcPos = equalBytes src destBlock bs srcPos := by
  unfold OutOfBounds at hb
  apply K.countMatches_eq
  rw [length_window (by omega), hlen]

theorem sampleAt_eq (hlen : destBlock.length = bs) (h1024 : 1024 ≤ bs) {srcPos : ℤ}
    (hb : ¬ OutOfBounds src.length bs srcPos) :
    sampleAt K src destBlock bs srcPos = sampledBytes src destBlock bs srcPos := by
  unfold OutOfBounds at hb
  unfold sampleAt sampledBytes prescreenLen
  rw [K.countMatches_eq, K.countMatches_eq]
  · rw [length_window (by omega), length_window (by omega)]
  · rw [length_window (by omega), length_window (by omega)]

variable (K) in
def Admitted (src destBlock : Bytes) (bs thresholdCount : ℕ) (centerPos offset : ℤ) : Prop :=
  ¬ OutOfBounds src.length bs (centerPos + offset) ∧
    ¬ ScreenedOut K src destBlock bs thresholdCount (centerPos + offset)

theorem candidate_iff (hlen : destBlock.length = bs) (hlo : minOffset ≤ offset)
    (hhi : offset ≤ maxOffset) :
    Candidate src destBlock bs thresholdCount centerPos minOffset maxOffset offset ↔
      Admitted K src destBlock bs thresholdCount centerPos offset := by
  have hbounds : InBounds src bs centerPos minOffset maxOffset offset ↔
      ¬ OutOfBounds src.length bs (centerPos + offset) := by
    unfold InBounds OutOfBounds
    omega
  unfold Candidate Admitted
  rw [hbounds]
  apply and_congr_right
  intro hb
  unfold ScreenedOut prescreenMin
  by_cases h1024 : 1024 ≤ bs
  · rw [if_pos h1024, sampleAt_eq hlen h1024 hb, prescreenLen]
    omega
  · rw [if_neg h1024]
    omega

theorem equalBytes_le (hlen : destBlock.length = bs) (srcPos : ℤ) :
    equalBytes src destBlock bs srcPos ≤ bs :=
  (matchCount_le_length _ _).trans_eq hlen

theorem blockSearchLoop_bestOf (hlen : destBlock.length = bs) (n : ℕ) (offset bestOffset : ℤ)
    (bestCount : ℕ) :
    BestOf (fun o => (offset ≤ o ∧ o < offset + n) ∧
        Admitted K src destBlock bs thresholdCount centerPos o)
      (fun o => equalBytes src destBlock bs (centerPos + o)) (bestOffset, bestCount)
      (blockSearchLoop K src src.length destBlock bs thresholdCount centerPos n offset bestOffset
        bestCount) := by
  induction n generalizing offset bestOffset bestCount with
  | zero =>
    left
    refine ⟨?_, rfl⟩
    rintro o ⟨hrange, -⟩
    omega
  | succ n ih =>
    -- the offsets of the turns that are left
    have hrest : ∀ o, (offset + 1 ≤ o ∧ o < offset + 1 + n) ∧
        Admitted K src destBlock bs thresholdCount centerPos o →
        (offset ≤ o ∧ o < offset + (n + 1 : ℕ)) ∧
          Admitted K src destBlock bs thresholdCount centerPos o := by
      rintro o ⟨hrange, hadm⟩
      exact ⟨by push_cast; omega, hadm⟩
    have hsplit : ∀ o, (offset ≤ o ∧ o < offset + (n + 1 : ℕ)) ∧
        Admitted K src destBlock bs thresholdCount centerPos o →
        o = offset ∨ (offset + 1 ≤ o ∧ o < offset + 1 + n) ∧
          Admitted K src destBlock bs thresholdCount centerPos o := by
      rintro o ⟨hrange, hadm⟩
      push_cast at hrange
      by_cases heq : o = offset
      · exact .inl heq
      · exact .inr ⟨by omega, hadm⟩
    unfold blockSearchLoop
    dsimp only
    split_ifs with hb hs hlt heq
    · apply (ih (offset + 1) bestOffset bestCount).skip hrest
      intro o ho
      rcases hsplit o ho with rfl | hq
      · exact absurd hb ho.2.1
      · exact .inl hq
    · apply (ih (offset + 1) bestOffset bestCount).skip hrest
      intro o ho
      rcases hsplit o ho with rfl | hq
      · exact absurd hs ho.2.2
      · exact .inl hq
    · rw [countAt_eq hlen hb] at hlt heq ⊢
      apply BestOf.stop
      · exact ⟨⟨le_rfl, by push_cast; omega⟩, hb, hs⟩
      · exact hlt
      · exact fun o ho => ho.1.1
      · intro o _
        rw [heq]
        exact equalBytes_le hlen _
    · rw [countAt_eq hlen hb] at hlt heq ⊢
      apply BestOf.take _ hlt _ hrest hsplit (ih (offset + 1) offset _)
      · exact ⟨⟨le_rfl, by push_cast; omega⟩, hb, hs⟩
      · exact fun o ho => ho.1.1
    · rw [countAt_eq hlen hb] at hlt
      apply (ih (offset + 1) bestOffset bestCount).skip hrest
      intro o ho
      rcases hsplit o ho with rfl | hq
      · exact .inr (not_lt.mp hlt)
      · exact .inl hq

end Loop

/-! ### The prescreen -/

section Prescreen
variable {src destBlock : Bytes} {bs thresholdCount : ℕ} {centerPos minOffset maxOffset offset : ℤ}

theorem matchCount_window_add {a b : Bytes} {p q n m : ℕ} (hp : p + n ≤ a.length)
    (hq : q + n ≤ b.length) :
    matchCount (window a p (n + m)) (window b q (n + m)) =
      matchCount (window a p n) (window b q n) +
        matchCount (window a (p + n) m) (window b (q + n) m) := by
  rw [← window_append, ← window_append, matchCount_append]
  rw [length_window hp, length_window hq]

/-- Of a window in four parts the second and the fourth are not looked at. -/
theorem matchCount_le_sampled {a b : Bytes} {p q : ℕ} (h1024 : 1024 ≤ bs) (hp : p + bs ≤ a.length)
    (hq : q + bs ≤ b.length) :
    matchCount (window a p bs) (window b q bs) ≤
      matchCount (window a p 128) (window b q 128) +
        matchCount (window a (p + bs / 2) 128) (window b (q + bs / 2) 128) + (bs - 256) := by
  obtain ⟨m, hm⟩ : ∃ m, bs / 2 = 128 + m := Nat.exists_eq_add_of_le (by omega)
  obtain ⟨r, hr⟩ : ∃ r, bs = 128 + (m + (128 + r)) :=
    ⟨bs - 256 - m, by omega⟩
  have hsecond : matchCount (window a (p + 128) m) (window b (q + 128) m) ≤ m :=
    (matchCount_le_length _ _).trans length_window_le
  have hfourth : matchCount (window a (p + 128 + m + 128) r) (window b (q + 128 + m + 128) r) ≤ r :=
    (matchCount_le_length _ _).trans length_window_le
  rw [hm, hr, matchCount_window_add (by omega) (by omega), matchCount_window_add (by omega) (by omega),
    matchCount_window_add (by omega) (by omega), ← add_assoc p 128 m, ← add_assoc q 128 m]
  omega

/-- A window in which few bytes differ passes. -/
theorem candidate_of_mismatches (hlen : destBlock.length = bs) (hle : thresholdCount ≤ bs)
    (hin : InBounds src bs centerPos minOffset maxOffset offset)
    (hmis : bs - equalBytes src destBlock bs (centerPos + offset) ≤ 256 - thresholdCount * 128 / bs) :
    Candidate src destBlock bs thresholdCount centerPos minOffset maxOffset offset := by
  refine ⟨hin, ?_⟩
  by_cases h1024 : bs < 1024
  · exact .inl h1024
  right
  right
  have hmin : thresholdCount * 128 / bs ≤ 128 := by
    apply Nat.div_le_of_le_mul
    exact Nat.mul_le_mul_right 128 hle
  have hend : (centerPos + offset).toNat + bs ≤ src.length := by
    obtain ⟨-, hnonneg, hend⟩ := hin
    omega
  have hsampled := matchCount_le_sampled (q := 0) (b := destBlock) (not_lt.mp h1024) hend
    (by omega)
  have hcount : equalBytes src destBlock bs (centerPos + offset) =
      matchCount (window src (centerPos + offset).toNat bs) (window destBlock 0 bs) := by
    rw [equalBytes, ← hlen, window_all]
  rw [zero_add] at hsampled
  unfold sampledBytes
  omega

end Prescreen

theorem blockSearchBest_bestOf (K : Kernels) (src : Bytes) {destBlock : Bytes} {bs : ℕ} (hlen : destBlock.length = bs)
    (thresholdCount : ℕ) (centerPos minOffset maxOffset : ℤ) :
    BestOf (Candidate src destBlock bs thresholdCount centerPos minOffset maxOffset)
      (fun o => equalBytes src destBlock bs (centerPos + o)) (-1, thresholdCount - 1)
      (blockSearchBest K src src.length destBlock bs thresholdCount centerPos minOffset maxOffset) := by
  have hset : Candidate src destBlock bs thresholdCount centerPos minOffset maxOffset =
      fun o => (minOffset ≤ o ∧ o < minOffset + (maxOffset + 1 - minOffset).toNat) ∧
        Admitted K src destBlock bs thresholdCount centerPos o := by
    funext o
    apply propext
    constructor
    · intro h
      have hrange := h.1.1
      exact ⟨by omega, (candidate_iff hlen hrange.1 hrange.2).mp h⟩
    · rintro ⟨hrange, h⟩
      exact (candidate_iff hlen (by omega) (by omega)).mpr h
  rw [hset]
  exact blockSearchLoop_bestOf hlen _ _ _ _

/-- The search returns the first of the best candidates if one of them reaches the threshold,
and -1 with one less than the threshold if none does. Windows in which at most `256` less the
bar of the prescreen bytes differ are candidates, so that an equal window is always found. -/
theorem blockSearchBest_spec (K : Kernels) (src destBlock : Bytes) {bs thresholdCount : ℕ}
    (hlen : destBlock.length = bs) (hpos : 1 ≤ thresholdCount) (hle : thresholdCount ≤ bs)
    (centerPos minOffset maxOffset : ℤ) :
    let C := Candidate src destBlock bs thresholdCount centerPos minOffset maxOffset
    let count := fun o => equalBytes src destBlock bs (centerPos + o)
    let best := blockSearchBest K src src.length destBlock bs thresholdCount centerPos minOffset maxOffset
    ((∃ o, C o ∧ thresholdCount ≤ count o) →
      C best.1 ∧ best.2 = count best.1 ∧ thresholdCount ≤ best.2 ∧
        ∀ o, C o → count o ≤ best.2 ∧ (count o = best.2 → best.1 ≤ o)) ∧
    ((∀ o, C o → count o < thresholdCount) → best = (-1, thresholdCount - 1)) ∧
    (∀ o, InBounds src bs centerPos minOffset maxOffset o →
      bs - count o ≤ 256 - prescreenMin bs thresholdCount → C o) ∧
    ((∃ o, InBounds src bs centerPos minOffset maxOffset o ∧
        window src (centerPos + o).toNat bs = destBlock) →
      InBounds src bs centerPos minOffset maxOffset best.1 ∧ best.2 = bs ∧
        window src (centerPos + best.1).toNat bs = destBlock ∧
        ∀ o, InBounds src bs centerPos minOffset maxOffset o →
          window src (centerPos + o).toNat bs = destBlock → best.1 ≤ o) := by
  intro C count best
  have hbest : BestOf C count (-1, thresholdCount - 1) best := blockSearchBest_bestOf K src hlen _ _ _ _
  have hfound : (∃ o, C o ∧ thresholdCount ≤ count o) →
      C best.1 ∧ best.2 = count best.1 ∧ thresholdCount ≤ best.2 ∧
        ∀ o, C o → count o ≤ best.2 ∧ (count o = best.2 → best.1 ≤ o) := by
    rintro ⟨o, ho, hc⟩
    rcases hbest with ⟨hnone, -⟩ | ⟨hlt, hmem, hcount, hmax⟩
    · have hseed : count o ≤ thresholdCount - 1 := hnone o ho
      omega
    · dsimp only at hlt
      exact ⟨hmem, hcount, by omega, hmax⟩
  have hscreen : ∀ o, InBounds src bs centerPos minOffset maxOffset o →
      bs - count o ≤ 256 - prescreenMin bs thresholdCount → C o := by
    intro o ho hmis
    unfold prescreenMin at hmis
    split_ifs at hmis with h1024
    · exact candidate_of_mismatches hlen hle ho hmis
    · exact ⟨ho, .inl (not_le.mp h1024)⟩
  -- an equal window differs in no byte
  have hequal : ∀ o, InBounds src bs centerPos minOffset maxOffset o →
      (count o = bs ↔ window src (centerPos + o).toNat bs = destBlock) := by
    rintro o ⟨-, hnonneg, hend⟩
    have hwin : (window src (centerPos + o).toNat bs).length = destBlock.length := by
      rw [length_window (by omega), hlen]
    rw [← matchCount_eq_length_iff hwin, hlen]
    rfl
  refine ⟨hfound, ?_, hscreen, ?_⟩
  · intro hnone
    rcases hbest with ⟨-, heq⟩ | ⟨hlt, hmem, hcount, -⟩
    · exact heq
    · have hsmall := hnone best.1 hmem
      dsimp only at hlt
      omega
  · rintro ⟨o, ho, hwin⟩
    have hmem : ∀ o, InBounds src bs centerPos minOffset maxOffset o → count o = bs → C o := by
      intro o ho hc
      apply hscreen o ho
      omega
    have hc := (hequal o ho).mpr hwin
    obtain ⟨hC, hcount, -, hmax⟩ := hfound ⟨o, hmem o ho hc, hc ▸ hle⟩
    have hfull : best.2 = bs := by
      have hge := (hmax o (hmem o ho hc)).1
      have hle' : count best.1 ≤ bs := equalBytes_le hlen _
      omega
    refine ⟨hC.1, hfull, (hequal _ hC.1).mp (by omega), ?_⟩
    intro o' ho' hwin'
    have hc' := (hequal o' ho').mpr hwin'
    exact (hmax o' (hmem o' ho' hc')).2 (hc'.trans hfull.symm)

def sevens : Bytes := List.replicate 1024 7

/-- Two windows that agree with a block of 7s everywhere but where the prescreen looks, and the block
itself behind them. -/
def screenedSource : Bytes := List.replicate 128 0 ++ List.replicate 384 7 ++ List.replicate 128 0 ++ sevens

/-- The prescreen loses a window with 768 equal bytes, but never an equal one. -/
theorem blockSearchBest_spec_screened :
    prescreenMin 1024 512 = 64 ∧ equalBytes screenedSource sevens 1024 0 = 768 ∧
      blockSearchBest scalarKernels screenedSource screenedSource.length sevens 1024 512 0 0 1 = (-1, 511) ∧
      ∃ best, blockSearchBest scalarKernels screenedSource screenedSource.length sevens 1024 512 0 0 640 = best ∧
        best.2 = 1024 ∧ window screenedSource (0 + best.1).toNat 1024 = sevens := by
  have hlen : sevens.length = 1024 := List.length_replicate
  have hspec := fun maxOffset =>
    blockSearchBest_spec scalarKernels screenedSource sevens hlen (show 1 ≤ 512 by decide) (by decide) 0 0 maxOffset
  dsimp only at hspec
  have hscreened : ∀ o, Candidate screenedSource sevens 1024 512 0 0 1 o →
      equalBytes screenedSource sevens 1024 (0 + o) < 512 := by
    rintro o ⟨⟨⟨hlo, hhi⟩, -⟩, hsmall | hoff | hsampled⟩
    · exact absurd hsmall (lt_irrefl _)
    · exact absurd hoff (by decide)
    obtain rfl | rfl : o = 0 ∨ o = 1 := by omega
    · exact absurd hsampled (by decide +kernel)
    · exact absurd hsampled (by decide +kernel)
  obtain ⟨-, hlost, -, -⟩ := hspec 1
  obtain ⟨-, -, -, hequal⟩ := hspec 640
  have hinside : InBounds screenedSource 1024 0 0 640 640 := ⟨by decide, by decide, by decide +kernel⟩
  obtain ⟨-, hfull, hwindow, -⟩ := hequal ⟨640, hinside, by decide +kernel⟩
  exact ⟨by decide, by decide +kernel, hlost hscreened, _, rfl, hfull, hwindow⟩

end Fsdiff.Stages
