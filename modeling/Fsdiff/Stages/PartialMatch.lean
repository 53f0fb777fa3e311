import Fsdiff.Stages.BlockSearch

/-! `stage_partial.c`: similar blocks near a block's own position, or near where the
block before it came from. -/
namespace Fsdiff.Stages
open ByteString Exec

/-- `prev_was_relocated` and `prev_src_pos` -/
structure PrevMatch where
  wasRelocated : Bool := false
  srcPos : ℤ := 0
deriving DecidableEq, Repr

/-- The look at the block before, at the head of the loop. The position is kept when that
block was not relocated. -/
def notePrevious (bs : ℕ) (t : Tracker) (destIdx : ℕ) (prev : PrevMatch) : PrevMatch :=
  if destIdx = 0 then prev
  else
    match t.get (destIdx - 1) with
    | none => prev
    | some b =>
      if b.matchType = .relocate ∨ b.matchType = .partialMatch then
        { wasRelocated := true, srcPos := b.srcIndex * bs + b.byteOffset }
      else { prev with wasRelocated := false }

section Stage
variable (env : Env) (K : Kernels) (bs thresholdCount searchRange : ℕ) (src dest : Bytes)
variable (srcSize : ℕ)

/-- `quick_accept` -/
def quickAccept : ℕ :=
  let bar := (bs * 9 + 9) / 10
  if bar < thresholdCount then thresholdCount else bar

/-- `probes` -/
def probesOf (destPos : ℤ) (prev : PrevMatch) : List ℤ :=
  if prev.wasRelocated then [prev.srcPos + bs, destPos] else [destPos]

/-- The first probe that is good enough to skip the sweep, with its count. -/
def quickProbe (destBlock : Bytes) (destPos : ℤ) (probes : List ℤ) : Option (ℤ × ℕ) :=
  probes.findSome? fun pos =>
    if OutOfBounds srcSize bs pos then none
    else
      let c := countAt K src destBlock bs pos
      if quickAccept bs thresholdCount ≤ c then some (pos - destPos, c) else none

/-- `best_offset` and `best_count` after the probes and the sweep. -/
def sweepBest (destBlock : Bytes) (destPos : ℤ) (prev : PrevMatch) : ℤ × ℕ :=
  match quickProbe K bs thresholdCount src srcSize destBlock destPos (probesOf bs destPos prev) with
  | some found => found
  | none =>
    blockSearchBest K src srcSize destBlock bs thresholdCount destPos (-searchRange) searchRange

/-- `best_offset` and `best_count` in the end: without a match so far, what the block
before suggests. -/
def partialBest (destBlock : Bytes) (destPos : ℤ) (prev : PrevMatch) : ℤ × ℕ :=
  let best := sweepBest K bs thresholdCount searchRange src srcSize destBlock destPos prev
  if best.2 < thresholdCount ∧ prev.wasRelocated then
    let relocBase := prev.srcPos + bs
    let reloc := blockSearchBest K src srcSize destBlock bs thresholdCount relocBase 0 searchRange
    if thresholdCount ≤ reloc.2 ∧ best.2 < reloc.2 then (relocBase + reloc.1 - destPos, reloc.2)
    else best
  else best

/-- The match at `bestOffset` is carried on over the unmatched blocks that follow, `n` at
most. -/
def extendMatch (bestOffset : ℤ) : ℕ → ℕ → StageM Unit
  | 0, _ => pure ()
  | n + 1, extIdx => do
    if (← get).tracker.isUnmatched extIdx then
      let extSrcPos := (extIdx * bs : ℕ) + bestOffset
      if OutOfBounds srcSize bs extSrcPos then pure ()
      else if countAt K src (blockAt bs dest extIdx) bs extSrcPos < thresholdCount then pure ()
      else if ← recordWindow env bs src dest extIdx extSrcPos.toNat then
        extendMatch bestOffset n (extIdx + 1)
      else pure ()
    else pure ()

/-- Loop body of `fsd_partial_stage_run` after the look at the block before. -/
def partialBlock (count destIdx : ℕ) (prev : PrevMatch) : StageM Unit := do
  if (← get).tracker.isUnmatched destIdx then
    let destPos : ℤ := (destIdx * bs : ℕ)
    let best := partialBest K bs thresholdCount searchRange src srcSize (blockAt bs dest destIdx)
      destPos prev
    if thresholdCount ≤ best.2 then
      let srcPos := destPos + best.1
      if OutOfBounds srcSize bs srcPos then pure ()
      else if ← recordWindow env bs src dest destIdx srcPos.toNat then
        extendMatch env K bs thresholdCount src dest srcSize best.1 (count - (destIdx + 1))
          (destIdx + 1)
      else pure ()
    else pure ()
  else pure ()

/-- `fsd_partial_stage_run`, with `src_size` as `fsd_partial_stage_build_index` sets it:
the bytes of the source blocks. -/
def partialStageRun (srcBlocks : ℕ) : StageM Unit := do
  let count := (← get).tracker.count
  let _ ← iterM (fun destIdx prev => do
    let prev := notePrevious bs (← get).tracker destIdx prev
    partialBlock env K bs thresholdCount searchRange src dest (srcBlocks * bs) count destIdx prev
    pure prev) count 0 {}
  pure ()

end Stage

section Search
variable {K : Kernels} {bs thresholdCount searchRange : ℕ} {src destBlock : Bytes} {srcSize : ℕ}
variable {destPos : ℤ}

theorem quickProbe_counted {probes : List ℤ} {found : ℤ × ℕ}
    (h : quickProbe K bs thresholdCount src srcSize destBlock destPos probes = some found) :
    CountedAt K src srcSize destBlock bs thresholdCount (destPos + found.1) found.2 := by
  obtain ⟨pos, _, hpos⟩ := List.exists_of_findSome?_eq_some h
  dsimp only at hpos
  split_ifs at hpos with hb hc
  cases hpos
  intro _
  rw [add_sub_cancel]
  exact ⟨hb, rfl⟩

variable (K bs searchRange src srcSize destBlock destPos)

theorem sweepBest_counted (ht : 0 < thresholdCount) (prev : PrevMatch) :
    let best := sweepBest K bs thresholdCount searchRange src srcSize destBlock destPos prev
    CountedAt K src srcSize destBlock bs thresholdCount (destPos + best.1) best.2 := by
  unfold sweepBest
  split
  · rename_i hquick
    exact quickProbe_counted hquick
  · exact blockSearchBest_counted K src srcSize destBlock bs destPos ht _ _

/-- Whichever search it comes from, a count that reaches the threshold belongs to the
window at the offset from the block's own position. -/
theorem partialBest_counted (ht : 0 < thresholdCount) (prev : PrevMatch) :
    let best := partialBest K bs thresholdCount searchRange src srcSize destBlock destPos prev
    CountedAt K src srcSize destBlock bs thresholdCount (destPos + best.1) best.2 := by
  have hsweep := sweepBest_counted K bs searchRange src destBlock srcSize destPos ht prev
  unfold partialBest
  dsimp only
  split_ifs
  · rw [add_sub_cancel]
    exact blockSearchBest_counted K src srcSize destBlock bs _ ht _ _
  · exact hsweep
  · exact hsweep

end Search

section Soundness
variable {env : Env} {K : Kernels} {J : Comparison} {range srcSize : ℕ}

theorem extendMatch_advancing (hbs : 0 < J.bs) (hsize : srcSize ≤ J.src.length) (bestOffset : ℤ)
    (n extIdx : ℕ) (hn : extIdx + n ≤ J.destBlocks) :
    Advancing J (extendMatch env K J.bs J.threshold J.src J.dest srcSize bestOffset n extIdx) := by
  induction n generalizing extIdx with
  | zero => exact advancing_pure ()
  | succ n ih =>
    unfold extendMatch
    apply advancing_get
    intro w hw
    apply ends_ite
    · intro hu
      apply ends_ite
      · exact fun _ => hw.advances
      intro hb
      apply ends_ite
      · exact fun _ => hw.advances
      intro hc
      have hp := Comparison.accepts_of_count hsize (by omega) hb (not_lt.mp hc)
      apply (recordWindow_advances hbs hw hu hp).bind
      intro _
      apply Advancing.ite
      · exact fun _ => ih (extIdx + 1) (by omega)
      · exact fun _ => advancing_pure ()
    · exact fun _ => hw.advances

theorem partialBlock_advancing (hbs : 0 < J.bs) (ht : 0 < J.threshold) (hsize : srcSize ≤ J.src.length)
    {destIdx : ℕ} (hi : destIdx < J.destBlocks) (prev : PrevMatch) :
    Advancing J (partialBlock env K J.bs J.threshold range J.src J.dest srcSize J.destBlocks destIdx
      prev) := by
  unfold partialBlock
  apply advancing_get
  intro w hw
  apply ends_ite
  · intro hu
    dsimp only
    apply ends_ite
    · intro hc
      have hcount := partialBest_counted K J.bs range J.src (J.destBlock destIdx) srcSize
        (destIdx * J.bs : ℕ) ht prev
      apply ends_ite
      · exact fun _ => hw.advances
      intro _
      apply (recordWindow_advances hbs hw hu (hcount.accepts hsize hi hc)).bind
      intro _
      apply Advancing.ite
      · exact fun _ => extendMatch_advancing hbs hsize _ _ _ (by omega)
      · exact fun _ => advancing_pure ()
    · exact fun _ => hw.advances
  · exact fun _ => hw.advances

theorem partialStageRun_advancing (hbs : 0 < J.bs) (ht : 0 < J.threshold) :
    Advancing J (partialStageRun env K J.bs J.threshold range J.src J.dest J.srcBlocks) := by
  unfold partialStageRun
  apply advancing_get
  intro w hw
  rw [hw.count_eq]
  have hsize : J.srcBlocks * J.bs ≤ J.src.length := Nat.div_mul_le_self _ _
  apply Advances.bind
  · apply Advancing.iterM _ _ _ _ w hw
    intro i prev _ hi
    apply advancing_get
    intro w' hw'
    apply (partialBlock_advancing hbs ht hsize (by omega) _ w' hw').bind
    exact fun _ => advancing_pure _
  · exact fun _ => advancing_pure ()

end Soundness

end Fsdiff.Stages
