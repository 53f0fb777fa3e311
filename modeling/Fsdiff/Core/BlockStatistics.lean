import Fsdiff.Core.BlockTracker
import Mathlib.Logic.Function.Iterate

/-! What is still unmatched is kept three times: in the types of the blocks, in the bitmap
and in the counters. Every sequence of calls keeps the three in step. -/
namespace Fsdiff.Tracker

/-- `fsd_block_tracker_unmatched_count` -/
def unmatchedCount (t : Tracker) : ℕ := (t.bitmap.map Bitmap.popcount).sum

def typeCount (t : Tracker) (ty : MatchType) : ℕ := t.blocks.countP (·.matchType = ty)

/-- The counter of one type; blocks without a match are counted when they become literals. -/
def counter (t : Tracker) : MatchType → ℕ
  | .identity => t.identityCount
  | .relocate => t.relocateCount
  | .partialMatch => t.partialCount
  | .zero => t.zeroCount
  | .one => t.oneCount
  | .none => t.literalCount

inductive Call where
  | setMatch (destIndex : ℕ) (matchType : MatchType) (srcIndex : ℕ) (isMatch : matchType ≠ .none)
  | setCrc32 (destIndex : ℕ) (crc32 : BitVec 32)
  | setDelta (destIndex : ℕ) (byteOffset : ℤ) (delta : Option Bytes)

def Call.run (t : Tracker) : Call → Tracker
  | .setMatch i ty src _ => t.setMatch i ty src
  | .setCrc32 i crc => t.setCrc32 i crc
  | .setDelta i off delta => t.setDelta i off delta

def runCalls (t : Tracker) (calls : List Call) : Tracker := calls.foldl Call.run t

/-- The bitmap holds the unmatched blocks and no other bit, the five counters are those of
the blocks, and nothing has been counted as a literal. -/
structure Consistent (t : Tracker) : Prop extends t.Inv where
  tail_clear : ∀ i, t.count ≤ i → Bitmap.test t.bitmap i = false
  counter_eq : ∀ ty, ty ≠ .none → t.counter ty = t.typeCount ty
  literal_eq : t.literalCount = 0

section Counters
variable {t : Tracker}

theorem counter_countMatch (t : Tracker) {ty : MatchType} (hty : ty ≠ .none) (ty' : MatchType) :
    (t.countMatch ty).counter ty' = t.counter ty' + if ty = ty' then 1 else 0 := by
  cases ty with
  | none => exact absurd rfl hty
  | _ => cases ty' <;> rfl

private theorem countP_range {α : Type} (l : List α) (q : α → Bool) (p : ℕ → Bool)
    (h : ∀ i a, l[i]? = some a → p i = q a) : (List.range l.length).countP p = l.countP q := by
  induction l generalizing p with
  | nil => rfl
  | cons a l ih =>
    rw [List.length_cons, List.range_succ_eq_map, List.countP_cons, List.countP_map, List.countP_cons,
      ih (p ∘ Nat.succ) (fun i b hb => h (i + 1) b hb), h 0 a rfl]

theorem sum_typeCount (t : Tracker) :
    t.typeCount .identity + t.typeCount .relocate + t.typeCount .partialMatch + t.typeCount .zero +
      t.typeCount .one + t.typeCount .none = t.count := by
  unfold typeCount count
  induction t.blocks with
  | nil => rfl
  | cons b blocks ih =>
    simp only [List.countP_cons, List.length_cons, ← ih]
    cases b.matchType <;> simp <;> omega

theorem Consistent.countP_test (h : t.Consistent) :
    (List.range t.count).countP (Bitmap.test t.bitmap) = t.typeCount .none := by
  apply countP_range
  intro i b hb
  rw [Bool.eq_iff_iff, h.test_iff i b hb, decide_eq_true_eq]

theorem Consistent.unmatchedCount_eq (h : t.Consistent) : t.unmatchedCount = t.typeCount .none := by
  have hroom : 64 * t.bitmap.length = t.count + (64 * t.bitmap.length - t.count) := by
    rw [h.words]
    omega
  have htail : (List.range (64 * t.bitmap.length - t.count)).countP
      (Bitmap.test t.bitmap ∘ (t.count + ·)) = 0 := by
    rw [List.countP_eq_zero]
    intro i _
    rw [Function.comp_apply, h.tail_clear _ (Nat.le_add_right _ _)]
    exact Bool.false_ne_true
  rw [unmatchedCount, Bitmap.sum_popcount, hroom, List.range_add, List.countP_append,
    List.countP_map, htail, h.countP_test, Nat.add_zero]

end Counters

section Calls
variable {t : Tracker}

theorem create_consistent {destBlocks bs : ℕ} (h : create destBlocks bs = .ok t) :
    t.Consistent := by
  obtain ⟨hinv, hcount, -, hblocks⟩ := create_spec h
  have hnone : ∀ ty, ty ≠ .none → t.typeCount ty = 0 := by
    intro ty hty
    rw [typeCount, List.countP_eq_zero]
    intro b hb
    obtain ⟨i, hi⟩ := List.mem_iff_getElem?.mp hb
    rw [hblocks i b hi, decide_eq_true_eq]
    exact hty.symm
  unfold create at h
  split_ifs at h
  cases h
  refine ⟨hinv, ?_, ?_, rfl⟩
  · intro i hi
    rw [hcount] at hi
    have hbits := test_foldl_set destBlocks (List.replicate ((destBlocks + 63) / 64) 0)
      (by rw [List.length_replicate]; omega) i
    have hzero : Bitmap.test (List.replicate ((destBlocks + 63) / 64) 0) i = false := by
      rw [Bitmap.test_eq, List.getD_eq_getElem?_getD, List.getElem?_replicate]
      split_ifs <;> exact BitVec.getLsbD_zero
    rw [hbits.2, hzero, decide_eq_false (by omega)]
    rfl
  · intro ty hty
    rw [hnone ty hty]
    cases ty with
    | none => exact absurd rfl hty
    | _ => rfl

/-- A match of an unmatched block moves it from one type to another. -/
theorem typeCount_setMatch {i : ℕ} {b : BlockState} (hb : t.get i = some b)
    (hnone : b.matchType = .none) (ty : MatchType) (src : ℕ) (ty' : MatchType) (hty' : ty' ≠ .none) :
    (t.setMatch i ty src).typeCount ty' = t.typeCount ty' + if ty = ty' then 1 else 0 := by
  obtain ⟨hlt, hbi⟩ := List.getElem?_eq_some_iff.mp hb
  have hold : ¬ b.matchType = ty' := by
    rw [hnone]
    exact hty'.symm
  unfold setMatch typeCount
  rw [show t.blocks[i]? = some b from hb]
  dsimp only
  rw [if_neg (not_not.mpr hnone), countMatch_blocks, List.countP_set hlt, hbi]
  simp [hold]

theorem Consistent.setMatch (h : t.Consistent) (i : ℕ) {ty : MatchType} (hty : ty ≠ .none)
    (src : ℕ) : (t.setMatch i ty src).Consistent := by
  by_cases hopen : ∃ b, t.get i = some b ∧ b.matchType = .none
  · obtain ⟨b, hb, hnone⟩ := hopen
    have hset : t.setMatch i ty src = countMatch
        { t with blocks := t.blocks.set i { b with matchType := ty, srcIndex := src }
                 bitmap := Bitmap.clear t.bitmap i } ty := by
      rw [Tracker.setMatch, show t.blocks[i]? = some b from hb]
      exact if_neg (not_not.mpr hnone)
    refine ⟨h.toInv.setMatch hty src, ?_, ?_, ?_⟩
    · intro j hj
      rw [count_setMatch] at hj
      rw [hset, countMatch_bitmap, Bitmap.test_clear _ _ _ (h.word_lt (get_lt hb)),
        h.tail_clear j hj, Bool.and_false]
    · intro ty' hty'
      rw [typeCount_setMatch hb hnone ty src ty' hty', ← h.counter_eq ty' hty', hset,
        counter_countMatch _ hty]
      cases ty' <;> rfl
    · have hlit := counter_countMatch { t with
        blocks := t.blocks.set i { b with matchType := ty, srcIndex := src }
        bitmap := Bitmap.clear t.bitmap i } hty .none
      rw [if_neg hty] at hlit
      rw [hset]
      exact hlit.trans h.literal_eq
  · have hset : t.setMatch i ty src = t := by
      unfold Tracker.setMatch
      split
      · rfl
      · next b hb => exact if_pos fun hnone => hopen ⟨b, hb, hnone⟩
    rw [hset]
    exact h

private theorem Consistent.of_blocks (h : t.Consistent) {blocks : List BlockState}
    (hinv : Inv { t with blocks := blocks })
    (hty : blocks.map BlockState.matchType = t.blocks.map BlockState.matchType) :
    Consistent { t with blocks := blocks } := by
  have hlen : blocks.length = t.blocks.length := by
    have := congrArg List.length hty
    rwa [List.length_map, List.length_map] at this
  refine ⟨hinv, ?_, ?_, h.literal_eq⟩
  · intro i hi
    exact h.tail_clear i (hlen.ge.trans hi)
  intro ty hne
  have hcount : ∀ l : List BlockState, l.countP (·.matchType = ty) =
      (l.map BlockState.matchType).countP (· = ty) := by
    intro l
    rw [List.countP_map]
    rfl
  have heq := h.counter_eq ty hne
  rw [typeCount, hcount] at heq ⊢
  rw [hty, ← heq]
  cases ty <;> rfl

private theorem map_matchType_modify (l : List BlockState) (i : ℕ) {f : BlockState → BlockState}
    (hf : ∀ b, (f b).matchType = b.matchType) :
    (l.modify i f).map BlockState.matchType = l.map BlockState.matchType := by
  apply List.ext_getElem?
  intro k
  rw [List.getElem?_map, List.getElem?_map, List.getElem?_modify]
  split_ifs
  · cases l[k]? with
    | none => rfl
    | some b => exact congrArg some (hf b)
  · simp

theorem Consistent.run (h : t.Consistent) (c : Call) : (c.run t).Consistent := by
  cases c with
  | setMatch i ty src hty => exact h.setMatch i hty src
  | setCrc32 i crc =>
    exact h.of_blocks (h.toInv.setCrc32 crc) (map_matchType_modify _ _ fun _ => rfl)
  | setDelta i off delta =>
    exact h.of_blocks (h.toInv.setDelta off delta) (map_matchType_modify _ _ fun _ => rfl)

theorem count_run (t : Tracker) (c : Call) : (c.run t).count = t.count := by
  cases c with
  | setMatch i ty src hty => exact count_setMatch t i ty src
  | setCrc32 i crc => exact count_setCrc32 t i crc
  | setDelta i off delta => exact count_setDelta t i off delta

theorem runCalls_consistent (h : t.Consistent) (calls : List Call) :
    (t.runCalls calls).Consistent ∧ (t.runCalls calls).count = t.count := by
  induction calls generalizing t with
  | nil => exact ⟨h, rfl⟩
  | cons c calls ih =>
    obtain ⟨hcons, hcount⟩ := ih (h.run c)
    exact ⟨hcons, hcount.trans (count_run t c)⟩

end Calls

section Finalize
variable {t : Tracker}

/-- Loop body of `fsd_block_tracker_finalize`. -/
def finalizeBlock (t : Tracker) (i : ℕ) : Tracker :=
  if Bitmap.test t.bitmap i then
    { t with literalCount := t.literalCount + 1, bitmap := Bitmap.clear t.bitmap i }
  else t

theorem finalize_eq (t : Tracker) : t.finalize = (List.range t.count).foldl finalizeBlock t := rfl

/-- What differs after the first `n` blocks. -/
structure FinalizedUpTo (t : Tracker) (n : ℕ) (u : Tracker) : Prop where
  words : u.bitmap.length = t.bitmap.length
  test_eq : ∀ j, Bitmap.test u.bitmap j = (Bitmap.test t.bitmap j && !decide (j < n))
  literal_eq : u.literalCount = t.literalCount + (List.range n).countP (Bitmap.test t.bitmap)
  counter_eq : ∀ ty, ty ≠ .none → u.counter ty = t.counter ty
  blocks_eq : u.blocks = t.blocks

theorem FinalizedUpTo.step {n : ℕ} {u : Tracker} (h : FinalizedUpTo t n u)
    (hn : n / 64 < t.bitmap.length) : FinalizedUpTo t (n + 1) (u.finalizeBlock n) := by
  have htest : Bitmap.test u.bitmap n = Bitmap.test t.bitmap n := by simp [h.test_eq]
  have hlit : ∀ b, Bitmap.test t.bitmap n = b →
      (List.range (n + 1)).countP (Bitmap.test t.bitmap) =
        (List.range n).countP (Bitmap.test t.bitmap) + b.toNat := by
    intro b hb
    rw [List.range_succ, List.countP_append, List.countP_singleton, hb]
    cases b <;> rfl
  unfold finalizeBlock
  cases hb : Bitmap.test t.bitmap n with
  | true =>
    rw [if_pos (htest.trans hb)]
    refine ⟨by rw [Bitmap.length_clear, h.words], ?_, ?_, ?_, h.blocks_eq⟩
    · intro j
      rw [Bitmap.test_clear _ _ _ (by rw [h.words]; exact hn), h.test_eq]
      by_cases hj : n = j
      · subst hj
        simp
      · have : j < n + 1 ↔ j < n := by omega
        simp [hj, this]
    · rw [hlit true hb, h.literal_eq]
      rfl
    · intro ty hty
      rw [← h.counter_eq ty hty]
      cases ty with
      | none => exact absurd rfl hty
      | _ => rfl
  | false =>
    rw [if_neg (by rw [htest, hb]; exact Bool.false_ne_true)]
    refine ⟨h.words, ?_, ?_, h.counter_eq, h.blocks_eq⟩
    · intro j
      rw [h.test_eq]
      by_cases hj : j = n
      · subst hj
        simp [hb]
      · have : j < n + 1 ↔ j < n := by omega
        simp [this]
    · rw [hlit false hb, h.literal_eq]
      rfl

theorem finalize_spec (hw : t.bitmap.length = (t.count + 63) / 64) :
    FinalizedUpTo t t.count t.finalize := by
  have hloop : ∀ n ≤ t.count, FinalizedUpTo t n ((List.range n).foldl finalizeBlock t) := by
    intro n hn
    induction n with
    | zero => exact ⟨rfl, fun j => by simp, rfl, fun _ _ => rfl, rfl⟩
    | succ n ih =>
      rw [List.range_succ, List.foldl_append, List.foldl_cons, List.foldl_nil]
      exact (ih (by omega)).step (by omega)
  exact hloop t.count le_rfl

theorem finalize_of_clear (h : ∀ i, Bitmap.test t.bitmap i = false) : t.finalize = t := by
  rw [finalize_eq]
  induction List.range t.count with
  | nil => rfl
  | cons i l ih => rw [List.foldl_cons, finalizeBlock, if_neg (by rw [h]; exact Bool.false_ne_true), ih]

/-- Finalizing makes every block without a match a literal, once. -/
structure Finalized (t : Tracker) : Prop where
  clear : ∀ i, Bitmap.test t.bitmap i = false
  counter_eq : ∀ ty, t.counter ty = t.typeCount ty

theorem Consistent.finalize (h : t.Consistent) (n : ℕ) :
    (Tracker.finalize^[n + 1] t).Finalized ∧ (Tracker.finalize^[n + 1] t).blocks = t.blocks := by
  induction n with
  | zero =>
    have hspec := finalize_spec h.words
    refine ⟨⟨?_, ?_⟩, hspec.blocks_eq⟩
    · intro i
      change Bitmap.test t.finalize.bitmap i = false
      rw [hspec.test_eq]
      by_cases hi : i < t.count
      · simp [hi]
      · rw [h.tail_clear i (by omega), Bool.false_and]
    · intro ty
      change t.finalize.counter ty = t.finalize.blocks.countP _
      rw [hspec.blocks_eq]
      by_cases hty : ty = .none
      · subst hty
        change t.finalize.literalCount = _
        rw [hspec.literal_eq, h.literal_eq, h.countP_test, Nat.zero_add]
        rfl
      · rw [hspec.counter_eq ty hty, h.counter_eq ty hty]
        rfl
  | succ n ih =>
    rw [Function.iterate_succ_apply', finalize_of_clear ih.1.clear]
    exact ih

end Finalize

/-- After every sequence of calls on a new tracker bitmap, types and counters agree, and
finalizing, once or more, accounts for every block. -/
theorem runCalls_counts {destBlocks bs : ℕ} {t : Tracker} (hcreate : create destBlocks bs = .ok t)
    (calls : List Call) :
    let u := t.runCalls calls
    (∀ i, Bitmap.test u.bitmap i = true ↔ i < destBlocks ∧
        ∃ b, u.get i = some b ∧ b.matchType = .none) ∧
      u.unmatchedCount = u.typeCount .none ∧
      u.identityCount = u.typeCount .identity ∧ u.relocateCount = u.typeCount .relocate ∧
      u.partialCount = u.typeCount .partialMatch ∧ u.zeroCount = u.typeCount .zero ∧
      u.oneCount = u.typeCount .one ∧
      ∀ n, let v := finalize^[n + 1] u
        v.identityCount + v.relocateCount + v.partialCount + v.zeroCount + v.oneCount +
            v.literalCount = destBlocks ∧
          ∀ i, Bitmap.test v.bitmap i = false := by
  intro u
  obtain ⟨hu, hcount⟩ := runCalls_consistent (create_consistent hcreate) calls
  have hdest : u.count = destBlocks := hcount.trans (create_spec hcreate).2.1
  refine ⟨?_, hu.unmatchedCount_eq, hu.counter_eq .identity (by decide),
    hu.counter_eq .relocate (by decide), hu.counter_eq .partialMatch (by decide),
    hu.counter_eq .zero (by decide), hu.counter_eq .one (by decide), ?_⟩
  · intro i
    constructor
    · intro hbit
      have hi : i < u.count := by
        by_contra hge
        rw [hu.tail_clear i (not_lt.mp hge)] at hbit
        cases hbit
      obtain ⟨b, hb⟩ := exists_get hi
      exact ⟨hdest ▸ hi, b, hb, (hu.test_iff i b hb).mp hbit⟩
    · rintro ⟨-, b, hb, hnone⟩
      exact (hu.test_iff i b hb).mpr hnone
  · intro n v
    obtain ⟨hv, hblocks⟩ := hu.finalize n
    refine ⟨?_, hv.clear⟩
    have hsum := sum_typeCount v
    rw [← hv.counter_eq, ← hv.counter_eq, ← hv.counter_eq, ← hv.counter_eq, ← hv.counter_eq,
      ← hv.counter_eq] at hsum
    rw [← hdest]
    exact hsum.trans (congrArg List.length hblocks)

/-- Seventy blocks take two words; block 64 is matched twice and block 70 does not exist. -/
theorem runCalls_counts_seventyBlocks :
    let calls : List Call := [.setMatch 64 .zero 0 (by decide), .setMatch 64 .relocate 3 (by decide),
      .setMatch 70 .identity 70 (by decide), .setCrc32 1 7, .setDelta 69 (-1) none]
    ∃ t, create 70 32 = .ok t ∧
      (t.runCalls calls).unmatchedCount = (t.runCalls calls).typeCount .none ∧
      ∀ i, Bitmap.test (finalize^[2] (t.runCalls calls)).bitmap i = false := by
  intro calls
  refine ⟨_, rfl, ?_⟩
  obtain ⟨-, hunmatched, -, -, -, -, -, hfinal⟩ := runCalls_counts (show create 70 32 = .ok _ from rfl) calls
  exact ⟨hunmatched, (hfinal 1).2⟩

end Fsdiff.Tracker
