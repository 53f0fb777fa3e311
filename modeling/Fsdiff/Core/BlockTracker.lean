import Fsdiff.Data.Bitmap
import Fsdiff.Types

/-! `block_tracker.c`: what the stages have decided about each destination block,
with a bitmap of the blocks that are still unmatched. -/
namespace Fsdiff

/-- `fsd_block_state_t`; `delta_size` is the length of `delta`. -/
structure BlockState where
  destIndex : ℕ
  srcIndex : ℕ := 0
  byteOffset : ℤ := 0
  crc32 : BitVec 32 := 0
  matchType : MatchType := .none
  delta : Option Bytes := none
  deriving DecidableEq, Repr

/-- `fsd_block_tracker_t` -/
structure Tracker where
  blocks : List BlockState
  blockSize : ℕ
  bitmap : Bitmap.Words
  identityCount : ℕ := 0
  relocateCount : ℕ := 0
  partialCount : ℕ := 0
  zeroCount : ℕ := 0
  oneCount : ℕ := 0
  literalCount : ℕ := 0

namespace Tracker

def count (t : Tracker) : ℕ := t.blocks.length

/-- `fsd_block_tracker_create`, its three allocations succeeding. -/
def create (destBlocks blockSize : ℕ) : Except FsdError Tracker :=
  if destBlocks = 0 ∨ blockSize = 0 then .error .invalidArg
  else .ok {
    blocks := (List.range destBlocks).map fun i => { destIndex := i }
    blockSize := blockSize
    bitmap := (List.range destBlocks).foldl Bitmap.set (List.replicate ((destBlocks + 63) / 64) 0) }

/-- `switch (match_type)` of the statistics. -/
def countMatch (t : Tracker) : MatchType → Tracker
  | .identity => { t with identityCount := t.identityCount + 1 }
  | .relocate => { t with relocateCount := t.relocateCount + 1 }
  | .partialMatch => { t with partialCount := t.partialCount + 1 }
  | .zero => { t with zeroCount := t.zeroCount + 1 }
  | .one => { t with oneCount := t.oneCount + 1 }
  | .none => t

/-- `fsd_block_tracker_set_match`: the first match of a block wins. -/
def setMatch (t : Tracker) (destIndex : ℕ) (matchType : MatchType) (srcIndex : ℕ) : Tracker :=
  match t.blocks[destIndex]? with
  | none => t
  | some block =>
    if block.matchType ≠ .none then t
    else countMatch
      { t with
        blocks := t.blocks.set destIndex { block with matchType := matchType, srcIndex := srcIndex }
        bitmap := Bitmap.clear t.bitmap destIndex } matchType

/-- `fsd_block_tracker_set_crc32` -/
def setCrc32 (t : Tracker) (destIndex : ℕ) (crc32 : BitVec 32) : Tracker :=
  { t with blocks := t.blocks.modify destIndex fun block => { block with crc32 := crc32 } }

/-- `fsd_block_tracker_set_delta`, which overwrites; `delta` may be `NULL`. -/
def setDelta (t : Tracker) (destIndex : ℕ) (byteOffset : ℤ) (delta : Option Bytes) : Tracker :=
  { t with blocks := t.blocks.modify destIndex fun block =>
      { block with byteOffset := byteOffset, delta := delta } }

/-- `fsd_block_tracker_is_unmatched` -/
def isUnmatched (t : Tracker) (destIndex : ℕ) : Bool :=
  if t.count ≤ destIndex then false else Bitmap.test t.bitmap destIndex

/-- `fsd_block_tracker_get` -/
def get (t : Tracker) (destIndex : ℕ) : Option BlockState := t.blocks[destIndex]?

/-- `fsd_block_tracker_finalize`: every bit still set becomes a literal. -/
def finalize (t : Tracker) : Tracker :=
  (List.range t.count).foldl (fun t i =>
    if Bitmap.test t.bitmap i then
      { t with literalCount := t.literalCount + 1, bitmap := Bitmap.clear t.bitmap i }
    else t) t

/-- The bitmap holds the unmatched blocks and has room for all of them. -/
structure Inv (t : Tracker) : Prop where
  words : t.bitmap.length = (t.count + 63) / 64
  test_iff : ∀ i b, t.get i = some b → (Bitmap.test t.bitmap i = true ↔ b.matchType = .none)

section Lemmas
variable {t : Tracker} {i j : ℕ}

theorem get_lt {b : BlockState} (h : t.get i = some b) : i < t.count :=
  (List.getElem?_eq_some_iff.mp h).1

theorem exists_get (h : i < t.count) : ∃ b, t.get i = some b :=
  ⟨_, List.getElem?_eq_getElem h⟩

@[simp] theorem countMatch_blocks (t : Tracker) (ty : MatchType) :
    (t.countMatch ty).blocks = t.blocks := by
  cases ty <;> rfl

@[simp] theorem countMatch_bitmap (t : Tracker) (ty : MatchType) :
    (t.countMatch ty).bitmap = t.bitmap := by
  cases ty <;> rfl

@[simp] theorem count_setMatch (t : Tracker) (i : ℕ) (ty : MatchType) (src : ℕ) :
    (t.setMatch i ty src).count = t.count := by
  unfold setMatch count
  split
  · rfl
  · split_ifs <;> simp

@[simp] theorem count_setDelta (t : Tracker) (i : ℕ) (off : ℤ) (d : Option Bytes) :
    (t.setDelta i off d).count = t.count := by
  simp [setDelta, count]

@[simp] theorem count_setCrc32 (t : Tracker) (i : ℕ) (c : BitVec 32) :
    (t.setCrc32 i c).count = t.count := by
  simp [setCrc32, count]

/-- A match is stored for an unmatched block only. -/
theorem get_setMatch (t : Tracker) (i : ℕ) (ty : MatchType) (src j : ℕ) :
    (t.setMatch i ty src).get j =
      if i = j then (t.get j).map fun b =>
        if b.matchType = .none then { b with matchType := ty, srcIndex := src } else b
      else t.get j := by
  unfold setMatch get
  split
  · next h =>
    split_ifs with hij
    · rw [← hij, h]
      rfl
    · rfl
  · next block h =>
    obtain ⟨hlt, -⟩ := List.getElem?_eq_some_iff.mp h
    split_ifs with hne hij hij
    · rw [← hij, h, Option.map_some, if_neg hne]
    · rfl
    · rw [not_not] at hne
      rw [← hij, countMatch_blocks, List.getElem?_set_self hlt, h, Option.map_some, if_pos hne]
    · rw [countMatch_blocks, List.getElem?_set_ne hij]

theorem get_setDelta (t : Tracker) (i : ℕ) (off : ℤ) (d : Option Bytes) (j : ℕ) :
    (t.setDelta i off d).get j =
      if i = j then (t.get j).map fun b => { b with byteOffset := off, delta := d }
      else t.get j := by
  simp only [setDelta, get, List.getElem?_modify]
  split_ifs <;> simp

theorem get_setCrc32 (t : Tracker) (i : ℕ) (c : BitVec 32) (j : ℕ) :
    (t.setCrc32 i c).get j =
      if i = j then (t.get j).map fun b => { b with crc32 := c } else t.get j := by
  simp only [setCrc32, get, List.getElem?_modify]
  split_ifs <;> simp

theorem Inv.isUnmatched_iff (h : t.Inv) {b : BlockState} (hb : t.get i = some b) :
    t.isUnmatched i = true ↔ b.matchType = .none := by
  rw [isUnmatched, if_neg (not_le.mpr (get_lt hb)), h.test_iff i b hb]

theorem Inv.word_lt (h : t.Inv) (hi : i < t.count) : i / 64 < t.bitmap.length := by
  rw [h.words]
  omega

/-! ### The invariant -/

theorem test_foldl_set (n : ℕ) (bm : Bitmap.Words) (hn : n ≤ 64 * bm.length) (j : ℕ) :
    ((List.range n).foldl Bitmap.set bm).length = bm.length ∧
      Bitmap.test ((List.range n).foldl Bitmap.set bm) j = (decide (j < n) || Bitmap.test bm j) := by
  induction n with
  | zero => simp
  | succ n ih =>
    obtain ⟨hlen, htest⟩ := ih (by omega)
    rw [List.range_succ, List.foldl_append, List.foldl_cons, List.foldl_nil, Bitmap.length_set,
      Bitmap.test_set _ _ _ (by omega), htest, ← Bool.or_assoc]
    refine ⟨hlen, ?_⟩
    congr 1
    by_cases hj : j < n
    · simp [hj, Nat.lt_succ_of_lt hj]
    · by_cases he : n = j
      · simp [he]
      · simp [hj, he, show ¬ j < n + 1 by omega]

theorem exists_create {destBlocks bs : ℕ} (hd : 0 < destBlocks) (hbs : 0 < bs) :
    ∃ t, create destBlocks bs = .ok t := by
  rw [create, if_neg (by omega)]
  exact ⟨_, rfl⟩

/-- A new tracker has every block unmatched. -/
theorem create_spec {destBlocks bs : ℕ} (h : create destBlocks bs = .ok t) :
    t.Inv ∧ t.count = destBlocks ∧ t.blockSize = bs ∧
      ∀ i b, t.get i = some b → b = { destIndex := i } := by
  unfold create at h
  split_ifs at h
  cases h
  have hget : ∀ i b, ((List.range destBlocks).map fun i => ({ destIndex := i } : BlockState))[i]? =
      some b → i < destBlocks ∧ b = { destIndex := i } := by
    intro i b hb
    rw [List.getElem?_map, Option.map_eq_some_iff] at hb
    obtain ⟨k, hk, rfl⟩ := hb
    obtain ⟨hlt, rfl⟩ := List.getElem?_eq_some_iff.mp hk
    rw [List.length_range] at hlt
    rw [List.getElem_range]
    exact ⟨hlt, rfl⟩
  have hbits := test_foldl_set destBlocks (List.replicate ((destBlocks + 63) / 64) 0)
    (by rw [List.length_replicate]; omega)
  refine ⟨⟨?_, ?_⟩, by simp [count], rfl, fun i b hb => (hget i b hb).2⟩
  · rw [(hbits 0).1]
    simp [count]
  · intro i b hb
    obtain ⟨hlt, rfl⟩ := hget i b hb
    rw [(hbits i).2]
    simp [hlt]

theorem Inv.setMatch (h : t.Inv) {ty : MatchType} (hty : ty ≠ .none) (src : ℕ) :
    (t.setMatch i ty src).Inv := by
  by_cases hi : i < t.count
  · obtain ⟨b, hb⟩ := exists_get hi
    by_cases hm : b.matchType = .none
    · have hset : t.setMatch i ty src = countMatch
          { t with blocks := t.blocks.set i { b with matchType := ty, srcIndex := src }
                   bitmap := Bitmap.clear t.bitmap i } ty := by
        have hb' : t.blocks[i]? = some b := hb
        rw [Tracker.setMatch, hb']
        simp [hm]
      constructor
      · rw [count_setMatch, hset, countMatch_bitmap, Bitmap.length_clear, h.words]
      · intro j c hc
        rw [get_setMatch] at hc
        rw [hset, countMatch_bitmap, Bitmap.test_clear _ _ _ (h.word_lt hi)]
        by_cases hij : i = j
        · subst hij
          rw [if_pos rfl, hb, Option.map_some, if_pos hm, Option.some.injEq] at hc
          subst hc
          simpa using hty
        · rw [if_neg hij] at hc
          simpa [hij] using h.test_iff j c hc
    · have hset : t.setMatch i ty src = t := by
        have hb' : t.blocks[i]? = some b := hb
        rw [Tracker.setMatch, hb']
        simp [hm]
      rw [hset]
      exact h
  · have hset : t.setMatch i ty src = t := by
      rw [Tracker.setMatch, List.getElem?_eq_none (not_lt.mp hi)]
    rw [hset]
    exact h

/-- Updates that leave types and bitmap alone keep the invariant. -/
private theorem Inv.of_modify {t' : Tracker} (h : t.Inv) (hc : t'.count = t.count)
    (hbm : t'.bitmap = t.bitmap)
    (hty : ∀ j b', t'.get j = some b' → ∃ b, t.get j = some b ∧ b'.matchType = b.matchType) :
    t'.Inv := by
  constructor
  · rw [hbm, hc, h.words]
  · intro j b' hb'
    obtain ⟨b, hb, heq⟩ := hty j b' hb'
    rw [hbm, heq]
    exact h.test_iff j b hb

theorem Inv.setDelta (h : t.Inv) (off : ℤ) (d : Option Bytes) : (t.setDelta i off d).Inv := by
  apply h.of_modify (count_setDelta t i off d) rfl
  intro j b' hb'
  rw [get_setDelta] at hb'
  split_ifs at hb'
  · obtain ⟨b, hb, rfl⟩ := Option.map_eq_some_iff.mp hb'
    exact ⟨b, hb, rfl⟩
  · exact ⟨b', hb', rfl⟩

theorem Inv.setCrc32 (h : t.Inv) (c : BitVec 32) : (t.setCrc32 i c).Inv := by
  apply h.of_modify (count_setCrc32 t i c) rfl
  intro j b' hb'
  rw [get_setCrc32] at hb'
  split_ifs at hb'
  · obtain ⟨b, hb, rfl⟩ := Option.map_eq_some_iff.mp hb'
    exact ⟨b, hb, rfl⟩
  · exact ⟨b', hb', rfl⟩

theorem finalize_blocks (t : Tracker) : t.finalize.blocks = t.blocks := by
  have hfold : ∀ (l : List ℕ) (u : Tracker), (l.foldl (fun u i =>
      if Bitmap.test u.bitmap i then
        { u with literalCount := u.literalCount + 1, bitmap := Bitmap.clear u.bitmap i }
      else u) u).blocks = u.blocks := by
    intro l
    induction l with
    | nil => exact fun _ => rfl
    | cons i l ih =>
      intro u
      rw [List.foldl_cons, ih]
      split_ifs <;> rfl
  exact hfold _ t

end Lemmas

end Tracker

end Fsdiff
