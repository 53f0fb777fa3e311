import Fsdiff.Fs.ExtentTree

/-! What `blockmap_collect` collects. The map of a file is a function of its blocks, read
through the pointers of the inode; the cursor of `blockmap_indirect` runs through the file and
the list holds the mapped blocks behind it, joined. -/
namespace Fsdiff.ExtFs
open ByteString Exec

/-! ### The map of a file -/

section Mapping
variable {image : Bytes} (fs : Extfs image)

def pointersPerBlock : ℕ := fs.blockSize / 4

/-- The pointer `i` of a block of pointers. -/
def mapPointer (block i : ℕ) : ℕ := load32 image (block * fs.blockSize + i * 4)

/-- Where the block `l` below a pointer lies, 0 for a hole. A zero pointer is a hole over
everything below it. -/
def lookup : ℕ → ℕ → ℕ → ℕ
  | 0, pointer, _ => pointer
  | level + 1, pointer, l =>
    if pointer = 0 then 0
    else
      let span := pointersPerBlock fs ^ level
      lookup level (mapPointer fs pointer (l / span)) (l % span)

/-- The pointers on the way to the block `l`. -/
def lookupPath : ℕ → ℕ → ℕ → List ℕ
  | 0, pointer, _ => [pointer]
  | level + 1, pointer, l =>
    if pointer = 0 then [pointer]
    else
      let span := pointersPerBlock fs ^ level
      pointer :: lookupPath level (mapPointer fs pointer (l / span)) (l % span)

/-- The first block of a file that needs more than `level` levels of indirection. -/
def levelEnd : ℕ → ℕ
  | 0 => 12
  | level + 1 => levelEnd level + pointersPerBlock fs ^ (level + 1)

variable (iblock : ℕ)

/-- The pointer `i` of the inode. -/
def inodePointer (image : Bytes) (iblock i : ℕ) : ℕ := load32 image (iblock + i * 4)

/-- Where the block `l` of a file lies: 12 direct pointers, then one pointer each to one, two
and three levels of blocks of pointers. -/
def fileBlock (l : ℕ) : ℕ :=
  if l < levelEnd fs 0 then lookup fs 0 (inodePointer image iblock l) 0
  else if l < levelEnd fs 1 then lookup fs 1 (inodePointer image iblock 12) (l - levelEnd fs 0)
  else if l < levelEnd fs 2 then lookup fs 2 (inodePointer image iblock 13) (l - levelEnd fs 1)
  else if l < levelEnd fs 3 then lookup fs 3 (inodePointer image iblock 14) (l - levelEnd fs 2)
  else 0

/-- The pointers that the block `l` of a file needs. -/
def fileBlockPath (l : ℕ) : List ℕ :=
  if l < levelEnd fs 0 then lookupPath fs 0 (inodePointer image iblock l) 0
  else if l < levelEnd fs 1 then lookupPath fs 1 (inodePointer image iblock 12) (l - levelEnd fs 0)
  else if l < levelEnd fs 2 then lookupPath fs 2 (inodePointer image iblock 13) (l - levelEnd fs 1)
  else if l < levelEnd fs 3 then lookupPath fs 3 (inodePointer image iblock 14) (l - levelEnd fs 2)
  else []

theorem pointersPerBlock_pos : 0 < pointersPerBlock fs := by
  have hge : 128 ≤ fs.inodeSize := fs.inodeSize_ge
  have hle := fs.inodeSize_le
  unfold pointersPerBlock
  omega

theorem lookup_hole (level l : ℕ) : lookup fs level 0 l = 0 := by
  cases level with
  | zero => rfl
  | succ level => exact if_pos rfl

theorem lookup_entry {level pointer i l : ℕ} (hp : pointer ≠ 0) (hl : l < pointersPerBlock fs ^ level) :
    lookup fs (level + 1) pointer (i * pointersPerBlock fs ^ level + l) =
      lookup fs level (mapPointer fs pointer i) l := by
  rw [lookup, if_neg hp]
  dsimp only
  rw [Nat.mul_comm i, Nat.mul_add_div (by omega), Nat.div_eq_of_lt hl, add_zero, Nat.mul_add_mod,
    Nat.mod_eq_of_lt hl]

theorem lookupPath_entry {level pointer i l : ℕ} (hp : pointer ≠ 0)
    (hl : l < pointersPerBlock fs ^ level) :
    lookupPath fs (level + 1) pointer (i * pointersPerBlock fs ^ level + l) =
      pointer :: lookupPath fs level (mapPointer fs pointer i) l := by
  rw [lookupPath, if_neg hp]
  dsimp only
  rw [Nat.mul_comm i, Nat.mul_add_div (by omega), Nat.div_eq_of_lt hl, add_zero, Nat.mul_add_mod,
    Nat.mod_eq_of_lt hl]

theorem mem_lookupPath_self (level pointer l : ℕ) : pointer ∈ lookupPath fs level pointer l := by
  cases level with
  | zero => exact List.mem_singleton_self _
  | succ level =>
    rw [lookupPath]
    split_ifs
    · exact List.mem_singleton_self _
    · exact List.mem_cons_self

/-- The map, and the pointers needed, of the blocks at `level` levels of indirection. -/
theorem fileBlock_indirect {level l : ℕ} (hlevel : 1 ≤ level ∧ level ≤ 3)
    (hl : l < pointersPerBlock fs ^ level) :
    fileBlock fs iblock (levelEnd fs (level - 1) + l) =
        lookup fs level (inodePointer image iblock (11 + level)) l ∧
      fileBlockPath fs iblock (levelEnd fs (level - 1) + l) =
        lookupPath fs level (inodePointer image iblock (11 + level)) l := by
  have h1 : levelEnd fs 1 = levelEnd fs 0 + pointersPerBlock fs ^ 1 := rfl
  have h2 : levelEnd fs 2 = levelEnd fs 1 + pointersPerBlock fs ^ 2 := rfl
  have h3 : levelEnd fs 3 = levelEnd fs 2 + pointersPerBlock fs ^ 3 := rfl
  obtain rfl | rfl | rfl : level = 1 ∨ level = 2 ∨ level = 3 := by omega
  · simp only [Nat.reduceSub]
    constructor
    · rw [fileBlock, if_neg (by omega), if_pos (by omega)]
      simp
    · rw [fileBlockPath, if_neg (by omega), if_pos (by omega)]
      simp
  · simp only [Nat.reduceSub]
    constructor
    · rw [fileBlock, if_neg (by omega), if_neg (by omega), if_pos (by omega)]
      simp
    · rw [fileBlockPath, if_neg (by omega), if_neg (by omega), if_pos (by omega)]
      simp
  · simp only [Nat.reduceSub]
    constructor
    · rw [fileBlock, if_neg (by omega), if_neg (by omega), if_neg (by omega), if_pos (by omega)]
      simp
    · rw [fileBlockPath, if_neg (by omega), if_neg (by omega), if_neg (by omega), if_pos (by omega)]
      simp

end Mapping

/-! ### Mapped blocks -/

/-- An extent for each block below `n` that is mapped. -/
def mappedBlocks (m : ℕ → ℕ) (n : ℕ) : List Extent :=
  (List.range n).flatMap fun l => if m l = 0 then [] else [⟨l, m l, 1⟩]

section Mapped
variable {m : ℕ → ℕ} {a b : ℕ}

theorem mappedBlocks_succ (m : ℕ → ℕ) (n : ℕ) :
    mappedBlocks m (n + 1) = mappedBlocks m n ++ if m n = 0 then [] else [⟨n, m n, 1⟩] := by
  simp [mappedBlocks, List.range_succ]

theorem mappedBlocks_prefix (h : a ≤ b) : mappedBlocks m a <+: mappedBlocks m b := by
  induction b, h using Nat.le_induction with
  | base => exact List.prefix_rfl
  | succ b _ ih =>
    rw [mappedBlocks_succ]
    exact ih.trans (List.prefix_append _ _)

theorem mappedBlocks_hole (hab : a ≤ b) (h : ∀ l, a ≤ l → l < b → m l = 0) :
    mappedBlocks m b = mappedBlocks m a := by
  induction b, hab using Nat.le_induction with
  | base => rfl
  | succ b hab ih =>
    rw [mappedBlocks_succ, if_pos (h b hab (Nat.lt_succ_self b)), List.append_nil]
    exact ih fun l hl hlb => h l hl (Nat.lt_succ_of_lt hlb)

theorem length_mergeAll_mappedBlocks (h : a ≤ b) :
    (mergeAll [] (mappedBlocks m a)).length ≤ (mergeAll [] (mappedBlocks m b)).length := by
  obtain ⟨rest, hrest⟩ := mappedBlocks_prefix (m := m) h
  rw [← hrest, mergeAll_append]
  exact length_le_mergeAll _ _

theorem blocksOf_mappedBlocks (m : ℕ → ℕ) (n : ℕ) :
    blocksOf (mappedBlocks m n) = (List.range n).flatMap fun l => if m l = 0 then [] else [(l, m l)] := by
  unfold blocksOf mappedBlocks
  rw [List.flatMap_assoc]
  congr 1
  funext l
  split_ifs
  · rfl
  · simp [Extent.blocks]

theorem mem_blocksOf_mappedBlocks {n : ℕ} {p : ℕ × ℕ} :
    p ∈ blocksOf (mappedBlocks m n) ↔ p.1 < n ∧ m p.1 = p.2 ∧ p.2 ≠ 0 := by
  rw [blocksOf_mappedBlocks, List.mem_flatMap]
  constructor
  · rintro ⟨l, hl, hp⟩
    split_ifs at hp with h0
    · cases hp
    · rw [List.mem_singleton.mp hp]
      exact ⟨List.mem_range.mp hl, rfl, h0⟩
  · rintro ⟨hl, hm, h0⟩
    refine ⟨p.1, List.mem_range.mpr hl, ?_⟩
    rw [hm, if_neg h0]
    exact List.mem_singleton_self _

theorem blocksOf_mappedBlocks_ascending (m : ℕ → ℕ) (n : ℕ) :
    (blocksOf (mappedBlocks m n)).Pairwise fun p q => p.1 < q.1 := by
  rw [blocksOf_mappedBlocks, List.pairwise_flatMap]
  constructor
  · intro l _
    split_ifs
    · exact .nil
    · exact List.pairwise_singleton _ _
  · apply List.pairwise_lt_range.imp
    intro l l' hl p hp q hq
    split_ifs at hp hq with h h'
    · cases hp
    · cases hp
    · cases hq
    · rw [List.mem_singleton.mp hp, List.mem_singleton.mp hq]
      exact hl

theorem ascending_of_blocksOf {list : List Extent} (hpos : ∀ x ∈ list, 1 ≤ x.count)
    (h : (blocksOf list).Pairwise fun p q => p.1 < q.1) :
    list.Pairwise fun x y => x.logical < y.logical ∧ x.logical + x.count ≤ y.logical := by
  rw [blocksOf, List.pairwise_flatMap] at h
  apply h.2.imp_of_mem
  intro x y hx hy hxy
  have hx1 := hpos x hx
  have hy1 := hpos y hy
  have hfirst : (y.logical, y.physical) ∈ y.blocks :=
    List.mem_map.mpr ⟨0, List.mem_range.mpr hy1, by simp⟩
  have hlast : (x.logical + (x.count - 1), x.physical + (x.count - 1)) ∈ x.blocks :=
    List.mem_map.mpr ⟨x.count - 1, List.mem_range.mpr (by omega), rfl⟩
  have hlt := hxy _ hlast _ hfirst
  dsimp only at hlt
  omega

end Mapped

/-! ### The cursor -/

/-- The cursor is at `target`, or both have passed the end of the file. -/
def AtBlock (fileBlocks logical target : ℕ) : Prop :=
  logical = target ∨ fileBlocks ≤ logical ∧ fileBlocks ≤ target

/-- What lets the collection of a map give up: a needed pointer that is out of range, too
many extents, or no memory for them. -/
def MapGivesUp {image : Bytes} (fs : Extfs image) (room : ℕ) (m : ℕ → ℕ) (path : ℕ → List ℕ)
    (fileBlocks : ℕ) : Prop :=
  (∃ l < fileBlocks, ∃ p ∈ path l, p ≠ 0 ∧ fs.blockCount ≤ p) ∨
    maxExtentsPerFile < (mergeAll [] (mappedBlocks m fileBlocks)).length ∨
    room < (mergeAll [] (mappedBlocks m fileBlocks)).length

section Collect
variable {image : Bytes} (fs : Extfs image) (room : ℕ) {m : ℕ → ℕ} {path : ℕ → List ℕ}
  {fileBlocks : ℕ}

theorem fsBlock_eq_none {b : ℕ} (hsize : image.length ≤ int64Max) (h0 : b ≠ 0)
    (h : fsBlock fs b = none) : fs.blockCount ≤ b := by
  by_contra hlt
  have hmul : (b + 1) * fs.blockSize ≤ fs.blockCount * fs.blockSize :=
    Nat.mul_le_mul_right _ (not_le.mp hlt)
  have hfit := blocks_le fs
  have hmax : int64Max < 2 ^ 64 := by decide
  rw [add_mul, one_mul] at hmul
  rw [fsBlock, if_neg (by omega), u64_of_lt (show b * fs.blockSize < 2 ^ 64 by omega),
    u64_of_lt (by omega), if_neg (by omega)] at h
  cases h

/-- The state behind a cursor that was at `target`. -/
structure Behind (m : ℕ → ℕ) (fileBlocks target : ℕ) (st : MapState) : Prop where
  cursor : AtBlock fileBlocks st.logical target
  out_eq : st.out = mergeAll [] (mappedBlocks m (min target fileBlocks))

theorem AtBlock.eq_of_lt {logical target : ℕ} (h : AtBlock fileBlocks logical target)
    (hlt : logical < fileBlocks) : logical = target := by
  rcases h with h | ⟨h, -⟩
  · exact h
  · omega

theorem Behind.past {target target' : ℕ} {st : MapState} (h : Behind m fileBlocks target st)
    (hge : fileBlocks ≤ st.logical) (htarget : target ≤ target') : Behind m fileBlocks target' st := by
  have hend : fileBlocks ≤ target := by
    rcases h.cursor with heq | ⟨-, hend⟩
    · exact heq ▸ hge
    · exact hend
  refine ⟨.inr ⟨hge, hend.trans htarget⟩, ?_⟩
  rw [h.out_eq, min_eq_right hend, min_eq_right (hend.trans htarget)]

/-- One block of data. -/
theorem blockmapIndirect_zero_yields {pointer : ℕ} {st : MapState}
    (hst : Behind m fileBlocks st.logical st) (hlt : st.logical < fileBlocks)
    (hm : m st.logical = pointer) (hpath : pointer ∈ path st.logical) :
    Yields (blockmapIndirect fs room fileBlocks 0 pointer st)
      (Behind m fileBlocks (st.logical + 1)) (MapGivesUp fs room m path fileBlocks) := by
  have hout := hst.out_eq
  rw [min_eq_left hlt.le] at hout
  have hmin : min (st.logical + 1) fileBlocks = st.logical + 1 := min_eq_left hlt
  unfold blockmapIndirect
  apply yields_ite
  · intro h0
    omega
  intro _
  apply yields_ite
  · intro h0
    apply yields_pure
    refine ⟨.inl rfl, ?_⟩
    rw [hmin, mappedBlocks_succ, if_pos (hm.trans h0), List.append_nil]
    exact hout
  intro h0
  apply yields_ite
  · intro hbad
    exact yields_failure (.inl ⟨st.logical, hlt, pointer, hpath, h0, hbad⟩)
  intro _
  have hnext : mergeExtent st.out ⟨st.logical, pointer, 1⟩ =
      mergeAll [] (mappedBlocks m (st.logical + 1)) := by
    rw [mappedBlocks_succ, if_neg (hm ▸ h0), mergeAll_append, ← hout, hm]
    rfl
  rcases extentAppend_cases room st.out ⟨st.logical, pointer, 1⟩ with heq | ⟨heq, hfull⟩
  · rw [heq]
    apply yields_pure
    exact ⟨.inl rfl, by rw [hmin]; exact hnext⟩
  · rw [heq]
    apply yields_failure
    rw [hnext] at hfull
    have hlen := length_mergeAll_mappedBlocks (m := m) (show st.logical + 1 ≤ fileBlocks from hlt)
    exact .inr (hfull.imp (fun h => h.trans_le hlen) fun h => h.trans_le hlen)

/-- Everything below a pointer: the cursor passes the whole span of the level. -/
theorem blockmapIndirect_yields (hsize : image.length ≤ int64Max) (level pointer : ℕ) (st : MapState)
    (hst : Behind m fileBlocks st.logical st) (hlt : st.logical < fileBlocks)
    (hm : ∀ l < pointersPerBlock fs ^ level, m (st.logical + l) = lookup fs level pointer l)
    (hpath : ∀ l < pointersPerBlock fs ^ level, ∀ p ∈ lookupPath fs level pointer l,
      p ∈ path (st.logical + l)) :
    Yields (blockmapIndirect fs room fileBlocks level pointer st)
      (Behind m fileBlocks (st.logical + pointersPerBlock fs ^ level))
      (MapGivesUp fs room m path fileBlocks) := by
  induction level generalizing pointer st with
  | zero =>
    exact blockmapIndirect_zero_yields fs room hst hlt (hm 0 Nat.one_pos)
      (hpath 0 Nat.one_pos _ (mem_lookupPath_self fs 0 pointer 0))
  | succ level ih =>
    have hout := hst.out_eq
    rw [min_eq_left hlt.le] at hout
    unfold blockmapIndirect
    apply yields_ite
    · intro h0
      omega
    intro _
    apply yields_ite
    · -- a hole over the whole span
      rintro rfl
      apply yields_pure
      refine ⟨.inl rfl, ?_⟩
      rw [mappedBlocks_hole (a := st.logical)]
      · exact hout
      · exact le_min (Nat.le_add_right _ _) hlt.le
      · intro l hl hlt
        have hspan := hm (l - st.logical) (by omega)
        rwa [Nat.add_sub_of_le hl, lookup_hole] at hspan
    intro h0
    cases hblock : fsBlock fs pointer with
    | none =>
      exact yields_failure (.inl ⟨st.logical, hlt, pointer,
        hpath 0 (Nat.pow_pos (pointersPerBlock_pos fs)) pointer (mem_lookupPath_self fs _ _ _), h0,
        fsBlock_eq_none fs hsize h0 hblock⟩)
    | some blk =>
      obtain ⟨-, -, rfl, hblk⟩ := fsBlock_spec fs hsize hblock
      rw [Nat.pow_succ', ← show fs.blockSize / 4 = pointersPerBlock fs from rfl]
      apply Yields.iterM_zero
        (fun i => Behind m fileBlocks (st.logical + i * pointersPerBlock fs ^ level))
      · intro i st' hi hst'
        have hnext : (i + 1) * pointersPerBlock fs ^ level =
            i * pointersPerBlock fs ^ level + pointersPerBlock fs ^ level := by
          rw [add_mul, one_mul]
        apply yields_ite
        · intro hlt'
          have hlogical := hst'.cursor.eq_of_lt hlt'
          rw [rd32_eq (by omega), pure_bind, hnext, ← add_assoc, ← hlogical]
          have hwithin : ∀ l < pointersPerBlock fs ^ level,
              i * pointersPerBlock fs ^ level + l < pointersPerBlock fs ^ (level + 1) := by
            intro l hl
            rw [Nat.pow_succ']
            calc
              _ < (i + 1) * pointersPerBlock fs ^ level := by omega
              _ ≤ _ := Nat.mul_le_mul_right _ hi
          apply ih (mapPointer fs pointer i) st' (hlogical ▸ hst') hlt'
          · intro l hl
            rw [hlogical, add_assoc, hm _ (hwithin l hl), lookup_entry fs h0 hl]
          · intro l hl p hp
            rw [hlogical, add_assoc]
            apply hpath _ (hwithin l hl)
            rw [lookupPath_entry fs h0 hl]
            exact List.mem_cons_of_mem _ hp
        · intro hge
          exact yields_pure (hst'.past (not_lt.mp hge) (by omega))
      · simpa using hst

/-- The loops over the pointers of an inode. -/
theorem blockmapCollect_yields (hsize : image.length ≤ int64Max) {iblock : ℕ}
    (hiblock : iblock + inoBlockLen ≤ image.length) (hblocks : fileBlocks ≤ maxFileBlocks) :
    Yields (blockmapCollect fs room iblock fileBlocks)
      (fun out => out = mergeAll [] (mappedBlocks (fileBlock fs iblock) fileBlocks))
      (MapGivesUp fs room (fileBlock fs iblock) (fileBlockPath fs iblock) fileBlocks) := by
  unfold inoBlockLen at hiblock
  unfold blockmapCollect
  apply yields_ite
  · intro h
    omega
  intro _
  -- one pointer of the inode, for the blocks between two targets
  have hentry : ∀ level i target (st : MapState), i < 15 →
      Behind (fileBlock fs iblock) fileBlocks target st →
      (∀ l < pointersPerBlock fs ^ level,
        fileBlock fs iblock (target + l) = lookup fs level (inodePointer image iblock i) l ∧
        fileBlockPath fs iblock (target + l) = lookupPath fs level (inodePointer image iblock i) l) →
      Yields (if st.logical < fileBlocks then do
          let mapBlock ← rd32 image (iblock + i * 4)
          blockmapIndirect fs room fileBlocks level mapBlock st
        else pure st)
        (Behind (fileBlock fs iblock) fileBlocks (target + pointersPerBlock fs ^ level))
        (MapGivesUp fs room (fileBlock fs iblock) (fileBlockPath fs iblock) fileBlocks) := by
    intro level i target st hi hst hmap
    apply yields_ite
    · intro hlt
      obtain rfl := hst.cursor.eq_of_lt hlt
      rw [rd32_eq (by omega), pure_bind]
      apply blockmapIndirect_yields fs room hsize level _ st hst hlt
      · intro l hl
        exact (hmap l hl).1
      · intro l hl p hp
        rwa [(hmap l hl).2]
    · intro hge
      exact yields_pure (hst.past (not_lt.mp hge) (Nat.le_add_right _ _))
  have hdirect := Yields.iterM_zero (fun i => Behind (fileBlock fs iblock) fileBlocks i) 12 ⟨0, []⟩
    (fun i st hi hst => hentry 0 i i st (by omega) hst (by
      intro l hl
      obtain rfl : l = 0 := Nat.lt_one_iff.mp hl
      exact ⟨if_pos hi, if_pos hi⟩))
    ⟨.inl rfl, by simp [mappedBlocks]⟩
  apply hdirect.bind
  intro st hst
  have hindirect := Yields.iterM
    (fun level => Behind (fileBlock fs iblock) fileBlocks (levelEnd fs (level - 1))) 3 1 st
    (fun level st hlevel hlt hst => (hentry level (11 + level) _ st (by omega) hst fun l hl =>
      fileBlock_indirect fs iblock ⟨hlevel, by omega⟩ hl).imp (fun st' hst' => by
        obtain ⟨k, rfl⟩ : ∃ k, level = k + 1 := ⟨level - 1, by omega⟩
        exact hst') id)
    hst
  apply hindirect.bind
  intro st hst
  apply yields_pure
  -- beyond the last level nothing is mapped
  have hbeyond : mappedBlocks (fileBlock fs iblock) fileBlocks =
      mappedBlocks (fileBlock fs iblock) (min (levelEnd fs 3) fileBlocks) := by
    apply mappedBlocks_hole (min_le_right _ _)
    intro l hl hlt
    have h1 : levelEnd fs 1 = levelEnd fs 0 + pointersPerBlock fs ^ 1 := rfl
    have h2 : levelEnd fs 2 = levelEnd fs 1 + pointersPerBlock fs ^ 2 := rfl
    have h3 : levelEnd fs 3 = levelEnd fs 2 + pointersPerBlock fs ^ 3 := rfl
    rw [fileBlock, if_neg (by omega), if_neg (by omega), if_neg (by omega), if_neg (by omega)]
  rw [hbeyond]
  exact hst.out_eq

end Collect

section Decoded
variable {image : Bytes}

/-- The collected extents map the blocks of the file as its pointers do, each once, and ascend
without overlap. The file is given up only for a pointer out of range, more than 65536 extents
or no memory. -/
theorem blockmapCollect_decodes (hsize : image.length ≤ int64Max) (fs : Extfs image)
    (_ : extfsOpen image = .ok fs) (room : ℕ) {iblock fileBlocks : ℕ}
    (hiblock : iblock + inoBlockLen ≤ image.length) (hblocks : fileBlocks ≤ 2 ^ 32) :
    ∃ r, (blockmapCollect fs room iblock fileBlocks).run = .ok r ∧
      (∀ out, r = some out →
        (∀ l b, (l, b) ∈ blocksOf out ↔ l < fileBlocks ∧ fileBlock fs iblock l = b ∧ b ≠ 0) ∧
        (blocksOf out).Nodup ∧
        out.Pairwise fun x y => x.logical < y.logical ∧ x.logical + x.count ≤ y.logical) ∧
      (r = none →
        (∃ l < fileBlocks, ∃ p ∈ fileBlockPath fs iblock l, p ≠ 0 ∧ fs.blockCount ≤ p) ∨
        65536 < (mergeAll [] (mappedBlocks (fileBlock fs iblock) fileBlocks)).length ∨
        room < (mergeAll [] (mappedBlocks (fileBlock fs iblock) fileBlocks)).length) := by
  obtain ⟨r, hrun, hsome, hnone⟩ := blockmapCollect_yields fs room hsize hiblock hblocks
  refine ⟨r, hrun, ?_, hnone⟩
  intro out hout
  have heq : blocksOf out = blocksOf (mappedBlocks (fileBlock fs iblock) fileBlocks) := by
    rw [hsome out hout, blocksOf_mergeAll_nil]
  have hasc : (blocksOf out).Pairwise fun p q => p.1 < q.1 := by
    rw [heq]
    exact blocksOf_mappedBlocks_ascending _ _
  refine ⟨?_, ?_, ?_⟩
  · intro l b
    rw [heq, mem_blocksOf_mappedBlocks]
  · apply hasc.imp
    rintro p q hlt rfl
    exact lt_irrefl _ hlt
  · apply ascending_of_blocksOf _ hasc
    rw [hsome out hout]
    exact (coalesced_nil.mergeAll _).count_pos

/-- Blocks 3 and 4, then holes; the block of pointers 2 maps the block 14 of the file. -/
def sampleMap : Bytes :=
  padded 60 (leBytes 4 3 ++ leBytes 4 4 ++ List.replicate 40 0 ++ leBytes 4 2)

theorem blockmapCollect_decodes_sampleMap :
    ∃ fs, extfsOpen (sampleImage ++ sampleMap) = .ok fs ∧
      (blockmapCollect fs 16 7168 20).run = .ok (some [⟨0, 3, 2⟩, ⟨14, 3, 1⟩]) ∧
      ∃ r, (blockmapCollect fs 16 7168 20).run = .ok r ∧
        (∀ out, r = some out →
          (∀ l b, (l, b) ∈ blocksOf out ↔ l < 20 ∧ fileBlock fs 7168 l = b ∧ b ≠ 0) ∧
          (blocksOf out).Nodup ∧
          out.Pairwise fun x y => x.logical < y.logical ∧ x.logical + x.count ≤ y.logical) ∧
        (r = none →
          (∃ l < 20, ∃ p ∈ fileBlockPath fs 7168 l, p ≠ 0 ∧ fs.blockCount ≤ p) ∨
          65536 < (mergeAll [] (mappedBlocks (fileBlock fs 7168) 20)).length ∨
          16 < (mergeAll [] (mappedBlocks (fileBlock fs 7168) 20)).length) := by
  obtain ⟨fs, hopen, heval⟩ := exists_ok_of_any (x := extfsOpen (sampleImage ++ sampleMap))
    (fun fs : Extfs (sampleImage ++ sampleMap) =>
      (blockmapCollect fs 16 7168 20).run = .ok (some [⟨0, 3, 2⟩, ⟨14, 3, 1⟩]))
    (by decide +kernel)
  exact ⟨fs, hopen, of_decide_eq_true heval,
    blockmapCollect_decodes (by decide +kernel) fs hopen 16 (by decide +kernel) (by decide)⟩

end Decoded

end Fsdiff.ExtFs
