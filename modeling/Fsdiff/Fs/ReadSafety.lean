import Fsdiff.Fs.ExtReader

/-! No read of the image leaves it. What `fsd_extfs_open` has checked bounds the descriptors
and inodes; blocks, tree nodes and records are checked where they are used. -/
namespace Fsdiff.ExtFs
open ByteString Exec

/-- An extent that lies in the filesystem. -/
def Extent.Inside (n : ℕ) (e : Extent) : Prop :=
  1 ≤ e.count ∧ 1 ≤ e.physical ∧ e.physical + e.count ≤ n

section Loads
variable {image : Bytes} {p n : ℕ}

theorem rdBytes_safe (h : p + n ≤ image.length) :
    Safe (rdBytes image p n) fun s => s = window image p n := by
  rw [rdBytes, if_pos h]
  exact safe_pure rfl

theorem rd8_safe (h : p + 1 ≤ image.length) : Safe (rd8 image p) fun _ => True := by
  apply (rdBytes_safe h).bind
  intro s _
  exact safe_pure trivial

theorem rd16_safe (h : p + 2 ≤ image.length) : Safe (rd16 image p) fun _ => True := by
  apply (rdBytes_safe h).bind
  intro s _
  exact safe_pure trivial

theorem rd32_safe (h : p + 4 ≤ image.length) : Safe (rd32 image p) fun _ => True := by
  apply (rdBytes_safe h).bind
  intro s _
  exact safe_pure trivial

end Loads

section Inodes
variable {image : Bytes} (fs : Extfs image)

theorem blocks_le : fs.blockCount * fs.blockSize ≤ image.length :=
  (Nat.le_div_iff_mul_le fs.blockSize_pos).mp fs.blocks_fit

theorem fsBlock_spec (hsize : image.length ≤ int64Max) {b blk : ℕ} (h : fsBlock fs b = some blk) :
    1 ≤ b ∧ b < fs.blockCount ∧ blk = b * fs.blockSize ∧ blk + fs.blockSize ≤ image.length := by
  unfold fsBlock at h
  split_ifs at h with h0 h1
  rw [not_or, not_le] at h0
  have hmul : (b + 1) * fs.blockSize ≤ fs.blockCount * fs.blockSize :=
    Nat.mul_le_mul_right _ h0.2
  have hfit := blocks_le fs
  rw [add_mul, one_mul] at hmul
  have hmax : int64Max < 2 ^ 64 := by decide
  rw [u64_of_lt (by omega)] at h
  cases h
  exact ⟨Nat.pos_of_ne_zero h0.1, h0.2, rfl, by omega⟩

/-- Every descriptor that an inode number can lead to is in the table. -/
theorem descriptor_le {ino : ℕ} (h0 : ino ≠ 0) (hle : ino ≤ fs.inodesCount) :
    fs.gdtStart + (ino - 1) / fs.inodesPerGroup * fs.descSize + fs.descSize ≤ image.length := by
  have hgroup : (ino - 1) / fs.inodesPerGroup < fs.groupCount := by
    rw [Nat.div_lt_iff_lt_mul fs.inodesPerGroup_pos]
    have := fs.inodes_le
    omega
  have hmul : ((ino - 1) / fs.inodesPerGroup + 1) * fs.descSize ≤ fs.groupCount * fs.descSize :=
    Nat.mul_le_mul_right _ hgroup
  have hfits := fs.table_fits
  rw [add_mul, one_mul] at hmul
  omega

theorem inodePtr_safe (hsize : image.length ≤ int64Max) (ino : ℕ) :
    Safe (inodePtr fs ino) fun p => p + inoMinSize ≤ image.length ∧ ino ≤ fs.inodesCount := by
  unfold inodePtr
  apply safe_ite (fun _ => safe_failure)
  intro hino
  rw [not_or, not_lt] at hino
  have hdesc := descriptor_le fs hino.1 hino.2
  have hmin : 32 ≤ fs.descSize := fs.descSize_ge
  have hlo : fs.gdtStart + (ino - 1) / fs.inodesPerGroup * fs.descSize + gdInodeTableLo + 4 ≤
      image.length := by
    unfold gdInodeTableLo
    omega
  apply (rd32_safe hlo).bind
  intro lo _
  have hhi : Safe (inodeTableHi fs (fs.gdtStart + (ino - 1) / fs.inodesPerGroup * fs.descSize))
      fun _ => True :=
    safe_ite (fun h => rd32_safe (by omega)) fun _ => safe_pure trivial
  apply hhi.bind
  intro hi _
  apply safe_ite (fun _ => safe_failure)
  intro hok
  rw [not_or, not_or, not_le, not_lt] at hok
  obtain ⟨-, htable, hend⟩ := hok
  apply safe_pure
  refine ⟨?_, hino.2⟩
  -- neither the product nor the sums wrap: the table starts inside the image
  have hmul : (lo ||| hi <<< 32) * fs.blockSize ≤ fs.blockCount * fs.blockSize :=
    Nat.mul_le_mul_right _ htable.le
  have hfit := blocks_le fs
  have hwithin : (ino - 1) % fs.inodesPerGroup * fs.inodeSize ≤ 2 ^ 32 * 4096 := by
    have hmod := Nat.mod_lt (ino - 1) fs.inodesPerGroup_pos
    have hlt := fs.inodesPerGroup_lt
    exact Nat.mul_le_mul (by omega) (fs.inodeSize_le.trans fs.blockSize_le)
  have hisize := fs.inodeSize_le.trans fs.blockSize_le
  have hge := fs.inodeSize_ge
  unfold int64Max at hsize
  rw [u64_of_lt (n := (lo ||| hi <<< 32) * fs.blockSize + _) (by omega)] at hend ⊢
  rw [u64_of_lt (by omega)] at hend
  omega

theorem modeFmt_safe {p : ℕ} (h : p + inoMinSize ≤ image.length) :
    Safe (modeFmt image p) fun _ => True := by
  unfold inoMinSize at h
  apply (rd16_safe (show p + inoMode + 2 ≤ image.length by unfold inoMode; omega)).bind
  intro mode _
  exact safe_pure trivial

theorem inodeFileSize_safe {p : ℕ} (h : p + inoMinSize ≤ image.length) :
    Safe (inodeFileSize image p) fun _ => True := by
  apply (modeFmt_safe h).bind
  intro fmt _
  unfold inoMinSize at h
  apply (rd32_safe (show p + inoSizeLo + 4 ≤ image.length by unfold inoSizeLo; omega)).bind
  intro lo _
  apply safe_ite _ (fun _ => safe_pure trivial)
  intro _
  apply (rd32_safe (show p + inoSizeHigh + 4 ≤ image.length by unfold inoSizeHigh; omega)).bind
  intro hi _
  exact safe_pure trivial

end Inodes

section Extents
variable {image : Bytes} (fs : Extfs image) (room : ℕ)

/-- Merging two adjacent extents does not leave the filesystem. -/
theorem extentAppend_inside {n : ℕ} {list list' : List Extent} {e : Extent}
    (hlist : ∀ x ∈ list, x.Inside n) (he : e.Inside n) (h : extentAppend room list e = some list') :
    ∀ x ∈ list', x.Inside n := by
  have hgrow : (if maxExtentsPerFile ≤ list.length ∨ room ≤ list.length then none
      else some (list ++ [e])) = some list' → ∀ x ∈ list', x.Inside n := by
    intro hg x hx
    split_ifs at hg
    cases hg
    rcases List.mem_append.mp hx with hx | hx
    · exact hlist x hx
    · rw [List.mem_singleton.mp hx]
      exact he
  unfold extentAppend at h
  dsimp only at h
  by_cases h0 : e.count = 0
  · rw [if_pos h0] at h
    cases h
    exact hlist
  · rw [if_neg h0] at h
    cases hlast : list.getLast? with
    | none =>
      simp only [hlast] at h
      exact hgrow h
    | some last =>
      simp only [hlast] at h
      by_cases hadj : last.logical + last.count = e.logical ∧ last.physical + last.count = e.physical
      · rw [if_pos hadj] at h
        cases h
        intro x hx
        rcases List.mem_append.mp hx with hx | hx
        · exact hlist x (List.dropLast_subset _ hx)
        · obtain ⟨hc, hp, -⟩ := hlist last (List.mem_of_getLast? hlast)
          obtain ⟨-, -, hend⟩ := he
          rw [List.mem_singleton.mp hx]
          refine ⟨?_, hp, ?_⟩
          · change 1 ≤ last.count + e.count
            omega
          · change last.physical + (last.count + e.count) ≤ n
            omega
      · rw [if_neg hadj] at h
        exact hgrow h

theorem leafExtent_safe {entry : ℕ} {out : List Extent} (hentry : entry + extEntrySize ≤ image.length)
    (hout : ∀ x ∈ out, x.Inside fs.blockCount) :
    Safe (leafExtent fs room entry out) fun out => ∀ x ∈ out, x.Inside fs.blockCount := by
  unfold extEntrySize at hentry
  unfold leafExtent
  apply (rd16_safe (show entry + eeLenOff + 2 ≤ image.length by unfold eeLenOff; omega)).bind
  intro len _
  apply safe_ite (fun _ => safe_pure hout)
  intro hlen
  apply (rd32_safe (show entry + eeStartLoOff + 4 ≤ image.length by unfold eeStartLoOff; omega)).bind
  intro lo _
  apply (rd16_safe (show entry + eeStartHiOff + 2 ≤ image.length by unfold eeStartHiOff; omega)).bind
  intro hi _
  apply safe_ite (fun _ => safe_failure)
  intro hphys
  apply (rd32_safe (show entry + eeBlockOff + 4 ≤ image.length by unfold eeBlockOff; omega)).bind
  intro logical _
  apply safe_option
  intro out' happ
  apply extentAppend_inside room hout _ happ
  refine ⟨?_, ?_, ?_⟩
  · change 1 ≤ len
    omega
  · change 1 ≤ lo ||| hi <<< 32
    omega
  · change (lo ||| hi <<< 32) + len ≤ fs.blockCount
    omega

/-- The fuel exceeds the depth of the node. -/
theorem extentsFromNode_safe (hsize : image.length ≤ int64Max) (fuel node space : ℕ)
    (expectDepth : Option ℕ) {out : List Extent} (hfuel : expectDepth.getD extentMaxDepth < fuel)
    (hnode : node + space ≤ image.length) (hout : ∀ x ∈ out, x.Inside fs.blockCount) :
    Safe (extentsFromNode fs room fuel node space expectDepth out)
      fun out => ∀ x ∈ out, x.Inside fs.blockCount := by
  induction fuel generalizing node space expectDepth out with
  | zero => exact absurd hfuel (Nat.not_lt_zero _)
  | succ fuel ih =>
    unfold extentsFromNode
    apply safe_ite (fun _ => safe_failure)
    intro hspace
    unfold ehSize at hspace
    apply (rd16_safe (show node + ehMagicOff + 2 ≤ image.length by unfold ehMagicOff; omega)).bind
    intro magic _
    apply safe_ite (fun _ => safe_failure)
    intro _
    apply (rd16_safe (show node + ehEntriesOff + 2 ≤ image.length by unfold ehEntriesOff; omega)).bind
    intro entries _
    apply (rd16_safe (show node + ehDepthOff + 2 ≤ image.length by unfold ehDepthOff; omega)).bind
    intro depth _
    apply safe_ite (fun _ => safe_failure)
    intro hdepth
    rw [not_or, not_lt] at hdepth
    apply safe_ite (fun _ => safe_failure)
    intro hentries
    have hle : depth < fuel + 1 := by
      cases expectDepth with
      | none => exact hdepth.1.trans_lt hfuel
      | some d =>
        have : d = depth := by simpa using hdepth.2
        exact this ▸ hfuel
    apply Safe.iterM (fun out => ∀ x ∈ out, x.Inside fs.blockCount) entries 0 out _ hout
    intro i out _ hi hout
    have hentry : node + ehSize + i * extEntrySize + extEntrySize ≤ image.length := by
      unfold ehSize extEntrySize at *
      omega
    apply safe_ite (fun _ => leafExtent_safe fs room hentry hout)
    intro hinner
    unfold extEntrySize at hentry
    apply (rd32_safe (show node + ehSize + i * extEntrySize + eiLeafLoOff + 4 ≤ image.length by
      unfold eiLeafLoOff extEntrySize; omega)).bind
    intro lo _
    apply (rd16_safe (show node + ehSize + i * extEntrySize + eiLeafHiOff + 2 ≤ image.length by
      unfold eiLeafHiOff extEntrySize; omega)).bind
    intro hi _
    cases hblock : fsBlock fs (lo ||| hi <<< 32) with
    | none => exact safe_failure
    | some cb =>
      obtain ⟨-, -, -, hcb⟩ := fsBlock_spec fs hsize hblock
      refine ih cb fs.blockSize (some (depth - 1)) ?_ hcb hout
      change depth - 1 < fuel
      omega

theorem blockmapIndirect_safe (hsize : image.length ≤ int64Max) (remaining level mapBlock : ℕ)
    {st : MapState} (hout : ∀ x ∈ st.out, x.Inside fs.blockCount) :
    Safe (blockmapIndirect fs room remaining level mapBlock st)
      fun st => ∀ x ∈ st.out, x.Inside fs.blockCount := by
  induction level generalizing mapBlock st with
  | zero =>
    unfold blockmapIndirect
    apply safe_ite (fun _ => safe_pure hout)
    intro _
    apply safe_ite (fun _ => safe_pure hout)
    intro hpos
    apply safe_ite (fun _ => safe_failure)
    intro hlt
    have happ : Safe (ε := Fault)
        (OptionT.mk (pure (extentAppend room st.out ⟨st.logical, mapBlock, 1⟩)))
        fun out => ∀ x ∈ out, x.Inside fs.blockCount := by
      apply safe_option
      intro out h
      refine extentAppend_inside room hout ⟨le_rfl, Nat.pos_of_ne_zero hpos, ?_⟩ h
      change mapBlock + 1 ≤ fs.blockCount
      omega
    apply happ.bind
    intro out hout'
    exact safe_pure hout'
  | succ level ih =>
    unfold blockmapIndirect
    apply safe_ite (fun _ => safe_pure hout)
    intro _
    apply safe_ite (fun _ => safe_pure hout)
    intro _
    cases hblock : fsBlock fs mapBlock with
    | none => exact safe_failure
    | some blk =>
      obtain ⟨-, -, -, hblk⟩ := fsBlock_spec fs hsize hblock
      apply Safe.iterM (fun st => ∀ x ∈ st.out, x.Inside fs.blockCount) _ 0 st _ hout
      intro i st _ hi hst
      apply safe_ite _ (fun _ => safe_pure hst)
      intro _
      apply (rd32_safe (show blk + i * 4 + 4 ≤ image.length by omega)).bind
      intro entry _
      exact ih entry hst

theorem blockmapCollect_safe (hsize : image.length ≤ int64Max) {iblock : ℕ} (fileBlocks : ℕ)
    (hblock : iblock + inoBlockLen ≤ image.length) :
    Safe (blockmapCollect fs room iblock fileBlocks)
      fun out => ∀ x ∈ out, x.Inside fs.blockCount := by
  unfold inoBlockLen at hblock
  have hentry : ∀ level i (st : MapState), i < 15 → (∀ x ∈ st.out, x.Inside fs.blockCount) →
      Safe (if st.logical < fileBlocks then do
          let mapBlock ← rd32 image (iblock + i * 4)
          blockmapIndirect fs room fileBlocks level mapBlock st
        else pure st) fun st => ∀ x ∈ st.out, x.Inside fs.blockCount := by
    intro level i st hi hst
    apply safe_ite _ (fun _ => safe_pure hst)
    intro _
    apply (rd32_safe (show iblock + i * 4 + 4 ≤ image.length by omega)).bind
    intro mapBlock _
    exact blockmapIndirect_safe fs room hsize fileBlocks level mapBlock hst
  unfold blockmapCollect
  apply safe_ite (fun _ => safe_failure)
  intro _
  have hdirect := Safe.iterM (ε := Fault) (fun st : MapState => ∀ x ∈ st.out, x.Inside fs.blockCount)
    12 0 ⟨0, []⟩ (fun i st _ hi hst => hentry 0 i st (by omega) hst) (by simp)
  apply hdirect.bind
  intro st hst
  have hlevels := Safe.iterM (ε := Fault) (fun st : MapState => ∀ x ∈ st.out, x.Inside fs.blockCount)
    3 1 st (fun level st _ hi hst => hentry level (11 + level) st (by omega) hst) hst
  apply hlevels.bind
  intro st' hst'
  exact safe_pure hst'

theorem inodeFields_le {ino : ℕ} (hino : ino + inoMinSize ≤ image.length) :
    ino + inoFlags + 4 ≤ image.length ∧ ino + inoBlock + inoBlockLen ≤ image.length := by
  unfold inoMinSize at hino
  unfold inoFlags inoBlock inoBlockLen
  omega

theorem inodeExtents_safe (hsize : image.length ≤ int64Max) {ino : ℕ}
    (hino : ino + inoMinSize ≤ image.length) :
    Safe (inodeExtents fs room ino) fun out => ∀ x ∈ out, x.Inside fs.blockCount := by
  obtain ⟨hflags, hblock⟩ := inodeFields_le hino
  apply (rd32_safe hflags).bind
  intro flags _
  apply safe_ite (fun _ => safe_pure (by simp))
  intro _
  apply safe_ite
  · intro _
    exact extentsFromNode_safe fs room hsize _ _ _ none (by decide) hblock (by simp)
  · intro _
    apply (inodeFileSize_safe hino).bind
    intro size _
    exact blockmapCollect_safe fs room hsize _ hblock

end Extents

section Records
variable {image : Bytes} (fs : Extfs image)

theorem typeFromMode_safe (hsize : image.length ≤ int64Max) (ino : ℕ) :
    Safe (typeFromMode fs ino) fun _ => True := by
  apply Safe.orElse _ (safe_pure trivial)
  apply (inodePtr_safe fs hsize ino).bind
  intro ti hti
  apply (modeFmt_safe hti.1).bind
  intro fmt _
  exact safe_pure trivial

theorem readRecord_safe (hsize : image.length ≤ int64Max) {blk pos : ℕ}
    (hblk : blk + fs.blockSize ≤ image.length) (hpos : pos + deNameOff ≤ fs.blockSize) :
    Safe (readRecord fs blk pos) fun r => deNameOff ≤ r.recLen ∧ pos + r.recLen ≤ fs.blockSize := by
  unfold deNameOff at hpos
  unfold readRecord
  apply (rd16_safe (show blk + pos + deRecLenOff + 2 ≤ image.length by
    unfold deRecLenOff; omega)).bind
  intro recLen _
  apply safe_ite (fun _ => safe_failure)
  intro hrec
  rw [not_or, not_or, not_lt, not_lt] at hrec
  apply (rd32_safe (show blk + pos + deInodeOff + 4 ≤ image.length by unfold deInodeOff; omega)).bind
  intro ino _
  apply safe_ite
  · intro _
    apply (rd8_safe (show blk + pos + deNameLenOff + 1 ≤ image.length by
      unfold deNameLenOff; omega)).bind
    intro nameLen _
    apply (rd8_safe (show blk + pos + deFileTypeOff + 1 ≤ image.length by
      unfold deFileTypeOff; omega)).bind
    intro ftype _
    exact safe_pure ⟨hrec.1, hrec.2.2⟩
  · intro _
    apply (rd16_safe (show blk + pos + deNameLenOff + 2 ≤ image.length by
      unfold deNameLenOff; omega)).bind
    intro nameLen _
    apply (typeFromMode_safe fs hsize ino).bind
    intro ftype _
    exact safe_pure ⟨hrec.1, hrec.2.2⟩

/-- A path that is acted on extends the one of its directory by one component. -/
theorem recordPath_safe {blk pos : ℕ} {r : DirRecord} (dir : Bytes)
    (hblk : blk + fs.blockSize ≤ image.length) (hend : pos + r.recLen ≤ fs.blockSize) :
    Safe (recordPath image dir blk pos r) fun path =>
      ∃ name, slash ∉ name ∧ path = dir ++ slash :: name := by
  have hname : Safe (recordName image blk pos r) fun name => slash ∉ name := by
    unfold recordName
    apply safe_ite (fun _ => safe_failure)
    intro hused
    rw [not_or, not_or, not_lt] at hused
    apply (rdBytes_safe (show blk + pos + deNameOff + r.nameLen ≤ image.length by omega)).bind
    intro name _
    apply safe_ite (fun _ => safe_failure)
    intro hok
    rw [not_or, not_or] at hok
    exact safe_pure hok.2.1
  apply hname.bind
  intro name hslash
  unfold joinPath
  apply safe_ite (fun _ => safe_failure)
  intro hroom
  rw [if_neg (by omega)]
  exact safe_pure ⟨name, hslash, rfl⟩

theorem regularFile_safe (hsize : image.length ≤ int64Max) (path : Bytes) (ino room : ℕ) :
    Safe (regularFile fs path ino room) fun report =>
      ∀ x ∈ report.extents, x.Inside fs.blockCount := by
  apply (inodePtr_safe fs hsize ino).bind
  intro fi hfi
  apply (modeFmt_safe hfi.1).bind
  intro fmt _
  apply safe_ite (fun _ => safe_failure)
  intro _
  apply (inodeExtents_safe fs room hsize hfi.1).bind
  intro extents hext
  apply (inodeFileSize_safe hfi.1).bind
  intro fileSize _
  exact safe_pure hext

theorem directoryExtents_safe (hsize : image.length ≤ int64Max) (ino room : ℕ) :
    Safe (directoryExtents fs ino room) fun _ => ino ≤ fs.inodesCount := by
  apply (inodePtr_safe fs hsize ino).bind
  intro dino hdino
  apply (modeFmt_safe hdino.1).bind
  intro fmt _
  apply safe_ite (fun _ => safe_failure)
  intro _
  exact (inodeExtents_safe fs room hsize hdino.1).imp fun _ _ => hdino.2

end Records

end Fsdiff.ExtFs
