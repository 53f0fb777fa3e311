import Fsdiff.Data.Bitmap
import Fsdiff.Data.Exec
import Fsdiff.Types

/-! `ext_reader.c`: a read-only walk over the directory tree of an ext2/3/4 image. Pointers
into the image are positions, and a load outside the image, outside the visited bitmap or
outside `path_buf` is a fault. A `NULL` or a `-1` that makes the caller skip a file is
`failure`. -/
namespace Fsdiff.ExtFs
open ByteString Exec

/-! ### Layout -/

def extSbOffset : ℕ := 1024

/-- Superblock fields. -/
def sbInodesCount : ℕ := 0x00
def sbBlocksCountLo : ℕ := 0x04
def sbFirstDataBlock : ℕ := 0x14
def sbLogBlockSize : ℕ := 0x18
def sbBlocksPerGroup : ℕ := 0x20
def sbInodesPerGroup : ℕ := 0x28
def sbMagic : ℕ := 0x38
def sbState : ℕ := 0x3A
def sbRevLevel : ℕ := 0x4C
def sbInodeSize : ℕ := 0x58
def sbFeatureIncompat : ℕ := 0x60
def sbDescSize : ℕ := 0xFE
def sbBlocksCountHi : ℕ := 0x150

def extSuperMagic : ℕ := 0xEF53
def extStateClean : ℕ := 0x0001

def incompatFiletype : ℕ := 0x00002
def incompatRecover : ℕ := 0x00004
def incompatExtents : ℕ := 0x00040
def incompat64bit : ℕ := 0x00080
def incompatFlexBg : ℕ := 0x00200
def incompatCsumSeed : ℕ := 0x02000
def incompatInlineData : ℕ := 0x08000

def incompatAllowed : ℕ :=
  incompatFiletype ||| incompatExtents ||| incompat64bit ||| incompatFlexBg ||| incompatCsumSeed |||
    incompatInlineData

/-- Group descriptor fields. -/
def gdInodeTableLo : ℕ := 0x08
def gdInodeTableHi : ℕ := 0x28
def gdSize32 : ℕ := 32

/-- Inode fields. -/
def inoMode : ℕ := 0x00
def inoSizeLo : ℕ := 0x04
def inoFlags : ℕ := 0x20
def inoBlock : ℕ := 0x28
def inoSizeHigh : ℕ := 0x6C
def inoBlockLen : ℕ := 60
def inoMinSize : ℕ := 128

def modeFmtMask : ℕ := 0xF000
def modeRegular : ℕ := 0x8000
def modeDirectory : ℕ := 0x4000

def iflagExtents : ℕ := 0x00080000
def iflagInlineData : ℕ := 0x10000000

/-- Extent tree. -/
def ehMagicOff : ℕ := 0
def ehEntriesOff : ℕ := 2
def ehDepthOff : ℕ := 6
def ehSize : ℕ := 12
def extEntrySize : ℕ := 12
def extentHeaderMagic : ℕ := 0xF30A
def extentMaxDepth : ℕ := 5
def extInitMaxLen : ℕ := 32768
def eeBlockOff : ℕ := 0
def eeLenOff : ℕ := 4
def eeStartHiOff : ℕ := 6
def eeStartLoOff : ℕ := 8
def eiLeafLoOff : ℕ := 4
def eiLeafHiOff : ℕ := 8

/-- Directory entries. -/
def deInodeOff : ℕ := 0
def deRecLenOff : ℕ := 4
def deNameLenOff : ℕ := 6
def deFileTypeOff : ℕ := 7
def deNameOff : ℕ := 8
def deFtUnknown : ℕ := 0
def deFtRegular : ℕ := 1
def deFtDirectory : ℕ := 2

def extRootInode : ℕ := 2

def maxPathLen : ℕ := 4096
def maxDirDepth : ℕ := 128
def maxExtentsPerFile : ℕ := 65536
def maxFileBlocks : ℕ := 2 ^ 32

/-! ### Loads -/

/-- How a walk ends early: `outOfRange` is an access that C leaves undefined and
`outOfMemory` the error that the walk returns. -/
inductive Fault where
  | outOfRange | outOfFuel | outOfMemory
  deriving DecidableEq, Repr

/-- Computations on the image that may give up on a file. -/
abbrev ReadM := OptionT (Except Fault)

def fault {α : Type} (e : Fault) : ReadM α := OptionT.mk (.error e)

section Loads
variable (image : Bytes)

def rdBytes (p n : ℕ) : ReadM Bytes :=
  if p + n ≤ image.length then pure (window image p n) else fault .outOfRange

def rd8 (p : ℕ) : ReadM ℕ := do
  let s ← rdBytes image p 1
  pure (leNat s)

def rd16 (p : ℕ) : ReadM ℕ := do
  let s ← rdBytes image p 2
  pure (leNat s)

def rd32 (p : ℕ) : ReadM ℕ := do
  let s ← rdBytes image p 4
  pure (leNat s)

end Loads

/-! ### Opening an image -/

structure Geometry where
  blockSize : ℕ
  blockCount : ℕ
  inodesCount : ℕ
  inodesPerGroup : ℕ
  inodeSize : ℕ
  descSize : ℕ
  gdtStart : ℕ
  groupCount : ℕ
  hasFiletype : Bool
  deriving DecidableEq, Repr

/-- `struct fsd_extfs`: the geometry of an image that was opened, with what the checks have
established about it. -/
structure Extfs (image : Bytes) extends Geometry where
  blockSize_pos : 0 < blockSize
  blockSize_le : blockSize ≤ 4096
  blocks_fit : blockCount ≤ image.length / blockSize
  inodesPerGroup_pos : 0 < inodesPerGroup
  inodesPerGroup_lt : inodesPerGroup < 2 ^ 32
  inodeSize_ge : inoMinSize ≤ inodeSize
  inodeSize_le : inodeSize ≤ blockSize
  inodes_le : inodesCount ≤ groupCount * inodesPerGroup
  descSize_ge : gdSize32 ≤ descSize
  table_fits : gdtStart + groupCount * descSize ≤ image.length

/-- The code that a failed probe returns, and `*reason_out`. -/
structure OpenFailure where
  code : FsdError
  reason : String
  deriving DecidableEq, Repr

section Open
variable (image : Bytes)

/-- `rd16(sb + field)` -/
def sb16 (field : ℕ) : ℕ := leNat (window image (extSbOffset + field) 2)

/-- `rd32(sb + field)` -/
def sb32 (field : ℕ) : ℕ := leNat (window image (extSbOffset + field) 4)

/-- The fields as the superblock has them; the group count is cut to 32 bits. -/
def superblockGeometry : Geometry :=
  let incompat := sb32 image sbFeatureIncompat
  let is64bit := incompat &&& incompat64bit ≠ 0
  let blockSize := 1024 <<< sb32 image sbLogBlockSize
  let blockCount := sb32 image sbBlocksCountLo |||
    (if is64bit then sb32 image sbBlocksCountHi <<< 32 else 0)
  let blocksPerGroup := sb32 image sbBlocksPerGroup
  let firstDataBlock := sb32 image sbFirstDataBlock
  { blockSize := blockSize
    blockCount := blockCount
    inodesCount := sb32 image sbInodesCount
    inodesPerGroup := sb32 image sbInodesPerGroup
    inodeSize := if 1 ≤ sb32 image sbRevLevel then sb16 image sbInodeSize else inoMinSize
    descSize := if is64bit then sb16 image sbDescSize else gdSize32
    gdtStart := (firstDataBlock + 1) * blockSize
    groupCount := (blockCount - firstDataBlock + blocksPerGroup - 1) / blocksPerGroup % 2 ^ 32
    hasFiletype := incompat &&& incompatFiletype ≠ 0 }

theorem sb32_lt (field : ℕ) : sb32 image field < 2 ^ 32 := by
  unfold sb32
  calc
    _ < 256 ^ (window image (extSbOffset + field) 4).length := leNat_lt _
    _ ≤ 256 ^ 4 := Nat.pow_le_pow_right (by decide) length_window_le
    _ = 2 ^ 32 := by decide

theorem shiftLeft_blockSize {log : ℕ} (h : log ≤ 2) : 0 < 1024 <<< log ∧ 1024 <<< log ≤ 4096 := by
  obtain rfl | rfl | rfl : log = 0 ∨ log = 1 ∨ log = 2 := by omega
  all_goals decide

/-- `fsd_extfs_open`, its allocation succeeding. -/
def extfsOpen : Except OpenFailure (Extfs image) :=
  let incompat := sb32 image sbFeatureIncompat
  if image.length < extSbOffset + 1024 then
    .error ⟨.badMagic, "image too small for a superblock"⟩
  else if sb16 image sbMagic ≠ extSuperMagic then .error ⟨.badMagic, "no ext superblock magic"⟩
  else if hlog : 2 < sb32 image sbLogBlockSize then .error ⟨.badMagic, "unsupported block size"⟩
  else if incompat &&& incompatRecover ≠ 0 then .error ⟨.badMagic, "journal needs recovery"⟩
  else if incompat &&& (uint32Max ^^^ incompatAllowed) ≠ 0 then
    .error ⟨.badMagic, "unsupported incompat features"⟩
  else if sb16 image sbState &&& extStateClean = 0 then
    .error ⟨.badMagic, "filesystem not cleanly unmounted"⟩
  else
  let g := superblockGeometry image
  if hzero : g.inodesPerGroup = 0 ∨ sb32 image sbBlocksPerGroup = 0 ∨ g.inodesCount = 0 ∨
      g.blockCount = 0 then .error ⟨.corruptData, "zero geometry field"⟩
  else if hinode : g.inodeSize < inoMinSize ∨ g.blockSize < g.inodeSize ∨
      g.inodeSize &&& (g.inodeSize - 1) ≠ 0 then .error ⟨.corruptData, "bad inode size"⟩
  else if hdesc : g.descSize < gdSize32 ∨ g.blockSize < g.descSize then
    .error ⟨.corruptData, "bad descriptor size"⟩
  else if sb32 image sbFirstDataBlock ≠ (if g.blockSize = 1024 then 1 else 0) then
    .error ⟨.corruptData, "bad first data block"⟩
  else if hfit : image.length / g.blockSize < g.blockCount then
    .error ⟨.corruptData, "filesystem larger than image"⟩
  else if hinodes : g.groupCount * g.inodesPerGroup < g.inodesCount then
    .error ⟨.corruptData, "inode count exceeds groups"⟩
  else if htable : image.length < g.gdtStart + g.groupCount * g.descSize then
    .error ⟨.corruptData, "descriptor table out of range"⟩
  else .ok
    { g with
      blockSize_pos := (shiftLeft_blockSize (not_lt.mp hlog)).1
      blockSize_le := (shiftLeft_blockSize (not_lt.mp hlog)).2
      blocks_fit := not_lt.mp hfit
      inodesPerGroup_pos := Nat.pos_of_ne_zero (not_or.mp hzero).1
      inodesPerGroup_lt := sb32_lt image sbInodesPerGroup
      inodeSize_ge := not_lt.mp (not_or.mp hinode).1
      inodeSize_le := not_lt.mp (not_or.mp (not_or.mp hinode).2).1
      inodes_le := not_lt.mp hinodes
      descSize_ge := not_lt.mp (not_or.mp hdesc).1
      table_fits := not_lt.mp htable }

end Open

section Inodes
variable {image : Bytes} (fs : Extfs image)

/-- `fs_block` -/
def fsBlock (b : ℕ) : Option ℕ :=
  if b = 0 ∨ fs.blockCount ≤ b then none
  else if image.length < u64 (u64 (b * fs.blockSize) + fs.blockSize) then none
  else some (u64 (b * fs.blockSize))

/-- The upper half of `bg_inode_table`, in descriptors that have it. -/
def inodeTableHi (gd : ℕ) : ReadM ℕ :=
  if gdInodeTableHi + 4 ≤ fs.descSize then rd32 image (gd + gdInodeTableHi) else pure 0

/-- `inode_ptr` -/
def inodePtr (ino : ℕ) : ReadM ℕ :=
  if ino = 0 ∨ fs.inodesCount < ino then failure
  else do
    let group := (ino - 1) / fs.inodesPerGroup
    let within := (ino - 1) % fs.inodesPerGroup
    let gd := fs.gdtStart + group * fs.descSize
    let lo ← rd32 image (gd + gdInodeTableLo)
    let hi ← inodeTableHi fs gd
    let table := lo ||| hi <<< 32
    let byte := u64 (table * fs.blockSize + within * fs.inodeSize)
    if table = 0 ∨ fs.blockCount ≤ table ∨ image.length < u64 (byte + fs.inodeSize) then failure
    else pure byte

/-- `rd16(ino + INO_MODE) & MODE_FMT_MASK` -/
def modeFmt (image : Bytes) (ino : ℕ) : ReadM ℕ := do
  let mode ← rd16 image (ino + inoMode)
  pure (mode &&& modeFmtMask)

/-- `inode_file_size` with the mode of the inode. -/
def inodeFileSize (image : Bytes) (ino : ℕ) : ReadM ℕ := do
  let fmt ← modeFmt image ino
  let lo ← rd32 image (ino + inoSizeLo)
  if fmt = modeRegular then do
    let hi ← rd32 image (ino + inoSizeHigh)
    pure (lo ||| hi <<< 32)
  else pure lo

end Inodes

/-! ### Extents -/

/-- `fsd_ext_extent_t` -/
structure Extent where
  logical : ℕ
  physical : ℕ
  count : ℕ
  deriving DecidableEq, Repr

section Extents
variable {image : Bytes} (fs : Extfs image) (room : ℕ)

/-- `extent_append`; memory can be had for `room` extents. -/
def extentAppend (list : List Extent) (e : Extent) : Option (List Extent) :=
  let grow :=
    if maxExtentsPerFile ≤ list.length ∨ room ≤ list.length then none else some (list ++ [e])
  if e.count = 0 then some list
  else
    match list.getLast? with
    | none => grow
    | some last =>
      if last.logical + last.count = e.logical ∧ last.physical + last.count = e.physical then
        some (list.dropLast ++ [{ last with count := last.count + e.count }])
      else grow

/-- A leaf entry; unwritten extents are left out. -/
def leafExtent (entry : ℕ) (out : List Extent) : ReadM (List Extent) := do
  let len ← rd16 image (entry + eeLenOff)
  if len = 0 ∨ extInitMaxLen < len then pure out
  else do
    let lo ← rd32 image (entry + eeStartLoOff)
    let hi ← rd16 image (entry + eeStartHiOff)
    let phys := lo ||| hi <<< 32
    if phys = 0 ∨ fs.blockCount < phys + len then failure
    else do
      let logical ← rd32 image (entry + eeBlockOff)
      OptionT.mk (pure (extentAppend room out ⟨logical, phys, len⟩))

/-- `extents_from_node`; `expectDepth` is absent for the root. Depths decrease, so the fuel
is never used up. -/
def extentsFromNode : ℕ → ℕ → ℕ → Option ℕ → List Extent → ReadM (List Extent)
  | 0, _, _, _, _ => fault .outOfFuel
  | fuel + 1, node, space, expectDepth, out =>
    if space < ehSize then failure
    else do
      let magic ← rd16 image (node + ehMagicOff)
      if magic ≠ extentHeaderMagic then failure
      else do
        let entries ← rd16 image (node + ehEntriesOff)
        let depth ← rd16 image (node + ehDepthOff)
        if extentMaxDepth < depth ∨ expectDepth.any (· ≠ depth) then failure
        else if space < ehSize + entries * extEntrySize then failure
        else
          iterM (fun i out => do
            let entry := node + ehSize + i * extEntrySize
            if depth = 0 then leafExtent fs room entry out
            else do
              let lo ← rd32 image (entry + eiLeafLoOff)
              let hi ← rd16 image (entry + eiLeafHiOff)
              match fsBlock fs (lo ||| hi <<< 32) with
              | none => failure
              | some cb => extentsFromNode fuel cb fs.blockSize (some (depth - 1)) out)
            entries 0 out

/-- `*logical` and the extents found so far. -/
structure MapState where
  logical : ℕ
  out : List Extent

/-- `blockmap_indirect`; `remaining` is the number of blocks of the file. -/
def blockmapIndirect (remaining : ℕ) : ℕ → ℕ → MapState → ReadM MapState
  | 0, mapBlock, st =>
    if remaining = 0 then pure st
    else if mapBlock = 0 then pure { st with logical := st.logical + 1 }
    else if fs.blockCount ≤ mapBlock then failure
    else do
      let out ← OptionT.mk (pure (extentAppend room st.out ⟨st.logical, mapBlock, 1⟩))
      pure ⟨st.logical + 1, out⟩
  | level + 1, mapBlock, st =>
    if remaining = 0 then pure st
    else if mapBlock = 0 then pure { st with logical := st.logical + (fs.blockSize / 4) ^ (level + 1) }
    else
      match fsBlock fs mapBlock with
      | none => failure
      | some blk =>
        iterM (fun i st =>
          if st.logical < remaining then do
            let entry ← rd32 image (blk + i * 4)
            blockmapIndirect remaining level entry st
          else pure st)
          (fs.blockSize / 4) 0 st

/-- `blockmap_collect` -/
def blockmapCollect (iblock fileBlocks : ℕ) : ReadM (List Extent) :=
  if maxFileBlocks < fileBlocks then failure
  else do
    let entry (level i : ℕ) (st : MapState) : ReadM MapState :=
      if st.logical < fileBlocks then do
        let mapBlock ← rd32 image (iblock + i * 4)
        blockmapIndirect fs room fileBlocks level mapBlock st
      else pure st
    let st ← iterM (entry 0) 12 0 ⟨0, []⟩
    let st ← iterM (fun level st => entry level (11 + level) st) 3 1 st
    pure st.out

/-- `inode_extents` -/
def inodeExtents (ino : ℕ) : ReadM (List Extent) := do
  let flags ← rd32 image (ino + inoFlags)
  if flags &&& iflagInlineData ≠ 0 then pure []
  else if flags &&& iflagExtents ≠ 0 then
    extentsFromNode fs room (extentMaxDepth + 1) (ino + inoBlock) inoBlockLen none []
  else do
    let size ← inodeFileSize image ino
    blockmapCollect fs room (ino + inoBlock) (u64 (size + fs.blockSize - 1) / fs.blockSize)

end Extents

/-! ### Directory records -/

/-- The fixed part of a record, and its type as the walk sees it. -/
structure DirRecord where
  recLen : ℕ
  ino : ℕ
  nameLen : ℕ
  ftype : ℕ
  deriving DecidableEq, Repr

section Records
variable {image : Bytes} (fs : Extfs image)

/-- Type of an entry of the older layout, from the mode of its inode. -/
def typeFromMode (ino : ℕ) : ReadM ℕ :=
  (do
    let ti ← inodePtr fs ino
    let fmt ← modeFmt image ti
    pure (if fmt = modeDirectory then deFtDirectory
      else if fmt = modeRegular then deFtRegular
      else deFtUnknown)) <|> pure deFtUnknown

/-- The record at `pos` of a directory block; `failure` ends the block. -/
def readRecord (blk pos : ℕ) : ReadM DirRecord := do
  let de := blk + pos
  let recLen ← rd16 image (de + deRecLenOff)
  if recLen < deNameOff ∨ recLen &&& 3 ≠ 0 ∨ fs.blockSize < pos + recLen then failure
  else do
    let ino ← rd32 image (de + deInodeOff)
    if fs.hasFiletype then do
      let nameLen ← rd8 image (de + deNameLenOff)
      let ftype ← rd8 image (de + deFileTypeOff)
      pure ⟨recLen, ino, nameLen, ftype⟩
    else do
      let nameLen ← rd16 image (de + deNameLenOff)
      let ftype ← typeFromMode fs ino
      pure ⟨recLen, ino, nameLen, ftype⟩

def slash : UInt8 := 0x2F
def dot : UInt8 := 0x2E

/-- `is_dot` -/
def isDot (name : Bytes) : Bool := name = [dot] || name = [dot, dot]

/-- The name of a record that is used at all. -/
def recordName (image : Bytes) (blk pos : ℕ) (r : DirRecord) : ReadM Bytes :=
  if r.ino = 0 ∨ r.nameLen = 0 ∨ r.recLen < deNameOff + r.nameLen then failure
  else do
    let name ← rdBytes image (blk + pos + deNameOff) r.nameLen
    if isDot name ∨ slash ∈ name ∨ 0 ∈ name then failure else pure name

/-- The path of an entry, put together in `path_buf` with a terminator behind it. -/
def joinPath (dir name : Bytes) : ReadM Bytes :=
  if maxPathLen ≤ dir.length + 1 + name.length then failure
  else if maxPathLen < dir.length + 1 + name.length + 1 then fault .outOfRange
  else pure (dir ++ slash :: name)

/-- `path_depth` -/
def pathDepth (path : Bytes) : ℕ := path.count slash

end Records

/-! ### Walk -/

structure Report where
  path : Bytes
  inodeNo : ℕ
  fileSize : ℕ
  extents : List Extent
  deriving DecidableEq, Repr

/-- A call of the callback: for which record it was made, and whether the answer was nonzero. -/
structure Event where
  report : Report
  dir : Bytes
  blk : ℕ
  pos : ℕ
  stop : Bool
  deriving DecidableEq, Repr

/-- Memory: whether `visited` and `path_buf` can be had, for how many extents the `n`-th
collection finds room, and whether the `n`-th directory can be pushed. -/
structure Memory where
  buffers : Bool
  room : ℕ → ℕ
  push : ℕ → Bool

def Memory.ample : Memory := ⟨true, fun _ => maxExtentsPerFile, fun _ => true⟩

/-- The state of a walk; `user` is what the callback keeps between its calls. The calls made
and the directories taken from the stack are recorded in order. -/
structure Walk (σ : Type) where
  visited : List (BitVec 8)
  stack : List (ℕ × Bytes)
  user : σ
  events : List Event := []
  stopped : Bool := false
  expanded : List ℕ := []
  collections : ℕ := 0
  pushes : ℕ := 0

abbrev WalkM (σ : Type) := EStateM Fault (Walk σ)

/-- `fsd_extfs_file_cb`: the new state and whether the walk is to stop. -/
abbrev FileCb (σ : Type) := σ → Report → σ × Bool

section Walk
variable {image : Bytes} {σ : Type} (fs : Extfs image) (mem : Memory) (cb : FileCb σ)

/-- A read inside the walk. -/
def attempt {α : Type} (x : ReadM α) : WalkM σ (Option α) :=
  match x.run with
  | .ok r => pure r
  | .error e => throw e

/-- `visited[ino / 8] & (1u << (ino % 8))` -/
def testVisited (ino : ℕ) : WalkM σ Bool := do
  let w ← get
  if ino / 8 < w.visited.length then pure (Bitmap.testBits w.visited ino) else throw .outOfRange

/-- `visited[ino / 8] |= (uint8_t)(1u << (ino % 8))` -/
def setVisited (ino : ℕ) : WalkM σ Unit := do
  let w ← get
  if ino / 8 < w.visited.length then set { w with visited := Bitmap.setBits w.visited ino }
  else throw .outOfRange

/-- `dir_push` -/
def dirPush (ino : ℕ) (path : Bytes) : WalkM σ Unit := do
  let w ← get
  if mem.push w.pushes then
    set { w with stack := (ino, path) :: w.stack, pushes := w.pushes + 1 }
  else throw .outOfMemory

/-- The extents of a file, as far as memory allows. -/
def collect {α : Type} (x : ℕ → ReadM α) : WalkM σ (Option α) := do
  let w ← get
  set { w with collections := w.collections + 1 }
  attempt (x (mem.room w.collections))

def regularFile (path : Bytes) (ino room : ℕ) : ReadM Report := do
  let fi ← inodePtr fs ino
  let fmt ← modeFmt image fi
  if fmt ≠ modeRegular then failure
  else do
    let extents ← inodeExtents fs room fi
    let fileSize ← inodeFileSize image fi
    pure ⟨path, ino, fileSize, extents⟩

/-- The extents of a directory that is expanded. -/
def directoryExtents (ino room : ℕ) : ReadM (List Extent) := do
  let dino ← inodePtr fs ino
  let fmt ← modeFmt image dino
  if fmt ≠ modeDirectory then failure else inodeExtents fs room dino

/-- `if (ftype == DE_FT_DIRECTORY)` -/
def visitDirectory (ino : ℕ) (path : Bytes) : WalkM σ Unit :=
  if ino ≤ fs.inodesCount then do
    let seen ← testVisited ino
    if seen = false ∧ pathDepth path ≤ maxDirDepth then do
      setVisited ino
      dirPush mem ino path
    else pure ()
  else pure ()

/-- `else if (ftype == DE_FT_REGULAR)` -/
def visitRegular (dir : Bytes) (blk pos ino : ℕ) (path : Bytes) : WalkM σ Unit := do
  match ← collect mem (regularFile fs path ino) with
  | none => pure ()
  | some report =>
    modify fun w =>
      let answer := cb w.user report
      { w with
        user := answer.1
        events := w.events ++ [⟨report, dir, blk, pos, answer.2⟩]
        stopped := w.stopped || answer.2 }

/-- Name and path of a record that is acted on. -/
def recordPath (image : Bytes) (dir : Bytes) (blk pos : ℕ) (r : DirRecord) : ReadM Bytes := do
  let name ← recordName image blk pos r
  joinPath dir name

def visitRecord (dir : Bytes) (blk pos : ℕ) (r : DirRecord) : WalkM σ Unit := do
  match ← attempt (recordPath image dir blk pos r) with
  | none => pure ()
  | some path =>
    if r.ftype = deFtDirectory then visitDirectory fs mem r.ino path
    else if r.ftype = deFtRegular then visitRegular fs mem cb dir blk pos r.ino path
    else pure ()

/-- `while (pos + DE_NAME_OFF <= fs->block_size)`; `stopped` is not looked at. -/
def scanRecords (dir : Bytes) (blk : ℕ) : ℕ → ℕ → WalkM σ Unit
  | 0, pos => if pos + deNameOff ≤ fs.blockSize then throw .outOfFuel else pure ()
  | fuel + 1, pos =>
    if pos + deNameOff ≤ fs.blockSize then do
      match ← attempt (readRecord fs blk pos) with
      | none => pure ()
      | some r =>
        visitRecord fs mem cb dir blk pos r
        scanRecords dir blk fuel (pos + r.recLen)
    else pure ()

/-- One block of a directory, if it lies in the image. -/
def scanBlock (dir : Bytes) (b : ℕ) : WalkM σ Unit :=
  match fsBlock fs b with
  | none => pure ()
  | some blk => scanRecords fs mem cb dir blk fs.blockSize 0

/-- `for (uint64_t b = 0; b < ext.count && !stopped; b++)` -/
def scanBlocks (dir : Bytes) : ℕ → ℕ → WalkM σ Unit
  | 0, _ => pure ()
  | n + 1, b => do
    let w ← get
    if w.stopped then pure ()
    else do
      scanBlock fs mem cb dir b
      scanBlocks dir n (b + 1)

/-- `for (size_t e = 0; e < dir_ext.n && !stopped; e++)` -/
def scanExtents (dir : Bytes) : List Extent → WalkM σ Unit
  | [] => pure ()
  | ext :: rest => do
    let w ← get
    if w.stopped then pure ()
    else do
      scanBlocks fs mem cb dir ext.count ext.physical
      scanExtents dir rest

def expandDirectory (ino : ℕ) (path : Bytes) : WalkM σ Unit := do
  match ← collect mem (directoryExtents fs ino) with
  | none => pure ()
  | some dirExt => scanExtents fs mem cb path dirExt

/-- `while (stack.n > 0 && !stopped)` -/
def walkLoop : ℕ → WalkM σ Unit
  | 0 => do
    let w ← get
    if w.stack ≠ [] ∧ w.stopped = false then throw .outOfFuel else pure ()
  | fuel + 1 => do
    let w ← get
    match w.stack with
    | [] => pure ()
    | (ino, path) :: rest =>
      if w.stopped then pure ()
      else do
        set { w with stack := rest, expanded := w.expanded ++ [ino] }
        expandDirectory fs mem cb ino path
        walkLoop fuel

/-- `fsd_extfs_walk` from the first push on. A directory is pushed when its bit is set, so
the bits bound the turns of the loop. -/
def walkFromRoot : WalkM σ Unit := do
  dirPush mem extRootInode []
  setVisited extRootInode
  walkLoop fs mem cb (fs.inodesCount + 2)

/-- `fsd_extfs_walk` -/
def extfsWalk (user : σ) : EStateM.Result Fault (Walk σ) Unit :=
  let w : Walk σ := ⟨List.replicate (fs.inodesCount / 8 + 1) 0, [], user, [], false, [], 0, 0⟩
  if mem.buffers then walkFromRoot fs mem cb w else .error .outOfMemory w

end Walk

end Fsdiff.ExtFs
