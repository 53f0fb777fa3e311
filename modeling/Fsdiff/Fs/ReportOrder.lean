import Fsdiff.Fs.BlockMap

/-! The order of the extents that a callback gets. A block map is read by a cursor that only
goes forward, so its extents ascend. The entries of an extent tree are taken in the order in
which they are stored: neither `extents_from_node` nor `extent_append` compares an entry with
the one before it, except to join the two. -/
namespace Fsdiff.ExtFs
open ByteString Exec

/-! ### Ascending extents -/

/-- `y` begins at or behind the end of `x`. -/
def Extent.Before (x y : Extent) : Prop := x.logical + x.count ≤ y.logical

instance (x y : Extent) : Decidable (x.Before y) := inferInstanceAs (Decidable (_ ≤ _))

instance : Trans Extent.Before Extent.Before Extent.Before where
  trans := fun {x y z} hxy hyz =>
    calc
      x.logical + x.count ≤ y.logical := hxy
      _ ≤ y.logical + y.count := Nat.le_add_right _ _
      _ ≤ z.logical := hyz

/-- What the callback may rely on: the extents ascend, none reaches into the next, and no block
of the file has two places. -/
structure MapsInOrder (extents : List Extent) : Prop where
  ascending : extents.IsChain fun x y => x.logical < y.logical
  disjoint : extents.IsChain Extent.Before
  single : ∀ l b b', (l, b) ∈ blocksOf extents → (l, b') ∈ blocksOf extents → b = b'

section Order
variable {list : List Extent}

theorem mem_blocks {x : Extent} {p : ℕ × ℕ} (h : p ∈ x.blocks) :
    x.logical ≤ p.1 ∧ p.1 < x.logical + x.count := by
  obtain ⟨k, hk, rfl⟩ := List.mem_map.mp h
  have hlt := List.mem_range.mp hk
  constructor
  · exact Nat.le_add_right _ _
  · exact Nat.add_lt_add_left hlt _

theorem blocks_ascending (x : Extent) : x.blocks.Pairwise fun p q => p.1 < q.1 := by
  unfold Extent.blocks
  rw [List.pairwise_map]
  apply List.pairwise_lt_range.imp
  intro a b hab
  exact Nat.add_lt_add_left hab _

theorem chain_before_iff (hpos : ∀ x ∈ list, 1 ≤ x.count) :
    list.IsChain Extent.Before ↔ (blocksOf list).Pairwise fun p q => p.1 < q.1 := by
  rw [List.isChain_iff_pairwise]
  constructor
  · intro h
    rw [blocksOf, List.pairwise_flatMap]
    refine ⟨fun x _ => blocks_ascending x, h.imp ?_⟩
    intro x y hxy p hp q hq
    calc
      p.1 < x.logical + x.count := (mem_blocks hp).2
      _ ≤ y.logical := hxy
      _ ≤ q.1 := (mem_blocks hq).1
  · intro h
    apply (ascending_of_blocksOf hpos h).imp
    intro x y hxy
    exact hxy.2

/-- The three promises stand or fall with the second. -/
theorem mapsInOrder_iff (hpos : ∀ x ∈ list, 1 ≤ x.count) :
    MapsInOrder list ↔ list.IsChain Extent.Before := by
  constructor
  · intro h
    exact h.disjoint
  intro h
  have hblocks := (chain_before_iff hpos).mp h
  refine ⟨?_, h, ?_⟩
  · have hpairs := (ascending_of_blocksOf hpos hblocks).imp fun hxy => hxy.1
    exact hpairs.isChain
  · intro l b b' hb hb'
    have hnodup : ((blocksOf list).map Prod.fst).Nodup :=
      List.pairwise_map.mpr (hblocks.imp fun hlt => hlt.ne)
    exact (Prod.mk.inj (List.inj_on_of_nodup_map hnodup hb hb' rfl)).2

end Order

/-! ### The entries of a file -/

section Leaves
variable {image : Bytes} (fs : Extfs image)

/-- The initialised entries of the tree in an inode, in the order in which they are stored. An
inode with inline data or a block map has none. -/
def inodeLeaves (fi : ℕ) : List Extent :=
  let flags := load32 image (fi + inoFlags)
  if flags &&& iflagInlineData = 0 ∧ flags &&& iflagExtents ≠ 0 then
    treeLeaves fs (nodeDepth image (fi + inoBlock)) (fi + inoBlock)
  else []

def fileLeaves (inodeNo : ℕ) : List Extent :=
  match (inodePtr fs inodeNo).run with
  | .ok (some fi) => inodeLeaves fs fi
  | _ => []

theorem treeLeaves_count (depth node : ℕ) : ∀ x ∈ treeLeaves fs depth node, 1 ≤ x.count := by
  induction depth generalizing node with
  | zero =>
    intro x hx
    obtain ⟨i, -, hi⟩ := List.mem_flatMap.mp hx
    rw [Option.mem_toList, leafEntry] at hi
    split_ifs at hi with hlen
    cases hi
    exact hlen.1
  | succ depth ih =>
    intro x hx
    obtain ⟨i, -, hi⟩ := List.mem_flatMap.mp hx
    exact ih _ x hi

/-- Joining neither makes nor mends a disorder. -/
theorem chain_before_mergeAll {extents : List Extent} (hpos : ∀ x ∈ extents, 1 ≤ x.count) :
    (mergeAll [] extents).IsChain Extent.Before ↔ extents.IsChain Extent.Before := by
  rw [chain_before_iff (coalesced_nil.mergeAll extents).count_pos, chain_before_iff hpos,
    blocksOf_mergeAll_nil]

theorem blockmapCollect_ascends (room : ℕ) (hsize : image.length ≤ int64Max) {iblock : ℕ}
    (hiblock : iblock + inoBlockLen ≤ image.length) (fileBlocks : ℕ) :
    Yields (blockmapCollect fs room iblock fileBlocks) (fun out => out.IsChain Extent.Before) True := by
  by_cases hblocks : fileBlocks ≤ maxFileBlocks
  · apply (blockmapCollect_yields fs room hsize hiblock hblocks).imp _ fun _ => trivial
    rintro out rfl
    rw [chain_before_iff (coalesced_nil.mergeAll _).count_pos, blocksOf_mergeAll_nil]
    exact blocksOf_mappedBlocks_ascending _ _
  · unfold blockmapCollect
    rw [if_pos (not_le.mp hblocks)]
    exact yields_failure trivial

/-- Both collectors, and a file without blocks. -/
theorem inodeExtents_yields (room : ℕ) (hsize : image.length ≤ int64Max) {fi : ℕ}
    (hfi : fi + inoMinSize ≤ image.length) :
    Yields (inodeExtents fs room fi)
      (fun out => out.IsChain Extent.Before ↔ (inodeLeaves fs fi).IsChain Extent.Before) True := by
  obtain ⟨hflags, hblock⟩ := inodeFields_le hfi
  unfold inodeExtents inodeLeaves
  rw [rd32_eq hflags, pure_bind]
  apply yields_ite
  · intro hinline
    rw [if_neg (fun h => hinline h.1)]
    exact yields_pure Iff.rfl
  intro hinline
  apply yields_ite
  · intro htree
    rw [if_pos ⟨not_not.mp hinline, htree⟩]
    apply (extentsFromNode_yields fs room hsize _ _ _ none [] (Nat.lt_succ_self _) hblock).imp _ id
    rintro out ⟨-, -, -, rfl⟩
    exact chain_before_mergeAll (treeLeaves_count fs _ _)
  · intro hmap
    rw [if_neg (fun h => hmap h.2)]
    apply (inodeFileSize_safe hfi).yields.bind
    intro size _
    apply (blockmapCollect_ascends fs room hsize hblock _).imp _ id
    intro out hout
    exact iff_of_true hout .nil

theorem regularFile_chain (hsize : image.length ≤ int64Max) {path : Bytes} {ino room : ℕ}
    {report : Report} (h : (regularFile fs path ino room).run = .ok (some report)) :
    report.inodeNo = ino ∧
      (report.extents.IsChain Extent.Before ↔ (fileLeaves fs ino).IsChain Extent.Before) := by
  obtain ⟨fi, hptr, h⟩ := exists_of_run_bind h
  obtain ⟨fmt, -, h⟩ := exists_of_run_bind h
  split_ifs at h with hfmt
  · cases h
  obtain ⟨extents, hext, h⟩ := exists_of_run_bind h
  obtain ⟨fileSize, -, h⟩ := exists_of_run_bind h
  cases h
  refine ⟨rfl, ?_⟩
  have hfi := (inodePtr_safe fs hsize ino).returns hptr
  have hchain := (inodeExtents_yields fs room hsize hfi.1).safe.returns hext
  unfold fileLeaves
  rw [hptr]
  exact hchain

end Leaves

/-! ### Reports -/

section Reports
variable {image : Bytes}

/-- Over every walk, however it ends: the extents of a report ascend without overlap, each block
of the file in one place, exactly if the stored entries of its extent tree do. -/
theorem extfsWalk_mapsInOrder_iff (hsize : image.length ≤ int64Max) (fs : Extfs image)
    (_ : extfsOpen image = .ok fs) {σ : Type} (mem : Memory) (cb : FileCb σ) (user : σ) :
    Ends (extfsWalk fs mem cb user)
      (fun _ w => ∀ e ∈ w.events,
        MapsInOrder e.report.extents ↔ (fileLeaves fs e.report.inodeNo).IsChain Extent.Before)
      (fun _ w => ∀ e ∈ w.events,
        MapsInOrder e.report.extents ↔ (fileLeaves fs e.report.inodeNo).IsChain Extent.Before) := by
  apply extfsWalk_reports hsize (P := fun report =>
    MapsInOrder report.extents ↔ (fileLeaves fs report.inodeNo).IsChain Extent.Before) user
  intro room dir blk pos r report hevents
  obtain ⟨path, hrun⟩ := recordEvents_report hevents
  obtain ⟨hino, hchain⟩ := regularFile_chain fs hsize hrun
  have hinside := (regularFile_safe fs hsize path r.ino room).returns hrun
  have hpos : ∀ x ∈ report.extents, 1 ≤ x.count := by
    intro x hx
    exact (hinside x hx).1
  rw [mapsInOrder_iff hpos, hchain, hino]

/-! ### A file with a tree -/

def leafBytes (x : Extent) : Bytes :=
  leBytes 4 x.logical ++ leBytes 2 x.count ++ leBytes 2 0 ++ leBytes 4 x.physical

def treeInode (entries : List Extent) : Bytes :=
  padded 128 (leBytes 4 modeRegular ++ leBytes 4 2048 ++ List.replicate 24 0 ++
    leBytes 4 iflagExtents ++ List.replicate 4 0 ++
    (leBytes 2 extentHeaderMagic ++ leBytes 2 entries.length ++ leBytes 2 4 ++ leBytes 2 0 ++
      leBytes 4 0) ++ entries.flatMap leafBytes)

/-- Seven blocks with the one file `/a`, inode 3. -/
def treeImage (entries : List Extent) : Bytes :=
  [List.replicate 1024 0, sampleSuperblock, padded 1024 (List.replicate 8 0 ++ leBytes 4 3),
    padded 1024 (List.replicate 128 0 ++ sampleInode modeDirectory 4 ++ treeInode entries),
    padded 1024 (sampleRecord 3 1024 deFtRegular 0x61), List.replicate 1024 7,
    List.replicate 1024 8].flatten

/-- Entries in order; and two that are neither in order nor apart: the block 1 of the file is
at 6 and at 5. -/
def straightEntries : List Extent := [⟨0, 6, 1⟩, ⟨1, 5, 1⟩]

def crossedEntries : List Extent := [⟨1, 6, 1⟩, ⟨0, 4, 2⟩]

theorem extfsWalk_mapsInOrder_straight :
    ∃ fs, extfsOpen (treeImage straightEntries) = .ok fs ∧
      (fileLeaves fs 3).IsChain Extent.Before ∧
      Ends (extfsWalk fs .ample (fun (n : ℕ) _ => (n + 1, false)) 0)
        (fun _ w => ∀ e ∈ w.events, e.report.inodeNo = 3 → MapsInOrder e.report.extents)
        (fun _ w => ∀ e ∈ w.events, e.report.inodeNo = 3 → MapsInOrder e.report.extents) := by
  obtain ⟨fs, hopen, heval⟩ := exists_ok_of_any (x := extfsOpen (treeImage straightEntries))
    (fun fs : Extfs (treeImage straightEntries) => (fileLeaves fs 3).IsChain Extent.Before)
    (by decide +kernel)
  have hchain := of_decide_eq_true heval
  refine ⟨fs, hopen, hchain, (extfsWalk_mapsInOrder_iff (by decide +kernel) fs hopen .ample
    (fun (n : ℕ) _ => (n + 1, false)) 0).mono ?_ ?_⟩
  · intro _ w h e he hino
    rw [h e he, hino]
    exact hchain
  · intro _ w h e he hino
    rw [h e he, hino]
    exact hchain

/-- The file is reported all the same. -/
theorem extfsWalk_reports_crossed :
    ∃ fs, extfsOpen (treeImage crossedEntries) = .ok fs ∧
      ∃ w, extfsWalk fs .ample (fun (n : ℕ) _ => (n + 1, false)) 0 = .ok () w ∧
        w.events.map (fun e => e.report.extents) = [crossedEntries] ∧
        ¬ ∀ e ∈ w.events, MapsInOrder e.report.extents := by
  obtain ⟨fs, hopen, heval⟩ := exists_ok_of_any (x := extfsOpen (treeImage crossedEntries))
    (fun fs : Extfs (treeImage crossedEntries) =>
      match extfsWalk fs .ample (fun (n : ℕ) _ => (n + 1, false)) 0 with
      | .ok _ w => w.events.map (fun e => e.report.extents) = [crossedEntries]
      | .error _ _ => false)
    (by decide +kernel)
  refine ⟨fs, hopen, ?_⟩
  cases hrun : extfsWalk fs .ample (fun (n : ℕ) _ => (n + 1, false)) 0 with
  | error e w =>
    rw [hrun] at heval
    cases heval
  | ok u w =>
    rw [hrun] at heval
    have hevents := of_decide_eq_true heval
    refine ⟨w, rfl, hevents, ?_⟩
    intro h
    have hmem : crossedEntries ∈ w.events.map fun e => e.report.extents := by
      rw [hevents]
      exact List.mem_singleton_self _
    obtain ⟨e, he, heq⟩ := List.mem_map.mp hmem
    have hdisjoint := (h e he).disjoint
    rw [heq] at hdisjoint
    revert hdisjoint
    decide

end Reports

end Fsdiff.ExtFs
