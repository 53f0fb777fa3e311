import Fsdiff.Fs.Coalescing
import Fsdiff.Fs.Walk

/-! What `extents_from_node` collects. An extent tree is a node with its depth, whose entries
are extents at depth 0 and blocks with nodes of one depth less above. The nodes may share
blocks or point back: it is the depth that ends the recursion. -/
namespace Fsdiff.ExtFs
open ByteString Exec

/-! ### Loads -/

/-- `rd16` of a position in the image. -/
def load16 (image : Bytes) (p : ℕ) : ℕ := leNat (window image p 2)

/-- `rd32` of a position in the image. -/
def load32 (image : Bytes) (p : ℕ) : ℕ := leNat (window image p 4)

section Loads
variable {image : Bytes} {p : ℕ}

theorem rd16_eq (h : p + 2 ≤ image.length) : rd16 image p = pure (load16 image p) := by
  rw [rd16, rdBytes, if_pos h]
  rfl

theorem rd32_eq (h : p + 4 ≤ image.length) : rd32 image p = pure (load32 image p) := by
  rw [rd32, rdBytes, if_pos h]
  rfl

end Loads

/-! ### Trees -/

section Trees
variable {image : Bytes} (fs : Extfs image)

def nodeEntries (image : Bytes) (node : ℕ) : ℕ := load16 image (node + ehEntriesOff)

def nodeDepth (image : Bytes) (node : ℕ) : ℕ := load16 image (node + ehDepthOff)

def entryAt (node i : ℕ) : ℕ := node + ehSize + i * extEntrySize

/-- The extent of a leaf entry, if it is initialised. -/
def leafEntry (image : Bytes) (entry : ℕ) : Option Extent :=
  let len := load16 image (entry + eeLenOff)
  if 1 ≤ len ∧ len ≤ extInitMaxLen then
    some {
      logical := load32 image (entry + eeBlockOff)
      physical := load32 image (entry + eeStartLoOff) ||| load16 image (entry + eeStartHiOff) <<< 32
      count := len }
  else none

def childBlock (image : Bytes) (entry : ℕ) : ℕ :=
  load32 image (entry + eiLeafLoOff) ||| load16 image (entry + eiLeafHiOff) <<< 32

/-- The initialised leaf entries below a node of a given depth, in depth-first order. -/
def treeLeaves : ℕ → ℕ → List Extent
  | 0, node => (List.range (nodeEntries image node)).flatMap fun i =>
      (leafEntry image (entryAt node i)).toList
  | depth + 1, node => (List.range (nodeEntries image node)).flatMap fun i =>
      treeLeaves depth (childBlock image (entryAt node i) * fs.blockSize)

/-- A node of the given depth with its entries in `space` bytes. -/
structure NodeAt (image : Bytes) (depth node space : ℕ) : Prop where
  magic : load16 image (node + ehMagicOff) = extentHeaderMagic
  depth_eq : nodeDepth image node = depth
  entries_le : ehSize + nodeEntries image node * extEntrySize ≤ space

/-- A tree: the entries of a leaf lie in the filesystem, and the others lead to trees of one
depth less. -/
def TreeAt : ℕ → ℕ → ℕ → Prop
  | 0, node, space => NodeAt image 0 node space ∧
      ∀ i < nodeEntries image node, ∀ x ∈ leafEntry image (entryAt node i), x.Inside fs.blockCount
  | depth + 1, node, space => NodeAt image (depth + 1) node space ∧
      ∀ i < nodeEntries image node,
        (1 ≤ childBlock image (entryAt node i) ∧ childBlock image (entryAt node i) < fs.blockCount) ∧
          TreeAt depth (childBlock image (entryAt node i) * fs.blockSize) fs.blockSize

end Trees

section Collect
variable {image : Bytes} (fs : Extfs image) (room : ℕ)

/-- A leaf entry is added to the list, or left out if it is not initialised. -/
theorem leafExtent_yields {entry : ℕ} (out : List Extent)
    (hentry : entry + extEntrySize ≤ image.length) :
    Yields (leafExtent fs room entry out)
      (fun out' => out' = mergeAll out (leafEntry image entry).toList ∧
        ∀ x ∈ leafEntry image entry, x.Inside fs.blockCount) True := by
  unfold extEntrySize at hentry
  unfold leafExtent
  rw [rd16_eq (show entry + eeLenOff + 2 ≤ image.length by unfold eeLenOff; omega), pure_bind]
  apply yields_ite
  · intro hlen
    apply yields_pure
    have hnone : leafEntry image entry = none := by
      unfold leafEntry
      exact if_neg (by omega)
    rw [hnone]
    exact ⟨rfl, nofun⟩
  intro hlen
  rw [rd32_eq (show entry + eeStartLoOff + 4 ≤ image.length by unfold eeStartLoOff; omega), pure_bind,
    rd16_eq (show entry + eeStartHiOff + 2 ≤ image.length by unfold eeStartHiOff; omega), pure_bind]
  apply yields_ite (fun _ => yields_failure trivial)
  intro hphys
  rw [rd32_eq (show entry + eeBlockOff + 4 ≤ image.length by unfold eeBlockOff; omega), pure_bind]
  have hsome : leafEntry image entry = some ⟨load32 image (entry + eeBlockOff),
      load32 image (entry + eeStartLoOff) ||| load16 image (entry + eeStartHiOff) <<< 32,
      load16 image (entry + eeLenOff)⟩ := by
    unfold leafEntry
    exact if_pos (by omega)
  rw [hsome]
  apply yields_option _ fun _ => trivial
  intro out' happ
  constructor
  · rcases extentAppend_cases room out _ with heq | ⟨heq, -⟩
    · rw [happ] at heq
      exact Option.some.inj heq
    · rw [happ] at heq
      cases heq
  · intro x hx
    cases hx
    refine ⟨?_, ?_, ?_⟩
    · change 1 ≤ load16 image (entry + eeLenOff)
      omega
    · change 1 ≤ load32 image _ ||| _
      omega
    · change (load32 image _ ||| _) + load16 image _ ≤ fs.blockCount
      omega

theorem mergeAll_range_succ (f : ℕ → List Extent) (out : List Extent) (i : ℕ) :
    mergeAll out ((List.range (i + 1)).flatMap f) =
      mergeAll (mergeAll out ((List.range i).flatMap f)) (f i) := by
  rw [List.range_succ, List.flatMap_append, mergeAll_append]
  simp

theorem leafEntries_yields {node n : ℕ} (out : List Extent)
    (hentry : ∀ i < n, entryAt node i + extEntrySize ≤ image.length) :
    Yields (iterM (fun i out => leafExtent fs room (entryAt node i) out) n 0 out)
      (fun out' =>
        out' = mergeAll out ((List.range n).flatMap fun i => (leafEntry image (entryAt node i)).toList) ∧
        ∀ i < n, ∀ x ∈ leafEntry image (entryAt node i), x.Inside fs.blockCount) True := by
  apply Yields.iterM_zero (fun n out' =>
    out' = mergeAll out ((List.range n).flatMap fun i => (leafEntry image (entryAt node i)).toList) ∧
      ∀ i < n, ∀ x ∈ leafEntry image (entryAt node i), x.Inside fs.blockCount) n out _ ⟨rfl, by simp⟩
  rintro i out' hi ⟨rfl, hinside⟩
  apply (leafExtent_yields fs room _ (hentry i hi)).imp _ id
  rintro out' ⟨rfl, hin⟩
  refine ⟨(mergeAll_range_succ _ _ _).symm, ?_⟩
  intro j hj
  rcases Nat.lt_succ_iff_lt_or_eq.mp hj with hj | rfl
  · exact hinside j hj
  · exact hin

/-- The entries of a node above the leaves, by what `visit` does with their nodes. -/
theorem childEntries_yields (hsize : image.length ≤ int64Max) {depth node n : ℕ} (out : List Extent)
    (hentry : ∀ i < n, entryAt node i + extEntrySize ≤ image.length)
    {visit : ℕ → List Extent → ReadM (List Extent)}
    (hvisit : ∀ cb out, cb + fs.blockSize ≤ image.length → Yields (visit cb out)
      (fun out' => TreeAt fs depth cb fs.blockSize ∧ out' = mergeAll out (treeLeaves fs depth cb)) True) :
    Yields (iterM (fun i out => do
        let lo ← rd32 image (entryAt node i + eiLeafLoOff)
        let hi ← rd16 image (entryAt node i + eiLeafHiOff)
        match fsBlock fs (lo ||| hi <<< 32) with
        | none => failure
        | some cb => visit cb out) n 0 out)
      (fun out' =>
        out' = mergeAll out ((List.range n).flatMap fun i =>
          treeLeaves fs depth (childBlock image (entryAt node i) * fs.blockSize)) ∧
        ∀ i < n,
          (1 ≤ childBlock image (entryAt node i) ∧ childBlock image (entryAt node i) < fs.blockCount) ∧
            TreeAt fs depth (childBlock image (entryAt node i) * fs.blockSize) fs.blockSize) True := by
  apply Yields.iterM_zero (fun n out' =>
    out' = mergeAll out ((List.range n).flatMap fun i =>
      treeLeaves fs depth (childBlock image (entryAt node i) * fs.blockSize)) ∧
    ∀ i < n,
      (1 ≤ childBlock image (entryAt node i) ∧ childBlock image (entryAt node i) < fs.blockCount) ∧
        TreeAt fs depth (childBlock image (entryAt node i) * fs.blockSize) fs.blockSize) n out _
    ⟨rfl, by simp⟩
  rintro i out' hi ⟨rfl, htrees⟩
  have hentry := hentry i hi
  unfold extEntrySize at hentry
  rw [rd32_eq (show entryAt node i + eiLeafLoOff + 4 ≤ image.length by unfold eiLeafLoOff; omega),
    pure_bind,
    rd16_eq (show entryAt node i + eiLeafHiOff + 2 ≤ image.length by unfold eiLeafHiOff; omega), pure_bind]
  change Yields (match fsBlock fs (childBlock image (entryAt node i)) with
    | none => failure
    | some cb => visit cb _) _ _
  cases hblock : fsBlock fs (childBlock image (entryAt node i)) with
  | none => exact yields_failure trivial
  | some cb =>
    obtain ⟨hpos, hlt, rfl, hcb⟩ := fsBlock_spec fs hsize hblock
    apply (hvisit _ _ hcb).imp _ id
    rintro out' ⟨htree, rfl⟩
    refine ⟨(mergeAll_range_succ _ _ _).symm, ?_⟩
    intro j hj
    rcases Nat.lt_succ_iff_lt_or_eq.mp hj with hj | rfl
    · exact htrees j hj
    · exact ⟨⟨hpos, hlt⟩, htree⟩

/-- The fuel exceeds the depth of the node. -/
theorem extentsFromNode_yields (hsize : image.length ≤ int64Max) (fuel node space : ℕ)
    (expectDepth : Option ℕ) (out : List Extent) (hfuel : expectDepth.getD extentMaxDepth < fuel)
    (hnode : node + space ≤ image.length) :
    Yields (extentsFromNode fs room fuel node space expectDepth out)
      (fun out' => nodeDepth image node ≤ extentMaxDepth ∧
        (∀ d ∈ expectDepth, nodeDepth image node = d) ∧
        TreeAt fs (nodeDepth image node) node space ∧
        out' = mergeAll out (treeLeaves fs (nodeDepth image node) node)) True := by
  induction fuel generalizing node space expectDepth out with
  | zero => exact absurd hfuel (Nat.not_lt_zero _)
  | succ fuel ih =>
    unfold extentsFromNode
    apply yields_ite (fun _ => yields_failure trivial)
    intro hspace
    unfold ehSize at hspace
    rw [rd16_eq (show node + ehMagicOff + 2 ≤ image.length by unfold ehMagicOff; omega), pure_bind]
    apply yields_ite (fun _ => yields_failure trivial)
    intro hmagic
    rw [rd16_eq (show node + ehEntriesOff + 2 ≤ image.length by unfold ehEntriesOff; omega), pure_bind,
      rd16_eq (show node + ehDepthOff + 2 ≤ image.length by unfold ehDepthOff; omega), pure_bind]
    change Yields (if extentMaxDepth < nodeDepth image node ∨ _ then _ else _) _ _
    apply yields_ite (fun _ => yields_failure trivial)
    intro hdepth
    rw [not_or, not_lt] at hdepth
    apply yields_ite (fun _ => yields_failure trivial)
    intro hentries
    change ¬ space < ehSize + nodeEntries image node * extEntrySize at hentries
    have hexpect : ∀ d ∈ expectDepth, nodeDepth image node = d := by
      rintro d rfl
      have hd : d = load16 image (node + ehDepthOff) := by simpa using hdepth.2
      exact hd.symm
    have hle : nodeDepth image node < fuel + 1 := by
      cases expectDepth with
      | none => exact hdepth.1.trans_lt hfuel
      | some d => exact hexpect d rfl ▸ hfuel
    have hnodeAt : NodeAt image (nodeDepth image node) node space :=
      ⟨not_not.mp hmagic, rfl, not_lt.mp hentries⟩
    have hentryAt : ∀ i < nodeEntries image node, entryAt node i + extEntrySize ≤ image.length := by
      intro i hi
      unfold entryAt ehSize extEntrySize at *
      omega
    change Yields (iterM (fun i out =>
      if nodeDepth image node = 0 then leafExtent fs room (entryAt node i) out
      else do
        let lo ← rd32 image (entryAt node i + eiLeafLoOff)
        let hi ← rd16 image (entryAt node i + eiLeafHiOff)
        match fsBlock fs (lo ||| hi <<< 32) with
        | none => failure
        | some cb =>
          extentsFromNode fs room fuel cb fs.blockSize (some (nodeDepth image node - 1)) out)
      (nodeEntries image node) 0 out) _ _
    cases hd : nodeDepth image node with
    | zero =>
      simp only [if_true]
      apply (leafEntries_yields fs room out hentryAt).imp _ id
      rintro out' ⟨rfl, hinside⟩
      exact ⟨Nat.zero_le _, hd ▸ hexpect, ⟨hd ▸ hnodeAt, hinside⟩, rfl⟩
    | succ depth =>
      simp only [Nat.succ_ne_zero, if_false, Nat.add_sub_cancel]
      have hvisit : ∀ cb out, cb + fs.blockSize ≤ image.length →
          Yields (extentsFromNode fs room fuel cb fs.blockSize (some depth) out)
            (fun out' => TreeAt fs depth cb fs.blockSize ∧
              out' = mergeAll out (treeLeaves fs depth cb)) True := by
        intro cb out hcb
        apply (ih cb fs.blockSize (some depth) out (by change depth < fuel; omega) hcb).imp _ id
        rintro out' ⟨-, hsame, htree, rfl⟩
        rw [hsame depth rfl] at htree ⊢
        exact ⟨htree, rfl⟩
      apply (childEntries_yields fs hsize out hentryAt hvisit).imp _ id
      rintro out' ⟨rfl, htrees⟩
      exact ⟨hd ▸ hdepth.1, hd ▸ hexpect, ⟨hd ▸ hnodeAt, htrees⟩, rfl⟩

end Collect

section Flattens
variable {image : Bytes}

/-- Started on an empty list, the recursion ends. If it returns, the node is the root of a tree
of depth at most 5, the list maps the blocks of its initialised leaf entries one by one, and no
extent of the list continues the one before it. -/
theorem extentsFromNode_flattens (hsize : image.length ≤ int64Max) (fs : Extfs image)
    (_ : extfsOpen image = .ok fs) (room node space : ℕ) (hnode : node + space ≤ image.length) :
    ∃ r, (extentsFromNode fs room (extentMaxDepth + 1) node space none []).run = .ok r ∧
      ∀ out, r = some out →
        nodeDepth image node ≤ 5 ∧ TreeAt fs (nodeDepth image node) node space ∧
        blocksOf out = blocksOf (treeLeaves fs (nodeDepth image node) node) ∧
        out.IsChain fun x y => ¬ x.Continues y := by
  obtain ⟨r, hrun, hsome, -⟩ := extentsFromNode_yields fs room hsize (extentMaxDepth + 1) node space
    none [] (Nat.lt_succ_self _) hnode
  refine ⟨r, hrun, ?_⟩
  intro out hout
  obtain ⟨hdepth, -, htree, rfl⟩ := hsome out hout
  exact ⟨hdepth, htree, blocksOf_mergeAll_nil _, (coalesced_nil.mergeAll _).chain⟩

/-- `struct ext4_extent_header` -/
def sampleHeader (entries depth : ℕ) : Bytes :=
  leBytes 2 extentHeaderMagic ++ leBytes 2 entries ++ leBytes 2 4 ++ leBytes 2 depth ++ leBytes 4 0

/-- A root over two leaves, which stand in blocks 5 and 6: blocks 0 and 1 of the file in the one, block
2 and an unwritten one in the other. -/
def sampleTree : Bytes :=
  sampleImage.take 5120 ++
    padded 1024 (sampleHeader 1 0 ++ (leBytes 4 0 ++ leBytes 2 2 ++ leBytes 2 0 ++ leBytes 4 3)) ++
    padded 1024 (sampleHeader 2 0 ++ (leBytes 4 2 ++ leBytes 2 1 ++ leBytes 2 0 ++ leBytes 4 5) ++
      (leBytes 4 3 ++ leBytes 2 32769 ++ leBytes 2 0 ++ leBytes 4 6)) ++
    padded 60 (sampleHeader 2 1 ++ (leBytes 4 0 ++ leBytes 4 5 ++ leBytes 4 0) ++
      (leBytes 4 2 ++ leBytes 4 6 ++ leBytes 4 0))

theorem extentsFromNode_flattens_sampleTree :
    ∃ fs, extfsOpen sampleTree = .ok fs ∧ nodeDepth sampleTree 7168 = 1 ∧
      blocksOf (treeLeaves fs 1 7168) = [(0, 3), (1, 4), (2, 5)] ∧
      (extentsFromNode fs 16 (extentMaxDepth + 1) 7168 60 none []).run = .ok (some [⟨0, 3, 3⟩]) ∧
      ∃ r, (extentsFromNode fs 16 (extentMaxDepth + 1) 7168 60 none []).run = .ok r ∧
        ∀ out, r = some out →
          nodeDepth sampleTree 7168 ≤ 5 ∧ TreeAt fs (nodeDepth sampleTree 7168) 7168 60 ∧
          blocksOf out = blocksOf (treeLeaves fs (nodeDepth sampleTree 7168) 7168) ∧
          out.IsChain fun x y => ¬ x.Continues y := by
  obtain ⟨fs, hopen, heval⟩ := exists_ok_of_any (x := extfsOpen sampleTree)
    (fun fs : Extfs sampleTree => blocksOf (treeLeaves fs 1 7168) = [(0, 3), (1, 4), (2, 5)] ∧
      (extentsFromNode fs 16 (extentMaxDepth + 1) 7168 60 none []).run = .ok (some [⟨0, 3, 3⟩]))
    (by decide +kernel)
  obtain ⟨hleaves, hrun⟩ := of_decide_eq_true heval
  exact ⟨fs, hopen, by decide +kernel, hleaves, hrun,
    extentsFromNode_flattens (by decide +kernel) fs hopen 16 7168 60 (by decide +kernel)⟩

end Flattens

end Fsdiff.ExtFs
