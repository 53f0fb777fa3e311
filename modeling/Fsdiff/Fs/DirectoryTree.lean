import Fsdiff.Fs.Walk

/-! With a callback that never stops it, the walk reports the files of the directory tree:
those of every directory that can be read, each under its path. Directories that are named
more than once are expanded once. -/
namespace Fsdiff.ExtFs
open ByteString Exec

section Tree
variable {image : Bytes} (fs : Extfs image)

/-- All that the entries of a directory lead to, in the order of its blocks. -/
def dirEvents (d : ℕ × Bytes) : List (Report ⊕ (ℕ × Bytes)) :=
  (directoryBlocks fs maxExtentsPerFile d.1).flatMap fun blk =>
    (blockRecords fs blk fs.blockSize 0).flatMap fun x =>
      recordEvents fs maxExtentsPerFile d.2 blk x.1 x.2

/-- The reports of the tree below a directory, `n` directories deep. -/
def treeReports (n : ℕ) (d : ℕ × Bytes) : List Report := Worklist.unfold (dirEvents fs) n d

def recordNames (image : Bytes) (blk pos : ℕ) (r : DirRecord) : List ℕ :=
  match (recordName image blk pos r).run with
  | .ok (some _) => if r.ftype = deFtDirectory then [r.ino] else []
  | _ => []

/-- The inodes named by the directory entries of a directory, dots aside. -/
def namesIn (ino : ℕ) : List ℕ :=
  (directoryBlocks fs maxExtentsPerFile ino).flatMap fun blk =>
    (blockRecords fs blk fs.blockSize 0).flatMap fun x => recordNames image blk x.1 x.2

def IsDirectory (ino : ℕ) : Prop :=
  ∃ p, (inodePtr fs ino).run = .ok (some p) ∧ (modeFmt image p).run = .ok (some modeDirectory)

/-- No directory is named twice, and the root not at all. -/
def NamedOnce : Prop :=
  ∀ ino, IsDirectory fs ino →
    ((List.range' 1 fs.inodesCount).flatMap (namesIn fs)).count ino ≤
      if ino = extRootInode then 0 else 1

variable {fs}

theorem isDirectory_of_blocks (hsize : image.length ≤ int64Max) {ino room : ℕ}
    (h : directoryBlocks fs room ino ≠ []) : IsDirectory fs ino ∧ ino ∈ List.range' 1 fs.inodesCount := by
  unfold directoryBlocks at h
  split at h
  · next exts hrun =>
    obtain ⟨p, hptr, hrun⟩ := exists_of_run_bind hrun
    obtain ⟨fmt, hmode, hrun⟩ := exists_of_run_bind hrun
    have hdir : fmt = modeDirectory := by
      by_contra hne
      rw [if_pos hne] at hrun
      cases hrun
    subst hdir
    refine ⟨⟨p, hptr, hmode⟩, ?_⟩
    have hle := ((inodePtr_safe fs hsize ino).returns hptr).2
    have hpos : ino ≠ 0 := by
      rintro rfl
      cases hptr
    rw [List.mem_range'_1]
    omega
  · exact absurd rfl h

theorem mem_dirEvents {d : ℕ × Bytes} {ev : Report ⊕ (ℕ × Bytes)} (h : ev ∈ dirEvents fs d) :
    ∃ blk x, blk ∈ directoryBlocks fs maxExtentsPerFile d.1 ∧
      x ∈ blockRecords fs blk fs.blockSize 0 ∧
      ev ∈ recordEvents fs maxExtentsPerFile d.2 blk x.1 x.2 := by
  obtain ⟨blk, hblk, hev⟩ := List.mem_flatMap.mp h
  obtain ⟨x, hx, hev⟩ := List.mem_flatMap.mp hev
  exact ⟨blk, x, hblk, hx, hev⟩

theorem pathDepth_child (hsize : image.length ≤ int64Max) {d y : ℕ × Bytes}
    (h : .inr y ∈ dirEvents fs d) :
    pathDepth y.2 = pathDepth d.2 + 1 ∧ pathDepth y.2 ≤ maxDirDepth := by
  obtain ⟨blk, x, hblk, hx, hev⟩ := mem_dirEvents h
  obtain ⟨-, hdepth, -, -, hpath⟩ := recordEvents_child hev
  have hin := mem_directoryBlocks hsize hblk
  obtain ⟨o, hrun, hname⟩ := recordPath_safe fs d.2 hin (mem_blockRecords hsize hin hx).2
  rw [hrun] at hpath
  cases hpath
  obtain ⟨name, hslash, heq⟩ := hname y.2 rfl
  refine ⟨?_, hdepth⟩
  rw [heq, pathDepth, pathDepth, List.count_append, List.count_cons_self,
    List.count_eq_zero_of_not_mem hslash]

theorem childKeys_recordEvents (dir : Bytes) (blk pos : ℕ) (r : DirRecord) :
    (Worklist.childKeys Prod.fst (recordEvents fs maxExtentsPerFile dir blk pos r)).Sublist
      (recordNames image blk pos r) := by
  have hnil : ∀ evs : List (Report ⊕ (ℕ × Bytes)), (∀ y, .inr y ∉ evs) →
      (Worklist.childKeys Prod.fst evs).Sublist (recordNames image blk pos r) := by
    intro evs hevs
    have hempty : Worklist.childKeys Prod.fst evs = [] := by
      rw [Worklist.childKeys, List.filterMap_eq_nil_iff]
      intro ev hev
      cases ev with
      | inl rep => rfl
      | inr y => exact absurd hev (hevs y)
    rw [hempty]
    exact List.nil_sublist _
  by_cases hchild : ∃ y, .inr y ∈ recordEvents fs maxExtentsPerFile dir blk pos r
  · obtain ⟨y, hy⟩ := hchild
    obtain ⟨hle, hdepth, hdir, hino, hpath⟩ := recordEvents_child hy
    obtain ⟨name, hname, -⟩ := exists_of_run_bind hpath
    simp only [recordEvents, hpath, recordNames, hname]
    rw [hino] at hle
    rw [if_pos hdir, if_pos hdir, if_pos ⟨hle, hdepth⟩]
    exact List.Sublist.refl _
  · exact hnil _ fun y hy => hchild ⟨y, hy⟩

theorem childKeys_flatMap {α : Type} (l : List α) (f : α → List (Report ⊕ (ℕ × Bytes))) :
    Worklist.childKeys Prod.fst (l.flatMap f) =
      l.flatMap fun a => Worklist.childKeys Prod.fst (f a) := by
  induction l with
  | nil => rfl
  | cons a l ih => rw [List.flatMap_cons, List.flatMap_cons, Worklist.childKeys_append, ih]

/-- Directories that are named at most once form a tree. -/
theorem dirEvents_tree (hsize : image.length ≤ int64Max) (h : NamedOnce fs) :
    Worklist.Tree Prod.fst (dirEvents fs) (fun d => maxDirDepth + 1 - pathDepth d.2) (namesIn fs)
      (IsDirectory fs) (extRootInode, []) := by
  constructor
  · intro x y hy
    obtain ⟨hdepth, hle⟩ := pathDepth_child hsize hy
    omega
  · intro x hx
    by_contra hne
    have hblocks : directoryBlocks fs maxExtentsPerFile x.1 ≠ [] := by
      intro hnil
      apply hne
      rw [dirEvents, hnil, List.flatMap_nil]
    exact hx (isDirectory_of_blocks hsize hblocks).1
  · intro x k _
    apply List.Sublist.count_le
    rw [dirEvents, namesIn, childKeys_flatMap]
    apply List.Sublist.flatMap_right
    intro blk _
    rw [childKeys_flatMap]
    apply List.Sublist.flatMap_right
    intro rec _
    exact childKeys_recordEvents x.2 blk rec.1 rec.2
  · intro k ds hk hds
    refine (Worklist.count_flatMap_le (namesIn fs) k hds ?_).trans (h k hk)
    intro d hd
    by_contra hne
    have hblocks : directoryBlocks fs maxExtentsPerFile d ≠ [] := by
      intro hnil
      apply hne
      rw [namesIn, hnil, List.flatMap_nil]
    exact hd (isDirectory_of_blocks hsize hblocks).2

end Tree

section Complete
variable {image : Bytes} {σ : Type} {fs : Extfs image} {cb : FileCb σ} {w : Walk σ}

theorem not_pushFails_ample {e : Fault} {w w' : Walk σ} : ¬ PushFails .ample w e w' := by
  rintro ⟨-, ⟨n, hn⟩, -⟩
  cases hn

/-- A walk that goes on and, once the events `evs` are emitted, has reached `s`. -/
structure Emitted (fs : Extfs image) (s : Worklist.State (ℕ × Bytes) ℕ Report)
    (evs : List (Report ⊕ (ℕ × Bytes))) (w : Walk σ) : Prop where
  visited_length : w.visited.length = fs.inodesCount / 8 + 1
  running : w.stopped = false
  state_eq : evs.foldl (Worklist.emit Prod.fst) w.state = s

theorem Emitted.visits (hcb : ∀ u r, (cb u r).2 = false) {dir : Bytes} {blk : ℕ}
    {x : ℕ × DirRecord} {s : Worklist.State (ℕ × Bytes) ℕ Report}
    {evs : List (Report ⊕ (ℕ × Bytes))} {w' : Walk σ}
    (h : Emitted fs s (recordEvents fs maxExtentsPerFile dir blk x.1 x.2 ++ evs) w)
    (hv : Visits fs .ample cb dir blk x.1 x.2 w w') : Emitted fs s evs w' := by
  refine ⟨hv.visited_length.trans h.visited_length, ?_, ?_⟩
  · cases hv with
    | report _ _ =>
      change (w.stopped || _) = false
      rw [h.running, hcb, Bool.or_false]
    | _ => exact h.running
  · rw [hv.state_eq h.visited_length]
    exact (List.foldl_append).symm.trans h.state_eq

theorem expandDirectory_emits (hsize : image.length ≤ int64Max) (hcb : ∀ u r, (cb u r).2 = false)
    {ino : ℕ} {path : Bytes} (hlen : w.visited.length = fs.inodesCount / 8 + 1)
    (hrun : w.stopped = false) :
    Ends (expandDirectory fs .ample cb ino path w)
      (fun _ w' => Emitted fs ((dirEvents fs (ino, path)).foldl (Worklist.emit Prod.fst) w.state) [] w')
      (fun _ _ => False) := by
  rw [expandDirectory_eq hsize]
  let events (blk : ℕ) := (blockRecords fs blk fs.blockSize 0).flatMap fun x =>
    recordEvents fs maxExtentsPerFile path blk x.1 x.2
  let s := (dirEvents fs (ino, path)).foldl (Worklist.emit Prod.fst) w.state
  have hstart : Emitted fs s ((directoryBlocks fs maxExtentsPerFile ino).flatMap events)
      { w with collections := w.collections + 1 } := ⟨hlen, hrun, rfl⟩
  refine (visitBlocks_rule (I := fun l w => Emitted fs s (l.flatMap events) w) _
    (fun blk hblk => mem_directoryBlocks hsize hblk) ?_ hstart).imp ?_
  · intro blk l w h _ hblk
    apply visitRecords_rule hsize hblk (I := fun recs w => Emitted fs s ((recs.flatMap fun x =>
        recordEvents fs maxExtentsPerFile path blk x.1 x.2) ++ l.flatMap events) w) _
      (fun x hx => (mem_blockRecords hsize hblk hx).2) (fun _ w h => h.visited_length)
    · intro x recs w w' h hv
      rw [List.flatMap_cons, List.append_assoc] at h
      exact h.visits hcb hv
    · intro _ _ _ _ _ hf
      exact not_pushFails_ample hf
    · exact h
  · rintro _ w' ⟨l, h, rfl | hstop⟩
    · exact h
    · rw [h.running] at hstop
      cases hstop

theorem expandDirectory_sound_ample (hsize : image.length ≤ int64Max) {turns ino : ℕ}
    {path : Bytes} (h : Sound fs turns w) :
    Ends (expandDirectory fs .ample cb ino path w) (fun _ w' => Sound fs turns w')
      (fun _ _ => False) := by
  exact (expandDirectory_sound hsize h).weaken fun _ _ hf => not_outOfMemory_ample hf

theorem rootWalk_complete (user : σ) (fs : Extfs image) :
    Worklist.Complete Prod.fst (dirEvents fs) (fun d => maxDirDepth + 1 - pathDepth d.2)
      (namesIn fs) (IsDirectory fs) (extRootInode, []) (rootWalk fs user).state := by
  refine ⟨(rootWalk_sound user).ordered, ?_, ?_, ?_⟩
  · intro y hy
    obtain rfl : y = (extRootInode, []) := by simpa [rootWalk, Walk.state] using hy
    exact Nat.succ_pos _
  · intro k _ hseen
    left
    change Bitmap.testBits (rootWalk fs user).visited k = true at hseen
    rw [rootWalk, Bitmap.testBits_setBits _ _ _ (rootWord_lt fs), Bitmap.testBits_replicate_zero,
      Bool.or_false, decide_eq_true_eq] at hseen
    exact hseen.symm
  · simp [rootWalk, Walk.state, Worklist.promised]

theorem extfsWalk_tree (hsize : image.length ≤ int64Max) (hcb : ∀ u r, (cb u r).2 = false)
    (hnamed : NamedOnce fs) (user : σ) :
    Ends (extfsWalk fs .ample cb user)
      (fun _ w => (w.events.map Event.report).Perm
        (treeReports fs (maxDirDepth + 1) (extRootInode, [])))
      (fun _ _ => False) := by
  have ht := dirEvents_tree hsize hnamed
  obtain hrun | ⟨hshort, -⟩ := extfsWalk_cases fs .ample cb user
  swap
  · rcases hshort with hbuf | ⟨n, hn⟩
    · cases hbuf
    · cases hn
  rw [hrun]
  refine (walkLoop_rule (I := fun n w => (Sound fs n w ∧ w.stopped = false) ∧
      Worklist.Complete Prod.fst (dirEvents fs) (fun d => maxDirDepth + 1 - pathDepth d.2)
        (namesIn fs) (IsDirectory fs) (extRootInode, []) w.state)
    (fun w h => h.1.1.stack_nil) ?_ (fs.inodesCount + 2)
    ⟨⟨rootWalk_sound user, rfl⟩, rootWalk_complete user fs⟩).imp ?_
  swap
  · rintro _ w ⟨⟨n, ⟨-, hgoing⟩, hcomplete⟩, hs | hstop⟩
    · exact hcomplete.perm hs
    · rw [hgoing] at hstop
      cases hstop
  · rintro n w ino path rest ⟨⟨hsound, hgoing⟩, hcomplete⟩ hs _
    have hpop := hsound.popped hs
    refine ((expandDirectory_sound_ample hsize hpop).and
      (expandDirectory_emits hsize hcb hpop.visited_length hgoing)).mono ?_ ?_
    · rintro _ w' ⟨hsound', hemitted⟩
      refine ⟨⟨hsound', hemitted.running⟩, ?_⟩
      have hstate : w'.state = _ := hemitted.state_eq
      rw [hstate]
      exact hcomplete.expand ht hs
    · intro _ _ hf
      exact hf.1

end Complete

/-- With a callback that never stops it, the walk of an image that opens ends, and takes each
directory from the stack once; and if no directory is named twice, it reports exactly the
files of the directory tree, each as often as it is entered. -/
theorem extfsWalk_complete {image : Bytes} (hsize : image.length ≤ int64Max) (fs : Extfs image)
    (_ : extfsOpen image = .ok fs) {σ : Type} (cb : FileCb σ) (hcb : ∀ u r, (cb u r).2 = false)
    (user : σ) :
    ∃ w, extfsWalk fs .ample cb user = .ok () w ∧ w.expanded.Nodup ∧
      (NamedOnce fs → (w.events.map Event.report).Perm
        (treeReports fs (maxDirDepth + 1) (extRootInode, []))) := by
  have hsound := (extfsWalk_sound fs .ample cb hsize user).weaken
    (fun _ _ hf => not_outOfMemory_ample hf)
  obtain ⟨_, w, hrun, ⟨turns, h⟩, -⟩ := hsound.exists_ok
  refine ⟨w, hrun, (List.nodup_append.mp h.ordered.nodup).2.1, ?_⟩
  intro hnamed
  exact (extfsWalk_tree hsize hcb hnamed user).of_ok hrun

theorem namedOnce_sampleImage {fs : Extfs sampleImage} (hopen : extfsOpen sampleImage = .ok fs) :
    NamedOnce fs := by
  have hnames := of_sampleImage hopen
    (fun fs => (List.range' 1 fs.inodesCount).flatMap (namesIn fs) = [4]) (by decide +kernel)
  intro ino _
  rw [of_decide_eq_true hnames]
  split_ifs with hroot
  · rw [hroot]
    decide
  · exact List.count_le_length

theorem extfsWalk_complete_sampleImage :
    ∃ fs w, extfsOpen sampleImage = .ok fs ∧
      extfsWalk fs .ample (fun (n : ℕ) _ => (n + 1, false)) 0 = .ok () w ∧ w.expanded.Nodup ∧
      (w.events.map Event.report).Perm (treeReports fs (maxDirDepth + 1) (extRootInode, [])) ∧
      (treeReports fs (maxDirDepth + 1) (extRootInode, [])).map Report.path =
        [[slash, 0x61], [slash, 0x64, slash, 0x63], [slash, 0x62]] := by
  obtain ⟨fs, hopen⟩ := exists_open_sampleImage
  obtain ⟨w, hrun, hnodup, hperm⟩ := extfsWalk_complete (by decide +kernel) fs hopen
    (fun (n : ℕ) _ => (n + 1, false)) (fun _ _ => rfl) 0
  have hpaths := of_sampleImage hopen (fun fs => (treeReports fs (maxDirDepth + 1)
    (extRootInode, [])).map Report.path = [[slash, 0x61], [slash, 0x64, slash, 0x63], [slash, 0x62]])
    (by decide +kernel)
  exact ⟨fs, w, hopen, hrun, hnodup, hperm (namedOnce_sampleImage hopen), of_decide_eq_true hpaths⟩

end Fsdiff.ExtFs
