import Fsdiff.Fs.DirectoryTree
import Fsdiff.Fs.Stopping

/-! Reported paths, on any image: each of them can be looked up from the root, name by name, and
leads to the file that was reported under it. -/
namespace Fsdiff.ExtFs
open ByteString Exec

/-! ### Looking up a path -/

def components (path : Bytes) : List Bytes := (path.splitOn slash).tail

/-- A name that can stand between two slashes and leads down. -/
structure ProperName (name : Bytes) : Prop where
  ne_nil : name ≠ []
  not_dot : isDot name = false
  no_slash : slash ∉ name
  no_nul : 0 ∉ name

section Lookup
variable {image : Bytes} (fs : Extfs image)

/-- The inodes that a directory has entries for under a name; a damaged one may have several. -/
def lookupName (ino : ℕ) (name : Bytes) : List ℕ :=
  (directoryBlocks fs maxExtentsPerFile ino).flatMap fun blk =>
    ((blockRecords fs blk fs.blockSize 0).filter fun x =>
      match (recordName image blk x.1 x.2).run with
      | .ok (some n) => n = name
      | _ => false).map fun x => x.2.ino

def resolve : ℕ → List Bytes → List ℕ
  | ino, [] => [ino]
  | ino, name :: rest => (lookupName fs ino name).flatMap fun next => resolve next rest

def IsRegular (ino : ℕ) : Prop :=
  ∃ p, (inodePtr fs ino).run = .ok (some p) ∧ (modeFmt image p).run = .ok (some modeRegular)

/-- What a report may be made of. -/
structure Resolves (report : Report) : Prop where
  path_eq : (components report.path).flatMap (slash :: ·) = report.path
  proper : ∀ name ∈ components report.path, ProperName name
  depth_le : (components report.path).length ≤ maxDirDepth + 1
  length_lt : report.path.length < maxPathLen
  target : report.inodeNo ∈ resolve fs extRootInode (components report.path)
  regular : IsRegular fs report.inodeNo

theorem components_append (dir : Bytes) {name : Bytes} (h : slash ∉ name) :
    components (dir ++ slash :: name) = components dir ++ [name] := by
  unfold components
  rw [List.splitOn_append_cons_self, List.splitOn_eq_singleton h,
    List.tail_append_of_ne_nil (List.splitOn_ne_nil slash dir)]

variable {fs}

theorem resolve_append {ino next target : ℕ} {names : List Bytes} {name : Bytes}
    (h : next ∈ resolve fs ino names) (hname : target ∈ lookupName fs next name) :
    target ∈ resolve fs ino (names ++ [name]) := by
  induction names generalizing ino with
  | nil =>
    obtain rfl := List.mem_singleton.mp h
    exact List.mem_flatMap.mpr ⟨target, hname, List.mem_singleton_self target⟩
  | cons first rest ih =>
    obtain ⟨ino', hino', hrest⟩ := List.mem_flatMap.mp h
    exact List.mem_flatMap.mpr ⟨ino', hino', ih hrest⟩

theorem mem_lookupName {ino blk : ℕ} {x : ℕ × DirRecord} {name : Bytes}
    (hblk : blk ∈ directoryBlocks fs maxExtentsPerFile ino)
    (hx : x ∈ blockRecords fs blk fs.blockSize 0)
    (hname : (recordName image blk x.1 x.2).run = .ok (some name)) :
    x.2.ino ∈ lookupName fs ino name := by
  refine List.mem_flatMap.mpr ⟨blk, hblk, List.mem_map.mpr ⟨x, List.mem_filter.mpr ⟨hx, ?_⟩, rfl⟩⟩
  rw [hname]
  exact decide_eq_true rfl

/-- What a record that is used has for a name, and what its path is. -/
theorem recordPath_eq {dir path : Bytes} {blk pos : ℕ} {r : DirRecord}
    (h : (recordPath image dir blk pos r).run = .ok (some path)) :
    ∃ name, (recordName image blk pos r).run = .ok (some name) ∧ ProperName name ∧
      path = dir ++ slash :: name ∧ path.length < maxPathLen := by
  obtain ⟨name, hname, hjoin⟩ := exists_of_run_bind h
  refine ⟨name, hname, ?_, ?_⟩
  · unfold recordName at hname
    split_ifs at hname with hused
    · cases hname
    obtain ⟨bytes, hbytes, hname⟩ := exists_of_run_bind hname
    split_ifs at hname with hbad
    · cases hname
    cases hname
    rw [not_or, not_or] at hused hbad
    have hlen : name.length = r.nameLen := by
      unfold rdBytes at hbytes
      split_ifs at hbytes with hin
      · cases hbytes
        exact length_window hin
      · cases hbytes
    refine ⟨?_, by simpa using hbad.1, hbad.2.1, hbad.2.2⟩
    rintro rfl
    exact hused.2.1 hlen.symm
  · unfold joinPath at hjoin
    split_ifs at hjoin with hlong hover
    · cases hjoin
    · cases hjoin
    · cases hjoin
      refine ⟨rfl, ?_⟩
      rw [List.length_append, List.length_cons]
      omega

/-- A report is about a regular file, under the path of its record. -/
theorem recordEvents_report_eq {room : ℕ} {dir : Bytes} {blk pos : ℕ} {r : DirRecord} {report : Report}
    (h : recordEvents fs room dir blk pos r = [.inl report]) :
    (recordPath image dir blk pos r).run = .ok (some report.path) ∧ report.inodeNo = r.ino ∧
      IsRegular fs r.ino := by
  unfold recordEvents at h
  split at h
  · next path hpath =>
    split_ifs at h
    · cases h
    · split at h
      · next report' hrun =>
        cases h
        obtain ⟨p, hptr, hrun⟩ := exists_of_run_bind hrun
        obtain ⟨fmt, hmode, hrun⟩ := exists_of_run_bind hrun
        split_ifs at hrun with hfmt
        · cases hrun
        rw [not_not] at hfmt
        subst hfmt
        obtain ⟨extents, -, hrun⟩ := exists_of_run_bind hrun
        obtain ⟨fileSize, -, hrun⟩ := exists_of_run_bind hrun
        cases hrun
        exact ⟨hpath, rfl, p, hptr, hmode⟩
      · cases h
  · cases h

theorem directoryBlocks_ample {room ino blk : ℕ} (h : blk ∈ directoryBlocks fs room ino) :
    blk ∈ directoryBlocks fs maxExtentsPerFile ino := by
  have hwithin : Within (directoryExtents fs ino room) (directoryExtents fs ino maxExtentsPerFile) := by
    unfold directoryExtents
    refine (Within.refl _).bind fun dino => (Within.refl _).bind fun fmt => .ite (.refl _) ?_
    exact inodeExtents_within fs room dino
  unfold directoryBlocks at h ⊢
  split at h
  · next exts hrun =>
    rw [hwithin exts hrun]
    exact h
  · cases h

end Lookup

/-! ### The walk -/

section Walk
variable {image : Bytes} {σ : Type} {fs : Extfs image} {mem : Memory} {cb : FileCb σ}

/-- Rule for a walk that knows where its records are from: `D` holds of the directory that is
taken from the stack, and `I` of every state. -/
theorem extfsWalk_directory_rule (hsize : image.length ≤ int64Max) {I : Walk σ → Prop}
    {D : ℕ → Bytes → Prop} {E : Fault → Walk σ → Prop} (user : σ) (hroot : I (rootWalk fs user))
    (hpop : ∀ w ino path rest, I w → w.stack = (ino, path) :: rest →
      D ino path ∧ I (w.popped ino rest))
    (hcollect : ∀ w, I w → I { w with collections := w.collections + 1 })
    (hvisit : ∀ ino dir blk x w w', D ino dir → blk ∈ directoryBlocks fs maxExtentsPerFile ino →
      x ∈ blockRecords fs blk fs.blockSize 0 → I w → Visits fs mem cb dir blk x.1 x.2 w w' → I w')
    (hfail : ∀ w e w', I w → PushFails mem w e w' → E e w')
    (hempty : ∀ e w, w.events = [] → E e w) :
    Ends (extfsWalk fs mem cb user) (fun _ w => I w) E := by
  obtain hrun | ⟨-, w, hrun, hw⟩ := extfsWalk_cases fs mem cb user
  swap
  · rw [hrun]
    exact hempty _ w hw
  rw [hrun]
  refine (walkLoop_rule (I := fun n w => Sound fs n w ∧ I w) (fun w h => h.1.stack_nil) ?_
    (fs.inodesCount + 2) ⟨rootWalk_sound user, hroot⟩).imp ?_
  swap
  · rintro _ w ⟨⟨n, h⟩, -⟩
    exact h.2
  intro n w ino path rest h hs _
  have hpopped := h.1.popped hs
  obtain ⟨hD, hI⟩ := hpop w ino path rest h.2 hs
  rw [expandDirectory_eq hsize]
  -- what is left to do comes from the directory, block by block and record by record
  refine (visitBlocks_rule (I := fun l w => (∀ blk ∈ l, blk ∈ directoryBlocks fs maxExtentsPerFile ino) ∧
    Sound fs n w ∧ I w) _ (fun blk hblk => mem_directoryBlocks hsize hblk) ?_ ⟨?_, ?_, ?_⟩).imp ?_
  · rintro blk l w ⟨hblks, hsound, hI⟩ _ hblk
    obtain ⟨hmem, hblks⟩ := List.forall_mem_cons.mp hblks
    refine (visitRecords_rule hsize hblk (I := fun l w =>
      (∀ x ∈ l, x ∈ blockRecords fs blk fs.blockSize 0) ∧ Sound fs n w ∧ I w) _
      (fun x hx => (mem_blockRecords hsize hblk hx).2) (fun _ w h => h.2.1.visited_length)
      ?_ (fun _ w e w' h hf => hfail w e w' h.2.2 hf) ⟨fun x hx => hx, hsound, hI⟩).imp ?_
    · rintro x l w w' ⟨hxs, hsound, hI⟩ hv
      obtain ⟨hx, hxs⟩ := List.forall_mem_cons.mp hxs
      exact ⟨hxs, hsound.visits hv, hvisit ino path blk x w w' hD hmem hx hI hv⟩
    · rintro _ w' ⟨-, h⟩
      exact ⟨hblks, h⟩
  · exact fun blk hblk => directoryBlocks_ample hblk
  · exact ⟨hpopped.visited_length, hpopped.inside, hpopped.ordered, hpopped.pending_le⟩
  · exact hcollect _ hI
  · rintro _ w' ⟨_, ⟨-, h⟩, -⟩
    exact h

/-- A directory that waits on the stack, or is being read. -/
structure Reached (fs : Extfs image) (ino : ℕ) (path : Bytes) : Prop where
  path_eq : (components path).flatMap (slash :: ·) = path
  proper : ∀ name ∈ components path, ProperName name
  depth_le : (components path).length ≤ maxDirDepth
  target : ino ∈ resolve fs extRootInode (components path)

theorem reached_root (fs : Extfs image) : Reached fs extRootInode [] := by
  have hnil : components [] = [] := by rw [components, List.splitOn_nil]; rfl
  refine ⟨by rw [hnil]; rfl, by simp [hnil], by simp [hnil], ?_⟩
  rw [hnil]
  exact List.mem_singleton_self _

theorem Reached.entry {ino blk : ℕ} {dir path : Bytes} {x : ℕ × DirRecord} (h : Reached fs ino dir)
    (hblk : blk ∈ directoryBlocks fs maxExtentsPerFile ino)
    (hx : x ∈ blockRecords fs blk fs.blockSize 0)
    (hpath : (recordPath image dir blk x.1 x.2).run = .ok (some path)) :
    (components path).flatMap (slash :: ·) = path ∧ (∀ name ∈ components path, ProperName name) ∧
      (components path).length = (components dir).length + 1 ∧ path.length < maxPathLen ∧
      x.2.ino ∈ resolve fs extRootInode (components path) := by
  obtain ⟨name, hname, hproper, rfl, hlen⟩ := recordPath_eq hpath
  rw [components_append dir hproper.no_slash]
  refine ⟨?_, ?_, by simp, hlen, resolve_append h.target (mem_lookupName hblk hx hname)⟩
  · rw [List.flatMap_append, h.path_eq]
    simp
  · intro n hn
    rcases List.mem_append.mp hn with hn | hn
    · exact h.proper n hn
    · rw [List.mem_singleton.mp hn]
      exact hproper

theorem pathDepth_eq {path : Bytes} (h : (components path).flatMap (slash :: ·) = path)
    (hproper : ∀ name ∈ components path, ProperName name) :
    pathDepth path = (components path).length := by
  have hcount : ∀ names : List Bytes, (∀ name ∈ names, ProperName name) →
      (names.flatMap (slash :: ·)).count slash = names.length := by
    intro names hnames
    induction names with
    | nil => rfl
    | cons name rest ih =>
      obtain ⟨hname, hrest⟩ := List.forall_mem_cons.mp hnames
      rw [List.flatMap_cons, List.count_append, List.count_cons_self,
        List.count_eq_zero_of_not_mem hname.no_slash, ih hrest, List.length_cons]
      omega
  rw [pathDepth, ← hcount _ hproper, h]

/-- What the walk has on its stack was reached, and what it has reported can be looked up. -/
structure OnTrack (fs : Extfs image) (w : Walk σ) : Prop where
  reached : ∀ d ∈ w.stack, Reached fs d.1 d.2
  resolves : ∀ e ∈ w.events, Resolves fs e.report

theorem OnTrack.visits {ino blk : ℕ} {dir : Bytes} {x : ℕ × DirRecord} {w w' : Walk σ}
    (h : OnTrack fs w) (hdir : Reached fs ino dir)
    (hblk : blk ∈ directoryBlocks fs maxExtentsPerFile ino)
    (hx : x ∈ blockRecords fs blk fs.blockSize 0) (hv : Visits fs mem cb dir blk x.1 x.2 w w') :
    OnTrack fs w' := by
  cases hv with
  | skip | seen => exact ⟨h.reached, h.resolves⟩
  | @push y hevents hnew hle =>
    refine ⟨List.forall_mem_cons.mpr ⟨?_, h.reached⟩, h.resolves⟩
    obtain ⟨-, hdepth, -, hino, hpath⟩ := recordEvents_child (hevents ▸ List.mem_singleton_self _)
    obtain ⟨heq, hproper, -, -, htarget⟩ := hdir.entry hblk hx hpath
    rw [pathDepth_eq heq hproper] at hdepth
    exact ⟨heq, hproper, hdepth, hino ▸ htarget⟩
  | @report rep hevents hinside =>
    refine ⟨h.reached, ?_⟩
    intro e he
    rcases List.mem_append.mp he with he | he
    · exact h.resolves e he
    · rw [List.mem_singleton.mp he]
      obtain ⟨hpath, hino, hregular⟩ := recordEvents_report_eq hevents
      obtain ⟨heq, hproper, hlen, hlt, htarget⟩ := hdir.entry hblk hx hpath
      exact ⟨heq, hproper, hlen.trans_le (Nat.succ_le_succ hdir.depth_le), hlt, hino ▸ htarget,
        hino ▸ hregular⟩

/-- On any image, however damaged, and however memory and the callback behave: a path that is
reported consists of proper names, is within the limits, and leads from the root to the regular
file it is reported for, each name being an entry of the directory before it. No path leaves the
tree by `..`, and none is made up. -/
theorem extfsWalk_resolves {image : Bytes} (hsize : image.length ≤ int64Max) (fs : Extfs image)
    (_ : extfsOpen image = .ok fs) {σ : Type} (mem : Memory) (cb : FileCb σ) (user : σ) :
    Ends (extfsWalk fs mem cb user) (fun _ w => ∀ e ∈ w.events, Resolves fs e.report)
      (fun _ w => ∀ e ∈ w.events, Resolves fs e.report) := by
  refine Ends.imp (extfsWalk_directory_rule hsize (I := OnTrack fs) (D := Reached fs) user ?_ ?_ ?_ ?_ ?_ ?_)
    fun _ w h => h.resolves
  · exact ⟨fun d hd => by rw [List.mem_singleton.mp hd]; exact reached_root fs, by simp [rootWalk]⟩
  · intro w ino path rest h hs
    obtain ⟨hfirst, hrest⟩ := List.forall_mem_cons.mp (hs ▸ h.reached)
    exact ⟨hfirst, hrest, h.resolves⟩
  · exact fun w h => ⟨h.reached, h.resolves⟩
  · intro ino dir blk x w w' hdir hblk hx h hv
    exact h.visits hdir hblk hx hv
  · rintro w e w' h ⟨-, -, visited, rfl⟩
    exact h.resolves
  · intro e w hw
    simp [hw]

/-- Two files in the root and one a directory further down. -/
theorem extfsWalk_resolves_sampleImage :
    ∃ fs w, extfsOpen sampleImage = .ok fs ∧
      extfsWalk fs .ample (fun (n : ℕ) _ => (n + 1, false)) 0 = .ok () w ∧
      w.events.map (fun e => components e.report.path) = [[[0x61]], [[0x62]], [[0x64], [0x63]]] ∧
      ∀ e ∈ w.events, e.report.inodeNo ∈ resolve fs extRootInode (components e.report.path) := by
  obtain ⟨fs, hopen⟩ := exists_open_sampleImage
  have heval := of_sampleImage hopen
    (fun fs => (stateOf (extfsWalk fs .ample (fun (n : ℕ) _ => (n + 1, false)) 0)).map
      (fun w => w.events.map fun e => components e.report.path) =
        some [[[0x61]], [[0x62]], [[0x64], [0x63]]]) (by decide +kernel)
  rw [decide_eq_true_iff] at heval
  obtain ⟨w, hw, hevents⟩ := Option.map_eq_some_iff.mp heval
  have hrun := eq_ok_of_stateOf hw
  have hall := (extfsWalk_resolves (by decide +kernel) fs hopen .ample
    (fun (n : ℕ) _ => (n + 1, false)) 0).of_ok hrun
  exact ⟨fs, w, hopen, hrun, hevents, fun e he => (hall e he).target⟩

end Walk

end Fsdiff.ExtFs
