import Fsdiff.Fs.Walk

/-! A nonzero answer of the callback ends the walk at the end of the directory block, not at
once: the loop over the records of a block does not look at `stopped`. The callback is called
again exactly when more records of that block are reported. -/
namespace Fsdiff.ExtFs
open ByteString Exec

/-! ### Memory -/

section Memory
variable {image : Bytes} (fs : Extfs image) (room : ℕ)

theorem extentAppend_ample {list list' : List Extent} {e : Extent}
    (h : extentAppend room list e = some list') :
    extentAppend maxExtentsPerFile list e = some list' := by
  have hgrow : (if maxExtentsPerFile ≤ list.length ∨ room ≤ list.length then none
      else some (list ++ [e])) = some list' →
      (if maxExtentsPerFile ≤ list.length ∨ maxExtentsPerFile ≤ list.length then none
        else some (list ++ [e])) = some list' := by
    intro hg
    by_cases hfull : maxExtentsPerFile ≤ list.length
    · rw [if_pos (.inl hfull)] at hg
      cases hg
    · rw [if_neg (by simp [hfull])]
      split_ifs at hg
      exact hg
  unfold extentAppend at h ⊢
  dsimp only at h ⊢
  by_cases h0 : e.count = 0
  · rw [if_pos h0] at h ⊢
    exact h
  rw [if_neg h0] at h ⊢
  cases hlast : list.getLast? with
  | none =>
    simp only [hlast] at h ⊢
    exact hgrow h
  | some last =>
    simp only [hlast] at h ⊢
    by_cases hadj : last.logical + last.count = e.logical ∧ last.physical + last.count = e.physical
    · rw [if_pos hadj] at h ⊢
      exact h
    · rw [if_neg hadj] at h ⊢
      exact hgrow h

theorem append_within (list : List Extent) (e : Extent) :
    Within (OptionT.mk (pure (extentAppend room list e)) : ReadM _)
      (OptionT.mk (pure (extentAppend maxExtentsPerFile list e))) := by
  intro out h
  exact congrArg Except.ok (extentAppend_ample room (Except.ok.inj h))

theorem leafExtent_within (entry : ℕ) (out : List Extent) :
    Within (leafExtent fs room entry out) (leafExtent fs maxExtentsPerFile entry out) := by
  unfold leafExtent
  refine (Within.refl _).bind fun len => .ite (.refl _) ?_
  refine (Within.refl _).bind fun lo => (Within.refl _).bind fun hi => .ite (.refl _) ?_
  exact (Within.refl _).bind fun logical => append_within room _ _

theorem extentsFromNode_within (fuel node space : ℕ) (expectDepth : Option ℕ) (out : List Extent) :
    Within (extentsFromNode fs room fuel node space expectDepth out)
      (extentsFromNode fs maxExtentsPerFile fuel node space expectDepth out) := by
  induction fuel generalizing node space expectDepth out with
  | zero => exact .refl _
  | succ fuel ih =>
    unfold extentsFromNode
    refine .ite (.refl _) ((Within.refl _).bind fun magic => .ite (.refl _) ?_)
    refine (Within.refl _).bind fun entries => (Within.refl _).bind fun depth => .ite (.refl _) ?_
    refine .ite (.refl _) (.iterM (fun i out => .ite (leafExtent_within fs room _ _) ?_) _ _ _)
    refine (Within.refl _).bind fun lo => (Within.refl _).bind fun hi => ?_
    cases fsBlock fs (lo ||| hi <<< 32) with
    | none => exact .refl _
    | some cb => exact ih _ _ _ _

theorem blockmapIndirect_within (remaining level mapBlock : ℕ) (st : MapState) :
    Within (blockmapIndirect fs room remaining level mapBlock st)
      (blockmapIndirect fs maxExtentsPerFile remaining level mapBlock st) := by
  induction level generalizing mapBlock st with
  | zero =>
    unfold blockmapIndirect
    refine .ite (.refl _) (.ite (.refl _) (.ite (.refl _) ?_))
    exact (append_within room _ _).bind fun out => .refl _
  | succ level ih =>
    unfold blockmapIndirect
    refine .ite (.refl _) (.ite (.refl _) ?_)
    cases fsBlock fs mapBlock with
    | none => exact .refl _
    | some blk =>
      refine .iterM (fun i st => .ite ?_ (.refl _)) _ _ _
      exact (Within.refl _).bind fun entry => ih entry st

theorem inodeExtents_within (ino : ℕ) :
    Within (inodeExtents fs room ino) (inodeExtents fs maxExtentsPerFile ino) := by
  have hentry : ∀ iblock fileBlocks level i (st : MapState),
      Within (if st.logical < fileBlocks then do
          let mapBlock ← rd32 image (iblock + i * 4)
          blockmapIndirect fs room fileBlocks level mapBlock st
        else pure st)
        (if st.logical < fileBlocks then do
          let mapBlock ← rd32 image (iblock + i * 4)
          blockmapIndirect fs maxExtentsPerFile fileBlocks level mapBlock st
        else pure st) := by
    intro iblock fileBlocks level i st
    exact .ite ((Within.refl _).bind fun mapBlock => blockmapIndirect_within fs room _ _ _ _) (.refl _)
  unfold inodeExtents
  refine (Within.refl _).bind fun flags => .ite (.refl _) (.ite ?_ ?_)
  · exact extentsFromNode_within fs room _ _ _ _ _
  · refine (Within.refl _).bind fun size => ?_
    unfold blockmapCollect
    refine .ite (.refl _) ?_
    refine (Within.iterM (fun i st => hentry _ _ 0 i st) _ _ _).bind fun st => ?_
    exact (Within.iterM (fun level st => hentry _ _ level (11 + level) st) _ _ _).bind
      fun st => .refl _

theorem regularFile_within (path : Bytes) (ino : ℕ) :
    Within (regularFile fs path ino room) (regularFile fs path ino maxExtentsPerFile) := by
  unfold regularFile
  refine (Within.refl _).bind fun fi => (Within.refl _).bind fun fmt => .ite (.refl _) ?_
  exact (inodeExtents_within fs room fi).bind fun extents => .refl _

/-- More memory does not take a report away. -/
theorem recordEvents_ample {dir : Bytes} {blk pos : ℕ} {r : DirRecord} {report : Report}
    (h : recordEvents fs room dir blk pos r = [.inl report]) :
    recordEvents fs maxExtentsPerFile dir blk pos r = [.inl report] := by
  unfold recordEvents at h ⊢
  split at h
  · next path hpath =>
    by_cases hdir : r.ftype = deFtDirectory
    · rw [if_pos hdir] at h
      split_ifs at h
      cases h
    rw [if_neg hdir] at h ⊢
    by_cases hreg : r.ftype = deFtRegular
    · rw [if_pos hreg] at h ⊢
      split at h
      · next rep hrun =>
        rw [regularFile_within fs room path r.ino rep hrun]
        exact h
      · cases h
    · rw [if_neg hreg] at h
      cases h
  · cases h

end Memory

/-! ### Calls after a stop -/

section Stopping
variable {image : Bytes} {σ : Type} (fs : Extfs image)

/-- What a record reports when memory does not run out. -/
def recordReports (dir : Bytes) (blk : ℕ) (x : ℕ × DirRecord) : List Report :=
  (recordEvents fs maxExtentsPerFile dir blk x.1 x.2).filterMap Sum.getLeft?

/-- The reports of the records behind the one of `e` in its block. -/
def laterReports (e : Event) : List Report :=
  ((blockRecords fs e.blk fs.blockSize 0).filter fun x => e.pos < x.1).flatMap
    (recordReports fs e.dir e.blk)

/-- The callback is asked to stop only at the last report of a block. -/
def StopsAtBlockEnd (w : Walk σ) : Prop := ∀ e ∈ w.events, e.stop = true → laterReports fs e = []

/-- A call that is answered with a nonzero value is the last one. -/
def StopsAtOnce (w : Walk σ) : Prop :=
  ∀ i e, w.events[i]? = some e → e.stop = true → i + 1 = w.events.length

/-- Between two blocks: what has been answered, and how many reports have followed each call. -/
structure Settled (ample : Prop) (w : Walk σ) : Prop where
  running : w.stopped = false → ∀ e ∈ w.events, e.stop = false
  at_once : StopsAtBlockEnd fs w → StopsAtOnce w
  later_le : ample → ∀ i e, w.events[i]? = some e →
    i + 1 + (laterReports fs e).length ≤ w.events.length

/-- Inside a block whose records `l` are left. -/
structure Settling (ample : Prop) (dir : Bytes) (blk : ℕ) (l : List (ℕ × DirRecord)) (w : Walk σ) :
    Prop where
  visited_length : w.visited.length = fs.inodesCount / 8 + 1
  rest : ∃ front, blockRecords fs blk fs.blockSize 0 = front ++ l
  running : w.stopped = false → ∀ e ∈ w.events, e.stop = false
  at_once : StopsAtBlockEnd fs w → StopsAtOnce w ∧ ∀ e ∈ w.events, e.stop = true →
    e.dir = dir ∧ e.blk = blk ∧ ∀ x ∈ l, e.pos < x.1
  later_le : ample → ∀ i e, w.events[i]? = some e →
    i + 1 + (laterReports fs e).length ≤
      w.events.length + (l.flatMap (recordReports fs dir blk)).length

variable {fs} {mem : Memory} {cb : FileCb σ} {dir : Bytes} {blk : ℕ} {w : Walk σ}

theorem blockRecords_sorted (hsize : image.length ≤ int64Max)
    (hblk : blk + fs.blockSize ≤ image.length) (fuel pos : ℕ) :
    (blockRecords fs blk fuel pos).Pairwise fun x y => x.1 < y.1 := by
  induction fuel generalizing pos with
  | zero => exact List.Pairwise.nil
  | succ fuel ih =>
    unfold blockRecords
    split_ifs with hpos
    · obtain ⟨o, hrun, hrec⟩ := readRecord_safe fs hsize hblk hpos
      rw [hrun]
      cases o with
      | none => exact List.Pairwise.nil
      | some r =>
        refine List.Pairwise.cons ?_ (ih _)
        intro y hy
        have hle := (mem_blockRecords hsize hblk hy).1
        have hlen := (hrec r rfl).1
        unfold deNameOff at hlen
        change pos < y.1
        omega
    · exact List.Pairwise.nil

theorem filter_behind {front l : List (ℕ × DirRecord)} {x : ℕ × DirRecord}
    (h : (front ++ x :: l).Pairwise fun x y => x.1 < y.1) :
    (front ++ x :: l).filter (fun y => x.1 < y.1) = l := by
  obtain ⟨-, htail, hcross⟩ := List.pairwise_append.mp h
  obtain ⟨hbehind, -⟩ := List.pairwise_cons.mp htail
  rw [List.filter_append, List.filter_eq_nil_iff.mpr, List.filter_cons_of_neg (by simp),
    List.filter_eq_self.mpr, List.nil_append]
  · intro y hy
    exact decide_eq_true (hbehind y hy)
  · intro y hy
    have := hcross y hy x List.mem_cons_self
    simp only [decide_eq_true_eq]
    omega

/-- A record that is not reported leaves the calls as they are. -/
theorem Settling.skip {ample : Prop} {x : ℕ × DirRecord} {l : List (ℕ × DirRecord)} {w' : Walk σ}
    (h : Settling fs ample dir blk (x :: l) w)
    (hlen : w'.visited.length = fs.inodesCount / 8 + 1) (hevents : w'.events = w.events)
    (hstopped : w'.stopped = w.stopped) (hnone : ample → recordReports fs dir blk x = []) :
    Settling fs ample dir blk l w' := by
  obtain ⟨front, hfront⟩ := h.rest
  refine ⟨hlen, ⟨front ++ [x], by rw [hfront, List.append_assoc, List.singleton_append]⟩, ?_, ?_, ?_⟩
  · rw [hstopped, hevents]
    exact h.running
  · intro hcond
    unfold StopsAtBlockEnd at hcond
    unfold StopsAtOnce
    rw [hevents] at hcond ⊢
    obtain ⟨honce, hhere⟩ := h.at_once hcond
    refine ⟨honce, ?_⟩
    intro e he hstop
    obtain ⟨hdir, hblk, hpos⟩ := hhere e he hstop
    exact ⟨hdir, hblk, fun y hy => hpos y (List.mem_cons_of_mem _ hy)⟩
  · intro ha i e he
    rw [hevents] at he ⊢
    have hle := h.later_le ha i e he
    rw [List.flatMap_cons, hnone ha, List.nil_append] at hle
    exact hle

theorem Settling.report {ample : Prop} (hsize : image.length ≤ int64Max)
    (hblk : blk + fs.blockSize ≤ image.length) {x : ℕ × DirRecord} {l : List (ℕ × DirRecord)}
    {report : Report} {stop : Bool} {w' : Walk σ} (h : Settling fs ample dir blk (x :: l) w)
    (hrep : recordReports fs dir blk x = [report])
    (hlen : w'.visited.length = fs.inodesCount / 8 + 1)
    (hevents : w'.events = w.events ++ [⟨report, dir, blk, x.1, stop⟩])
    (hstopped : w'.stopped = (w.stopped || stop)) : Settling fs ample dir blk l w' := by
  obtain ⟨front, hfront⟩ := h.rest
  have hsorted := blockRecords_sorted hsize hblk fs.blockSize 0
  rw [hfront] at hsorted
  obtain ⟨-, htail, -⟩ := List.pairwise_append.mp hsorted
  obtain ⟨hbehind, -⟩ := List.pairwise_cons.mp htail
  refine ⟨hlen, ⟨front ++ [x], by rw [hfront, List.append_assoc, List.singleton_append]⟩, ?_, ?_, ?_⟩
  · intro hrun e he
    rw [hstopped, Bool.or_eq_false_iff] at hrun
    rw [hevents] at he
    rcases List.mem_append.mp he with he | he
    · exact h.running hrun.1 e he
    · rw [List.mem_singleton.mp he]
      exact hrun.2
  · intro hcond
    have hold : StopsAtBlockEnd fs w := by
      intro e he
      exact hcond e (by rw [hevents]; exact List.mem_append_left _ he)
    obtain ⟨-, hhere⟩ := h.at_once hold
    -- a stop earlier in this block would have this report behind it
    have hnone : ∀ e ∈ w.events, e.stop = false := by
      intro e he
      by_contra hstop
      rw [Bool.not_eq_false] at hstop
      obtain ⟨hdir, hblk', hpos⟩ := hhere e he hstop
      have hmem : report ∈ laterReports fs e := by
        unfold laterReports
        rw [hdir, hblk', hfront]
        refine List.mem_flatMap.mpr ⟨x, List.mem_filter.mpr ⟨by simp, ?_⟩, by simp [hrep]⟩
        exact decide_eq_true (hpos x List.mem_cons_self)
      rw [hold e he hstop] at hmem
      cases hmem
    constructor
    · intro i e he hstop
      rw [hevents] at he ⊢
      rw [List.getElem?_append] at he
      split_ifs at he with hi
      · rw [hnone e (List.mem_of_getElem? he)] at hstop
        cases hstop
      · obtain ⟨hlt, -⟩ := List.getElem?_eq_some_iff.mp he
        rw [List.length_singleton] at hlt
        rw [List.length_append, List.length_singleton]
        omega
    · intro e he hstop
      rw [hevents] at he
      rcases List.mem_append.mp he with he | he
      · rw [hnone e he] at hstop
        cases hstop
      · rw [List.mem_singleton.mp he]
        exact ⟨rfl, rfl, fun y hy => hbehind y hy⟩
  · intro ha i e he
    rw [hevents] at he ⊢
    rw [List.length_append, List.length_singleton]
    rw [List.getElem?_append] at he
    split_ifs at he with hi
    · have hle := h.later_le ha i e he
      rw [List.flatMap_cons, hrep, List.singleton_append, List.length_cons] at hle
      omega
    · obtain ⟨hlt, heq⟩ := List.getElem?_eq_some_iff.mp he
      rw [List.length_singleton] at hlt
      have hlater : laterReports fs e = l.flatMap (recordReports fs dir blk) := by
        rw [List.getElem_singleton] at heq
        rw [← heq, laterReports]
        dsimp only
        rw [hfront, filter_behind hsorted]
      rw [hlater]
      omega

theorem Settling.visits {ample : Prop} (hsize : image.length ≤ int64Max)
    (hblk : blk + fs.blockSize ≤ image.length)
    (hample : ample → ∀ n, mem.room n = maxExtentsPerFile) {x : ℕ × DirRecord}
    {l : List (ℕ × DirRecord)} {w' : Walk σ} (h : Settling fs ample dir blk (x :: l) w)
    (hv : Visits fs mem cb dir blk x.1 x.2 w w') : Settling fs ample dir blk l w' := by
  have hlen := hv.visited_length.trans h.visited_length
  have hreports : ∀ evs, recordEvents fs (mem.room w.collections) dir blk x.1 x.2 = evs → ample →
      recordReports fs dir blk x = evs.filterMap Sum.getLeft? := by
    intro evs hev ha
    rw [recordReports, ← hev, hample ha]
  cases hv with
  | skip n hev => exact h.skip hlen rfl rfl (hreports _ hev)
  | seen hev _ => exact h.skip hlen rfl rfl (hreports _ hev)
  | push hev _ _ => exact h.skip hlen rfl rfl (hreports _ hev)
  | report hev _ =>
    refine h.report hsize hblk ?_ hlen rfl rfl
    rw [recordReports, recordEvents_ample fs _ hev]
    rfl

/-- One block: it is scanned only while no call was answered with a stop. -/
theorem visitRecords_settled {ample : Prop} (hsize : image.length ≤ int64Max)
    (hblk : blk + fs.blockSize ≤ image.length)
    (hample : ample → ∀ n, mem.room n = maxExtentsPerFile)
    (hlen : w.visited.length = fs.inodesCount / 8 + 1) (hrun : w.stopped = false)
    (h : Settled fs ample w) :
    Ends (visitRecords fs mem cb dir blk (blockRecords fs blk fs.blockSize 0) w)
      (fun _ w' => w'.visited.length = fs.inodesCount / 8 + 1 ∧ Settled fs ample w')
      (fun _ w' => StopsAtBlockEnd fs w' → StopsAtOnce w') := by
  have hopen : Settling fs ample dir blk (blockRecords fs blk fs.blockSize 0) w := by
    refine ⟨hlen, ⟨[], rfl⟩, h.running, ?_, ?_⟩
    · intro hcond
      refine ⟨h.at_once hcond, ?_⟩
      intro e he hstop
      rw [h.running hrun e he] at hstop
      cases hstop
    · intro ha i e he
      exact (h.later_le ha i e he).trans (Nat.le_add_right _ _)
  refine (visitRecords_rule hsize hblk (I := fun l w => Settling fs ample dir blk l w) _
    (fun x hx => (mem_blockRecords hsize hblk hx).2) (fun _ w h => h.visited_length)
    (fun x l w w' h hv => h.visits hsize hblk hample hv) ?_ hopen).imp ?_
  · rintro l w e w' h ⟨-, -, visited, rfl⟩ hcond
    exact (h.at_once hcond).1
  · intro _ w' h'
    exact ⟨h'.visited_length, h'.running, fun hcond => (h'.at_once hcond).1, h'.later_le⟩

theorem expandDirectory_settled {ample : Prop} (hsize : image.length ≤ int64Max)
    (hample : ample → ∀ n, mem.room n = maxExtentsPerFile) {ino : ℕ} {path : Bytes}
    (hlen : w.visited.length = fs.inodesCount / 8 + 1) (h : Settled fs ample w) :
    Ends (expandDirectory fs mem cb ino path w) (fun _ w' => Settled fs ample w')
      (fun _ w' => StopsAtBlockEnd fs w' → StopsAtOnce w') := by
  rw [expandDirectory_eq hsize]
  have hstart : w.visited.length = fs.inodesCount / 8 + 1 ∧
      Settled fs ample { w with collections := w.collections + 1 } :=
    ⟨hlen, h.running, h.at_once, h.later_le⟩
  refine (visitBlocks_rule
    (I := fun _ w => w.visited.length = fs.inodesCount / 8 + 1 ∧ Settled fs ample w) _
    (fun blk hblk => mem_directoryBlocks hsize hblk) ?_ hstart).imp ?_
  · rintro blk l w ⟨hlen, h⟩ hrun hblk
    exact visitRecords_settled hsize hblk hample hlen hrun h
  · rintro _ w' ⟨_, ⟨-, h'⟩, -⟩
    exact h'

variable (fs mem cb) in
/-- What holds at every end of the walk. -/
theorem extfsWalk_settled (ample : Prop) (hsize : image.length ≤ int64Max)
    (hample : ample → ∀ n, mem.room n = maxExtentsPerFile) (user : σ) :
    Ends (extfsWalk fs mem cb user) (fun _ w => Settled fs ample w)
      (fun _ w => StopsAtBlockEnd fs w → StopsAtOnce w) := by
  obtain hrun | ⟨-, w, hrun, hw⟩ := extfsWalk_cases fs mem cb user
  swap
  · rw [hrun]
    intro _ i e he
    rw [hw] at he
    cases he
  rw [hrun]
  have hstart : Settled fs ample (rootWalk fs user) := by
    refine ⟨fun _ e he => ?_, fun _ i e he => ?_, fun _ i e he => ?_⟩ <;> cases he
  refine (walkLoop_rule (I := fun n w => Sound fs n w ∧ Settled fs ample w)
    (fun w h => h.1.stack_nil) ?_ (fs.inodesCount + 2) ⟨rootWalk_sound user, hstart⟩).imp ?_
  · rintro n w ino path rest ⟨hsound, h⟩ hs _
    have hpop := hsound.popped hs
    refine ((expandDirectory_sound hsize hpop).and (expandDirectory_settled hsize hample
      hpop.visited_length ⟨h.running, h.at_once, h.later_le⟩)).weaken ?_
    intro _ w' hf
    exact hf.2
  · rintro _ w ⟨⟨n, -, h⟩, -⟩
    exact h

end Stopping

/-- In every walk that asks to stop only where no more records of the block are reported, the
callback is not called again after it asked; and where memory does not run out, only then. -/
theorem extfsWalk_stops_iff {image : Bytes} (hsize : image.length ≤ int64Max) (fs : Extfs image)
    (_ : extfsOpen image = .ok fs) {σ : Type} (mem : Memory) (cb : FileCb σ) (user : σ) :
    Ends (extfsWalk fs mem cb user)
      (fun _ w => (StopsAtBlockEnd fs w → StopsAtOnce w) ∧
        (mem = .ample → (StopsAtOnce w ↔ StopsAtBlockEnd fs w)))
      (fun _ w => StopsAtBlockEnd fs w → StopsAtOnce w) := by
  have hsettled := extfsWalk_settled fs mem cb (mem = .ample) hsize
    (fun ha n => by rw [ha]; rfl) user
  refine hsettled.imp ?_
  intro _ w h
  refine ⟨h.at_once, ?_⟩
  intro ha
  refine ⟨?_, h.at_once⟩
  intro honce e he hstop
  obtain ⟨i, hi⟩ := List.mem_iff_getElem?.mp he
  have hlast := honce i e hi hstop
  have hle := h.later_le ha i e hi
  exact List.length_eq_zero_iff.mp (by omega)

/-- A callback that stops at its third call: the small filesystem has its reports in two
blocks, and the third is alone in its block. -/
theorem extfsWalk_stops_sampleImage :
    ∃ fs w, extfsOpen sampleImage = .ok fs ∧
      extfsWalk fs .ample (fun (n : ℕ) _ => (n + 1, n == 2)) 0 = .ok () w ∧
      w.events.map (fun e => (e.report.path, e.stop)) =
        [([slash, 0x61], false), ([slash, 0x62], false), ([slash, 0x64, slash, 0x63], true)] ∧
      StopsAtOnce w ∧ StopsAtBlockEnd fs w := by
  obtain ⟨fs, hopen⟩ := exists_open_sampleImage
  have heval := of_sampleImage hopen
    (fun fs => (stateOf (extfsWalk fs .ample (fun (n : ℕ) _ => (n + 1, n == 2)) 0)).map
      (fun w => w.events.map fun e => (e.report.path, e.stop)) =
        some [([slash, 0x61], false), ([slash, 0x62], false), ([slash, 0x64, slash, 0x63], true)])
    (by decide +kernel)
  rw [decide_eq_true_iff] at heval
  obtain ⟨w, hw, hevents⟩ := Option.map_eq_some_iff.mp heval
  have hrun := eq_ok_of_stateOf hw
  have hstops := (extfsWalk_stops_iff (by decide +kernel) fs hopen .ample
    (fun (n : ℕ) _ => (n + 1, n == 2)) 0).of_ok hrun
  have honce : StopsAtOnce w := by
    intro i e hi hstop
    have hlen := congrArg List.length hevents
    have hget : (w.events.map fun e => (e.report.path, e.stop))[i]? = some (e.report.path, e.stop) := by
      rw [List.getElem?_map, hi]
      rfl
    rw [hevents, hstop] at hget
    rw [List.length_map] at hlen
    rcases i with _ | _ | _ | i
    · simp at hget
    · simp at hget
    · exact hlen.symm
    · cases hget
  exact ⟨fs, w, hopen, hrun, hevents, honce, (hstops.2 rfl).mp honce⟩

/-- A callback that answers nonzero at once is called for `/a` and again for `/b`. -/
theorem extfsWalk_called_after_stop :
    ∃ fs w, extfsOpen sampleImage = .ok fs ∧
      extfsWalk fs .ample (fun (_ : Unit) _ => ((), true)) () = .ok () w ∧
      w.events.map (fun e => (e.report.path, e.stop)) =
        [([slash, 0x61], true), ([slash, 0x62], true)] ∧ ¬ StopsAtOnce w := by
  obtain ⟨fs, hopen⟩ := exists_open_sampleImage
  have heval := of_sampleImage hopen
    (fun fs => (stateOf (extfsWalk fs .ample (fun (_ : Unit) _ => ((), true)) ())).map
      (fun w => w.events.map fun e => (e.report.path, e.stop)) =
        some [([slash, 0x61], true), ([slash, 0x62], true)]) (by decide +kernel)
  rw [decide_eq_true_iff] at heval
  obtain ⟨w, hw, hevents⟩ := Option.map_eq_some_iff.mp heval
  refine ⟨fs, w, hopen, eq_ok_of_stateOf hw, hevents, ?_⟩
  intro honce
  cases hw0 : w.events with
  | nil =>
    rw [hw0] at hevents
    cases hevents
  | cons e rest =>
    rw [hw0, List.map_cons, List.cons.injEq] at hevents
    have hlast := honce 0 e (by rw [hw0]; rfl) (congrArg Prod.snd hevents.1)
    have hlen := congrArg List.length hevents.2
    rw [List.length_map] at hlen
    rw [hw0, List.length_cons, hlen] at hlast
    cases hlast

end Fsdiff.ExtFs
