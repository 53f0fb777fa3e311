import Fsdiff.Data.Worklist
import Fsdiff.Fs.ReadSafety
import Mathlib.Data.Finset.Range

/-! The walk as a traversal with a stack: each directory record yields at most one event, a
report or a directory to visit, and the state after it follows from that event. -/
namespace Fsdiff.ExtFs
open ByteString Exec

/-! ### Events of a record -/

section Events
variable {image : Bytes} (fs : Extfs image) (room : ℕ)

/-- What a record of the directory `dir` leads to: a report, or a directory to visit. -/
def recordEvents (dir : Bytes) (blk pos : ℕ) (r : DirRecord) : List (Report ⊕ (ℕ × Bytes)) :=
  match (recordPath image dir blk pos r).run with
  | .ok (some path) =>
    if r.ftype = deFtDirectory then
      if r.ino ≤ fs.inodesCount ∧ pathDepth path ≤ maxDirDepth then [.inr (r.ino, path)] else []
    else if r.ftype = deFtRegular then
      match (regularFile fs path r.ino room).run with
      | .ok (some report) => [.inl report]
      | _ => []
    else []
  | _ => []

variable {fs room} in
theorem recordEvents_child {dir : Bytes} {blk pos : ℕ} {r : DirRecord} {y : ℕ × Bytes}
    (h : .inr y ∈ recordEvents fs room dir blk pos r) :
    y.1 ≤ fs.inodesCount ∧ pathDepth y.2 ≤ maxDirDepth ∧ r.ftype = deFtDirectory ∧ y.1 = r.ino ∧
      (recordPath image dir blk pos r).run = .ok (some y.2) := by
  unfold recordEvents at h
  split at h
  · next path hpath =>
    split_ifs at h with hdir hok
    · rw [List.mem_singleton] at h
      cases h
      exact ⟨hok.1, hok.2, hdir, rfl, hpath⟩
    · cases h
    · split at h
      · rw [List.mem_singleton] at h
        cases h
      · cases h
    · cases h
  · cases h

variable {fs room} in
theorem recordEvents_report {dir : Bytes} {blk pos : ℕ} {r : DirRecord} {report : Report}
    (h : recordEvents fs room dir blk pos r = [.inl report]) :
    ∃ path, (regularFile fs path r.ino room).run = .ok (some report) := by
  unfold recordEvents at h
  split at h
  · next path _ =>
    split_ifs at h
    · cases h
    · split at h
      · next report' hrun =>
        cases h
        exact ⟨path, hrun⟩
      · cases h
  · cases h

/-- The records of a block with their positions, up to the first one that is malformed. -/
def blockRecords (blk : ℕ) : ℕ → ℕ → List (ℕ × DirRecord)
  | 0, _ => []
  | fuel + 1, pos =>
    if pos + deNameOff ≤ fs.blockSize then
      match (readRecord fs blk pos).run with
      | .ok (some r) => (pos, r) :: blockRecords blk fuel (pos + r.recLen)
      | _ => []
    else []

def extentBlocks (exts : List Extent) : List ℕ :=
  exts.flatMap fun e => (List.range' e.physical e.count).filterMap (fsBlock fs)

def directoryBlocks (ino : ℕ) : List ℕ :=
  match (directoryExtents fs ino room).run with
  | .ok (some exts) => extentBlocks fs exts
  | _ => []

end Events

section Walk
variable {image : Bytes} {σ : Type} (fs : Extfs image) (mem : Memory) (cb : FileCb σ)

/-- The loop over the records of a block, the records being known. -/
def visitRecords (dir : Bytes) (blk : ℕ) : List (ℕ × DirRecord) → WalkM σ Unit
  | [] => pure ()
  | (pos, r) :: l => do
    visitRecord fs mem cb dir blk pos r
    visitRecords dir blk l

/-- The loops over the blocks of a directory, the blocks being known. -/
def visitBlocks (dir : Bytes) : List ℕ → WalkM σ Unit
  | [] => pure ()
  | blk :: l => do
    let w ← get
    if w.stopped then pure ()
    else do
      visitRecords fs mem cb dir blk (blockRecords fs blk fs.blockSize 0)
      visitBlocks dir l

def Walk.state (w : Walk σ) : Worklist.State (ℕ × Bytes) ℕ Report :=
  ⟨Bitmap.testBits w.visited, w.stack, w.events.map Event.report, w.expanded⟩

/-- Everything that one record can do to a walk. -/
inductive Visits (dir : Bytes) (blk pos : ℕ) (r : DirRecord) (w : Walk σ) : Walk σ → Prop
  | skip (n : ℕ) (h : recordEvents fs (mem.room w.collections) dir blk pos r = []) :
      Visits dir blk pos r w { w with collections := n }
  | seen {y : ℕ × Bytes} (h : recordEvents fs (mem.room w.collections) dir blk pos r = [.inr y])
      (hseen : Bitmap.testBits w.visited y.1 = true) : Visits dir blk pos r w w
  | push {y : ℕ × Bytes} (h : recordEvents fs (mem.room w.collections) dir blk pos r = [.inr y])
      (hnew : Bitmap.testBits w.visited y.1 = false) (hle : y.1 ≤ fs.inodesCount) :
      Visits dir blk pos r w
        { w with
          visited := Bitmap.setBits w.visited y.1
          stack := y :: w.stack
          pushes := w.pushes + 1 }
  | report {report : Report}
      (h : recordEvents fs (mem.room w.collections) dir blk pos r = [.inl report])
      (hinside : ∀ x ∈ report.extents, x.Inside fs.blockCount) :
      Visits dir blk pos r w
        { w with
          collections := w.collections + 1
          user := (cb w.user report).1
          events := w.events ++ [⟨report, dir, blk, pos, (cb w.user report).2⟩]
          stopped := w.stopped || (cb w.user report).2 }

variable {fs mem cb} {w : Walk σ} {dir : Bytes} {blk pos : ℕ} {r : DirRecord}

theorem attempt_eq {α : Type} {x : ReadM α} {o : Option α} (h : x.run = .ok o) (w : Walk σ) :
    attempt x w = .ok o w := by
  unfold attempt
  rw [h]
  rfl

theorem collect_eq {α : Type} {x : ℕ → ReadM α} {o : Option α}
    (h : (x (mem.room w.collections)).run = .ok o) :
    collect mem x w = .ok o { w with collections := w.collections + 1 } := by
  unfold collect
  exact attempt_eq h _

theorem setVisited_eq {ino : ℕ} (w : Walk σ) (h : ino / 8 < w.visited.length) :
    setVisited ino w = .ok () { w with visited := Bitmap.setBits w.visited ino } := by
  have hrun : setVisited ino w = (if ino / 8 < w.visited.length then
      set { w with visited := Bitmap.setBits w.visited ino } else throw .outOfRange : WalkM σ Unit) w :=
    rfl
  rw [hrun, if_pos h]
  rfl

theorem testVisited_eq {ino : ℕ} (w : Walk σ) (h : ino / 8 < w.visited.length) :
    testVisited ino w = .ok (Bitmap.testBits w.visited ino) w := by
  have hrun : testVisited ino w = (if ino / 8 < w.visited.length then
      pure (Bitmap.testBits w.visited ino) else throw .outOfRange : WalkM σ Bool) w := rfl
  rw [hrun, if_pos h]
  rfl

theorem dirPush_eq (mem : Memory) (ino : ℕ) (path : Bytes) (w : Walk σ) :
    dirPush mem ino path w = if mem.push w.pushes then
      .ok () { w with stack := (ino, path) :: w.stack, pushes := w.pushes + 1 }
    else .error .outOfMemory w := by
  have hrun : dirPush mem ino path w = (if mem.push w.pushes then
      set { w with stack := (ino, path) :: w.stack, pushes := w.pushes + 1 }
    else throw .outOfMemory : WalkM σ Unit) w := rfl
  rw [hrun]
  split_ifs <;> rfl

variable (mem) in
/-- The walk gives up in `w`, for want of memory for a directory. -/
def PushFails (w : Walk σ) (e : Fault) (w' : Walk σ) : Prop :=
  e = .outOfMemory ∧ (∃ n, mem.push n = false) ∧ ∃ visited, w' = { w with visited := visited }

theorem visitDirectory_visits {path : Bytes} (hlen : w.visited.length = fs.inodesCount / 8 + 1)
    (hpath : (recordPath image dir blk pos r).run = .ok (some path))
    (hty : r.ftype = deFtDirectory) :
    Ends (visitDirectory fs mem r.ino path w) (fun _ w' => Visits fs mem cb dir blk pos r w w')
      (PushFails mem w) := by
  have hevents : recordEvents fs (mem.room w.collections) dir blk pos r =
      if r.ino ≤ fs.inodesCount ∧ pathDepth path ≤ maxDirDepth then [.inr (r.ino, path)] else [] := by
    simp only [recordEvents, hpath]
    rw [if_pos hty]
  unfold visitDirectory
  by_cases hle : r.ino ≤ fs.inodesCount
  swap
  · rw [if_neg hle]
    rw [if_neg (fun h => hle h.1)] at hevents
    exact .skip w.collections hevents
  rw [if_pos hle]
  have hword : r.ino / 8 < w.visited.length := by
    rw [hlen]
    omega
  rw [bind_of_ok (testVisited_eq w hword)]
  by_cases hdepth : pathDepth path ≤ maxDirDepth
  swap
  · rw [if_neg (fun h => hdepth h.2)]
    rw [if_neg (fun h => hdepth h.2)] at hevents
    exact .skip w.collections hevents
  rw [if_pos ⟨hle, hdepth⟩] at hevents
  cases hseen : Bitmap.testBits w.visited r.ino with
  | true =>
    rw [if_neg (by simp)]
    exact .seen hevents hseen
  | false =>
    rw [if_pos ⟨rfl, hdepth⟩, bind_of_ok (setVisited_eq w hword), dirPush_eq]
    split_ifs with hpush
    · exact Visits.push (y := (r.ino, path)) hevents hseen hle
    · exact ⟨rfl, ⟨w.pushes, by simpa using hpush⟩, Bitmap.setBits w.visited r.ino, rfl⟩

theorem visitRegular_visits (hsize : image.length ≤ int64Max) {path : Bytes}
    (hpath : (recordPath image dir blk pos r).run = .ok (some path))
    (hty : r.ftype = deFtRegular) :
    Ends (visitRegular fs mem cb dir blk pos r.ino path w)
      (fun _ w' => Visits fs mem cb dir blk pos r w w') (PushFails mem w) := by
  obtain ⟨o, hrun, hinside⟩ := regularFile_safe fs hsize path r.ino (mem.room w.collections)
  unfold visitRegular
  rw [bind_of_ok (collect_eq hrun)]
  have hdir : r.ftype ≠ deFtDirectory := by
    rw [hty]
    decide
  cases o with
  | none =>
    refine Visits.skip _ ?_
    simp only [recordEvents, hpath, hrun]
    rw [if_neg hdir, if_pos hty]
  | some report =>
    refine Visits.report ?_ (hinside report rfl)
    simp only [recordEvents, hpath, hrun]
    rw [if_neg hdir, if_pos hty]

theorem visitRecord_visits (hsize : image.length ≤ int64Max)
    (hlen : w.visited.length = fs.inodesCount / 8 + 1) (hblk : blk + fs.blockSize ≤ image.length)
    (hend : pos + r.recLen ≤ fs.blockSize) :
    Ends (visitRecord fs mem cb dir blk pos r w) (fun _ w' => Visits fs mem cb dir blk pos r w w')
      (PushFails mem w) := by
  obtain ⟨o, hrun, -⟩ := recordPath_safe fs dir hblk hend
  unfold visitRecord
  rw [bind_of_ok (attempt_eq hrun w)]
  cases o with
  | none =>
    refine Visits.skip w.collections ?_
    simp only [recordEvents, hrun]
  | some path =>
    dsimp only
    by_cases hdir : r.ftype = deFtDirectory
    · rw [if_pos hdir]
      exact visitDirectory_visits hlen hrun hdir
    rw [if_neg hdir]
    by_cases hreg : r.ftype = deFtRegular
    · rw [if_pos hreg]
      exact visitRegular_visits hsize hrun hreg
    · rw [if_neg hreg]
      refine Visits.skip w.collections ?_
      simp only [recordEvents, hrun]
      rw [if_neg hdir, if_neg hreg]

theorem Visits.visited_length {w' : Walk σ} (h : Visits fs mem cb dir blk pos r w w') :
    w'.visited.length = w.visited.length := by
  cases h with
  | push => exact Bitmap.length_setBits _ _
  | _ => rfl

/-- In the abstract, a record emits its events. -/
theorem Visits.state_eq {w' : Walk σ} (h : Visits fs mem cb dir blk pos r w w')
    (hlen : w.visited.length = fs.inodesCount / 8 + 1) :
    w'.state = (recordEvents fs (mem.room w.collections) dir blk pos r).foldl
      (Worklist.emit Prod.fst) w.state := by
  cases h with
  | skip n h =>
    rw [h]
    rfl
  | @seen y h hseen =>
    rw [h]
    exact (if_pos hseen).symm
  | @push y h hnew hle =>
    rw [h]
    have hword : y.1 / 8 < w.visited.length := by
      rw [hlen]
      omega
    have hnot : ¬ w.state.seen y.1 = true := by
      change ¬ Bitmap.testBits w.visited y.1 = true
      rw [hnew]
      exact Bool.false_ne_true
    have hseen : Bitmap.testBits (Bitmap.setBits w.visited y.1) =
        fun k => decide (y.1 = k) || Bitmap.testBits w.visited k := by
      funext k
      exact Bitmap.testBits_setBits _ _ _ hword
    rw [List.foldl_cons, List.foldl_nil, Worklist.emit, if_neg hnot]
    simp only [Walk.state, hseen]
  | @report rep h hinside =>
    rw [h]
    simp [Walk.state, Worklist.emit]

/-! ### Blocks -/

theorem mem_blockRecords (hsize : image.length ≤ int64Max) (hblk : blk + fs.blockSize ≤ image.length)
    {fuel : ℕ} {x : ℕ × DirRecord} (h : x ∈ blockRecords fs blk fuel pos) :
    pos ≤ x.1 ∧ x.1 + x.2.recLen ≤ fs.blockSize := by
  induction fuel generalizing pos with
  | zero => cases h
  | succ fuel ih =>
    unfold blockRecords at h
    split_ifs at h with hpos
    · obtain ⟨o, hrun, hrec⟩ := readRecord_safe fs hsize hblk hpos
      simp only [hrun] at h
      cases o with
      | none => cases h
      | some r =>
        obtain ⟨-, hend⟩ := hrec r rfl
        rcases List.mem_cons.mp h with rfl | h
        · exact ⟨le_rfl, hend⟩
        · have := ih h
          omega
    · cases h

theorem scanRecords_eq (hsize : image.length ≤ int64Max) (hblk : blk + fs.blockSize ≤ image.length)
    (fuel pos : ℕ) (hfuel : fs.blockSize ≤ pos + fuel) :
    scanRecords fs mem cb dir blk fuel pos =
      visitRecords fs mem cb dir blk (blockRecords fs blk fuel pos) := by
  induction fuel generalizing pos with
  | zero =>
    unfold scanRecords blockRecords deNameOff
    rw [if_neg (by omega)]
    rfl
  | succ fuel ih =>
    unfold scanRecords blockRecords
    by_cases hpos : pos + deNameOff ≤ fs.blockSize
    · rw [if_pos hpos, if_pos hpos]
      obtain ⟨o, hrun, hrec⟩ := readRecord_safe fs hsize hblk hpos
      funext w
      rw [bind_of_ok (attempt_eq hrun w), hrun]
      cases o with
      | none => rfl
      | some r =>
        obtain ⟨hlen, -⟩ := hrec r rfl
        unfold deNameOff at hlen
        dsimp only
        rw [ih (pos + r.recLen) (by omega)]
        rfl
    · rw [if_neg hpos, if_neg hpos]
      rfl

/-- Rule for the records of a block: `I` holds of what is left of them and the walk. -/
theorem visitRecords_rule (hsize : image.length ≤ int64Max)
    (hblk : blk + fs.blockSize ≤ image.length) {I : List (ℕ × DirRecord) → Walk σ → Prop}
    {E : Fault → Walk σ → Prop} (l : List (ℕ × DirRecord))
    (hend : ∀ x ∈ l, x.1 + x.2.recLen ≤ fs.blockSize)
    (hlen : ∀ l w, I l w → w.visited.length = fs.inodesCount / 8 + 1)
    (hstep : ∀ x l w w', I (x :: l) w → Visits fs mem cb dir blk x.1 x.2 w w' → I l w')
    (hfail : ∀ l w e w', I l w → PushFails mem w e w' → E e w') (h : I l w) :
    Ends (visitRecords fs mem cb dir blk l w) (fun _ w' => I [] w') E := by
  induction l generalizing w with
  | nil => exact h
  | cons x l ih =>
    have hvisit : Ends (visitRecord fs mem cb dir blk x.1 x.2 w)
        (fun _ w' => Visits fs mem cb dir blk x.1 x.2 w w') (PushFails mem w) :=
      visitRecord_visits hsize (hlen _ w h) hblk (hend x List.mem_cons_self)
    apply (hvisit.mono (fun _ w' hv => hstep x l w w' h hv) fun e w' => hfail _ w e w' h).bind
    intro _ w' h'
    exact ih (fun y hy => hend y (List.mem_cons_of_mem _ hy)) h'

theorem visitBlocks_stopped (l : List ℕ) (h : w.stopped = true) :
    visitBlocks fs mem cb dir l w = .ok () w := by
  cases l with
  | nil => rfl
  | cons blk l =>
    change (if w.stopped then _ else _ : WalkM σ Unit) w = _
    rw [if_pos h]
    rfl

theorem visitBlocks_cons (l : List ℕ) (h : w.stopped = false) :
    visitBlocks fs mem cb dir (blk :: l) w =
      (do visitRecords fs mem cb dir blk (blockRecords fs blk fs.blockSize 0)
          visitBlocks fs mem cb dir l) w := by
  change (if w.stopped then _ else _ : WalkM σ Unit) w = _
  rw [if_neg (by rw [h]; exact Bool.false_ne_true)]

/-- Whether to go on is asked at each block, so it does not matter how blocks are grouped. -/
theorem visitBlocks_append (l l' : List ℕ) :
    visitBlocks fs mem cb dir (l ++ l') =
      (do visitBlocks fs mem cb dir l
          visitBlocks fs mem cb dir l' : WalkM σ Unit) := by
  induction l with
  | nil => rfl
  | cons blk l ih =>
    funext w
    cases hrun : w.stopped with
    | true =>
      rw [visitBlocks_stopped _ hrun, bind_of_ok (visitBlocks_stopped _ hrun),
        visitBlocks_stopped _ hrun]
    | false =>
      rw [List.cons_append, visitBlocks_cons _ hrun, ih, ← bind_assoc]
      change EStateM.bind _ _ w = EStateM.bind _ _ w
      unfold EStateM.bind
      rw [visitBlocks_cons _ hrun]

theorem scanBlocks_eq (hsize : image.length ≤ int64Max) (n b : ℕ) :
    scanBlocks fs mem cb dir n b =
      visitBlocks fs mem cb dir ((List.range' b n).filterMap (fsBlock fs)) := by
  induction n generalizing b with
  | zero => rfl
  | succ n ih =>
    funext w
    change (if w.stopped then _ else _ : WalkM σ Unit) w = _
    cases hrun : w.stopped with
    | true =>
      rw [visitBlocks_stopped _ hrun]
      rfl
    | false =>
      rw [if_neg Bool.false_ne_true, ih, List.range'_succ]
      unfold scanBlock
      cases hb : fsBlock fs b with
      | none =>
        rw [List.filterMap_cons_none hb]
        rfl
      | some blk =>
        obtain ⟨-, -, -, hblk⟩ := fsBlock_spec fs hsize hb
        rw [List.filterMap_cons_some hb, visitBlocks_cons _ hrun]
        dsimp only
        rw [scanRecords_eq hsize hblk _ 0 (by omega)]

theorem scanExtents_eq (hsize : image.length ≤ int64Max) (exts : List Extent) :
    scanExtents fs mem cb dir exts = visitBlocks fs mem cb dir (extentBlocks fs exts) := by
  induction exts with
  | nil => rfl
  | cons ext rest ih =>
    funext w
    change (if w.stopped then _ else _ : WalkM σ Unit) w = _
    cases hrun : w.stopped with
    | true =>
      rw [visitBlocks_stopped _ hrun]
      rfl
    | false =>
      have hcons : extentBlocks fs (ext :: rest) =
          (List.range' ext.physical ext.count).filterMap (fsBlock fs) ++ extentBlocks fs rest :=
        List.flatMap_cons
      rw [if_neg Bool.false_ne_true, ih, scanBlocks_eq hsize, hcons, visitBlocks_append]

theorem expandDirectory_eq (hsize : image.length ≤ int64Max) (ino : ℕ) (path : Bytes) (w : Walk σ) :
    expandDirectory fs mem cb ino path w =
      visitBlocks fs mem cb path (directoryBlocks fs (mem.room w.collections) ino)
        { w with collections := w.collections + 1 } := by
  obtain ⟨o, hrun, -⟩ := directoryExtents_safe fs hsize ino (mem.room w.collections)
  unfold expandDirectory directoryBlocks
  rw [bind_of_ok (collect_eq hrun), hrun]
  cases o with
  | none => rfl
  | some exts =>
    dsimp only
    rw [scanExtents_eq hsize]

theorem mem_directoryBlocks (hsize : image.length ≤ int64Max) {room ino : ℕ}
    (h : blk ∈ directoryBlocks fs room ino) : blk + fs.blockSize ≤ image.length := by
  unfold directoryBlocks at h
  split at h
  · obtain ⟨ext, -, hmem⟩ := List.mem_flatMap.mp h
    obtain ⟨b, -, hb⟩ := List.mem_filterMap.mp hmem
    exact (fsBlock_spec fs hsize hb).2.2.2
  · cases h

theorem visitBlocks_rule {I : List ℕ → Walk σ → Prop} {E : Fault → Walk σ → Prop} (l : List ℕ)
    (hin : ∀ blk ∈ l, blk + fs.blockSize ≤ image.length)
    (hblock : ∀ blk l w, I (blk :: l) w → w.stopped = false → blk + fs.blockSize ≤ image.length →
      Ends (visitRecords fs mem cb dir blk (blockRecords fs blk fs.blockSize 0) w)
        (fun _ w' => I l w') E)
    (h : I l w) :
    Ends (visitBlocks fs mem cb dir l w)
      (fun _ w' => ∃ l', I l' w' ∧ (l' = [] ∨ w'.stopped = true)) E := by
  induction l generalizing w with
  | nil => exact ⟨[], h, .inl rfl⟩
  | cons blk l ih =>
    cases hrun : w.stopped with
    | true =>
      rw [visitBlocks_stopped _ hrun]
      exact ⟨_, h, .inr hrun⟩
    | false =>
      rw [visitBlocks_cons _ hrun]
      apply (hblock blk l w h hrun (hin blk List.mem_cons_self)).bind
      intro _ w' h'
      exact ih (fun b hb => hin b (List.mem_cons_of_mem _ hb)) h'

/-! ### The loop -/

theorem walkLoop_end (fuel : ℕ) (h : w.stack = [] ∨ w.stopped = true) :
    walkLoop fs mem cb fuel w = .ok () w := by
  cases fuel with
  | zero =>
    change (if w.stack ≠ [] ∧ w.stopped = false then _ else _ : WalkM σ Unit) w = _
    rw [if_neg]
    · rfl
    · rintro ⟨hne, hrun⟩
      rcases h with h | h
      · exact hne h
      · rw [h] at hrun
        cases hrun
  | succ fuel =>
    rw [walkLoop, get_bind]
    cases hs : w.stack with
    | nil => rfl
    | cons top rest =>
      rcases h with h | h
      · rw [hs] at h
        cases h
      · dsimp only
        rw [if_pos h]
        rfl

def Walk.popped (w : Walk σ) (ino : ℕ) (rest : List (ℕ × Bytes)) : Walk σ :=
  { w with stack := rest, expanded := w.expanded ++ [ino] }

theorem walkLoop_succ (fuel : ℕ) {ino : ℕ} {path : Bytes} {rest : List (ℕ × Bytes)}
    (hs : w.stack = (ino, path) :: rest) (hrun : w.stopped = false) :
    walkLoop fs mem cb (fuel + 1) w =
      (do expandDirectory fs mem cb ino path; walkLoop fs mem cb fuel) (w.popped ino rest) := by
  rw [walkLoop, get_bind, hs]
  dsimp only
  rw [if_neg (by rw [hrun]; exact Bool.false_ne_true)]
  rfl

/-- Rule for the loop, with `I n` what holds when `n` turns are left. -/
theorem walkLoop_rule {I : ℕ → Walk σ → Prop} {E : Fault → Walk σ → Prop}
    (hzero : ∀ w, I 0 w → w.stack = [])
    (hturn : ∀ n w ino path rest, I (n + 1) w → w.stack = (ino, path) :: rest →
      w.stopped = false →
      Ends (expandDirectory fs mem cb ino path (w.popped ino rest)) (fun _ w' => I n w') E)
    (fuel : ℕ) (h : I fuel w) :
    Ends (walkLoop fs mem cb fuel w)
      (fun _ w' => (∃ n, I n w') ∧ (w'.stack = [] ∨ w'.stopped = true)) E := by
  induction fuel generalizing w with
  | zero =>
    rw [walkLoop_end 0 (.inl (hzero w h))]
    exact ⟨⟨0, h⟩, .inl (hzero w h)⟩
  | succ fuel ih =>
    cases hs : w.stack with
    | nil =>
      rw [walkLoop_end _ (.inl hs)]
      exact ⟨⟨_, h⟩, .inl hs⟩
    | cons top rest =>
      cases hrun : w.stopped with
      | true =>
        rw [walkLoop_end _ (.inr hrun)]
        exact ⟨⟨_, h⟩, .inr hrun⟩
      | false =>
        rw [walkLoop_succ fuel hs hrun]
        apply (hturn fuel w top.1 top.2 rest h hs hrun).bind
        intro _ w' h'
        exact ih h'

variable (fs) in
def rootWalk (user : σ) : Walk σ where
  visited := Bitmap.setBits (List.replicate (fs.inodesCount / 8 + 1) 0) extRootInode
  stack := [(extRootInode, [])]
  user := user
  pushes := 1

theorem rootWord_lt (fs : Extfs image) :
    extRootInode / 8 < (List.replicate (fs.inodesCount / 8 + 1) (0 : BitVec 8)).length := by
  rw [List.length_replicate]
  exact Nat.succ_pos _

variable (fs mem cb) in
theorem extfsWalk_cases (user : σ) :
    extfsWalk fs mem cb user = walkLoop fs mem cb (fs.inodesCount + 2) (rootWalk fs user) ∨
      (mem.buffers = false ∨ ∃ n, mem.push n = false) ∧
        ∃ w, extfsWalk fs mem cb user = .error .outOfMemory w ∧ w.events = [] := by
  unfold extfsWalk
  dsimp only
  by_cases hbuf : mem.buffers = true
  · rw [if_pos hbuf]
    unfold walkFromRoot
    by_cases hpush : mem.push 0 = true
    · left
      rw [bind_of_ok ((dirPush_eq mem _ _ _).trans (if_pos hpush)),
        bind_of_ok (setVisited_eq _ (rootWord_lt fs))]
      rfl
    · right
      refine ⟨.inr ⟨0, by simpa using hpush⟩, _, bind_of_error ((dirPush_eq mem _ _ _).trans
        (if_neg hpush)), rfl⟩
  · rw [if_neg hbuf]
    exact .inr ⟨.inl (by simpa using hbuf), _, rfl, rfl⟩

end Walk

/-! ### Safety -/

section Safety
variable {image : Bytes} {σ : Type} (fs : Extfs image) (mem : Memory) {cb : FileCb σ}
  {turns : ℕ} {w : Walk σ}

/-- Invariant of the walk with a bound on the turns that are left: a directory is pushed when
its bit is set, so it is taken from the stack only once. -/
structure Sound (turns : ℕ) (w : Walk σ) : Prop where
  visited_length : w.visited.length = fs.inodesCount / 8 + 1
  inside : ∀ e ∈ w.events, ∀ x ∈ e.report.extents, x.Inside fs.blockCount
  ordered : Worklist.Ordered Prod.fst w.state
  pending_le : Worklist.pending (Finset.range (fs.inodesCount + 1)) w.state ≤ turns

/-- The only way for a walk to fail. -/
structure OutOfMemory (e : Fault) (w : Walk σ) : Prop where
  fault_eq : e = .outOfMemory
  short : mem.buffers = false ∨ ∃ n, mem.push n = false
  inside : ∀ e ∈ w.events, ∀ x ∈ e.report.extents, x.Inside fs.blockCount

variable {fs mem}

theorem Sound.visits {dir : Bytes} {blk pos : ℕ} {r : DirRecord} {w' : Walk σ}
    (h : Sound fs turns w) (hv : Visits fs mem cb dir blk pos r w w') : Sound fs turns w' := by
  have hstate := hv.state_eq h.visited_length
  refine ⟨hv.visited_length.trans h.visited_length, ?_, ?_, ?_⟩
  · cases hv with
    | report _ hinside =>
      intro e he
      rcases List.mem_append.mp he with he | he
      · exact h.inside e he
      · rw [List.mem_singleton.mp he]
        exact hinside
    | _ => exact h.inside
  · rw [hstate]
    exact h.ordered.foldl _
  · rw [hstate]
    refine (Worklist.pending_foldl_le _ ?_).trans h.pending_le
    intro y hy
    exact Finset.mem_range.mpr (Nat.lt_succ_of_le (recordEvents_child hy).1)

theorem Sound.stack_nil (h : Sound fs 0 w) : w.stack = [] := by
  have hpending := h.pending_le
  unfold Worklist.pending at hpending
  exact List.length_eq_zero_iff.mp (show w.state.stack.length = 0 by omega)

theorem Sound.popped {ino : ℕ} {path : Bytes} {rest : List (ℕ × Bytes)}
    (h : Sound fs (turns + 1) w) (hs : w.stack = (ino, path) :: rest) :
    Sound fs turns (w.popped ino rest) := by
  have hpop := Worklist.pending_pop Prod.fst (s := w.state) (Finset.range (fs.inodesCount + 1)) hs
  refine ⟨h.visited_length, h.inside, h.ordered.pop hs, ?_⟩
  have hpending := h.pending_le
  change Worklist.pending _ (Worklist.pop Prod.fst w.state (ino, path) rest) ≤ turns
  omega

theorem Sound.pushFails (h : Sound fs turns w) {e : Fault} {w' : Walk σ}
    (hf : PushFails mem w e w') : OutOfMemory fs mem e w' := by
  obtain ⟨rfl, hpush, visited, rfl⟩ := hf
  exact ⟨rfl, .inr hpush, h.inside⟩

theorem expandDirectory_sound (hsize : image.length ≤ int64Max) {ino : ℕ} {path : Bytes}
    (h : Sound fs turns w) :
    Ends (expandDirectory fs mem cb ino path w) (fun _ w' => Sound fs turns w')
      (OutOfMemory fs mem) := by
  rw [expandDirectory_eq hsize]
  have h' : Sound fs turns { w with collections := w.collections + 1 } :=
    ⟨h.visited_length, h.inside, h.ordered, h.pending_le⟩
  refine (visitBlocks_rule (I := fun _ w => Sound fs turns w) _
    (fun blk hblk => mem_directoryBlocks hsize hblk) ?_ h').imp ?_
  · intro blk l w h _ hblk
    exact visitRecords_rule hsize hblk (I := fun _ w => Sound fs turns w) _
      (fun x hx => (mem_blockRecords hsize hblk hx).2) (fun _ w h => h.visited_length)
      (fun _ _ _ _ h hv => h.visits hv) (fun _ _ _ _ h hf => h.pushFails hf) h
  · rintro _ w' ⟨_, h, -⟩
    exact h

theorem rootWalk_sound (user : σ) : Sound fs (fs.inodesCount + 2) (rootWalk fs user) := by
  refine ⟨?_, by simp [rootWalk], ⟨by simp [rootWalk, Walk.state], ?_⟩, ?_⟩
  · exact (Bitmap.length_setBits _ _).trans List.length_replicate
  · intro i hi
    have hroot : i = extRootInode := by simpa [rootWalk, Walk.state] using hi
    change Bitmap.testBits (rootWalk fs user).visited i = true
    rw [hroot, rootWalk, Bitmap.testBits_setBits _ _ _ (rootWord_lt fs), decide_eq_true rfl, Bool.true_or]
  · have hcard := Finset.card_filter_le (Finset.range (fs.inodesCount + 1))
      fun k => (rootWalk fs user).state.seen k = false
    rw [Finset.card_range] at hcard
    change _ + 1 ≤ _
    omega

variable (fs mem cb) in
theorem extfsWalk_sound (hsize : image.length ≤ int64Max) (user : σ) :
    Ends (extfsWalk fs mem cb user)
      (fun _ w => (∃ turns, Sound fs turns w) ∧ (w.stack = [] ∨ w.stopped = true))
      (OutOfMemory fs mem) := by
  obtain hrun | ⟨hshort, w, hrun, hw⟩ := extfsWalk_cases fs mem cb user
  · rw [hrun]
    apply walkLoop_rule (I := fun n w => Sound fs n w) _ _ _ (rootWalk_sound user)
    · intro w h
      exact h.stack_nil
    · intro n w ino path rest h hs _
      exact expandDirectory_sound hsize (h.popped hs)
  · rw [hrun]
    exact ⟨rfl, hshort, by simp [hw]⟩

/-- Rule for a walk: `I` holds of every state that it passes through, and `E` of those in which
it gives up. -/
theorem extfsWalk_rule (hsize : image.length ≤ int64Max) {I : Walk σ → Prop}
    {E : Fault → Walk σ → Prop} (user : σ) (hroot : I (rootWalk fs user))
    (hpop : ∀ w ino rest, I w → I (w.popped ino rest))
    (hcollect : ∀ w, I w → I { w with collections := w.collections + 1 })
    (hvisit : ∀ dir blk pos r w w', I w → Visits fs mem cb dir blk pos r w w' → I w')
    (hfail : ∀ w e w', I w → PushFails mem w e w' → E e w')
    (hempty : ∀ e w, w.events = [] → E e w) :
    Ends (extfsWalk fs mem cb user) (fun _ w => I w) E := by
  obtain hrun | ⟨-, w, hrun, hw⟩ := extfsWalk_cases fs mem cb user
  swap
  · rw [hrun]
    exact hempty _ w hw
  rw [hrun]
  refine (walkLoop_rule (I := fun n w => Sound fs n w ∧ I w) (fun w h => h.1.stack_nil) ?_
    (fs.inodesCount + 2) ⟨rootWalk_sound user, hroot⟩).imp ?_
  swap
  · rintro _ w ⟨⟨n, h⟩, -⟩
    exact h.2
  intro n w ino path rest h hs _
  have hpopped := h.1.popped hs
  rw [expandDirectory_eq hsize]
  refine (visitBlocks_rule (I := fun _ w => Sound fs n w ∧ I w) _
    (fun blk hblk => mem_directoryBlocks hsize hblk) ?_ ⟨?_, ?_⟩).imp ?_
  · intro blk l w h _ hblk
    exact visitRecords_rule hsize hblk (I := fun _ w => Sound fs n w ∧ I w) _
      (fun x hx => (mem_blockRecords hsize hblk hx).2) (fun _ w h => h.1.visited_length)
      (fun _ _ _ _ h hv => ⟨h.1.visits hv, hvisit _ _ _ _ _ _ h.2 hv⟩)
      (fun _ w e w' h hf => hfail w e w' h.2 hf) h
  · exact ⟨hpopped.visited_length, hpopped.inside, hpopped.ordered, hpopped.pending_le⟩
  · exact hcollect _ (hpop w ino rest h.2)
  · rintro _ w' ⟨_, h, -⟩
    exact h

/-- What holds of the report of every record holds of all that are made, however the walk ends. -/
theorem extfsWalk_reports (hsize : image.length ≤ int64Max) {P : Report → Prop} (user : σ)
    (hreport : ∀ room dir blk pos r report,
      recordEvents fs room dir blk pos r = [.inl report] → P report) :
    Ends (extfsWalk fs mem cb user) (fun _ w => ∀ e ∈ w.events, P e.report)
      (fun _ w => ∀ e ∈ w.events, P e.report) := by
  apply extfsWalk_rule hsize user
  · simp [rootWalk]
  · exact fun w ino rest h => h
  · exact fun w h => h
  · intro dir blk pos r w w' h hv
    cases hv with
    | report hevents _ =>
      intro e he
      rcases List.mem_append.mp he with he | he
      · exact h e he
      · rw [List.mem_singleton.mp he]
        exact hreport _ _ _ _ _ _ hevents
    | _ => exact h
  · rintro w e w' h ⟨-, -, visited, rfl⟩
    exact h
  · intro _ w hw
    simp [hw]

/-- The callback gets the reports in order, and nothing else changes what it keeps. -/
theorem extfsWalk_user (hsize : image.length ≤ int64Max) (user : σ) :
    Ends (extfsWalk fs mem cb user)
      (fun _ w => w.user = (w.events.map Event.report).foldl (fun u r => (cb u r).1) user)
      (fun _ _ => True) := by
  apply extfsWalk_rule hsize user
  · rfl
  · exact fun w ino rest h => h
  · exact fun w h => h
  · intro dir blk pos r w w' h hv
    cases hv with
    | report _ _ =>
      rw [List.map_append, List.foldl_append, ← h]
      rfl
    | _ => exact h
  · exact fun _ _ _ _ _ => trivial
  · exact fun _ _ _ => trivial

theorem not_outOfMemory_ample {e : Fault} {w : Walk σ} : ¬ OutOfMemory fs .ample e w := by
  intro h
  rcases h.short with hbuf | ⟨n, hn⟩
  · cases hbuf
  · cases hn

end Safety

/-- The walk over an image that opens ends by itself or for want of memory, never at a load
or store outside the image, the bitmap or the path buffer; and the extents it reports lie in
the filesystem, which lies in the image. -/
theorem extfsWalk_safe {image : Bytes} (hsize : image.length ≤ int64Max) (fs : Extfs image)
    (_ : extfsOpen image = .ok fs) {σ : Type} (mem : Memory) (cb : FileCb σ) (user : σ) :
    fs.blockCount ≤ image.length / fs.blockSize ∧
      Ends (extfsWalk fs mem cb user)
        (fun _ w => ∀ e ∈ w.events, ∀ x ∈ e.report.extents,
          1 ≤ x.count ∧ 1 ≤ x.physical ∧ x.physical + x.count ≤ fs.blockCount)
        (fun err w => err = .outOfMemory ∧ ∀ e ∈ w.events, ∀ x ∈ e.report.extents,
          1 ≤ x.count ∧ 1 ≤ x.physical ∧ x.physical + x.count ≤ fs.blockCount) := by
  refine ⟨fs.blocks_fit, (extfsWalk_sound fs mem cb hsize user).mono ?_ ?_⟩
  · rintro _ w ⟨⟨turns, h⟩, -⟩
    exact h.inside
  · intro err w h
    exact ⟨h.fault_eq, h.inside⟩

/-! ### A small filesystem -/

def padded (n : ℕ) (s : Bytes) : Bytes := s ++ List.replicate (n - s.length) 0

def sampleSuperblock : Bytes :=
  padded 1024 (leBytes 4 4 ++ leBytes 4 7 ++ List.replicate 12 0 ++ leBytes 4 1 ++
    List.replicate 8 0 ++ leBytes 4 8192 ++ List.replicate 4 0 ++ leBytes 4 4 ++
    List.replicate 12 0 ++ leBytes 2 extSuperMagic ++ leBytes 2 extStateClean ++
    List.replicate 36 0 ++ leBytes 4 incompatFiletype)

/-- An inode with one direct block. -/
def sampleInode (mode block : ℕ) : Bytes :=
  padded 128 (leBytes 4 mode ++ leBytes 4 1024 ++ List.replicate 32 0 ++ leBytes 4 block)

def sampleRecord (ino recLen ftype : ℕ) (name : UInt8) : Bytes :=
  padded 12 (leBytes 4 ino ++ leBytes 2 recLen ++ [1, UInt8.ofNat ftype, name])

/-- Seven blocks: `/a`, `/b` and `/d/c` are inode 3, whose data are in block 6. -/
def sampleImage : Bytes :=
  [List.replicate 1024 0, sampleSuperblock, padded 1024 (List.replicate 8 0 ++ leBytes 4 3),
    padded 1024 (List.replicate 128 0 ++ sampleInode modeDirectory 4 ++ sampleInode modeRegular 6 ++
      sampleInode modeDirectory 5),
    padded 1024 (sampleRecord 3 12 deFtRegular 0x61 ++ sampleRecord 4 12 deFtDirectory 0x64 ++
      sampleRecord 3 1000 deFtRegular 0x62),
    padded 1024 (sampleRecord 3 1024 deFtRegular 0x63), List.replicate 1024 7].flatten

theorem exists_open_sampleImage : ∃ fs, extfsOpen sampleImage = .ok fs := by
  have hok : (extfsOpen sampleImage).isOk = true := by decide +kernel
  cases h : extfsOpen sampleImage with
  | error e =>
    rw [h] at hok
    cases hok
  | ok fs => exact ⟨fs, rfl⟩

theorem of_sampleImage {fs : Extfs sampleImage} (hopen : extfsOpen sampleImage = .ok fs)
    (p : Extfs sampleImage → Bool)
    (h : (match extfsOpen sampleImage with | .ok fs => p fs | .error _ => false) = true) :
    p fs = true := by
  rw [hopen] at h
  exact h

theorem extfsWalk_safe_sampleImage :
    ∃ fs, extfsOpen sampleImage = .ok fs ∧
      Ends (extfsWalk fs .ample (fun (n : ℕ) _ => (n + 1, false)) 0)
        (fun _ w => ∀ e ∈ w.events, ∀ x ∈ e.report.extents, x.physical + x.count ≤ fs.blockCount)
        (fun err _ => err = .outOfMemory) := by
  obtain ⟨fs, hopen⟩ := exists_open_sampleImage
  have hsafe := extfsWalk_safe (by decide +kernel) fs hopen .ample
    (fun (n : ℕ) _ => (n + 1, false)) 0
  refine ⟨fs, hopen, hsafe.2.mono ?_ ?_⟩
  · intro _ w h e he x hx
    exact (h e he x hx).2.2
  · intro err w h
    exact h.1

end Fsdiff.ExtFs
