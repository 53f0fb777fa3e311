import Fsdiff.Core.BlockStatistics
import Fsdiff.Data.Along
import Fsdiff.Stages.Controller

/-! The stages change the tracker by its own calls only. What a run reports of its progress is
therefore a count of the blocks matched so far, which never falls and ends with all of them. -/
namespace Fsdiff.Stages
open ByteString Exec

def ByCalls (w w' : World) : Prop := ∃ calls, w'.tracker = w.tracker.runCalls calls

instance : Std.Refl ByCalls := ⟨fun _ => ⟨[], rfl⟩⟩

instance : IsTrans World ByCalls where
  trans := by
    rintro w w₁ w₂ ⟨calls, h⟩ ⟨calls', h'⟩
    refine ⟨calls ++ calls', ?_⟩
    rw [h', h, Tracker.runCalls, Tracker.runCalls, Tracker.runCalls, List.foldl_append]

section Stages
variable {env : Env} {K : Kernels} {bs t range : ℕ} {src dest : Bytes}

theorem byCalls_poolAlloc : Along ByCalls (poolAlloc env) := fun _ => ⟨[], rfl⟩

theorem byCalls_checkCancelled : Along ByCalls (checkCancelled env) := by
  apply along_get.bind
  intro w
  apply (along_modify fun _ => ⟨[], rfl⟩).bind
  intro _
  exact .ite (fun _ => along_throw _) fun _ => along_pure _

theorem byCalls_setMatch (i : ℕ) {ty : MatchType} (hty : ty ≠ .none) (srcIdx : ℕ) :
    Along ByCalls (updateTracker (·.setMatch i ty srcIdx)) :=
  along_modify fun _ => ⟨[.setMatch i ty srcIdx hty], rfl⟩

theorem byCalls_setCrc32 (i : ℕ) (crc : BitVec 32) : Along ByCalls (updateTracker (·.setCrc32 i crc)) :=
  along_modify fun _ => ⟨[.setCrc32 i crc], rfl⟩

theorem recordWindow_byCalls (destIdx srcPos : ℕ) :
    Along ByCalls (recordWindow env bs src dest destIdx srcPos) := by
  apply byCalls_poolAlloc.bind
  intro granted
  apply Along.ite (fun _ => ?_) fun _ => along_pure _
  apply Along.bind
  · exact along_modify fun w => ⟨[.setMatch destIdx .partialMatch (srcPos / bs) (by decide),
      .setDelta destIdx (srcPos % bs : ℕ) (some (deltaOf (blockAt bs dest destIdx) (window src srcPos bs)))], rfl⟩
  · exact fun _ => along_pure _

theorem identityStageRun_byCalls (srcBlocks destBlocks : ℕ) :
    Along ByCalls (identityStageRun K bs src dest srcBlocks destBlocks) := by
  apply Along.bind
  · apply Along.iterM
    intro i _
    apply Along.ite (fun _ => byCalls_setMatch _ (by decide) _) fun _ => ?_
    apply Along.ite (fun _ => byCalls_setMatch _ (by decide) _) fun _ => ?_
    exact .ite (fun _ => byCalls_setMatch _ (by decide) _) fun _ => byCalls_setCrc32 _ _
  · intro _
    apply Along.iterM
    intro i _
    apply Along.ite (fun _ => byCalls_setMatch _ (by decide) _) fun _ => ?_
    exact .ite (fun _ => byCalls_setMatch _ (by decide) _) fun _ => byCalls_setCrc32 _ _

theorem relocationBuildIndex_byCalls (srcBlocks : ℕ) :
    Along ByCalls (relocationBuildIndex env bs src srcBlocks) := by
  apply Along.bind
  · apply byCalls_poolAlloc.bind
    intro granted
    apply Along.ite (fun _ => ?_) fun _ => along_throw _
    apply byCalls_poolAlloc.bind
    intro granted'
    exact .ite (fun _ => along_pure _) fun _ => along_throw _
  · intro table
    apply Along.iterM
    intro i table
    apply Along.ite (fun _ => along_pure _) fun _ => ?_
    apply byCalls_poolAlloc.bind
    intro granted
    exact .ite (fun _ => along_pure _) fun _ => along_pure _

theorem relocationStageRun_byCalls (table : HashTable) :
    Along ByCalls (relocationStageRun bs src dest table) := by
  apply along_get.bind
  intro w
  apply Along.iterM
  intro i _
  apply along_get.bind
  intro w'
  apply Along.ite (fun _ => ?_) fun _ => along_pure _
  cases w'.tracker.get i with
  | none => exact along_pure _
  | some state =>
    cases hfind : findRelocation bs src dest i (table.lookup state.crc32) with
    | none =>
      simp only [hfind]
      exact along_pure _
    | some entry =>
      simp only [hfind]
      exact byCalls_setMatch _ (by decide) _

theorem fsmapLoop_byCalls (n : ℕ) (hyps : List Hypothesis) :
    Along ByCalls (fsmapLoop env K bs t range src dest n hyps) := by
  induction hyps generalizing n with
  | nil => exact along_pure ()
  | cons hyp hyps ih =>
    unfold fsmapLoop
    apply Along.bind
    · exact .ite (fun _ => byCalls_checkCancelled) fun _ => along_pure _
    intro _
    apply Along.bind
    · apply along_get.bind
      intro w
      apply Along.ite (fun _ => ?_) fun _ => along_pure _
      cases fsmapWindow K bs t range src (blockAt bs dest hyp.destBlock) hyp.srcPos with
      | none => exact along_pure _
      | some p => exact (recordWindow_byCalls _ _).bind fun _ => along_pure _
    · exact fun _ => ih (n + 1)

theorem fsmapBuildIndex_byCalls {destBlocks : ℕ} (index : FsmapIndex bs src.length destBlocks) :
    Along ByCalls (fsmapBuildIndex bs src index) := by
  apply along_get.bind
  intro w
  cases index.build w.tracker with
  | ok hyps => exact along_pure hyps
  | error e => exact along_throw e

theorem extendMatch_byCalls (srcSize : ℕ) (bestOffset : ℤ) (n extIdx : ℕ) :
    Along ByCalls (extendMatch env K bs t src dest srcSize bestOffset n extIdx) := by
  induction n generalizing extIdx with
  | zero => exact along_pure ()
  | succ n ih =>
    unfold extendMatch
    apply along_get.bind
    intro w
    apply Along.ite (fun _ => ?_) fun _ => along_pure _
    apply Along.ite (fun _ => along_pure _) fun _ => ?_
    apply Along.ite (fun _ => along_pure _) fun _ => ?_
    apply (recordWindow_byCalls _ _).bind
    intro recorded
    exact .ite (fun _ => ih (extIdx + 1)) fun _ => along_pure _

theorem partialStageRun_byCalls (srcBlocks : ℕ) :
    Along ByCalls (partialStageRun env K bs t range src dest srcBlocks) := by
  apply along_get.bind
  intro w
  apply Along.bind
  · apply Along.iterM
    intro destIdx prev
    apply along_get.bind
    intro w'
    apply Along.bind
    · apply along_get.bind
      intro w''
      apply Along.ite (fun _ => ?_) fun _ => along_pure _
      apply Along.ite (fun _ => ?_) fun _ => along_pure _
      apply Along.ite (fun _ => along_pure _) fun _ => ?_
      apply (recordWindow_byCalls _ _).bind
      intro recorded
      exact .ite (fun _ => extendMatch_byCalls _ _ _ _) fun _ => along_pure _
    · exact fun _ => along_pure _
  · exact fun _ => along_pure _

theorem stagePart_byCalls {enabled : Bool} {body : StageM Unit} (h : Along ByCalls body) :
    Along ByCalls (stagePart env enabled body) :=
  .ite (fun _ => byCalls_checkCancelled.bind fun _ => h) fun _ => along_pure ()

end Stages

/-! ### Reports -/

/-- The current and the total count that `progress_cb` gets. -/
abbrev Report := ℕ × ℕ

/-- Parts in order, each with whether it is on; a part that is on and succeeds reports
`dest_blocks - fsd_block_tracker_unmatched_count(tracker)`. -/
def runReported (total : ℕ) : List (Bool × StageM Unit) → World →
    List Report × EStateM.Result FsdError World Unit
  | [], w => ([], .ok () w)
  | (enabled, part) :: parts, w =>
    match part w with
    | .error e w' => ([], .error e w')
    | .ok _ w' =>
      let (reports, res) := runReported total parts w'
      (if enabled then (total - w'.tracker.unmatchedCount, total) :: reports else reports, res)

section Run
variable (env : Env) (K : Kernels) (ctrl : StageController) (src dest : Bytes)
variable (index : FsmapIndex ctrl.blockSize src.length (dest.length / ctrl.blockSize))

/-- The parts with their switches. -/
def switchedParts : List (Bool × StageM Unit) :=
  [(ctrl.enableIdentity, identityPart env K ctrl src dest),
   (ctrl.enableRelocation, relocationPart env ctrl src dest),
   (ctrl.enableFsmap, fsmapPart env K ctrl src dest index),
   (ctrl.enablePartial, partialPart env K ctrl src dest)]

/-- `fsd_stage_controller_run` with its reports; the last one comes when the rest is literals. -/
def controllerRunReported (w : World) : List Report × EStateM.Result FsdError World Unit :=
  let total := dest.length / ctrl.blockSize
  match runReported total (switchedParts env K ctrl src dest index) w with
  | (reports, .error e w') => (reports, .error e w')
  | (reports, .ok _ w') => (reports ++ [(total, total)], updateTracker Tracker.finalize w')

end Run

section Counts
variable {t : Tracker}

def matchedCount (t : Tracker) : ℕ :=
  t.identityCount + t.relocateCount + t.partialCount + t.zeroCount + t.oneCount

theorem matchedCount_add_unmatchedCount (h : t.Consistent) : matchedCount t + t.unmatchedCount = t.count := by
  rw [h.unmatchedCount_eq, ← Tracker.sum_typeCount, ← h.counter_eq .identity (by decide),
    ← h.counter_eq .relocate (by decide), ← h.counter_eq .partialMatch (by decide),
    ← h.counter_eq .zero (by decide), ← h.counter_eq .one (by decide)]
  rfl

theorem matchedCount_le_run (t : Tracker) (c : Tracker.Call) : matchedCount t ≤ matchedCount (c.run t) := by
  cases c with
  | setMatch i ty srcIdx hty =>
    change matchedCount t ≤ matchedCount (t.setMatch i ty srcIdx)
    unfold Tracker.setMatch
    split
    · exact le_rfl
    · split_ifs
      · exact le_rfl
      · cases ty <;> simp only [matchedCount, Tracker.countMatch] <;> omega
  | setCrc32 i crc => exact le_rfl
  | setDelta i off delta => exact le_rfl

theorem matchedCount_le_runCalls (t : Tracker) (calls : List Tracker.Call) :
    matchedCount t ≤ matchedCount (t.runCalls calls) := by
  induction calls generalizing t with
  | nil => exact le_rfl
  | cons c calls ih => exact (matchedCount_le_run t c).trans (ih (c.run t))

end Counts

section Reports
variable {total : ℕ} {parts : List (Bool × StageM Unit)} {w : World}

theorem runReported_snd (total : ℕ) (parts : List (Bool × StageM Unit)) (w : World) :
    (runReported total parts w).2 = runParts (parts.map Prod.snd) w := by
  induction parts generalizing w with
  | nil => rfl
  | cons part parts ih =>
    obtain ⟨enabled, part⟩ := part
    unfold runReported
    cases hpart : part w with
    | error e w' => exact (bind_of_error hpart).symm
    | ok u w' =>
      refine (ih w').trans ?_
      exact (bind_of_ok (f := fun _ => runParts (parts.map Prod.snd)) hpart).symm

/-- Reports from `low` on, in order, each out of `total`. -/
structure Climbs (low total : ℕ) (reports : List Report) : Prop where
  sorted : reports.Pairwise (·.1 ≤ ·.1)
  bounds : ∀ r ∈ reports, low ≤ r.1 ∧ r.1 ≤ total ∧ r.2 = total

theorem climbs_nil (low total : ℕ) : Climbs low total [] := ⟨.nil, nofun⟩

theorem Climbs.mono {low low' : ℕ} {reports : List Report} (h : Climbs low total reports) (hle : low' ≤ low) :
    Climbs low' total reports :=
  ⟨h.sorted, fun r hr => ⟨hle.trans (h.bounds r hr).1, (h.bounds r hr).2⟩⟩

theorem Climbs.cons {low : ℕ} {reports : List Report} (h : Climbs low total reports) (hle : low ≤ total) :
    Climbs low total ((low, total) :: reports) := by
  refine ⟨.cons (fun r hr => (h.bounds r hr).1) h.sorted, ?_⟩
  intro r hr
  rcases List.mem_cons.mp hr with rfl | hr
  · exact ⟨le_rfl, hle, rfl⟩
  · exact h.bounds r hr

theorem Climbs.snoc {low : ℕ} {reports : List Report} (h : Climbs low total reports) (hle : low ≤ total) :
    Climbs low total (reports ++ [(total, total)]) := by
  refine ⟨List.pairwise_append.mpr ⟨h.sorted, List.pairwise_singleton _ _, ?_⟩, ?_⟩
  · intro r hr r' hr'
    obtain rfl := List.mem_singleton.mp hr'
    exact (h.bounds r hr).2.1
  · intro r hr
    rcases List.mem_append.mp hr with hr | hr
    · exact h.bounds r hr
    · obtain rfl := List.mem_singleton.mp hr
      exact ⟨hle, le_rfl, rfl⟩

/-- What parts report that change the tracker by calls. -/
theorem runReported_climbs (hparts : ∀ p ∈ parts, Along ByCalls p.2) (hw : w.tracker.Consistent)
    (htotal : w.tracker.count = total) :
    Climbs (matchedCount w.tracker) total (runReported total parts w).1 := by
  induction parts generalizing w with
  | nil => exact climbs_nil _ _
  | cons part parts ih =>
    obtain ⟨enabled, part⟩ := part
    have hpart := hparts _ List.mem_cons_self w
    unfold runReported
    cases hrun : part w with
    | error e w' => exact climbs_nil _ _
    | ok u w' =>
      obtain ⟨calls, hcalls⟩ := hpart.of_ok hrun
      have hle : matchedCount w.tracker ≤ matchedCount w'.tracker := by
        rw [hcalls]
        exact matchedCount_le_runCalls _ _
      obtain ⟨hw', hcount⟩ := Tracker.runCalls_consistent hw calls
      rw [← hcalls] at hw' hcount
      have hrest := ih (fun p hp => hparts p (List.mem_cons_of_mem _ hp)) hw' (hcount.trans htotal)
      have hsum := matchedCount_add_unmatchedCount hw'
      have hreport : total - w'.tracker.unmatchedCount = matchedCount w'.tracker := by omega
      dsimp only
      split_ifs
      · rw [hreport]
        exact (hrest.cons (by omega)).mono hle
      · exact hrest.mono hle

end Reports

section Controller
variable {opts : DiffOptions} {src dest : Bytes} {ctrl : StageController}

theorem tracker_of_controllerCreate {srcBlocks destBlocks : ℕ}
    (h : controllerCreate opts srcBlocks destBlocks = .ok ctrl) :
    ctrl.blockSize = opts.blockSize ∧ Tracker.create destBlocks opts.blockSize = .ok ctrl.tracker := by
  unfold controllerCreate at h
  split_ifs at h
  cases hcreate : Tracker.create destBlocks opts.blockSize with
  | error e =>
    rw [hcreate] at h
    cases h
  | ok tracker =>
    rw [hcreate] at h
    cases h
    exact ⟨rfl, rfl⟩

theorem switchedParts_byCalls (env : Env) (K : Kernels) (ctrl : StageController) (src dest : Bytes)
    (index : FsmapIndex ctrl.blockSize src.length (dest.length / ctrl.blockSize)) :
    ∀ p ∈ switchedParts env K ctrl src dest index, Along ByCalls p.2 := by
  intro p hp
  simp only [switchedParts, List.mem_cons, List.not_mem_nil, or_false] at hp
  rcases hp with rfl | rfl | rfl | rfl
  · exact stagePart_byCalls (identityStageRun_byCalls _ _)
  · apply stagePart_byCalls
    exact (relocationBuildIndex_byCalls _).bind fun table => relocationStageRun_byCalls table
  · apply stagePart_byCalls
    exact (fsmapBuildIndex_byCalls index).bind fun hyps => fsmapLoop_byCalls 0 hyps
  · exact stagePart_byCalls (partialStageRun_byCalls _)

theorem runParts_byCalls {parts : List (Bool × StageM Unit)} (h : ∀ p ∈ parts, Along ByCalls p.2) :
    Along ByCalls (runParts (parts.map Prod.snd)) := by
  induction parts with
  | nil => exact along_pure ()
  | cons part parts ih =>
    apply Along.bind
    · exact h part List.mem_cons_self
    · exact fun _ => ih fun p hp => h p (List.mem_cons_of_mem _ hp)

/-- A run that succeeds has made calls, and then finalized. -/
theorem controllerRun_calls (env : Env) (K : Kernels) (ctrl : StageController) (src dest : Bytes)
    (index : FsmapIndex ctrl.blockSize src.length (dest.length / ctrl.blockSize)) (w : World) :
    Ends (controllerRun env K ctrl src dest index w)
      (fun _ w' => ∃ calls, w'.tracker = (w.tracker.runCalls calls).finalize) (fun _ _ => True) := by
  have hparts := runParts_byCalls (switchedParts_byCalls env K ctrl src dest index) w
  apply Ends.bind (hparts.weaken fun _ _ _ => trivial)
  intro _ w₁ hw₁
  obtain ⟨calls, hcalls⟩ := hw₁
  exact ⟨calls, congrArg Tracker.finalize hcalls⟩

/-- Whatever happens in a run, its reports count up, and out of all blocks; the last report of a run
that succeeds is that all blocks are done. -/
theorem controllerRun_reports (env : Env) (K : Kernels)
    (hcreate : controllerCreate opts (src.length / opts.blockSize) (dest.length / opts.blockSize) = .ok ctrl)
    (index : FsmapIndex ctrl.blockSize src.length (dest.length / ctrl.blockSize)) :
    let total := dest.length / opts.blockSize
    let out := controllerRunReported env K ctrl src dest index { tracker := ctrl.tracker }
    out.2 = controllerRun env K ctrl src dest index { tracker := ctrl.tracker } ∧
      out.1.Pairwise (·.1 ≤ ·.1) ∧ (∀ r ∈ out.1, r.1 ≤ total ∧ r.2 = total) ∧
      ∀ w, out.2 = .ok () w → out.1.getLast? = some (total, total) := by
  obtain ⟨hbs, htracker⟩ := tracker_of_controllerCreate hcreate
  have hconsistent := Tracker.create_consistent htracker
  have hcount : ctrl.tracker.count = dest.length / ctrl.blockSize := by
    rw [hbs]
    exact (Tracker.create_spec htracker).2.1
  have hclimbs := runReported_climbs (w := { tracker := ctrl.tracker })
    (switchedParts_byCalls env K ctrl src dest index) hconsistent hcount
  have hsnd := runReported_snd (dest.length / ctrl.blockSize) (switchedParts env K ctrl src dest index)
    { tracker := ctrl.tracker }
  have hle : matchedCount ctrl.tracker ≤ dest.length / ctrl.blockSize := by
    have hsum := matchedCount_add_unmatchedCount hconsistent
    omega
  rw [← hbs]
  unfold controllerRunReported
  dsimp only
  generalize runReported (dest.length / ctrl.blockSize) (switchedParts env K ctrl src dest index)
    { tracker := ctrl.tracker } = out at hclimbs hsnd
  obtain ⟨reports, res⟩ := out
  cases res with
  | error e w =>
    refine ⟨(bind_of_error hsnd.symm).symm, hclimbs.sorted, fun r hr => (hclimbs.bounds r hr).2, ?_⟩
    intro w' hw'
    cases hw'
  | ok u w =>
    have hall := hclimbs.snoc hle
    refine ⟨?_, hall.sorted, fun r hr => (hall.bounds r hr).2, fun _ _ => List.getLast?_concat⟩
    exact (bind_of_ok (f := fun _ => updateTracker Tracker.finalize) hsnd.symm).symm

/-- Three blocks, of which two moved, when the run is cancelled at the third test, behind two stages,
and when nothing happens. -/
theorem controllerRun_reports_threeBlocks :
    let opts : DiffOptions := { blockSizeLog2 := 5 }
    let src : Bytes := List.replicate 40 7
    let dest : Bytes := List.replicate 32 0 ++ List.replicate 64 7
    ∃ ctrl, controllerCreate opts (src.length / opts.blockSize) (dest.length / opts.blockSize) = .ok ctrl ∧
      (let out := controllerRunReported ⟨fun _ => true, fun n => n = 2⟩ scalarKernels ctrl src dest
        (.inactive _ _ _) { tracker := ctrl.tracker }
      (ending out.2).1 = .error .cancelled ∧ out.1 = [(1, 3), (3, 3)]) ∧
      let out := controllerRunReported ⟨fun _ => true, fun _ => false⟩ scalarKernels ctrl src dest
        (.inactive _ _ _) { tracker := ctrl.tracker }
      (ending out.2).1 = .ok () ∧ out.1.take 2 = [(1, 3), (3, 3)] ∧ out.1.getLast? = some (3, 3) := by
  intro opts src dest
  obtain ⟨ctrl, hcreate, heval⟩ := exists_ok_of_any
    (x := controllerCreate opts (src.length / opts.blockSize) (dest.length / opts.blockSize))
    (fun ctrl =>
      let out := fun cancelled : ℕ → Bool => controllerRunReported ⟨fun _ => true, cancelled⟩ scalarKernels
        ctrl src dest (.inactive _ _ _) { tracker := ctrl.tracker }
      ((ending (out fun n => n = 2).2).1 = .error .cancelled ∧ (out fun n => n = 2).1 = [(1, 3), (3, 3)]) ∧
        (ending (out fun _ => false).2).1 = .ok () ∧ (out fun _ => false).1.take 2 = [(1, 3), (3, 3)])
    (by decide +kernel)
  obtain ⟨hcancelled, hok, hreports⟩ := of_decide_eq_true heval
  obtain ⟨-, -, -, hlast⟩ := controllerRun_reports ⟨fun _ => true, fun _ => false⟩ scalarKernels hcreate
    (.inactive _ _ _)
  have htotal : dest.length / opts.blockSize = 3 := by decide
  rw [htotal] at hlast
  exact ⟨ctrl, hcreate, hcancelled, hok, hreports, hlast _ (eq_ok_of_ending hok)⟩

end Controller

end Fsdiff.Stages
