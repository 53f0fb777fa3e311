import Fsdiff.Io.Resources

/-! `fsd_diff_files` and `fsd_patch_apply` with all that they take: whichever calls fail, nothing
is given back twice, and one case apart nothing is left behind. -/
namespace Fsdiff.Resources
open Ownership

/-- A code, with `none` for `FSD_SUCCESS`. -/
def codeOf : Option FsdError → Except FsdError Unit
  | none => .ok ()
  | some e => .error e

/-! ### Tracker and stages -/

/-- `fsd_block_tracker_t` -/
structure Tracker where
  self : Res
  blocks : Res
  bitmap : Res

structure TrackerEnv where
  someBlocks : Bool
  alloc : Bool
  blocks : Bool
  bitmap : Bool

/-- `fsd_block_tracker_create` -/
def trackerCreate (E : TrackerEnv) : ResM (Except FsdError Tracker) :=
  if !E.someBlocks then pure (.error .invalidArg)
  else do
    match ← malloc E.alloc with
    | .error e => pure (.error e)
    | .ok self =>
      match ← malloc E.blocks with
      | .error e =>
        release self
        pure (.error e)
      | .ok blocks =>
        match ← malloc E.bitmap with
        | .error e =>
          release blocks
          release self
          pure (.error e)
        | .ok bitmap => pure (.ok ⟨self, blocks, bitmap⟩)

/-- `fsd_block_tracker_destroy` -/
def trackerDestroy (t : Tracker) : ResM Unit := do
  release t.bitmap
  release t.blocks
  release t.self

def Tracker.own (t : Tracker) : Handles Kind := {t.bitmap} + ({t.blocks} + {t.self})

theorem creates_trackerCreate (E : TrackerEnv) : Creates (trackerCreate E) (ofExcept Tracker.own) := by
  refine triple_ite (fun _ => triple_pure rfl) fun _ => ?_
  refine (creates_malloc _).cases (fun e => triple_pure rfl) fun self => ?_
  refine (creates_malloc _).cases (fun e => ?_) fun blocks => ?_
  · exact (destroys_release self).then (triple_pure rfl)
  refine (creates_malloc _).cases (fun e => ?_) fun bitmap => triple_pure ?_
  · exact (destroys_release blocks).then ((destroys_release self).then (triple_pure rfl))
  · simp [Tracker.own]

theorem destroys_trackerDestroy (t : Tracker) : Destroys t.own (trackerDestroy t) :=
  (destroys_release t.bitmap).then ((destroys_release t.blocks).then (destroys_release t.self))

/-- `fsd_relocation_stage_t` -/
structure Relocation where
  self : Res
  pool : Pool

/-- `fsd_relocation_stage_create` -/
def relocationStageCreate (alloc : Bool) (E : PoolEnv) : ResM (Except FsdError Relocation) := do
  match ← malloc alloc with
  | .error e => pure (.error e)
  | .ok self =>
    match ← poolCreate E with
    | .error e =>
      release self
      pure (.error e)
    | .ok pool => pure (.ok ⟨self, pool⟩)

/-- `fsd_relocation_stage_destroy` -/
def relocationStageDestroy (r : Relocation) : ResM Unit := do
  poolDestroy r.pool
  release r.self

def Relocation.own (r : Relocation) : Handles Kind := r.pool.own + {r.self}

theorem creates_relocationStageCreate (alloc : Bool) (E : PoolEnv) :
    Creates (relocationStageCreate alloc E) (ofExcept Relocation.own) := by
  refine (creates_malloc alloc).cases (fun e => triple_pure rfl) fun self => ?_
  refine (creates_poolCreate E).cases (fun e => ?_) fun pool => triple_pure ?_
  · exact (destroys_release self).then (triple_pure rfl)
  · simp [Relocation.own]

theorem destroys_relocationStageDestroy (r : Relocation) : Destroys r.own (relocationStageDestroy r) :=
  (destroys_poolDestroy r.pool).then (destroys_release r.self)

/-- `fsd_fsmap_stage_t` -/
structure Fsmap where
  self : Res
  pool : Option Pool
  hyps : Option Res

/-- As `fsd_fsmap_stage_create` leaves it. -/
def Fsmap.fresh (self : Res) : Fsmap := ⟨self, none, none⟩

/-- `fsd_fsmap_stage_destroy` -/
def fsmapStageDestroy (s : Fsmap) : ResM Unit := do
  whenSome poolDestroy s.pool
  whenSome release s.hyps
  release s.self

def Fsmap.own (s : Fsmap) : Handles Kind :=
  ofOption Pool.own s.pool + (ofOption (fun h => {h}) s.hyps + {s.self})

theorem Fsmap.own_fresh (o : Option Res) : ofOption Fsmap.own (o.map Fsmap.fresh) = ofOption (fun h => {h}) o := by
  cases o with
  | none => rfl
  | some self => simp [Fsmap.own, Fsmap.fresh]

theorem destroys_fsmapStageDestroy (s : Fsmap) : Destroys s.own (fsmapStageDestroy s) := by
  apply (destroys_whenSome destroys_poolDestroy s.pool).then
  exact (destroys_releaseSome s.hyps).then (destroys_release s.self)

/-! ### The filesystem index -/

/-- Answers to `fsd_extfs_open`: the checks before and behind its allocation. -/
structure ExtfsEnv where
  superblock : Option FsdError
  alloc : Bool
  geometry : Option FsdError

/-- `fsd_extfs_open` -/
def extfsOpen (E : ExtfsEnv) : ResM (Except FsdError Res) :=
  match E.superblock with
  | some e => pure (.error e)
  | none => do
    match ← malloc E.alloc with
    | .error e => pure (.error e)
    | .ok fs =>
      match E.geometry with
      | some e =>
        release fs
        pure (.error e)
      | none => pure (.ok fs)

/-- `src_walk_cb`: the allocations from the pool that each file takes, with a stop when one fails. -/
def srcWalkCb (user : Pool × List (List (Bool × Bool))) :
    ResM (Bool × Pool × List (List (Bool × Bool))) :=
  match user.2 with
  | [] => pure (false, user)
  | file :: files => do
    let (done, pool) ← poolAllocs user.1 file
    pure (!done, pool, files)

/-- `dest_walk_cb`: how the list of hypotheses grows with each file. -/
def destWalkCb (user : Option Res × List (List Bool)) : ResM (Bool × Option Res × List (List Bool)) :=
  match user.2 with
  | [] => pure (false, user)
  | file :: files => do
    let (done, hyps) ← growExtents user.1 file
    pure (!done, hyps, files)

/-- Answers to `fsd_fsmap_stage_build_index`. -/
structure IndexEnv where
  source : ExtfsEnv
  destination : ExtfsEnv
  pool : PoolEnv
  table : List (Bool × Bool)
  sourceWalk : WalkEnv
  sourceFiles : List (List (Bool × Bool))
  sourceOom : Bool
  destWalk : WalkEnv
  destFiles : List (List Bool)
  destOom : Bool

def walkDest (E : IndexEnv) (s : Fsmap) : ResM (Except FsdError Unit × Fsmap) := do
  let (res, hyps, _) ← extfsWalk destWalkCb E.destWalk (s.hyps, E.destFiles)
  pure (if res.toOption.isNone || E.destOom then .error .outOfMemory else .ok (), { s with hyps := hyps })

/-- What stands before `out:`. -/
def collectHypotheses (E : IndexEnv) (s : Fsmap) : ResM (Except FsdError Unit × Fsmap) := do
  match ← poolCreate E.pool with
  | .error _ => pure (.error .outOfMemory, s)
  | .ok pool =>
    let (done, pool) ← poolAllocs pool E.table
    if !done then pure (.error .outOfMemory, { s with pool := some pool })
    else do
      let (res, pool, _) ← extfsWalk srcWalkCb E.sourceWalk (pool, E.sourceFiles)
      if res.toOption.isNone || E.sourceOom then pure (.error .outOfMemory, { s with pool := some pool })
      else walkDest E { s with pool := some pool }

def disabled (e : FsdError) : Except FsdError Unit := if e = .outOfMemory then .error e else .ok ()

/-- `fsd_fsmap_stage_build_index` -/
def fsmapStageBuildIndex (E : IndexEnv) (s : Fsmap) : ResM (Except FsdError Unit × Fsmap) := do
  match ← extfsOpen E.source with
  | .error e => pure (disabled e, s)
  | .ok srcFs =>
    match ← extfsOpen E.destination with
    | .error e =>
      release srcFs
      pure (disabled e, s)
    | .ok destFs =>
      let (res, s) ← collectHypotheses E s
      release srcFs
      release destFs
      pure (res, s)

theorem creates_extfsOpen (E : ExtfsEnv) : Creates (extfsOpen E) (ofExcept fun h => {h}) := by
  unfold extfsOpen
  cases E.superblock with
  | some e => exact triple_pure rfl
  | none =>
    refine (creates_malloc _).cases (fun e => triple_pure rfl) fun fs => ?_
    cases E.geometry with
    | some e => exact (destroys_release fs).then (triple_pure rfl)
    | none => exact triple_pure (add_zero _)

theorem triple_srcWalkCb (user : Pool × List (List (Bool × Bool))) :
    Triple user.1.own (srcWalkCb user) (fun p m => m = p.2.1.own) := by
  unfold srcWalkCb
  cases user.2 with
  | nil => exact triple_pure rfl
  | cons file files =>
    apply (triple_poolAllocs user.1 file).bind
    rintro ⟨done, pool⟩ _ rfl
    exact triple_pure rfl

theorem triple_destWalkCb (user : Option Res × List (List Bool)) :
    Triple (ofOption (fun h => {h}) user.1) (destWalkCb user)
      (fun p m => m = ofOption (fun h => {h}) p.2.1) := by
  unfold destWalkCb
  cases user.2 with
  | nil => exact triple_pure rfl
  | cons file files =>
    apply (triple_growExtents user.1 file).bind
    rintro ⟨done, hyps⟩ _ rfl
    exact triple_pure rfl

theorem triple_walkDest (E : IndexEnv) (s : Fsmap) :
    Triple s.own (walkDest E s) (fun p m => m = p.2.own) := by
  apply (triple_extfsWalk triple_destWalkCb E.destWalk (s.hyps, E.destFiles)).framed
    (ofOption Pool.own s.pool + {s.self}) (by rw [Fsmap.own]; abel)
  rintro ⟨res, hyps, files⟩ _ rfl
  refine triple_pure ?_
  simp only [Fsmap.own]
  abel

/-- The index is built on a stage that has no pool yet; the pointer to a pool would be lost. -/
theorem triple_collectHypotheses (E : IndexEnv) {s : Fsmap} (hs : s.pool = none) :
    Triple s.own (collectHypotheses E s) (fun p m => m = p.2.own) := by
  have hpool : ∀ pool : Pool, pool.own + s.own = Fsmap.own { s with pool := some pool } := by
    intro pool
    simp [Fsmap.own, hs]
  refine (creates_poolCreate E.pool).cases (fun e => triple_pure rfl) fun pool => ?_
  apply (triple_poolAllocs pool E.table).framed s.own rfl
  rintro ⟨done, pool₁⟩ _ rfl
  refine triple_ite (fun _ => triple_pure (hpool pool₁)) fun _ => ?_
  apply (triple_extfsWalk triple_srcWalkCb E.sourceWalk (pool₁, E.sourceFiles)).framed s.own rfl
  rintro ⟨res, pool₂, files⟩ _ rfl
  refine triple_ite (fun _ => triple_pure (hpool pool₂)) fun _ => ?_
  exact Triple.of_eq (hpool pool₂) (triple_walkDest E _)

theorem triple_fsmapStageBuildIndex (E : IndexEnv) {s : Fsmap} (hs : s.pool = none) :
    Triple s.own (fsmapStageBuildIndex E s) (fun p m => m = p.2.own) := by
  refine (creates_extfsOpen E.source).cases (fun e => triple_pure rfl) fun srcFs => ?_
  refine (creates_extfsOpen E.destination).cases (fun e => ?_) fun destFs => ?_
  · exact (destroys_release srcFs).then (triple_pure rfl)
  apply (triple_collectHypotheses E hs).framed ({srcFs} + {destFs}) (by abel)
  rintro ⟨res, s'⟩ _ rfl
  apply Triple.of_eq (show _ = {srcFs} + ({destFs} + s'.own) by abel)
  exact (destroys_release srcFs).then ((destroys_release destFs).then (triple_pure rfl))

/-! ### The controller -/

/-- `fsd_stage_controller_t` -/
structure Controller where
  self : Res
  tracker : Tracker
  pool : Pool
  identity : Option Res
  relocation : Option Relocation
  fsmap : Option Fsmap
  partialStage : Option Res

/-- `if (ctrl->enable_..) err = .._create(..)` -/
def createWhen {α : Type} (enabled : Bool) (x : ResM (Except FsdError α)) :
    ResM (Except FsdError (Option α)) :=
  if enabled then do
    match ← x with
    | .error e => pure (.error e)
    | .ok a => pure (.ok (some a))
  else pure (.ok none)

structure ControllerEnv where
  alloc : Bool
  tracker : TrackerEnv
  pool : PoolEnv
  enableIdentity : Bool
  identity : Bool
  enableRelocation : Bool
  relocation : Bool
  relocationPool : PoolEnv
  enableFsmap : Bool
  fsmap : Bool
  enablePartial : Bool
  partialStage : Bool

/-- `fsd_stage_controller_create` -/
def stageControllerCreate (E : ControllerEnv) : ResM (Except FsdError Controller) :=
  if E.enableRelocation && !E.enableIdentity then pure (.error .invalidArg)
  else do
    match ← malloc E.alloc with
    | .error e => pure (.error e)
    | .ok self =>
      match ← trackerCreate E.tracker with
      | .error e =>
        release self
        pure (.error e)
      | .ok tracker =>
        match ← poolCreate E.pool with
        | .error e =>
          trackerDestroy tracker
          release self
          pure (.error e)
        | .ok pool =>
          match ← createWhen E.enableIdentity (malloc E.identity) with
          | .error e =>
            poolDestroy pool
            trackerDestroy tracker
            release self
            pure (.error e)
          | .ok identity =>
            match ← createWhen E.enableRelocation (relocationStageCreate E.relocation E.relocationPool) with
            | .error e =>
              whenSome release identity
              poolDestroy pool
              trackerDestroy tracker
              release self
              pure (.error e)
            | .ok relocation =>
              match ← createWhen E.enableFsmap (malloc E.fsmap) with
              | .error e =>
                whenSome relocationStageDestroy relocation
                whenSome release identity
                poolDestroy pool
                trackerDestroy tracker
                release self
                pure (.error e)
              | .ok fsmap =>
                match ← createWhen E.enablePartial (malloc E.partialStage) with
                | .error e =>
                  whenSome fsmapStageDestroy (fsmap.map Fsmap.fresh)
                  whenSome relocationStageDestroy relocation
                  whenSome release identity
                  poolDestroy pool
                  trackerDestroy tracker
                  release self
                  pure (.error e)
                | .ok partialStage =>
                  pure (.ok ⟨self, tracker, pool, identity, relocation, fsmap.map Fsmap.fresh, partialStage⟩)

/-- `fsd_stage_controller_destroy` -/
def stageControllerDestroy (c : Controller) : ResM Unit := do
  whenSome release c.partialStage
  whenSome fsmapStageDestroy c.fsmap
  whenSome relocationStageDestroy c.relocation
  whenSome release c.identity
  trackerDestroy c.tracker
  poolDestroy c.pool
  release c.self

/-- Answers to `fsd_stage_controller_run`: the codes of the stages, and how their pools grow. -/
structure RunEnv where
  identity : Option FsdError
  relocation : Option FsdError
  relocationIndex : List (Bool × Bool)
  fsmapCancelled : Option FsdError
  index : IndexEnv
  fsmap : Option FsdError
  fsmapDeltas : List (Bool × Bool)
  partialStage : Option FsdError
  partialDeltas : List (Bool × Bool)

/-- Stage 2: the hash table stands in the pool of the stage. -/
def runRelocation (E : RunEnv) (c : Controller) : ResM (Except FsdError Unit × Controller) :=
  match c.relocation with
  | none => pure (.ok (), c)
  | some r => do
    let (_, pool) ← poolAllocs r.pool E.relocationIndex
    pure (codeOf E.relocation, { c with relocation := some { r with pool := pool } })

/-- Differences of partial matches stand in the shared pool. -/
def runDeltas (code : Option FsdError) (grows : List (Bool × Bool)) (c : Controller) :
    ResM (Except FsdError Unit × Controller) := do
  let (_, pool) ← poolAllocs c.pool grows
  pure (codeOf code, { c with pool := pool })

def runFsmap (E : RunEnv) (c : Controller) : ResM (Except FsdError Unit × Controller) :=
  match c.fsmap, E.fsmapCancelled with
  | none, _ => pure (.ok (), c)
  | some _, some e => pure (.error e, c)
  | some s, none => do
    let (res, s) ← fsmapStageBuildIndex E.index s
    match res with
    | .error e => pure (.error e, { c with fsmap := some s })
    | .ok _ => runDeltas E.fsmap E.fsmapDeltas { c with fsmap := some s }

def runPartial (E : RunEnv) (c : Controller) : ResM (Except FsdError Unit × Controller) :=
  match c.partialStage with
  | none => pure (.ok (), c)
  | some _ => runDeltas E.partialStage E.partialDeltas c

/-- One stage, and the next unless it failed. -/
def andThen (x : ResM (Except FsdError Unit × Controller))
    (next : Controller → ResM (Except FsdError Unit × Controller)) :
    ResM (Except FsdError Unit × Controller) := do
  match ← x with
  | (.error e, c) => pure (.error e, c)
  | (.ok _, c) => next c

/-- `fsd_stage_controller_run` -/
def stageControllerRun (E : RunEnv) (c : Controller) : ResM (Except FsdError Unit × Controller) :=
  andThen (pure (codeOf E.identity, c)) fun c =>
    andThen (runRelocation E c) fun c => andThen (runFsmap E c) (runPartial E)

def Controller.own (c : Controller) : Handles Kind :=
  ofOption (fun h => {h}) c.partialStage + (ofOption Fsmap.own c.fsmap + (ofOption Relocation.own c.relocation +
    (ofOption (fun h => {h}) c.identity + (c.tracker.own + (c.pool.own + {c.self})))))

/-- No index has been built. -/
def Controller.Fresh (c : Controller) : Prop := ∀ s ∈ c.fsmap, s.pool = none

theorem creates_createWhen {α : Type} {own : α → Handles Kind} {x : ResM (Except FsdError α)} (enabled : Bool)
    (hx : Creates x (ofExcept own)) : Creates (createWhen enabled x) (ofExcept (ofOption own)) := by
  refine triple_ite (fun _ => ?_) fun _ => triple_pure rfl
  exact hx.cases (fun e => triple_pure rfl) fun a => triple_pure (add_zero _)

/-- What `fsd_stage_controller_create` leaves behind. -/
def Controller.Made (r : Except FsdError Controller) (m : Handles Kind) : Prop :=
  m = ofExcept Controller.own r ∧ ∀ c, r = .ok c → c.Fresh

theorem Controller.triple_fail (e : FsdError) : Triple 0 (pure (.error e)) Controller.Made := by
  apply triple_pure
  refine ⟨rfl, ?_⟩
  intro c hc
  cases hc

theorem Controller.made_fresh {self : Res} {tracker : Tracker} {pool : Pool} {identity : Option Res}
    {relocation : Option Relocation} {fsmap partialStage : Option Res} {m : Handles Kind}
    (hm : m = Controller.own ⟨self, tracker, pool, identity, relocation, fsmap.map Fsmap.fresh, partialStage⟩) :
    Controller.Made (.ok ⟨self, tracker, pool, identity, relocation, fsmap.map Fsmap.fresh, partialStage⟩) m := by
  refine ⟨hm, ?_⟩
  rintro _ ⟨⟩ s hs
  obtain ⟨h, -, rfl⟩ := Option.map_eq_some_iff.mp hs
  rfl

theorem triple_stageControllerCreate (E : ControllerEnv) :
    Triple 0 (stageControllerCreate E) Controller.Made := by
  refine triple_ite (fun _ => Controller.triple_fail _) fun _ => ?_
  refine (creates_malloc _).cases Controller.triple_fail fun self => ?_
  -- each label of the cleanup falls through to the one before
  have h₁ : ∀ e, Triple ({self} + 0) (do release self; pure (.error e)) Controller.Made :=
    fun e => (destroys_release self).then (Controller.triple_fail e)
  refine (creates_trackerCreate _).cases h₁ fun tracker => ?_
  have h₂ : ∀ e, Triple (tracker.own + ({self} + 0))
      (do trackerDestroy tracker; release self; pure (.error e)) Controller.Made :=
    fun e => (destroys_trackerDestroy tracker).then (h₁ e)
  refine (creates_poolCreate _).cases h₂ fun pool => ?_
  have h₃ : ∀ e, Triple (pool.own + (tracker.own + ({self} + 0)))
      (do poolDestroy pool; trackerDestroy tracker; release self; pure (.error e)) Controller.Made :=
    fun e => (destroys_poolDestroy pool).then (h₂ e)
  refine (creates_createWhen _ (creates_malloc _)).cases h₃ fun identity => ?_
  have h₄ : ∀ e, Triple (ofOption (fun h => {h}) identity + (pool.own + (tracker.own + ({self} + 0))))
      (do whenSome release identity; poolDestroy pool; trackerDestroy tracker; release self; pure (.error e))
      Controller.Made :=
    fun e => (destroys_releaseSome identity).then (h₃ e)
  refine (creates_createWhen _ (creates_relocationStageCreate _ _)).cases h₄ fun relocation => ?_
  have h₅ : ∀ e, Triple
      (ofOption Relocation.own relocation +
        (ofOption (fun h => {h}) identity + (pool.own + (tracker.own + ({self} + 0)))))
      (do whenSome relocationStageDestroy relocation; whenSome release identity; poolDestroy pool
          trackerDestroy tracker; release self; pure (.error e))
      Controller.Made :=
    fun e => (destroys_whenSome destroys_relocationStageDestroy relocation).then (h₄ e)
  refine (creates_createWhen _ (creates_malloc _)).cases h₅ fun fsmap => ?_
  rw [← Fsmap.own_fresh fsmap]
  refine (creates_createWhen _ (creates_malloc _)).cases (fun e => ?_) fun partialStage => ?_
  · exact (destroys_whenSome destroys_fsmapStageDestroy (fsmap.map Fsmap.fresh)).then (h₅ e)
  · apply triple_pure
    apply Controller.made_fresh
    simp only [Controller.own]
    abel

theorem destroys_stageControllerDestroy (c : Controller) : Destroys c.own (stageControllerDestroy c) := by
  apply (destroys_releaseSome c.partialStage).then
  apply (destroys_whenSome destroys_fsmapStageDestroy c.fsmap).then
  apply (destroys_whenSome destroys_relocationStageDestroy c.relocation).then
  apply (destroys_releaseSome c.identity).then
  exact (destroys_trackerDestroy c.tracker).then ((destroys_poolDestroy c.pool).then (destroys_release c.self))

theorem triple_runRelocation (E : RunEnv) {c : Controller} (hc : c.Fresh) :
    Triple c.own (runRelocation E c) (fun p m => m = p.2.own ∧ p.2.Fresh) := by
  unfold runRelocation
  cases hr : c.relocation with
  | none => exact triple_pure ⟨rfl, hc⟩
  | some r =>
    apply (triple_poolAllocs r.pool E.relocationIndex).framed
      (ofOption (fun h => {h}) c.partialStage + (ofOption Fsmap.own c.fsmap + ({r.self} +
        (ofOption (fun h => {h}) c.identity + (c.tracker.own + (c.pool.own + {c.self}))))))
      (by simp only [Controller.own, hr, ofOption_some, Relocation.own]; abel)
    rintro ⟨done, pool⟩ _ rfl
    refine triple_pure ⟨?_, hc⟩
    simp only [Controller.own, ofOption_some, Relocation.own]
    abel

theorem triple_runDeltas (code : Option FsdError) (grows : List (Bool × Bool)) (c : Controller) :
    Triple c.own (runDeltas code grows c) (fun p m => m = p.2.own) := by
  apply (triple_poolAllocs c.pool grows).framed
    (ofOption (fun h => {h}) c.partialStage + (ofOption Fsmap.own c.fsmap + (ofOption Relocation.own c.relocation +
      (ofOption (fun h => {h}) c.identity + (c.tracker.own + {c.self})))))
    (by rw [Controller.own]; abel)
  rintro ⟨done, pool⟩ _ rfl
  refine triple_pure ?_
  simp only [Controller.own]
  abel

theorem triple_runFsmap (E : RunEnv) {c : Controller} (hc : c.Fresh) :
    Triple c.own (runFsmap E c) (fun p m => m = p.2.own) := by
  unfold runFsmap
  split
  · exact triple_pure rfl
  · exact triple_pure rfl
  · rename_i s hs _
    have hown : ∀ s' : Fsmap, s'.own + (ofOption (fun h => {h}) c.partialStage +
        (ofOption Relocation.own c.relocation + (ofOption (fun h => {h}) c.identity +
          (c.tracker.own + (c.pool.own + {c.self}))))) = Controller.own { c with fsmap := some s' } := by
      intro s'
      simp only [Controller.own, ofOption_some]
      abel
    have hself : c.own = Controller.own { c with fsmap := some s } := by rw [← hs]
    apply (triple_fsmapStageBuildIndex E.index (hc s hs)).framed _ (hself.trans (hown s).symm)
    rintro ⟨res, s'⟩ _ rfl
    apply Triple.of_eq (hown s')
    cases res with
    | error e => exact triple_pure rfl
    | ok _ => exact triple_runDeltas E.fsmap E.fsmapDeltas _

theorem triple_runPartial (E : RunEnv) (c : Controller) :
    Triple c.own (runPartial E c) (fun p m => m = p.2.own) := by
  unfold runPartial
  split
  · exact triple_pure rfl
  · exact triple_runDeltas E.partialStage E.partialDeltas c

theorem triple_andThen {pre : Handles Kind} {P : Controller → Prop} {x : ResM (Except FsdError Unit × Controller)}
    {next : Controller → ResM (Except FsdError Unit × Controller)}
    (hx : Triple pre x fun p m => m = p.2.own ∧ P p.2)
    (hnext : ∀ c, P c → Triple c.own (next c) fun p m => m = p.2.own) :
    Triple pre (andThen x next) (fun p m => m = p.2.own) := by
  apply hx.bind
  rintro ⟨res, c⟩ _ ⟨rfl, hc⟩
  cases res with
  | error e => exact triple_pure rfl
  | ok _ => exact hnext c hc

theorem triple_stageControllerRun (E : RunEnv) {c : Controller} (hc : c.Fresh) :
    Triple c.own (stageControllerRun E c) (fun p m => m = p.2.own) := by
  have hidentity : Triple c.own (pure (codeOf E.identity, c)) fun p m => m = p.2.own ∧ p.2.Fresh :=
    triple_pure ⟨rfl, hc⟩
  apply triple_andThen hidentity
  intro c₁ hc₁
  apply triple_andThen (triple_runRelocation E hc₁)
  intro c₂ hc₂
  have hfsmap : Triple c₂.own (runFsmap E c₂) fun p m => m = p.2.own ∧ True :=
    (triple_runFsmap E hc₂).imp fun p m h => ⟨h, trivial⟩
  apply triple_andThen (P := fun _ => True) hfsmap
  exact fun c₃ _ => triple_runPartial E c₃

end Fsdiff.Resources
