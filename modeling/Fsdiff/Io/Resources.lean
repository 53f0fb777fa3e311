import Fsdiff.Data.Ownership
import Fsdiff.Types
import Mathlib.Tactic.Abel

/-! What the library takes from its surroundings and gives back: memory, descriptors, mappings,
streams and temporary files. Only the calls that take or give back are here, with the branches
around them; whatever else decides a branch is an answer of the surroundings, so that every
course of a run is one for some answers. -/
namespace Fsdiff.Resources
open Ownership

inductive Kind where
  | memory | descriptor | mapping | stream | tempFile
  deriving DecidableEq, Repr

abbrev Res := Handle Kind
abbrev ResM := OwnM Kind

/-- `malloc` and `calloc` -/
def malloc (succeeds : Bool) : ResM (Except FsdError Res) :=
  acquire .memory (if succeeds then none else some .outOfMemory)

/-- `realloc`; when it fails, the old memory stays. -/
def realloc (old : Option Res) (succeeds : Bool) : ResM (Bool × Option Res) := do
  match ← malloc succeeds with
  | .error _ => pure (false, old)
  | .ok new =>
    whenSome release old
    pure (true, some new)

theorem creates_malloc (succeeds : Bool) : Creates (malloc succeeds) (ofExcept fun h => {h}) :=
  creates_acquire _ _

theorem triple_malloc {β : Type} {pre : Handles Kind} {succeeds : Bool} {g : Except FsdError Res → ResM β}
    {R : β → Handles Kind → Prop} (herr : succeeds = false → Triple pre (g (.error .outOfMemory)) R)
    (hok : succeeds = true → ∀ n, Triple ({(.memory, n)} + pre) (g (.ok (.memory, n))) R) :
    Triple pre (malloc succeeds >>= g) R := by
  cases succeeds with
  | false => exact herr rfl
  | true => exact triple_take (g := fun h => g (.ok h)) (hok rfl)

theorem destroys_releaseSome (o : Option Res) :
    Destroys (ofOption (fun h => {h}) o) (whenSome release o) := destroys_whenSome destroys_release o

theorem triple_realloc (old : Option Res) (succeeds : Bool) :
    Triple (ofOption (fun h => {h}) old) (realloc old succeeds)
      (fun p m => m = ofOption (fun h => {h}) p.2) := by
  refine (creates_malloc succeeds).cases (fun e => triple_pure rfl) fun new => ?_
  apply Triple.of_eq (add_comm _ _)
  apply (destroys_releaseSome old).then
  exact triple_pure rfl

/-! ### Readers -/

/-- Calls in a reader that may fail, and the branch on an empty file. -/
structure ReaderEnv where
  alloc : Bool
  openFile : Option FsdError
  stat : Option FsdError
  sizeFits : Bool
  map : Bool
  scratch : Bool
  slurp : Bool
  pread : Option FsdError
  empty : Bool

structure MmapReader where
  self : Res
  fd : Res
  base : Option Res

/-- `fsd_mmap_open` -/
def mmapOpen (E : ReaderEnv) (alloc : Bool) : ResM (Except FsdError MmapReader) := do
  match ← malloc alloc with
  | .error e => pure (.error e)
  | .ok self =>
    match ← acquire .descriptor E.openFile with
    | .error e =>
      release self
      pure (.error e)
    | .ok fd =>
      if E.stat.isSome || !E.sizeFits then do
        release fd
        release self
        pure (.error .io)
      else if E.empty then pure (.ok ⟨self, fd, none⟩)
      else do
        match ← acquire .mapping (if E.map then none else some FsdError.mmapFailed) with
        | .error e =>
          release fd
          release self
          pure (.error e)
        | .ok base => pure (.ok ⟨self, fd, some base⟩)

/-- `fsd_mmap_close` -/
def mmapClose (r : MmapReader) : ResM Unit := do
  whenSome release r.base
  release r.fd
  release r.self

def MmapReader.own (r : MmapReader) : Handles Kind := ofOption (fun h => {h}) r.base + ({r.fd} + {r.self})

theorem creates_mmapOpen (E : ReaderEnv) (alloc : Bool) : Creates (mmapOpen E alloc) (ofExcept MmapReader.own) := by
  refine (creates_malloc alloc).cases (fun e => triple_pure rfl) fun self => ?_
  refine (creates_acquire _ _).cases (fun e => ?_) fun fd => ?_
  · exact (destroys_release self).then (triple_pure rfl)
  refine triple_ite (fun _ => ?_) fun _ => ?_
  · exact (destroys_release fd).then ((destroys_release self).then (triple_pure rfl))
  refine triple_ite (fun _ => triple_pure ?_) fun _ => ?_
  · simp [MmapReader.own]
  refine (creates_acquire _ _).cases (fun e => ?_) fun base => triple_pure ?_
  · exact (destroys_release fd).then ((destroys_release self).then (triple_pure rfl))
  · simp [MmapReader.own]

theorem destroys_mmapClose (r : MmapReader) : Destroys r.own (mmapClose r) :=
  (destroys_releaseSome r.base).then ((destroys_release r.fd).then (destroys_release r.self))

/-- The whole source in memory; of an empty one a static byte, which is not freed. -/
inductive Slurp where
  | emptyByte
  | buffer (h : Res)

/-- `fsd_source_reader_t`: a mapping, or a descriptor with its buffers. -/
structure SourceReader where
  self : Res
  mmapReader : Option MmapReader
  scratch : Option Res
  slurp : Option Slurp
  fd : Option Res

/-- `open_direct` -/
def openDirect (E : ReaderEnv) (self : Res) : ResM (Except FsdError SourceReader) := do
  match ← acquire .descriptor E.openFile with
  | .error e => pure (.error e)
  | .ok fd =>
    match E.stat with
    | some e =>
      release fd
      pure (.error e)
    | none =>
      if !E.sizeFits then do
        release fd
        pure (.error .io)
      else do
        match ← malloc E.scratch with
        | .error e =>
          release fd
          pure (.error e)
        | .ok scratch => pure (.ok ⟨self, none, some scratch, none, some fd⟩)

/-- `open_mmap` -/
def openMmap (E : ReaderEnv) (alloc : Bool) (self : Res) : ResM (Except FsdError SourceReader) := do
  match ← mmapOpen E alloc with
  | .error e => pure (.error e)
  | .ok r => pure (.ok ⟨self, some r, none, none, none⟩)

/-- Answers to `fsd_source_reader_open`: the reader itself, the `stat` that `FSD_SOURCE_AUTO` makes,
and the backend that comes out. -/
structure SourceEnv where
  reader : ReaderEnv
  alloc : Bool
  auto : Option FsdError
  direct : Bool

/-- `fsd_source_reader_open` -/
def sourceReaderOpen (E : SourceEnv) : ResM (Except FsdError SourceReader) := do
  match ← malloc E.alloc with
  | .error e => pure (.error e)
  | .ok self =>
    match E.auto with
    | some e =>
      release self
      pure (.error e)
    | none =>
      match ← (if E.direct then openDirect E.reader self else openMmap E.reader E.reader.alloc self) with
      | .error e =>
        release self
        pure (.error e)
      | .ok r => pure (.ok r)

/-- `direct_materialize` -/
def directMaterialize (E : ReaderEnv) (r : SourceReader) : ResM (Except FsdError Unit × SourceReader) :=
  if r.slurp.isSome then pure (.ok (), r)
  else if E.empty then pure (.ok (), { r with slurp := some .emptyByte })
  else do
    match ← malloc E.slurp with
    | .error e => pure (.error e, r)
    | .ok buf =>
      match E.pread with
      | some e =>
        release buf
        pure (.error e, r)
      | none => pure (.ok (), { r with slurp := some (.buffer buf) })

/-- `fsd_source_reader_data` -/
def sourceReaderData (E : ReaderEnv) (r : SourceReader) : ResM (Except FsdError Unit × SourceReader) :=
  if r.mmapReader.isSome then pure (.ok (), r) else directMaterialize E r

def Slurp.free : Slurp → ResM Unit
  | .emptyByte => pure ()
  | .buffer h => release h

/-- `fsd_source_reader_close` -/
def sourceReaderClose (r : SourceReader) : ResM Unit := do
  whenSome mmapClose r.mmapReader
  whenSome release r.scratch
  whenSome Slurp.free r.slurp
  whenSome release r.fd
  release r.self

def Slurp.own : Slurp → Handles Kind
  | .emptyByte => 0
  | .buffer h => {h}

def SourceReader.own (r : SourceReader) : Handles Kind :=
  ofOption MmapReader.own r.mmapReader + (ofOption (fun h => {h}) r.scratch +
    (ofOption Slurp.own r.slurp + (ofOption (fun h => {h}) r.fd + {r.self})))

theorem triple_openDirect (E : ReaderEnv) (self : Res) :
    Triple {self} (openDirect E self)
      (fun r m => m = match r with | .ok reader => reader.own | .error _ => {self}) := by
  refine (creates_acquire _ _).cases (fun e => triple_pure rfl) fun fd => ?_
  cases hstat : E.stat with
  | some e => exact (destroys_release fd).then (triple_pure rfl)
  | none =>
    refine triple_ite (fun _ => ?_) fun _ => ?_
    · exact (destroys_release fd).then (triple_pure rfl)
    refine (creates_malloc _).cases (fun e => ?_) fun scratch => triple_pure ?_
    · exact (destroys_release fd).then (triple_pure rfl)
    · simp [SourceReader.own]

theorem triple_openMmap (E : ReaderEnv) (alloc : Bool) (self : Res) :
    Triple {self} (openMmap E alloc self)
      (fun r m => m = match r with | .ok reader => reader.own | .error _ => {self}) := by
  refine (creates_mmapOpen E alloc).cases (fun e => triple_pure rfl) fun r => triple_pure ?_
  simp [SourceReader.own]

theorem creates_sourceReaderOpen (E : SourceEnv) :
    Creates (sourceReaderOpen E) (ofExcept SourceReader.own) := by
  refine (creates_malloc E.alloc).cases (fun e => triple_pure rfl) fun self => ?_
  rw [add_zero]
  cases hauto : E.auto with
  | some e =>
    exact Triple.of_eq (add_zero _).symm ((destroys_release self).then (triple_pure rfl))
  | none =>
    have hopen : Triple {self}
        (if E.direct then openDirect E.reader self else openMmap E.reader E.reader.alloc self) _ :=
      triple_ite (fun _ => triple_openDirect E.reader self) fun _ => triple_openMmap E.reader _ self
    apply hopen.bind
    rintro r m rfl
    cases r with
    | error e => exact Triple.of_eq (add_zero _).symm ((destroys_release self).then (triple_pure rfl))
    | ok reader => exact triple_pure rfl

/-- Whatever comes of it, the reader owns what is held. -/
theorem triple_sourceReaderData (E : ReaderEnv) (r : SourceReader) :
    Triple r.own (sourceReaderData E r) (fun p m => m = p.2.own) := by
  refine triple_ite (fun _ => triple_pure rfl) fun _ => ?_
  refine triple_ite (fun _ => triple_pure rfl) fun hslurp => ?_
  have hnone : r.slurp = none := by simpa using hslurp
  refine triple_ite (fun _ => triple_pure ?_) fun _ => ?_
  · simp [SourceReader.own, hnone, Slurp.own]
  refine (creates_malloc _).cases (fun e => triple_pure rfl) fun buf => ?_
  cases hpread : E.pread with
  | some e => exact (destroys_release buf).then (triple_pure rfl)
  | none =>
    refine triple_pure ?_
    simp only [SourceReader.own, hnone, Slurp.own, ofOption_none, ofOption_some, zero_add]
    abel

theorem Slurp.destroys_free (s : Slurp) : Destroys s.own s.free := by
  cases s with
  | emptyByte => exact destroys_pure
  | buffer h => exact destroys_release h

theorem destroys_sourceReaderClose (r : SourceReader) : Destroys r.own (sourceReaderClose r) := by
  apply (destroys_whenSome destroys_mmapClose r.mmapReader).then
  apply (destroys_releaseSome r.scratch).then
  apply (destroys_whenSome Slurp.destroys_free r.slurp).then
  exact (destroys_releaseSome r.fd).then (destroys_release r.self)

/-! ### Pools -/

/-- `fsd_memory_pool_t`: itself, and two allocations for each chunk. -/
structure Pool where
  self : Res
  chunks : List (Res × Res)

/-- `create_chunk` -/
def createChunk (header data : Bool) : ResM (Except FsdError (Res × Res)) := do
  match ← malloc header with
  | .error e => pure (.error e)
  | .ok chunk =>
    match ← malloc data with
    | .error e =>
      release chunk
      pure (.error e)
    | .ok bytes => pure (.ok (chunk, bytes))

structure PoolEnv where
  alloc : Bool
  header : Bool
  data : Bool

/-- `fsd_pool_create` -/
def poolCreate (E : PoolEnv) : ResM (Except FsdError Pool) := do
  match ← malloc E.alloc with
  | .error e => pure (.error e)
  | .ok self =>
    match ← createChunk E.header E.data with
    | .error e =>
      release self
      pure (.error e)
    | .ok chunk => pure (.ok ⟨self, [chunk]⟩)

/-- `fsd_pool_alloc` when the current chunk is full. -/
def poolGrow (pool : Pool) (grow : Bool × Bool) : ResM (Bool × Pool) := do
  match ← createChunk grow.1 grow.2 with
  | .error _ => pure (false, pool)
  | .ok chunk => pure (true, { pool with chunks := pool.chunks ++ [chunk] })

/-- Several allocations, until one fails; each of the list needs a new chunk. -/
def poolAllocs (pool : Pool) : List (Bool × Bool) → ResM (Bool × Pool)
  | [] => pure (true, pool)
  | grow :: rest => do
    let (done, pool) ← poolGrow pool grow
    if done then poolAllocs pool rest else pure (false, pool)

def freeChunks : List (Res × Res) → ResM Unit
  | [] => pure ()
  | chunk :: rest => do
    release chunk.2
    release chunk.1
    freeChunks rest

/-- `fsd_pool_destroy` -/
def poolDestroy (pool : Pool) : ResM Unit := do
  freeChunks pool.chunks
  release pool.self

def chunkOwn (chunk : Res × Res) : Handles Kind := {chunk.2} + {chunk.1}

def Pool.own (pool : Pool) : Handles Kind := (pool.chunks.map chunkOwn).sum + {pool.self}

theorem creates_createChunk (header data : Bool) : Creates (createChunk header data) (ofExcept chunkOwn) := by
  refine (creates_malloc header).cases (fun e => triple_pure rfl) fun chunk => ?_
  refine (creates_malloc data).cases (fun e => ?_) fun bytes => triple_pure ?_
  · exact (destroys_release chunk).then (triple_pure rfl)
  · simp [chunkOwn]

theorem creates_poolCreate (E : PoolEnv) : Creates (poolCreate E) (ofExcept Pool.own) := by
  refine (creates_malloc E.alloc).cases (fun e => triple_pure rfl) fun self => ?_
  refine (creates_createChunk E.header E.data).cases (fun e => ?_) fun chunk => triple_pure ?_
  · exact (destroys_release self).then (triple_pure rfl)
  · simp [Pool.own]

theorem triple_poolGrow (pool : Pool) (grow : Bool × Bool) :
    Triple pool.own (poolGrow pool grow) (fun p m => m = p.2.own) := by
  refine (creates_createChunk grow.1 grow.2).cases (fun e => triple_pure rfl) fun chunk => triple_pure ?_
  simp only [Pool.own, List.map_append, List.sum_append, List.map_singleton, List.sum_singleton]
  abel

theorem triple_poolAllocs (pool : Pool) (grows : List (Bool × Bool)) :
    Triple pool.own (poolAllocs pool grows) (fun p m => m = p.2.own) := by
  induction grows generalizing pool with
  | nil => exact triple_pure rfl
  | cons grow rest ih =>
    apply (triple_poolGrow pool grow).bind
    rintro ⟨done, pool'⟩ m rfl
    exact triple_ite (fun _ => ih pool') fun _ => triple_pure rfl

theorem destroys_freeChunks (chunks : List (Res × Res)) :
    Destroys (chunks.map chunkOwn).sum (freeChunks chunks) := by
  induction chunks with
  | nil => exact destroys_pure
  | cons chunk rest ih =>
    rw [List.map_cons, List.sum_cons, chunkOwn, add_assoc]
    exact (destroys_release chunk.2).then ((destroys_release chunk.1).then ih)

theorem destroys_poolDestroy (pool : Pool) : Destroys pool.own (poolDestroy pool) :=
  (destroys_freeChunks pool.chunks).then (destroys_release pool.self)

/-! ### The walk over a filesystem -/

/-- `dir_stack_t`, with the copies of the paths on it. -/
structure DirStack where
  v : Option Res
  cap : ℕ
  paths : List Res

/-- The copy of the path in `dir_push`. -/
def pushPath (st : DirStack) (dup : Bool) : ResM (Bool × DirStack) := do
  match ← malloc dup with
  | .error _ => pure (false, st)
  | .ok h => pure (true, { st with paths := h :: st.paths })

/-- `dir_push` -/
def dirPush (st : DirStack) (grow dup : Bool) : ResM (Bool × DirStack) :=
  if st.paths.length = st.cap then do
    let (done, v) ← realloc st.v grow
    if done then pushPath { st with v := v, cap := if st.cap = 0 then 64 else st.cap * 2 } dup
    else pure (false, { st with v := v })
  else pushPath st dup

/-- `extent_append`, as often as the list grows, until an allocation fails. -/
def growExtents (v : Option Res) : List Bool → ResM (Bool × Option Res)
  | [] => pure (true, v)
  | grow :: rest => do
    let (done, v) ← realloc v grow
    if done then growExtents v rest else pure (false, v)

/-- What comes of one entry of a directory. -/
inductive Entry where
  | skipped
  | directory (grow dup : Bool)
  | file (extents : List Bool) (usable : Bool)

/-- What comes of one directory: how its extents grow, whether it can be read, and the entries
of its blocks. -/
structure Directory where
  extents : List Bool
  usable : Bool
  blocks : List (List Entry)

/-- Memory of the walk, the state of its callback, and `stopped`. -/
structure Walk (σ : Type) where
  stack : DirStack
  dirExt : Option Res
  fileExt : Option Res
  user : σ
  stopped : Bool

section Walk
variable {σ : Type} (cb : σ → ResM (Bool × σ))

/-- One entry; `false` when a push fails. -/
def walkEntry (t : Walk σ) : Entry → ResM (Bool × Walk σ)
  | .skipped => pure (true, t)
  | .directory grow dup => do
    let (done, stack) ← dirPush t.stack grow dup
    pure (done, { t with stack := stack })
  | .file extents usable => do
    let (done, fileExt) ← growExtents t.fileExt extents
    if done && usable then do
      let (stop, user) ← cb t.user
      pure (true, { t with fileExt := fileExt, user := user, stopped := t.stopped || stop })
    else pure (true, { t with fileExt := fileExt })

/-- The entries of one block; `stopped` is not looked at between them. -/
def walkBlock (t : Walk σ) : List Entry → ResM (Bool × Walk σ)
  | [] => pure (true, t)
  | entry :: rest => do
    let (goOn, t) ← walkEntry cb t entry
    if goOn then walkBlock t rest else pure (false, t)

def walkBlocks (t : Walk σ) : List (List Entry) → ResM (Bool × Walk σ)
  | [] => pure (true, t)
  | block :: rest =>
    if t.stopped then pure (true, t)
    else do
      let (goOn, t) ← walkBlock cb t block
      if goOn then walkBlocks t rest else pure (false, t)

/-- One directory; `path` is its path, which is no longer on the stack. -/
def walkDirectory (t : Walk σ) (path : Res) (d : Directory) : ResM (Bool × Walk σ) := do
  let (done, dirExt) ← growExtents t.dirExt d.extents
  let t := { t with dirExt := dirExt }
  if done && d.usable then do
    let (goOn, t) ← walkBlocks cb t d.blocks
    release path
    pure (goOn, t)
  else do
    release path
    pure (true, t)

/-- `while (stack.n > 0 && !stopped)`, with one answer for each turn. -/
def walkLoop (t : Walk σ) : List Directory → ResM (Bool × Walk σ)
  | [] => pure (true, t)
  | d :: rest =>
    match t.stack.paths with
    | [] => pure (true, t)
    | path :: paths =>
      if t.stopped then pure (true, t)
      else do
        let (goOn, t) ← walkDirectory cb { t with stack := { t.stack with paths := paths } } path d
        if goOn then walkLoop t rest else pure (false, t)

def freePaths : List Res → ResM Unit
  | [] => pure ()
  | path :: rest => do
    release path
    freePaths rest

/-- Answers to the allocations before the loop, and what comes of the directories. -/
structure WalkEnv where
  visited : Bool
  pathBuf : Bool
  rootGrow : Bool
  rootDup : Bool
  directories : List Directory

/-- `out:` -/
def walkOut (t : Walk σ) (visited pathBuf : Option Res) : ResM Unit := do
  freePaths t.stack.paths
  whenSome release t.stack.v
  whenSome release t.dirExt
  whenSome release t.fileExt
  whenSome release visited
  whenSome release pathBuf

/-- `fsd_extfs_walk` -/
def extfsWalk (E : WalkEnv) (user : σ) : ResM (Except FsdError Unit × σ) := do
  let visited := (← malloc E.visited).toOption
  let pathBuf := (← malloc E.pathBuf).toOption
  let t : Walk σ := ⟨⟨none, 0, []⟩, none, none, user, false⟩
  if visited.isNone || pathBuf.isNone then do
    walkOut t visited pathBuf
    pure (.error .outOfMemory, user)
  else do
    let (done, stack) ← dirPush t.stack E.rootGrow E.rootDup
    let t := { t with stack := stack }
    if done then do
      let (finished, t) ← walkLoop cb t E.directories
      walkOut t visited pathBuf
      pure (if finished then .ok () else .error .outOfMemory, t.user)
    else do
      walkOut t visited pathBuf
      pure (.error .outOfMemory, t.user)

end Walk

def DirStack.own (st : DirStack) : Handles Kind :=
  (st.paths.map fun h => {h}).sum + ofOption (fun h => {h}) st.v

theorem triple_pushPath (st : DirStack) (dup : Bool) :
    Triple st.own (pushPath st dup) (fun p m => m = p.2.own) := by
  refine (creates_malloc dup).cases (fun e => triple_pure rfl) fun h => triple_pure ?_
  rw [DirStack.own, DirStack.own, List.map_cons, List.sum_cons, add_assoc]

theorem triple_dirPush (st : DirStack) (grow dup : Bool) :
    Triple st.own (dirPush st grow dup) (fun p m => m = p.2.own) := by
  refine triple_ite (fun _ => ?_) fun _ => triple_pushPath st dup
  apply (triple_realloc st.v grow).framed (st.paths.map fun h => {h}).sum (add_comm _ _)
  rintro ⟨done, v⟩ _ rfl
  apply Triple.of_eq (add_comm _ _)
  exact triple_ite (fun _ => triple_pushPath ⟨v, _, st.paths⟩ dup) fun _ => triple_pure rfl

theorem triple_growExtents (v : Option Res) (grows : List Bool) :
    Triple (ofOption (fun h => {h}) v) (growExtents v grows)
      (fun p m => m = ofOption (fun h => {h}) p.2) := by
  induction grows generalizing v with
  | nil => exact triple_pure rfl
  | cons grow rest ih =>
    apply (triple_realloc v grow).bind
    rintro ⟨done, v'⟩ _ rfl
    exact triple_ite (fun _ => ih v') fun _ => triple_pure rfl

def Walk.own {σ : Type} (user : σ → Handles Kind) (t : Walk σ) : Handles Kind :=
  t.stack.own + (ofOption (fun h => {h}) t.dirExt + (ofOption (fun h => {h}) t.fileExt + user t.user))

section Walk
variable {σ : Type} {cb : σ → ResM (Bool × σ)} {ownUser : σ → Handles Kind}

theorem triple_walkEntry (hcb : ∀ s, Triple (ownUser s) (cb s) fun p m => m = ownUser p.2) (t : Walk σ)
    (entry : Entry) : Triple (t.own ownUser) (walkEntry cb t entry) (fun p m => m = p.2.own ownUser) := by
  cases entry with
  | skipped => exact triple_pure rfl
  | directory grow dup =>
    apply (triple_dirPush t.stack grow dup).framed _ rfl
    rintro ⟨done, stack⟩ _ rfl
    exact triple_pure rfl
  | file extents usable =>
    apply (triple_growExtents t.fileExt extents).framed
      (t.stack.own + (ofOption (fun h => {h}) t.dirExt + ownUser t.user)) (by rw [Walk.own]; abel)
    rintro ⟨done, fileExt⟩ _ rfl
    refine triple_ite (fun _ => ?_) fun _ => triple_pure (by simp only [Walk.own]; abel)
    apply (hcb t.user).framed
      (t.stack.own + (ofOption (fun h => {h}) t.dirExt + ofOption (fun h => {h}) fileExt)) (by abel)
    rintro ⟨stop, user⟩ _ rfl
    exact triple_pure (by simp only [Walk.own]; abel)

theorem triple_walkBlock (hcb : ∀ s, Triple (ownUser s) (cb s) fun p m => m = ownUser p.2) (t : Walk σ)
    (entries : List Entry) : Triple (t.own ownUser) (walkBlock cb t entries) (fun p m => m = p.2.own ownUser) := by
  induction entries generalizing t with
  | nil => exact triple_pure rfl
  | cons entry rest ih =>
    apply (triple_walkEntry hcb t entry).bind
    rintro ⟨goOn, t'⟩ _ rfl
    exact triple_ite (fun _ => ih t') fun _ => triple_pure rfl

theorem triple_walkBlocks (hcb : ∀ s, Triple (ownUser s) (cb s) fun p m => m = ownUser p.2) (t : Walk σ)
    (blocks : List (List Entry)) :
    Triple (t.own ownUser) (walkBlocks cb t blocks) (fun p m => m = p.2.own ownUser) := by
  induction blocks generalizing t with
  | nil => exact triple_pure rfl
  | cons block rest ih =>
    refine triple_ite (fun _ => triple_pure rfl) fun _ => ?_
    apply (triple_walkBlock hcb t block).bind
    rintro ⟨goOn, t'⟩ _ rfl
    exact triple_ite (fun _ => ih t') fun _ => triple_pure rfl

theorem triple_walkDirectory (hcb : ∀ s, Triple (ownUser s) (cb s) fun p m => m = ownUser p.2) (t : Walk σ)
    (path : Res) (d : Directory) :
    Triple ({path} + t.own ownUser) (walkDirectory cb t path d) (fun p m => m = p.2.own ownUser) := by
  apply (triple_growExtents t.dirExt d.extents).framed
    ({path} + (t.stack.own + (ofOption (fun h => {h}) t.fileExt + ownUser t.user))) (by rw [Walk.own]; abel)
  rintro ⟨done, dirExt⟩ _ rfl
  have hown : ofOption (fun h => {h}) dirExt + ({path} + (t.stack.own +
      (ofOption (fun h => {h}) t.fileExt + ownUser t.user))) =
      {path} + Walk.own ownUser { t with dirExt := dirExt } := by
    simp only [Walk.own]
    abel
  apply Triple.of_eq hown
  refine triple_ite (fun _ => ?_) fun _ => (destroys_release path).then (triple_pure rfl)
  apply (triple_walkBlocks hcb { t with dirExt := dirExt } d.blocks).framed {path} (add_comm _ _)
  rintro ⟨goOn, t'⟩ _ rfl
  apply Triple.of_eq (add_comm _ _)
  exact (destroys_release path).then (triple_pure rfl)

theorem triple_walkLoop (hcb : ∀ s, Triple (ownUser s) (cb s) fun p m => m = ownUser p.2) (t : Walk σ)
    (directories : List Directory) :
    Triple (t.own ownUser) (walkLoop cb t directories) (fun p m => m = p.2.own ownUser) := by
  induction directories generalizing t with
  | nil => exact triple_pure rfl
  | cons d rest ih =>
    unfold walkLoop
    split
    · exact triple_pure rfl
    · rename_i path paths hpaths
      refine triple_ite (fun _ => triple_pure rfl) fun _ => ?_
      have hpop : t.own ownUser = {path} + Walk.own ownUser { t with stack := { t.stack with paths := paths } } := by
        simp only [Walk.own, DirStack.own, hpaths, List.map_cons, List.sum_cons]
        abel
      apply Triple.of_eq hpop
      apply (triple_walkDirectory hcb _ path d).bind
      rintro ⟨goOn, t'⟩ _ rfl
      exact triple_ite (fun _ => ih t') fun _ => triple_pure rfl

theorem destroys_freePaths (paths : List Res) :
    Destroys (paths.map fun h => ({h} : Handles Kind)).sum (freePaths paths) := by
  induction paths with
  | nil => exact destroys_pure
  | cons path rest ih =>
    rw [List.map_cons, List.sum_cons]
    exact (destroys_release path).then ih

theorem triple_walkOut (t : Walk σ) (visited pathBuf : Option Res) :
    Triple (t.own ownUser + (ofOption (fun h => {h}) visited + ofOption (fun h => {h}) pathBuf))
      (walkOut t visited pathBuf) (fun _ m => m = ownUser t.user) := by
  have hown : t.own ownUser + (ofOption (fun h => {h}) visited + ofOption (fun h => {h}) pathBuf) =
      (t.stack.paths.map fun h => {h}).sum + (ofOption (fun h => {h}) t.stack.v +
        (ofOption (fun h => {h}) t.dirExt + (ofOption (fun h => {h}) t.fileExt +
          (ofOption (fun h => {h}) visited + (ofOption (fun h => {h}) pathBuf + ownUser t.user))))) := by
    rw [Walk.own, DirStack.own]
    abel
  apply Triple.of_eq hown
  apply (destroys_freePaths t.stack.paths).then
  apply (destroys_releaseSome t.stack.v).then
  apply (destroys_releaseSome t.dirExt).then
  apply (destroys_releaseSome t.fileExt).then
  apply (destroys_releaseSome visited).then
  apply (destroys_releaseSome pathBuf).frame.imp
  rintro _ _ ⟨_, rfl, rfl⟩
  exact zero_add _

theorem ofOption_toOption {ε : Type} (own : Res → Handles Kind) (r : Except ε Res) :
    ofOption own r.toOption = ofExcept own r := by
  cases r <;> rfl

/-- A walk leaves nothing behind but what its callback does. -/
theorem triple_extfsWalk (hcb : ∀ s, Triple (ownUser s) (cb s) fun p m => m = ownUser p.2) (E : WalkEnv)
    (user : σ) : Triple (ownUser user) (extfsWalk cb E user) (fun p m => m = ownUser p.2) := by
  apply (creates_malloc E.visited).then
  intro visited
  apply (creates_malloc E.pathBuf).then
  intro pathBuf
  rw [← ofOption_toOption, ← ofOption_toOption]
  generalize visited.toOption = visited
  generalize pathBuf.toOption = pathBuf
  have hstart : ofOption (fun h => {h}) pathBuf + (ofOption (fun h => {h}) visited + ownUser user) =
      Walk.own ownUser ⟨⟨none, 0, []⟩, none, none, user, false⟩ +
        (ofOption (fun h => {h}) visited + ofOption (fun h => {h}) pathBuf) := by
    simp only [Walk.own, DirStack.own, List.map_nil, List.sum_nil, ofOption_none, zero_add]
    abel
  apply Triple.of_eq hstart
  refine triple_ite (fun _ => ?_) fun _ => ?_
  · apply (triple_walkOut _ visited pathBuf).bind
    rintro _ _ rfl
    exact triple_pure rfl
  apply (triple_dirPush ⟨none, 0, []⟩ E.rootGrow E.rootDup).framed (ownUser user +
    (ofOption (fun h => {h}) visited + ofOption (fun h => {h}) pathBuf))
    (by simp only [Walk.own, ofOption_none, zero_add]; abel)
  rintro ⟨done, stack⟩ _ rfl
  have hroot : stack.own + (ownUser user + (ofOption (fun h => {h}) visited + ofOption (fun h => {h}) pathBuf)) =
      Walk.own ownUser ⟨stack, none, none, user, false⟩ +
        (ofOption (fun h => {h}) visited + ofOption (fun h => {h}) pathBuf) := by
    simp only [Walk.own, ofOption_none, zero_add]
    abel
  apply Triple.of_eq hroot
  refine triple_ite (fun _ => ?_) fun _ => ?_
  · apply (triple_walkLoop hcb _ E.directories).framed _ rfl
    rintro ⟨finished, t⟩ _ rfl
    apply (triple_walkOut t visited pathBuf).bind
    rintro _ _ rfl
    exact triple_pure rfl
  · apply (triple_walkOut _ visited pathBuf).bind
    rintro _ _ rfl
    exact triple_pure rfl

end Walk

end Fsdiff.Resources
