import Fsdiff.Data.Align
import Fsdiff.Data.Region
import Fsdiff.Types

/-! `memory_pool.c`: an arena of chunks in a linked list, with one cursor in the current chunk.
A pointer to a chunk is its place in the order of creation. -/
namespace Fsdiff.Pool
open Align

/-- `fsd_pool_chunk_t`, with its own address. -/
structure Chunk where
  self : ℕ
  data : ℕ
  size : ℕ
  used : ℕ
  next : Option ℕ
  deriving DecidableEq, Repr

/-- `sizeof(fsd_pool_chunk_t)` -/
def sizeofChunk : ℕ := 32

/-- `fsd_memory_pool_t` with its own address, and the chunks made so far, in and out of the
list. -/
structure MemoryPool where
  self : ℕ
  heap : List Chunk
  chunks : Option ℕ
  current : Option ℕ
  chunkSize : ℕ
  totalAllocated : ℕ
  maxMemory : ℕ
  deriving DecidableEq, Repr

/-- `sizeof(fsd_memory_pool_t)` -/
def sizeofPool : ℕ := 72

/-- `SIZE_MAX` -/
def sizeMax : ℕ := 2 ^ 64 - 1

def Chunk.headerRegion (c : Chunk) : Region := ⟨c.self, sizeofChunk⟩

def Chunk.region (c : Chunk) : Region := ⟨c.data, c.size⟩

/-- What the pool has from its allocator. -/
def MemoryPool.held (p : MemoryPool) : List Region :=
  ⟨p.self, sizeofPool⟩ :: p.heap.flatMap fun c => [c.headerRegion, c.region]

/-- The chunk that `current` points to. -/
def MemoryPool.currentChunk (p : MemoryPool) : Option Chunk := p.current.bind (p.heap[·]?)

/-- A pool, and how often its allocator was asked for memory. -/
structure PoolState where
  pool : MemoryPool
  calls : ℕ
  deriving DecidableEq, Repr

/-! ### The functions -/

section Functions
variable (A : Allocator)

/-- `create_chunk` -/
def createChunk (size : ℕ) (st : PoolState) : Option ℕ × PoolState :=
  let p := st.pool
  if 0 < p.maxMemory ∧ p.maxMemory < u64 (p.totalAllocated + size) then (none, st)
  else
    match A.malloc st.calls p.held sizeofChunk with
    | none => (none, { st with calls := st.calls + 1 })
    | some self =>
      match A.malloc (st.calls + 1) (⟨self, sizeofChunk⟩ :: p.held) size with
      | none => (none, { st with calls := st.calls + 2 })
      | some data =>
        (some p.heap.length,
          { pool :=
              { p with
                heap := p.heap ++ [⟨self, data, size, 0, none⟩]
                totalAllocated := u64 (p.totalAllocated + size) }
            calls := st.calls + 2 })

/-- `fsd_pool_create` -/
def poolCreate (chunkSize maxMemory : ℕ) : Except FsdError PoolState :=
  if chunkSize = 0 then .error .invalidArg
  else
    match A.malloc 0 [] sizeofPool with
    | none => .error .outOfMemory
    | some self =>
      match createChunk A chunkSize ⟨⟨self, [], none, none, chunkSize, 0, maxMemory⟩, 1⟩ with
      | (none, _) => .error .outOfMemory
      | (some initial, st) =>
        .ok { st with pool := { st.pool with chunks := some initial, current := some initial } }

/-- Links a new chunk behind the current one, and makes it the current one. -/
def linkChunk (new : ℕ) (p : MemoryPool) : MemoryPool :=
  match p.current with
  | some i =>
    { p with
      heap := p.heap.modify i fun c => { c with next := some new }
      current := some new }
  | none => { p with chunks := some new, current := some new }

def setUsed (used : ℕ) (p : MemoryPool) : MemoryPool :=
  match p.current with
  | some i => { p with heap := p.heap.modify i fun c => { c with used := used } }
  | none => p

/-- The end of both allocation functions: a new chunk, the request at `place` of its start. -/
def allocFromNewChunk (newSize need : ℕ) (place : ℕ → ℕ) (st : PoolState) : Option ℕ × PoolState :=
  match createChunk A newSize st with
  | (none, st) => (none, st)
  | (some new, st) =>
    let p := linkChunk new st.pool
    match p.currentChunk with
    | none => (none, st)
    | some c =>
      let ptr := place c.data
      (some ptr, { st with pool := setUsed (u64 (u64Sub ptr c.data + need)) p })

/-- `fsd_pool_alloc` -/
def poolAlloc (size : ℕ) (st : PoolState) : Option ℕ × PoolState :=
  if size = 0 then (none, st)
  else if sizeMax - 7 < size then (none, st)
  else
    let size := roundUp 64 size 8
    let newSize := if st.pool.chunkSize < size then size else st.pool.chunkSize
    match st.pool.currentChunk with
    | none => allocFromNewChunk A newSize size id st
    | some chunk =>
      if size ≤ u64Sub chunk.size chunk.used then
        (some (chunk.data + chunk.used),
          { st with pool := setUsed (u64 (chunk.used + size)) st.pool })
      else allocFromNewChunk A newSize size id st

/-- The new chunk of `fsd_pool_alloc_aligned`. -/
def allocAlignedFromNewChunk (size alignment : ℕ) (st : PoolState) : Option ℕ × PoolState :=
  if sizeMax - (alignment - 1) < size then (none, st)
  else
    let newSize := size + alignment - 1
    let newSize := if newSize < st.pool.chunkSize then st.pool.chunkSize else newSize
    allocFromNewChunk A newSize size (roundUp 64 · alignment) st

/-- `fsd_pool_alloc_aligned` -/
def poolAllocAligned (size alignment : ℕ) (st : PoolState) : Option ℕ × PoolState :=
  if size = 0 ∨ alignment = 0 then (none, st)
  else if alignment &&& (alignment - 1) ≠ 0 then (none, st)
  else
    match st.pool.currentChunk with
    | none => allocAlignedFromNewChunk A size alignment st
    | some chunk =>
      let addr := u64 (chunk.data + chunk.used)
      let aligned := roundUp 64 addr alignment
      let padding := u64Sub aligned addr
      let freeSpace := u64Sub chunk.size chunk.used
      if padding ≤ freeSpace ∧ size ≤ freeSpace - padding then
        (some aligned, { st with pool := setUsed (u64 (chunk.used + (padding + size))) st.pool })
      else allocAlignedFromNewChunk A size alignment st

end Functions

/-- The chunks that `for (chunk = ptr; chunk; chunk = chunk->next)` runs over; the fuel is the
number of chunks, and absence means that the loop is still going after it. -/
def chainFrom (heap : List Chunk) : ℕ → Option ℕ → Option (List ℕ)
  | _, none => some []
  | 0, some _ => none
  | fuel + 1, some i => (chainFrom heap fuel (heap[i]?.bind Chunk.next)).map (i :: ·)

def poolChain (p : MemoryPool) : Option (List ℕ) := chainFrom p.heap p.heap.length p.chunks

/-- The body of the loop of `fsd_pool_reset`, over the chunks that it visits. -/
def resetUsed (ids : List ℕ) (heap : List Chunk) : List Chunk :=
  ids.foldl (fun heap i => heap.modify i fun c => { c with used := 0 }) heap

/-- The pool with the cursors of some chunks at their starts, and the first one current. -/
def MemoryPool.rewound (p : MemoryPool) (ids : List ℕ) : MemoryPool :=
  { p with
    heap := resetUsed ids p.heap
    current := p.chunks }

/-- `fsd_pool_reset`; its loop leaves the links as they are. -/
def poolReset (st : PoolState) : Option PoolState :=
  (poolChain st.pool).map fun ids => { st with pool := st.pool.rewound ids }

/-- `fsd_pool_destroy`: the addresses passed to `free_fn`, in this order. -/
def poolDestroy (p : MemoryPool) : Option (List ℕ) :=
  (poolChain p).map fun ids =>
    (ids.filterMap (p.heap[·]?)).flatMap (fun c => [c.data, c.self]) ++ [p.self]

/-! ### Calls -/

inductive PoolCall where
  | alloc (size : ℕ)
  | allocAligned (size alignment : ℕ)
  | reset
  deriving DecidableEq, Repr

/-- The arguments are of type `size_t`. -/
def PoolCall.Sized : PoolCall → Prop
  | .alloc size => size < 2 ^ 64
  | .allocAligned size alignment => size < 2 ^ 64 ∧ alignment < 2 ^ 64
  | .reset => True

def PoolCall.run (A : Allocator) : PoolCall → PoolState → Option (Option ℕ × PoolState)
  | .alloc size, st => some (poolAlloc A size st)
  | .allocAligned size alignment, st => some (poolAllocAligned A size alignment st)
  | .reset, st => (poolReset st).map fun st => (none, st)

/-- The size of the chunk that a request needs, unless it is refused or fits into the current
chunk. -/
def chunkRequest (p : MemoryPool) : PoolCall → Option ℕ
  | .alloc size =>
    let need := roundUp 64 size 8
    if size = 0 ∨ sizeMax - 7 < size ∨
        p.currentChunk.any (fun chunk => need ≤ u64Sub chunk.size chunk.used) then none
    else some (if p.chunkSize < need then need else p.chunkSize)
  | .allocAligned size alignment =>
    if size = 0 ∨ alignment = 0 ∨ alignment &&& (alignment - 1) ≠ 0 ∨
        p.currentChunk.any (fun chunk =>
          let addr := u64 (chunk.data + chunk.used)
          let padding := u64Sub (roundUp 64 addr alignment) addr
          let freeSpace := u64Sub chunk.size chunk.used
          padding ≤ freeSpace ∧ size ≤ freeSpace - padding) ∨
        sizeMax - (alignment - 1) < size then none
    else some (if size + alignment - 1 < p.chunkSize then p.chunkSize else size + alignment - 1)
  | .reset => none

/-- The call is given a new chunk: it needs one, within the limit, and the allocator has the
memory. -/
def TakesChunk (A : Allocator) (call : PoolCall) (st : PoolState) : Prop :=
  ∃ size, chunkRequest st.pool call = some size ∧ (createChunk A size st).1 ≠ none

/-! ### What a call does -/

/-- A chunk that the allocator may give to the pool. -/
structure Fresh (p : MemoryPool) (c : Chunk) : Prop where
  self_pos : 0 < c.self
  data_pos : 0 < c.data
  data_aligned : 8 ∣ c.data
  header_end : c.self + sizeofChunk ≤ 2 ^ 64
  region_end : c.data + c.size ≤ 2 ^ 64
  header_apart : ∀ r ∈ p.held, r.Apart c.headerRegion
  region_apart : ∀ r ∈ p.held, r.Apart c.region
  chunk_apart : c.headerRegion.Apart c.region
  next_eq : c.next = none

/-- The pool with the cursor of the chunk `i` moved. -/
def MemoryPool.moved (p : MemoryPool) (i used : ℕ) : MemoryPool :=
  { p with heap := p.heap.modify i fun c => { c with used := used } }

/-- The pool with a new chunk behind the chunk `i`. -/
def MemoryPool.grown (p : MemoryPool) (i : ℕ) (c : Chunk) : MemoryPool :=
  { p with
    heap := (p.heap.modify i fun c => { c with next := some p.heap.length }) ++ [c]
    current := some p.heap.length
    totalAllocated := u64 (p.totalAllocated + c.size) }

/-- How `need` bytes at `addr` are taken, behind `lead` bytes that are left unused: from the
current chunk, or from a new one if `takes`. -/
inductive Served (p : MemoryPool) (lead need addr : ℕ) (takes : Prop) : MemoryPool → Prop where
  | fits {i : ℕ} {c : Chunk} (hcur : p.current = some i) (hc : p.heap[i]? = some c)
      (hroom : c.used + lead + need ≤ c.size) (haddr : addr = c.data + c.used + lead)
      (htakes : ¬ takes) : Served p lead need addr takes (p.moved i (c.used + lead + need))
  | grows {i : ℕ} {c : Chunk} (hcur : p.current = some i) (hi : i < p.heap.length) (hc : Fresh p c)
      (hused : c.used = lead + need) (hroom : lead + need ≤ c.size) (haddr : addr = c.data + lead)
      (htakes : takes) : Served p lead need addr takes (p.grown i c)

/-- What holds of the pool between calls. -/
structure Inv (p : MemoryPool) : Prop where
  chunks_eq : p.chunks = some 0
  current_lt : ∃ i < p.heap.length, p.current = some i
  chunkSize_pos : 0 < p.chunkSize
  used_le : ∀ c ∈ p.heap, c.used ≤ c.size
  data_aligned : ∀ c ∈ p.heap, 8 ∣ c.data
  held_inside : ∀ r ∈ p.held, 0 < r.addr ∧ 0 < r.size ∧ r.addr + r.size ≤ 2 ^ 64
  held_apart : p.held.Pairwise Region.Apart
  next_gt : ∀ i c j, p.heap[i]? = some c → c.next = some j → i < j ∧ j < p.heap.length

section Heap
variable {p : MemoryPool} {i used : ℕ} {c : Chunk}

theorem modify_append_left {list : List Chunk} (hi : i < list.length) (f : Chunk → Chunk) :
    (list ++ [c]).modify i f = list.modify i f ++ [c] := by
  induction list generalizing i with
  | nil => simp at hi
  | cons d list ih =>
    cases i with
    | zero => rfl
    | succ i => simpa using ih (Nat.lt_of_succ_lt_succ hi)

theorem modify_append_last (list : List Chunk) (f : Chunk → Chunk) :
    (list ++ [c]).modify list.length f = list ++ [f c] := by
  induction list with
  | nil => rfl
  | cons d list ih => simpa using ih

theorem flatMap_modify {α : Type} {f : Chunk → Chunk} {g : Chunk → List α} (h : ∀ c, g (f c) = g c)
    (list : List Chunk) (i : ℕ) : (list.modify i f).flatMap g = list.flatMap g := by
  induction list generalizing i with
  | nil => simp
  | cons d list ih =>
    cases i with
    | zero => simp [h]
    | succ i => simp [ih]

theorem mem_modify {f : Chunk → Chunk} {list : List Chunk} (h : c ∈ list.modify i f) :
    c ∈ list ∨ ∃ d, list[i]? = some d ∧ c = f d := by
  obtain ⟨j, hj⟩ := List.mem_iff_getElem?.mp h
  rw [List.getElem?_modify] at hj
  obtain ⟨d, hd, rfl⟩ := Option.map_eq_some_iff.mp hj
  split_ifs with hij
  · exact .inr ⟨d, hij ▸ hd, rfl⟩
  · exact .inl (List.mem_of_getElem? hd)

theorem length_grown (p : MemoryPool) (i : ℕ) (c : Chunk) :
    (p.grown i c).heap.length = p.heap.length + 1 := by
  simp [MemoryPool.grown]

theorem getElem?_grown_last (p : MemoryPool) (i : ℕ) (c : Chunk) :
    (p.grown i c).heap[p.heap.length]? = some c := by
  simp [MemoryPool.grown]

theorem currentChunk_grown : (p.grown i c).currentChunk = some c := getElem?_grown_last p i c

theorem setUsed_grown : setUsed used (p.grown i c) = p.grown i { c with used := used } := by
  have hlast := modify_append_last (c := c)
    (p.heap.modify i fun c => { c with next := some p.heap.length })
    (fun c => { c with used := used })
  rw [List.length_modify] at hlast
  unfold setUsed MemoryPool.grown
  dsimp only
  rw [hlast]

theorem setUsed_eq (h : p.current = some i) : setUsed used p = p.moved i used := by
  simp [setUsed, MemoryPool.moved, h]

theorem mem_held (hc : c ∈ p.heap) : c.headerRegion ∈ p.held ∧ c.region ∈ p.held := by
  constructor
  · exact List.mem_cons_of_mem _ (List.mem_flatMap.mpr ⟨c, hc, by simp⟩)
  · exact List.mem_cons_of_mem _ (List.mem_flatMap.mpr ⟨c, hc, by simp⟩)

end Heap

/-! ### Chunks up to their cursors -/

/-- The chunks without their cursors. -/
def shape (heap : List Chunk) : List Chunk := heap.map fun c => { c with used := 0 }

section Shape
variable {heap heap' : List Chunk} {p : MemoryPool}

theorem shape_modify_used (heap : List Chunk) (i used : ℕ) :
    shape (heap.modify i fun c => { c with used := used }) = shape heap := by
  induction heap generalizing i with
  | nil => simp
  | cons c heap ih =>
    cases i with
    | zero => rfl
    | succ i =>
      rw [List.modify_succ_cons]
      exact congrArg (_ :: ·) (ih i)

theorem getElem?_of_shape (h : shape heap' = shape heap) {i : ℕ} {c' : Chunk}
    (hc : heap'[i]? = some c') : ∃ c, heap[i]? = some c ∧ c' = { c with used := c'.used } := by
  have hi := congrArg (·[i]?) h
  simp only [shape, List.getElem?_map, hc, Option.map_some] at hi
  obtain ⟨c, hc, heq⟩ := Option.map_eq_some_iff.mp hi.symm
  refine ⟨c, hc, ?_⟩
  rw [Chunk.mk.injEq] at heq
  obtain ⟨hself, hdata, hsize, -, hnext⟩ := heq
  cases c'
  simp_all

theorem held_of_shape {p' : MemoryPool} (hself : p'.self = p.self) (h : shape p'.heap = shape p.heap) :
    p'.held = p.held := by
  have hregions : ∀ heap : List Chunk, heap.flatMap (fun c => [c.headerRegion, c.region]) =
      (shape heap).flatMap fun c => [c.headerRegion, c.region] := by
    intro heap
    rw [shape, List.flatMap_map]
    rfl
  rw [MemoryPool.held, MemoryPool.held, hself, hregions p'.heap, hregions p.heap, h]

theorem length_of_shape (h : shape heap' = shape heap) : heap'.length = heap.length := by
  simpa [shape] using congrArg List.length h

theorem shape_resetUsed (ids : List ℕ) (heap : List Chunk) : shape (resetUsed ids heap) = shape heap := by
  induction ids generalizing heap with
  | nil => rfl
  | cons i ids ih => exact (ih _).trans (shape_modify_used heap i 0)

theorem getElem?_resetUsed (ids : List ℕ) (heap : List Chunk) (i : ℕ) :
    (resetUsed ids heap)[i]? = heap[i]?.map fun c => if i ∈ ids then { c with used := 0 } else c := by
  induction ids generalizing heap with
  | nil => simp [resetUsed]
  | cons j ids ih =>
    have hstep := ih (heap.modify j fun c => { c with used := 0 })
    rw [List.getElem?_modify] at hstep
    change (resetUsed ids _)[i]? = _
    rw [hstep, Option.map_eq_map, Option.map_map]
    congr 1
    funext c
    by_cases hij : i = j
    · subst hij
      by_cases hi : i ∈ ids <;> simp [hi]
    · have hji : ¬ j = i := fun h => hij h.symm
      by_cases hi : i ∈ ids <;> simp [hij, hji, hi]

end Shape

section Spec
variable {A : Allocator} {st : PoolState} {p : MemoryPool}

theorem createChunk_cases (size : ℕ) (st : PoolState) :
    ((createChunk A size st).1 = none ∧ (createChunk A size st).2.pool = st.pool) ∨
      ∃ self data, Fresh st.pool ⟨self, data, size, 0, none⟩ ∧
        (createChunk A size st).1 = some st.pool.heap.length ∧
        (createChunk A size st).2.pool =
          { st.pool with
            heap := st.pool.heap ++ [⟨self, data, size, 0, none⟩]
            totalAllocated := u64 (st.pool.totalAllocated + size) } := by
  unfold createChunk
  dsimp only
  split_ifs with hlimit
  · exact .inl ⟨rfl, rfl⟩
  cases hself : A.malloc st.calls st.pool.held sizeofChunk with
  | none => exact .inl ⟨rfl, rfl⟩
  | some self =>
    dsimp only
    cases hdata : A.malloc (st.calls + 1) (⟨self, sizeofChunk⟩ :: st.pool.held) size with
    | none => exact .inl ⟨rfl, rfl⟩
    | some data =>
      right
      refine ⟨self, data, ?_, rfl, rfl⟩
      have happart := A.apart hdata
      exact {
        self_pos := A.addr_pos hself
        data_pos := A.addr_pos hdata
        data_aligned := A.addr_aligned hdata
        header_end := A.end_le hself
        region_end := A.end_le hdata
        header_apart := A.apart hself
        region_apart := fun r hr => happart r (List.mem_cons_of_mem _ hr)
        chunk_apart := happart _ List.mem_cons_self
        next_eq := rfl }

/-- A new chunk is linked behind the current one, and serves the request. -/
theorem allocFromNewChunk_cases {i : ℕ} (hcur : st.pool.current = some i) (hi : i < st.pool.heap.length)
    (newSize need : ℕ) (place : ℕ → ℕ) :
    ((createChunk A newSize st).1 = none ∧ (allocFromNewChunk A newSize need place st).1 = none ∧
        (allocFromNewChunk A newSize need place st).2.pool = st.pool) ∨
      ∃ self data, Fresh st.pool ⟨self, data, newSize, 0, none⟩ ∧
        (createChunk A newSize st).1 ≠ none ∧
        (allocFromNewChunk A newSize need place st).1 = some (place data) ∧
        (allocFromNewChunk A newSize need place st).2.pool =
          st.pool.grown i ⟨self, data, newSize, u64 (u64Sub (place data) data + need), none⟩ := by
  unfold allocFromNewChunk
  rcases createChunk_cases (A := A) newSize st with ⟨hnone, hpool⟩ | ⟨self, data, hfresh, hsome, hpool⟩
  · left
    generalize hout : createChunk A newSize st = out at *
    obtain ⟨r, st'⟩ := out
    obtain rfl : r = none := hnone
    exact ⟨rfl, rfl, hpool⟩
  · right
    refine ⟨self, data, hfresh, ?_⟩
    generalize hout : createChunk A newSize st = out at *
    obtain ⟨r, st'⟩ := out
    obtain rfl : r = some st.pool.heap.length := hsome
    change st'.pool = _ at hpool
    have hlink : linkChunk st.pool.heap.length st'.pool =
        st.pool.grown i ⟨self, data, newSize, 0, none⟩ := by
      rw [hpool, linkChunk]
      dsimp only
      rw [hcur]
      dsimp only
      rw [modify_append_left hi]
      rfl
    have hdata : (linkChunk st.pool.heap.length st'.pool).currentChunk =
        some ⟨self, data, newSize, 0, none⟩ := by
      rw [hlink]
      exact currentChunk_grown
    refine ⟨by simp, ?_, ?_⟩
    · dsimp only
      rw [hdata]
    · dsimp only
      rw [hdata, hlink]
      exact setUsed_grown

theorem not_takesChunk {call : PoolCall} (h : chunkRequest st.pool call = none) :
    ¬ TakesChunk A call st := by
  rintro ⟨size, hsome, -⟩
  rw [h] at hsome
  cases hsome

theorem takesChunk_iff {call : PoolCall} {size : ℕ} (h : chunkRequest st.pool call = some size) :
    TakesChunk A call st ↔ (createChunk A size st).1 ≠ none := by
  constructor
  · rintro ⟨size', hsome, hne⟩
    rw [h] at hsome
    cases hsome
    exact hne
  · exact fun hne => ⟨size, h, hne⟩

theorem Inv.exists_current (h : Inv p) : ∃ i c, p.current = some i ∧ i < p.heap.length ∧
    p.heap[i]? = some c ∧ p.currentChunk = some c ∧ c ∈ p.heap ∧ c.used ≤ c.size ∧ 8 ∣ c.data ∧
    0 < c.data ∧ c.data + c.size ≤ 2 ^ 64 := by
  obtain ⟨i, hi, hcur⟩ := h.current_lt
  have hget : p.heap[i]? = some p.heap[i] := List.getElem?_eq_getElem hi
  have hmem : p.heap[i] ∈ p.heap := List.getElem_mem hi
  have hin := h.held_inside _ (mem_held hmem).2
  refine ⟨i, p.heap[i], hcur, hi, hget, ?_, hmem, h.used_le _ hmem, h.data_aligned _ hmem, hin.1, hin.2.2⟩
  rw [MemoryPool.currentChunk, hcur]
  exact hget

/-- What both functions do with a new chunk, for a request that is placed in it. -/
theorem allocFromNewChunk_served (hinv : Inv st.pool) {call : PoolCall} {newSize : ℕ} (need : ℕ)
    (place : ℕ → ℕ) (hreq : chunkRequest st.pool call = some newSize)
    (hplace : ∀ data, 0 < data → data + newSize ≤ 2 ^ 64 →
      data ≤ place data ∧ place data + need ≤ data + newSize) (hneed : 0 < need) :
    ((allocFromNewChunk A newSize need place st).1 = none ∧
        (allocFromNewChunk A newSize need place st).2.pool = st.pool ∧ ¬ TakesChunk A call st) ∨
      ∃ addr lead, (allocFromNewChunk A newSize need place st).1 = some addr ∧
        Served st.pool lead need addr (TakesChunk A call st)
          (allocFromNewChunk A newSize need place st).2.pool ∧
        ∃ data, 0 < data ∧ 8 ∣ data ∧ data + newSize ≤ 2 ^ 64 ∧ addr = place data ∧ addr = data + lead := by
  obtain ⟨i, c, hcur, hi, -⟩ := hinv.exists_current
  rcases allocFromNewChunk_cases (A := A) hcur hi newSize need place with
    ⟨hnone, hres, hpool⟩ | ⟨self, data, hfresh, hsome, hres, hpool⟩
  · left
    refine ⟨hres, hpool, ?_⟩
    rw [takesChunk_iff hreq]
    exact not_not.mpr hnone
  · right
    have hpos : 0 < data := hfresh.data_pos
    have hend : data + newSize ≤ 2 ^ 64 := hfresh.region_end
    obtain ⟨hle, hroom⟩ := hplace data hpos hend
    have hsub : u64Sub (place data) data = place data - data := u64Sub_of_le hle (by omega)
    have hused : u64 (place data - data + need) = place data - data + need := u64_of_lt (by omega)
    rw [hsub, hused] at hpool
    have haddr : place data = data + (place data - data) := by omega
    refine ⟨place data, place data - data, hres, ?_, data, hpos, hfresh.data_aligned, hend, rfl, haddr⟩
    rw [hpool]
    apply Served.grows hcur hi _ rfl _ haddr ((takesChunk_iff hreq).mpr hsome)
    · exact { hfresh with }
    · change place data - data + need ≤ newSize
      omega

theorem poolAlloc_cases (hinv : Inv st.pool) {size : ℕ} (hsize : size < 2 ^ 64) :
    ((poolAlloc A size st).1 = none ∧ (poolAlloc A size st).2.pool = st.pool ∧
        ¬ TakesChunk A (.alloc size) st) ∨
      ∃ addr need, (poolAlloc A size st).1 = some addr ∧ 0 < size ∧ size ≤ need ∧ 8 ∣ need ∧
        Served st.pool 0 need addr (TakesChunk A (.alloc size) st) (poolAlloc A size st).2.pool := by
  unfold poolAlloc
  by_cases h0 : size = 0
  · rw [if_pos h0]
    exact .inl ⟨rfl, rfl, not_takesChunk (if_pos (.inl h0))⟩
  rw [if_neg h0]
  by_cases hmax : sizeMax - 7 < size
  · rw [if_pos hmax]
    exact .inl ⟨rfl, rfl, not_takesChunk (if_pos (.inr (.inl hmax)))⟩
  rw [if_neg hmax]
  unfold sizeMax at hmax
  have hbounds : size ≤ roundUp 64 size 8 ∧ roundUp 64 size 8 < size + 8 :=
    roundUp_bounds (w := 64) (k := 3) (by decide) (by omega)
  have hdvd : 8 ∣ roundUp 64 size 8 := dvd_roundUp (w := 64) (k := 3) (by decide)
  obtain ⟨i, c, hcur, hi, hget, hchunk, -, hused, -, hpos, hend⟩ := hinv.exists_current
  dsimp only
  rw [hchunk]
  dsimp only
  have hfree : u64Sub c.size c.used = c.size - c.used := u64Sub_of_le hused (by omega)
  by_cases hfits : roundUp 64 size 8 ≤ u64Sub c.size c.used
  · rw [if_pos hfits]
    right
    refine ⟨_, _, rfl, Nat.pos_of_ne_zero h0, hbounds.1, hdvd, ?_⟩
    rw [hfree] at hfits
    rw [setUsed_eq hcur, u64_of_lt (by omega)]
    have hnot : ¬ TakesChunk A (.alloc size) st :=
      not_takesChunk (if_pos (.inr (.inr (by rw [hchunk]; simpa [hfree] using hfits))))
    exact .fits hcur hget (by omega) rfl hnot
  · rw [if_neg hfits]
    have hreq : chunkRequest st.pool (.alloc size) = some (if st.pool.chunkSize < roundUp 64 size 8 then
        roundUp 64 size 8 else st.pool.chunkSize) := by
      apply if_neg
      rintro (h | h | h)
      · exact h0 h
      · unfold sizeMax at h
        exact hmax h
      · rw [hchunk] at h
        exact hfits (of_decide_eq_true h)
    have hnew : roundUp 64 size 8 ≤ if st.pool.chunkSize < roundUp 64 size 8 then
        roundUp 64 size 8 else st.pool.chunkSize := by
      split_ifs <;> omega
    rcases allocFromNewChunk_served (A := A) hinv (roundUp 64 size 8) id hreq
      (fun data _ _ => ⟨le_rfl, Nat.add_le_add_left hnew _⟩) (by omega) with
      hnone | ⟨addr, lead, hres, hserved, data, -, -, -, hplace, hlead⟩
    · exact .inl hnone
    · obtain rfl : lead = 0 := by
        change addr = data at hplace
        omega
      exact .inr ⟨addr, _, hres, Nat.pos_of_ne_zero h0, hbounds.1, hdvd, hserved⟩

/-- A request that ends in front of the top of memory has not wrapped on its way to the next
multiple of the alignment. -/
theorem lead_of_lt {k addr free : ℕ} (hk : k ≤ 64) (hlt : addr < 2 ^ 64) (hend : addr + free ≤ 2 ^ 64)
    (hfits : u64Sub (roundUp 64 addr (2 ^ k)) addr < free) :
    u64Sub (roundUp 64 addr (2 ^ k)) addr = roundUp 64 addr (2 ^ k) - addr ∧
      addr ≤ roundUp 64 addr (2 ^ k) ∧ roundUp 64 addr (2 ^ k) < addr + 2 ^ k := by
  have hle : addr ≤ roundUp 64 addr (2 ^ k) := by
    by_contra hbelow
    have hwrap : u64Sub (roundUp 64 addr (2 ^ k)) addr = roundUp 64 addr (2 ^ k) + (2 ^ 64 - addr) :=
      u64_of_lt (by omega)
    omega
  exact ⟨u64Sub_of_le hle (roundDown_lt (Nat.mod_lt _ (by decide))), hle, roundUp_lt hk hlt hle⟩

theorem poolAllocAligned_cases (hinv : Inv st.pool) {size alignment : ℕ} (hsize : size < 2 ^ 64)
    (halign : alignment < 2 ^ 64) :
    ((poolAllocAligned A size alignment st).1 = none ∧
        (poolAllocAligned A size alignment st).2.pool = st.pool ∧
        ¬ TakesChunk A (.allocAligned size alignment) st) ∨
      ∃ addr lead k, (poolAllocAligned A size alignment st).1 = some addr ∧ 0 < size ∧
        alignment = 2 ^ k ∧ alignment ∣ addr ∧ lead < alignment ∧
        Served st.pool lead size addr (TakesChunk A (.allocAligned size alignment) st)
          (poolAllocAligned A size alignment st).2.pool := by
  unfold poolAllocAligned
  by_cases h0 : size = 0 ∨ alignment = 0
  · rw [if_pos h0]
    refine .inl ⟨rfl, rfl, not_takesChunk (if_pos ?_)⟩
    exact h0.imp_right .inl
  rw [if_neg h0]
  by_cases hpow : alignment &&& (alignment - 1) ≠ 0
  · rw [if_pos hpow]
    exact .inl ⟨rfl, rfl, not_takesChunk (if_pos (.inr (.inr (.inl hpow))))⟩
  rw [if_neg hpow]
  rw [not_or] at h0
  obtain ⟨k, rfl⟩ : ∃ k, alignment = 2 ^ k :=
    (Nat.and_sub_one_eq_zero_iff_isPowerOfTwo h0.2).mp (not_not.mp hpow)
  have hk : k ≤ 64 := ((Nat.pow_lt_pow_iff_right (by decide)).mp halign).le
  obtain ⟨i, c, hcur, hi, hget, hchunk, -, hused, -, hpos, hend⟩ := hinv.exists_current
  have hfree : u64Sub c.size c.used = c.size - c.used := u64Sub_of_le hused (by omega)
  rw [hchunk]
  dsimp only
  rw [hfree]
  generalize haddr : u64 (c.data + c.used) = addr
  have hlt : addr < 2 ^ 64 := haddr ▸ u64_lt _
  by_cases hfits : u64Sub (roundUp 64 addr (2 ^ k)) addr ≤ c.size - c.used ∧
      size ≤ c.size - c.used - u64Sub (roundUp 64 addr (2 ^ k)) addr
  · rw [if_pos hfits]
    right
    have haddr' : addr = c.data + c.used := by
      rw [← haddr, u64_of_lt (by omega)]
    obtain ⟨hlead, hle, hup⟩ := lead_of_lt hk hlt (show addr + (c.size - c.used) ≤ 2 ^ 64 by omega)
      (by omega)
    rw [hlead] at hfits ⊢
    have hnot : ¬ TakesChunk A (.allocAligned size (2 ^ k)) st := by
      apply not_takesChunk
      apply if_pos
      refine .inr (.inr (.inr (.inl ?_)))
      rw [hchunk, Option.any_some, decide_eq_true_eq]
      rwa [haddr, hlead, hfree]
    refine ⟨_, roundUp 64 addr (2 ^ k) - addr, k, rfl, Nat.pos_of_ne_zero h0.1, rfl, dvd_roundUp hk, by omega, ?_⟩
    rw [setUsed_eq hcur, u64_of_lt (by omega), ← add_assoc]
    exact .fits hcur hget (by omega) (by omega) hnot
  rw [if_neg hfits]
  unfold allocAlignedFromNewChunk
  by_cases hmax : sizeMax - (2 ^ k - 1) < size
  · rw [if_pos hmax]
    exact .inl ⟨rfl, rfl, not_takesChunk (if_pos (.inr (.inr (.inr (.inr hmax)))))⟩
  rw [if_neg hmax]
  dsimp only
  have hreq : chunkRequest st.pool (.allocAligned size (2 ^ k)) =
      some (if size + 2 ^ k - 1 < st.pool.chunkSize then st.pool.chunkSize else size + 2 ^ k - 1) := by
    apply if_neg
    rintro (h | h | h | h | h)
    · exact h0.1 h
    · exact h0.2 h
    · exact hpow h
    · rw [hchunk, Option.any_some, decide_eq_true_eq] at h
      rw [haddr, hfree] at h
      exact hfits h
    · exact hmax h
  generalize hnew : (if size + 2 ^ k - 1 < st.pool.chunkSize then st.pool.chunkSize
    else size + 2 ^ k - 1) = newSize at *
  have hge : size + 2 ^ k - 1 ≤ newSize := by
    rw [← hnew]
    split_ifs <;> omega
  have hplace : ∀ data, 0 < data → data + newSize ≤ 2 ^ 64 →
      data ≤ roundUp 64 data (2 ^ k) ∧ roundUp 64 data (2 ^ k) < data + 2 ^ k := by
    intro data _ hdata
    exact roundUp_bounds hk (by omega)
  rcases allocFromNewChunk_served (A := A) hinv size (roundUp 64 · (2 ^ k)) hreq
    (fun data hpos hend => ⟨(hplace data hpos hend).1, by have := (hplace data hpos hend).2; omega⟩)
    (Nat.pos_of_ne_zero h0.1) with
    hnone | ⟨addr, lead, hres, hserved, data, hpos, -, hend, rfl, hlead⟩
  · exact .inl hnone
  · have hup := (hplace data hpos hend).2
    exact .inr ⟨_, lead, k, hres, Nat.pos_of_ne_zero h0.1, rfl, dvd_roundUp hk, by omega, hserved⟩

end Spec

/-! ### The invariant -/

section Invariant
variable {A : Allocator} {p p' : MemoryPool} {lead need addr : ℕ} {takes : Prop}

theorem regions_apart {heap : List Chunk}
    (h : (heap.flatMap fun c => [c.headerRegion, c.region]).Pairwise Region.Apart) {i j : ℕ}
    {c d : Chunk} (hc : heap[i]? = some c) (hd : heap[j]? = some d) (hij : i ≠ j) :
    c.region.Apart d.region := by
  rw [List.pairwise_flatMap] at h
  have hpair := List.pairwise_iff_getElem.mp h.2
  obtain ⟨hi, rfl⟩ := List.getElem?_eq_some_iff.mp hc
  obtain ⟨hj, rfl⟩ := List.getElem?_eq_some_iff.mp hd
  rcases Nat.lt_or_gt_of_ne hij with hlt | hlt
  · exact hpair i j hi hj hlt _ (by simp) _ (by simp)
  · exact (hpair j i hj hi hlt _ (by simp) _ (by simp)).symm

/-- Moving cursors within their chunks keeps the invariant. -/
theorem Inv.of_shape {q : MemoryPool} (h : Inv p) (hself : q.self = p.self) (hchunks : q.chunks = p.chunks)
    (hsize : q.chunkSize = p.chunkSize) (hshape : shape q.heap = shape p.heap)
    (hcurrent : ∃ i < q.heap.length, q.current = some i) (hused : ∀ c ∈ q.heap, c.used ≤ c.size) :
    Inv q := by
  have hheld := held_of_shape hself hshape
  exact {
    chunks_eq := hchunks.trans h.chunks_eq
    current_lt := hcurrent
    chunkSize_pos := hsize ▸ h.chunkSize_pos
    used_le := hused
    data_aligned := by
      intro c hc
      obtain ⟨i, hi⟩ := List.mem_iff_getElem?.mp hc
      obtain ⟨d, hd, heq⟩ := getElem?_of_shape hshape hi
      rw [heq]
      exact h.data_aligned d (List.mem_of_getElem? hd)
    held_inside := hheld ▸ h.held_inside
    held_apart := hheld ▸ h.held_apart
    next_gt := by
      intro i c j hc hnext
      obtain ⟨d, hd, heq⟩ := getElem?_of_shape hshape hc
      rw [length_of_shape hshape]
      rw [heq] at hnext
      exact h.next_gt i d j hd hnext }

theorem held_grown (p : MemoryPool) (i : ℕ) (c : Chunk) :
    (p.grown i c).held = p.held ++ [c.headerRegion, c.region] := by
  simp only [MemoryPool.held, MemoryPool.grown, List.flatMap_append, List.flatMap_singleton,
    List.cons_append]
  rw [flatMap_modify]
  exact fun _ => rfl

theorem getElem?_grown {i j : ℕ} {c d : Chunk} (h : (p.grown i c).heap[j]? = some d) :
    (∃ e, p.heap[j]? = some e ∧ d = if i = j then { e with next := some p.heap.length } else e) ∨
      j = p.heap.length ∧ d = c := by
  by_cases hj : j < p.heap.length
  · left
    rw [MemoryPool.grown, List.getElem?_append_left (by simpa using hj), List.getElem?_modify] at h
    obtain ⟨e, he, rfl⟩ := Option.map_eq_some_iff.mp h
    refine ⟨e, he, ?_⟩
    split_ifs <;> rfl
  · right
    have hlt := (List.getElem?_eq_some_iff.mp h).1
    rw [length_grown] at hlt
    obtain rfl : j = p.heap.length := by omega
    rw [getElem?_grown_last] at h
    exact ⟨rfl, (Option.some.inj h).symm⟩

theorem Inv.grown (h : Inv p) {i : ℕ} {c : Chunk} (hc : Fresh p c) (hused : c.used ≤ c.size)
    (hsize : 0 < c.size) : Inv (p.grown i c) := by
  have hmem : ∀ d ∈ (p.grown i c).heap, d = c ∨ ∃ e ∈ p.heap, d.used = e.used ∧ d.size = e.size ∧
      d.data = e.data := by
    intro d hd
    obtain ⟨j, hj⟩ := List.mem_iff_getElem?.mp hd
    rcases getElem?_grown hj with ⟨e, he, rfl⟩ | ⟨-, rfl⟩
    · refine .inr ⟨e, List.mem_of_getElem? he, ?_⟩
      split_ifs <;> exact ⟨rfl, rfl, rfl⟩
    · exact .inl rfl
  exact {
    chunks_eq := h.chunks_eq
    current_lt := ⟨p.heap.length, by rw [length_grown]; omega, rfl⟩
    chunkSize_pos := h.chunkSize_pos
    used_le := by
      intro d hd
      rcases hmem d hd with rfl | ⟨e, he, hu, hs, -⟩
      · exact hused
      · rw [hu, hs]
        exact h.used_le e he
    data_aligned := by
      intro d hd
      rcases hmem d hd with rfl | ⟨e, he, -, -, hdata⟩
      · exact hc.data_aligned
      · rw [hdata]
        exact h.data_aligned e he
    held_inside := by
      intro r hr
      rw [held_grown, List.mem_append] at hr
      rcases hr with hr | hr
      · exact h.held_inside r hr
      · simp only [List.mem_cons, List.not_mem_nil, or_false] at hr
        rcases hr with rfl | rfl
        · exact ⟨hc.self_pos, Nat.succ_pos 31, hc.header_end⟩
        · exact ⟨hc.data_pos, hsize, hc.region_end⟩
    held_apart := by
      rw [held_grown, List.pairwise_append]
      refine ⟨h.held_apart, ?_, ?_⟩
      · exact List.pairwise_pair.mpr hc.chunk_apart
      · intro r hr s hs
        simp only [List.mem_cons, List.not_mem_nil, or_false] at hs
        rcases hs with rfl | rfl
        · exact hc.header_apart r hr
        · exact hc.region_apart r hr
    next_gt := by
      intro j d k hd hnext
      rw [length_grown]
      rcases getElem?_grown hd with ⟨e, he, rfl⟩ | ⟨-, rfl⟩
      · have hj := (List.getElem?_eq_some_iff.mp he).1
        split_ifs at hnext with hij
        · cases hnext
          omega
        · have hgt := h.next_gt j e k he hnext
          omega
      · rw [hc.next_eq] at hnext
        cases hnext }

theorem Inv.served (h : Inv p) (hs : Served p lead need addr takes p') (hneed : 0 < need) : Inv p' := by
  cases hs with
  | @fits i c hcur hc hroom haddr htakes =>
    have hi := (List.getElem?_eq_some_iff.mp hc).1
    have hshape : shape (p.moved i (c.used + lead + need)).heap = shape p.heap := shape_modify_used _ _ _
    apply h.of_shape (q := p.moved i _) rfl rfl rfl hshape ⟨i, length_of_shape hshape ▸ hi, hcur⟩
    intro d hd
    rcases mem_modify hd with hd | ⟨e, he, rfl⟩
    · exact h.used_le d hd
    · rw [hc] at he
      cases he
      exact hroom
  | @grows i c hcur hi hc hused hroom haddr htakes =>
    exact h.grown hc (hused ▸ hroom) (by omega)

/-- The links lead to later chunks, so every loop over them ends. -/
theorem chainFrom_isSome {heap : List Chunk}
    (hnext : ∀ i c j, heap[i]? = some c → c.next = some j → i < j ∧ j < heap.length) (fuel : ℕ)
    (ptr : Option ℕ) (hptr : ∀ i, ptr = some i → i < heap.length ∧ heap.length ≤ i + fuel) :
    ∃ ids, chainFrom heap fuel ptr = some ids := by
  induction fuel generalizing ptr with
  | zero =>
    cases ptr with
    | none => exact ⟨[], rfl⟩
    | some i =>
      have hi := hptr i rfl
      omega
  | succ fuel ih =>
    cases ptr with
    | none => exact ⟨[], rfl⟩
    | some i =>
      have hi := hptr i rfl
      obtain ⟨ids, hids⟩ := ih (heap[i]?.bind Chunk.next) (by
        intro j hj
        obtain ⟨c, hc, hcj⟩ := Option.bind_eq_some_iff.mp hj
        have hgt := hnext i c j hc hcj
        omega)
      exact ⟨i :: ids, by rw [chainFrom, hids]; rfl⟩

theorem Inv.exists_chain (h : Inv p) : ∃ ids, poolChain p = some (0 :: ids) := by
  obtain ⟨i, hi, -⟩ := h.current_lt
  obtain ⟨n, hn⟩ : ∃ n, p.heap.length = n + 1 := ⟨p.heap.length - 1, by omega⟩
  obtain ⟨ids, hids⟩ := chainFrom_isSome h.next_gt n (p.heap[0]?.bind Chunk.next) (by
    intro j hj
    obtain ⟨c, hc, hcj⟩ := Option.bind_eq_some_iff.mp hj
    have hgt := h.next_gt 0 c j hc hcj
    omega)
  refine ⟨ids, ?_⟩
  rw [poolChain, h.chunks_eq, hn, chainFrom, hids]
  rfl

/-- A reset empties the chunks of the list, the first one among them. -/
theorem Inv.reset {st : PoolState} (h : Inv st.pool) :
    ∃ ids, poolChain st.pool = some (0 :: ids) ∧
      poolReset st = some { st with pool := st.pool.rewound (0 :: ids) } ∧
      Inv (st.pool.rewound (0 :: ids)) := by
  obtain ⟨ids, hids⟩ := h.exists_chain
  refine ⟨ids, hids, ?_, ?_⟩
  · rw [poolReset, hids]
    rfl
  · have hshape : shape (st.pool.rewound (0 :: ids)).heap = shape st.pool.heap := shape_resetUsed _ _
    obtain ⟨i, hi, -⟩ := h.current_lt
    have hcurrent : ∃ i < (st.pool.rewound (0 :: ids)).heap.length,
        (st.pool.rewound (0 :: ids)).current = some i :=
      ⟨0, by rw [length_of_shape hshape]; omega, h.chunks_eq⟩
    apply h.of_shape (q := st.pool.rewound (0 :: ids)) rfl rfl rfl hshape hcurrent
    intro c hc
    obtain ⟨j, hj⟩ := List.mem_iff_getElem?.mp hc
    rw [MemoryPool.rewound, getElem?_resetUsed] at hj
    obtain ⟨d, hd, rfl⟩ := Option.map_eq_some_iff.mp hj
    split_ifs
    · exact Nat.zero_le _
    · exact h.used_le d (List.mem_of_getElem? hd)

/-- A pool that was created, with its first chunk. -/
theorem poolCreate_cases {chunkSize maxMemory : ℕ} {st : PoolState}
    (h : poolCreate A chunkSize maxMemory = .ok st) :
    Inv st.pool ∧ ∃ c, st.pool.heap = [c] ∧ c.used = 0 ∧ c.next = none ∧ st.pool.current = some 0 ∧
      st.pool.totalAllocated = u64 c.size := by
  unfold poolCreate at h
  split_ifs at h with h0
  cases hself : A.malloc 0 [] sizeofPool with
  | none =>
    rw [hself] at h
    cases h
  | some self =>
    rw [hself] at h
    dsimp only at h
    rcases createChunk_cases (A := A) chunkSize ⟨⟨self, [], none, none, chunkSize, 0, maxMemory⟩, 1⟩ with
      ⟨hnone, -⟩ | ⟨cself, data, hfresh, hsome, hpool⟩
    · generalize createChunk A chunkSize _ = out at *
      obtain ⟨r, st'⟩ := out
      obtain rfl : r = none := hnone
      cases h
    · generalize createChunk A chunkSize _ = out at *
      obtain ⟨r, st'⟩ := out
      obtain rfl : r = some 0 := hsome
      change st'.pool = _ at hpool
      dsimp only at h
      cases h
      rw [hpool]
      dsimp only [List.nil_append]
      refine ⟨?_, _, rfl, rfl, rfl, rfl, by rw [zero_add]⟩
      exact {
        chunks_eq := rfl
        current_lt := ⟨0, Nat.one_pos, rfl⟩
        chunkSize_pos := Nat.pos_of_ne_zero h0
        used_le := by simp
        data_aligned := by simpa using hfresh.data_aligned
        held_inside := by
          intro r hr
          simp only [MemoryPool.held, List.flatMap_singleton, List.mem_cons, List.not_mem_nil,
            or_false] at hr
          rcases hr with rfl | rfl | rfl
          · exact ⟨A.addr_pos hself, Nat.succ_pos 71, A.end_le hself⟩
          · exact ⟨hfresh.self_pos, Nat.succ_pos 31, hfresh.header_end⟩
          · exact ⟨hfresh.data_pos, Nat.pos_of_ne_zero h0, hfresh.region_end⟩
        held_apart := by
          simp only [MemoryPool.held, List.flatMap_singleton, List.pairwise_cons, List.mem_cons,
            List.not_mem_nil, or_false, forall_eq_or_imp, forall_eq]
          have hmem : (⟨self, sizeofPool⟩ : Region) ∈
              MemoryPool.held ⟨self, [], none, none, chunkSize, 0, maxMemory⟩ := List.mem_cons_self
          exact ⟨⟨hfresh.header_apart _ hmem, hfresh.region_apart _ hmem⟩, hfresh.chunk_apart, by simp⟩
        next_gt := by
          intro i c j hc hnext
          rw [List.mem_singleton.mp (List.mem_of_getElem? hc)] at hnext
          cases hnext }

end Invariant

end Fsdiff.Pool
