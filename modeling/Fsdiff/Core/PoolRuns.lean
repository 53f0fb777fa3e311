import Fsdiff.Core.MemoryPool

/-! Runs of calls on a pool: what is handed out never overlaps, when the list keeps every chunk,
and when the memory is aligned. -/
namespace Fsdiff.Pool
open Align

/-! ### Runs -/

/-- A region that a call has returned, with the alignment that was asked for. -/
structure Grant where
  region : Region
  align : ℕ
  deriving DecidableEq, Repr

/-- A pool, and what it has handed out since the last reset. -/
structure PoolRun where
  state : PoolState
  grants : List Grant
  deriving DecidableEq, Repr

def PoolCall.note : PoolCall → Option ℕ → List Grant → List Grant
  | .reset, _, _ => []
  | _, none, grants => grants
  | .alloc size, some ptr, grants => grants ++ [⟨⟨ptr, size⟩, 1⟩]
  | .allocAligned size alignment, some ptr, grants => grants ++ [⟨⟨ptr, size⟩, alignment⟩]

section Runs
variable (A : Allocator)

def PoolRun.step (run : PoolRun) (call : PoolCall) : Option PoolRun :=
  (call.run A run.state).map fun out => ⟨out.2, call.note out.1 run.grants⟩

def PoolRun.steps (calls : List PoolCall) (run : PoolRun) : Option PoolRun :=
  calls.foldlM (PoolRun.step A) run

/-- The call returns a pointer. -/
def PoolCall.Granted (st : PoolState) (call : PoolCall) : Prop := ∃ ptr st', call.run A st = some (some ptr, st')

/-- Aligned requests whose size is a multiple of 8. -/
def PoolCall.RoundSize : PoolCall → Prop
  | .allocAligned size _ => 8 ∣ size
  | _ => True

/-- The aligned requests of a run that are granted have sizes that are multiples of 8. -/
def RoundGrants (st : PoolState) (calls : List PoolCall) : Prop :=
  ∀ pre call run, pre ++ [call] <+: calls → PoolRun.steps A pre ⟨st, []⟩ = some run →
    call.Granted A run.state → call.RoundSize

end Runs

/-- What a call does to the pool and to what is handed out. -/
inductive Stepped (A : Allocator) (call : PoolCall) (run : PoolRun) : PoolRun → Prop where
  | refused {run' : PoolRun} (hpool : run'.state.pool = run.state.pool)
      (hgrants : run'.grants = run.grants) (htakes : ¬ TakesChunk A call run.state) :
      Stepped A call run run'
  | granted {run' : PoolRun} {addr size align lead need k : ℕ} (hneed : 0 < need)
      (hsize : size ≤ need) (hround : call.RoundSize → 8 ∣ need) (halign : align = 2 ^ k)
      (hdvd : align ∣ addr) (hlead : lead < align)
      (hgrants : run'.grants = run.grants ++ [⟨⟨addr, size⟩, align⟩])
      (hserved : Served run.state.pool lead need addr (TakesChunk A call run.state) run'.state.pool)
      (hgranted : call.Granted A run.state) : Stepped A call run run'
  | reset {run' : PoolRun} {ids : List ℕ} (hids : poolChain run.state.pool = some (0 :: ids))
      (hpool : run'.state.pool = run.state.pool.rewound (0 :: ids)) (hgrants : run'.grants = [])
      (htakes : ¬ TakesChunk A call run.state) : Stepped A call run run'

section Step
variable {A : Allocator} {call : PoolCall} {run run' : PoolRun}

theorem exists_step (hinv : Inv run.state.pool) (hsized : call.Sized) :
    ∃ run', run.step A call = some run' ∧ Stepped A call run run' := by
  cases call with
  | alloc size =>
    refine ⟨⟨(poolAlloc A size run.state).2, _⟩, rfl, ?_⟩
    rcases poolAlloc_cases (A := A) hinv hsized with
      ⟨hnone, hpool, htakes⟩ | ⟨addr, need, hsome, hpos, hle, hdvd, hserved⟩
    · exact .refused hpool (by simp [PoolCall.note, hnone]) htakes
    · exact .granted (k := 0) (hpos.trans_le hle) hle (fun _ => hdvd) rfl (one_dvd _)
        Nat.one_pos (by simp [PoolCall.note, hsome]) hserved
        ⟨addr, (poolAlloc A size run.state).2, congrArg some (Prod.ext hsome rfl)⟩
  | allocAligned size alignment =>
    refine ⟨⟨(poolAllocAligned A size alignment run.state).2, _⟩, rfl, ?_⟩
    rcases poolAllocAligned_cases (A := A) hinv hsized.1 hsized.2 with
      ⟨hnone, hpool, htakes⟩ | ⟨addr, lead, k, hsome, hpos, hk, hdvd, hlead, hserved⟩
    · exact .refused hpool (by simp [PoolCall.note, hnone]) htakes
    · exact .granted hpos le_rfl id hk hdvd hlead (by simp [PoolCall.note, hsome]) hserved
        ⟨addr, (poolAllocAligned A size alignment run.state).2, congrArg some (Prod.ext hsome rfl)⟩
  | reset =>
    obtain ⟨ids, hids, hreset, -⟩ := hinv.reset
    refine ⟨_, by rw [PoolRun.step, PoolCall.run, hreset]; rfl, ?_⟩
    exact .reset hids rfl rfl (not_takesChunk rfl)

theorem Inv.stepped (hinv : Inv run.state.pool) (h : Stepped A call run run') : Inv run'.state.pool := by
  cases h with
  | refused hpool =>
    rw [hpool]
    exact hinv
  | granted hneed _ _ _ _ _ _ hserved => exact hinv.served hserved hneed
  | reset hids hpool =>
    obtain ⟨ids', hids', -, hinv'⟩ := hinv.reset
    rw [hids] at hids'
    cases hids'
    rw [hpool]
    exact hinv'

theorem steps_concat (calls : List PoolCall) :
    run.steps A (calls ++ [call]) = (run.steps A calls).bind (PoolRun.step A · call) := by
  rw [PoolRun.steps, List.foldlM_append]
  congr 1
  funext run
  simp

/-- The rule for runs: what each step keeps, from a pool that was created. -/
theorem steps_rule {chunkSize maxMemory : ℕ} {st : PoolState}
    (hcreate : poolCreate A chunkSize maxMemory = .ok st) (I : PoolRun → Prop) (h : I ⟨st, []⟩)
    (calls : List PoolCall) (hsized : ∀ call ∈ calls, call.Sized)
    (hstep : ∀ pre call run run', pre ++ [call] <+: calls → PoolRun.steps A pre ⟨st, []⟩ = some run →
      Inv run.state.pool → I run → Stepped A call run run' → I run') :
    ∃ run, PoolRun.steps A calls ⟨st, []⟩ = some run ∧ Inv run.state.pool ∧ I run := by
  induction calls using List.reverseRecOn with
  | nil => exact ⟨_, rfl, (poolCreate_cases hcreate).1, h⟩
  | append_singleton calls call ih =>
    obtain ⟨run, hrun, hinv, hI⟩ := ih (fun c hc => hsized c (List.mem_append_left _ hc))
      fun pre c run run' hpre => hstep pre c run run' (hpre.trans (List.prefix_append _ _))
    obtain ⟨run', hrun', hstepped⟩ := exists_step hinv (hsized call (by simp))
    refine ⟨run', ?_, hinv.stepped hstepped, ?_⟩
    · rw [steps_concat, hrun]
      exact hrun'
    · exact hstep calls call run run' List.prefix_rfl hrun hinv hI hstepped

end Step

/-! ### Regions -/

section Regions
variable {A : Allocator} {p p' : MemoryPool} {lead need addr : ℕ} {takes : Prop}

/-- What is taken lies behind the cursor of its chunk, apart from everything before it. -/
theorem Served.regions (hinv : Inv p) (h : Served p lead need addr takes p') :
    (∃ c' ∈ p'.heap, Region.Within ⟨addr, need⟩ ⟨c'.data, c'.used⟩) ∧
      ∀ c ∈ p.heap, (∃ c' ∈ p'.heap, c'.data = c.data ∧ c.used ≤ c'.used) ∧
        Region.Apart ⟨c.data, c.used⟩ ⟨addr, need⟩ := by
  have happart := (List.pairwise_cons.mp hinv.held_apart).2
  cases h with
  | @fits i c hcur hc hroom haddr htakes =>
    have hget : ∀ j, (p.moved i (c.used + lead + need)).heap[j]? =
        p.heap[j]?.map fun d => if i = j then { d with used := c.used + lead + need } else d := by
      intro j
      rw [MemoryPool.moved, List.getElem?_modify]
      rfl
    constructor
    · have hi := hget i
      rw [hc, Option.map_some, if_pos rfl] at hi
      refine ⟨_, List.mem_of_getElem? hi, ?_⟩
      unfold Region.Within
      dsimp only
      omega
    · intro d hd
      obtain ⟨j, hj⟩ := List.mem_iff_getElem?.mp hd
      have hmoved := hget j
      rw [hj, Option.map_some] at hmoved
      refine ⟨⟨_, List.mem_of_getElem? hmoved, ?_⟩, ?_⟩
      · split_ifs with hij
        · subst hij
          rw [hc] at hj
          cases hj
          dsimp only
          omega
        · exact ⟨rfl, le_rfl⟩
      · by_cases hij : i = j
        · subst hij
          rw [hc] at hj
          cases hj
          unfold Region.Apart
          dsimp only
          omega
        · have hregions := regions_apart happart hj hc fun h => hij h.symm
          have hused := hinv.used_le d hd
          apply hregions.within <;> unfold Region.Within Chunk.region <;> dsimp only <;> omega
  | @grows i c hcur hi hc hused hroom haddr htakes =>
    constructor
    · refine ⟨c, List.mem_of_getElem? (getElem?_grown_last p i c), ?_⟩
      unfold Region.Within
      dsimp only
      omega
    · intro d hd
      refine ⟨?_, ?_⟩
      · obtain ⟨j, hj⟩ := List.mem_iff_getElem?.mp hd
        have hjlt := (List.getElem?_eq_some_iff.mp hj).1
        have hget : (p.grown i c).heap[j]? =
            some (if i = j then { d with next := some p.heap.length } else d) := by
          rw [MemoryPool.grown, List.getElem?_append_left (by simpa using hjlt), List.getElem?_modify, hj]
          rfl
        refine ⟨_, List.mem_of_getElem? hget, ?_⟩
        split_ifs <;> exact ⟨rfl, le_rfl⟩
      · have hregions := hc.region_apart _ (mem_held hd).2
        have hle := hinv.used_le d hd
        apply hregions.within <;> unfold Region.Within Chunk.region <;> dsimp only <;> omega

/-- What has been handed out: aligned, below the cursors, and pairwise apart. -/
structure GrantsApart (run : PoolRun) : Prop where
  aligned : ∀ g ∈ run.grants, g.align ∣ g.region.addr
  below : ∀ g ∈ run.grants, ∃ c ∈ run.state.pool.heap, g.region.Within ⟨c.data, c.used⟩
  apart : run.grants.Pairwise fun g h => g.region.Apart h.region

theorem GrantsApart.stepped {call : PoolCall} {run run' : PoolRun} (hinv : Inv run.state.pool)
    (h : GrantsApart run) (hstep : Stepped A call run run') : GrantsApart run' := by
  cases hstep with
  | refused hpool hgrants _ =>
    refine ⟨hgrants ▸ h.aligned, ?_, hgrants ▸ h.apart⟩
    rw [hgrants, hpool]
    exact h.below
  | reset _ _ hgrants =>
    refine ⟨?_, ?_, ?_⟩ <;> simp [hgrants]
  | @granted addr size align lead need k hneed hsize _ _ hdvd _ hgrants hserved =>
    obtain ⟨hnew, hold⟩ := hserved.regions hinv
    have hwithin : Region.Within ⟨addr, size⟩ ⟨addr, need⟩ := ⟨le_rfl, by dsimp only; omega⟩
    constructor
    · rw [hgrants]
      intro g hg
      rcases List.mem_append.mp hg with hg | hg
      · exact h.aligned g hg
      · rw [List.mem_singleton.mp hg]
        exact hdvd
    · rw [hgrants]
      intro g hg
      rcases List.mem_append.mp hg with hg | hg
      · obtain ⟨c, hc, hcw⟩ := h.below g hg
        obtain ⟨⟨c', hc', hdata, hused⟩, -⟩ := hold c hc
        refine ⟨c', hc', ?_⟩
        unfold Region.Within at *
        dsimp only at *
        omega
      · rw [List.mem_singleton.mp hg]
        obtain ⟨c', hc', hcw⟩ := hnew
        refine ⟨c', hc', ?_⟩
        unfold Region.Within at *
        dsimp only at *
        omega
    · rw [hgrants, List.pairwise_append]
      refine ⟨h.apart, List.pairwise_singleton _ _, ?_⟩
      intro g hg g' hg'
      rw [List.mem_singleton.mp hg']
      obtain ⟨c, hc, hcw⟩ := h.below g hg
      exact (hold c hc).2.within hcw hwithin

/-- Over every run, what was handed out since the last reset is aligned as asked, lies each in
one chunk and is pairwise apart; no cursor leaves its chunk, and a request that is refused leaves
the pool as it was. -/
theorem poolRun_grants_apart (A : Allocator) {chunkSize maxMemory : ℕ} {st : PoolState}
    (hcreate : poolCreate A chunkSize maxMemory = .ok st) (calls : List PoolCall)
    (hsized : ∀ call ∈ calls, call.Sized) :
    ∃ run, PoolRun.steps A calls ⟨st, []⟩ = some run ∧
      (∀ g ∈ run.grants, g.align ∣ g.region.addr ∧
        ∃ c ∈ run.state.pool.heap, g.region.Within ⟨c.data, c.size⟩) ∧
      run.grants.Pairwise (fun g h => g.region.Apart h.region) ∧
      (∀ c ∈ run.state.pool.heap, c.used ≤ c.size) ∧
      (∀ size < 2 ^ 64, (poolAlloc A size run.state).1 = none →
        (poolAlloc A size run.state).2.pool = run.state.pool) ∧
      ∀ size < 2 ^ 64, ∀ alignment < 2 ^ 64, (poolAllocAligned A size alignment run.state).1 = none →
        (poolAllocAligned A size alignment run.state).2.pool = run.state.pool := by
  obtain ⟨run, hrun, hinv, h⟩ := steps_rule hcreate GrantsApart ⟨by simp, by simp, .nil⟩ calls hsized
    fun _ _ _ _ _ _ hinv h hstep => h.stepped hinv hstep
  refine ⟨run, hrun, ?_, h.apart, hinv.used_le, ?_, ?_⟩
  · intro g hg
    obtain ⟨c, hc, hcw⟩ := h.below g hg
    refine ⟨h.aligned g hg, c, hc, hcw.1, ?_⟩
    have hused := hinv.used_le c hc
    have hend := hcw.2
    dsimp only at *
    omega
  · intro size hsize hnone
    rcases poolAlloc_cases (A := A) hinv hsize with ⟨-, hpool, -⟩ | ⟨addr, need, hsome, -⟩
    · exact hpool
    · rw [hsome] at hnone
      cases hnone
  · intro size hsize alignment halign hnone
    rcases poolAllocAligned_cases (A := A) hinv hsize halign with ⟨-, hpool, -⟩ | ⟨addr, lead, k, hsome, -⟩
    · exact hpool
    · rw [hsome] at hnone
      cases hnone

def samplePool : PoolState := ⟨⟨8, [⟨80, 112, 64, 0, none⟩], some 0, some 0, 64, 64, 0⟩, 3⟩

theorem poolCreate_bump : poolCreate .bump 64 0 = .ok samplePool := by decide +kernel

theorem poolRun_grants_apart_sample :
    (∀ call ∈ [PoolCall.alloc 40, .allocAligned 8 16, .alloc 100], call.Sized) ∧
      ∃ run, PoolRun.steps .bump [.alloc 40, .allocAligned 8 16, .alloc 100] ⟨samplePool, []⟩ = some run ∧
        (∀ g ∈ run.grants, g.align ∣ g.region.addr ∧
          ∃ c ∈ run.state.pool.heap, g.region.Within ⟨c.data, c.size⟩) ∧
        run.grants.Pairwise (fun g h => g.region.Apart h.region) ∧
        (∀ c ∈ run.state.pool.heap, c.used ≤ c.size) ∧
        (∀ size < 2 ^ 64, (poolAlloc .bump size run.state).1 = none →
          (poolAlloc .bump size run.state).2.pool = run.state.pool) ∧
        ∀ size < 2 ^ 64, ∀ alignment < 2 ^ 64,
          (poolAllocAligned .bump size alignment run.state).1 = none →
            (poolAllocAligned .bump size alignment run.state).2.pool = run.state.pool := by
  have hsized : ∀ call ∈ [PoolCall.alloc 40, .allocAligned 8 16, .alloc 100], call.Sized := by
    simp [PoolCall.Sized]
  exact ⟨hsized, poolRun_grants_apart .bump poolCreate_bump _ hsized⟩

end Regions

/-! ### Alignment -/

section Alignment
variable {A : Allocator} {p p' : MemoryPool} {lead need addr : ℕ} {takes : Prop}

/-- The cursor of the current chunk is at a multiple of 8. -/
def CursorAligned (p : MemoryPool) : Prop := ∀ c, p.currentChunk = some c → 8 ∣ c.used

theorem dvd_lead {base k : ℕ} (hbase : 8 ∣ base) (hlead : lead < 2 ^ k) (hdvd : 2 ^ k ∣ base + lead) :
    8 ∣ lead := by
  rcases Nat.le_total k 3 with hk | hk
  · have hbase' : 2 ^ k ∣ base := (Nat.pow_dvd_pow 2 hk).trans hbase
    have hzero : lead = 0 := Nat.eq_zero_of_dvd_of_lt ((Nat.dvd_add_right hbase').mp hdvd) hlead
    rw [hzero]
    exact dvd_zero 8
  · have hdvd' : 8 ∣ base + lead := (Nat.pow_dvd_pow 2 hk).trans hdvd
    exact (Nat.dvd_add_right hbase).mp hdvd'

theorem currentChunk_moved {i used : ℕ} {c : Chunk} (hcur : p.current = some i) (hc : p.heap[i]? = some c) :
    (p.moved i used).currentChunk = some { c with used := used } := by
  rw [MemoryPool.currentChunk, MemoryPool.moved]
  dsimp only
  rw [hcur, Option.bind_some, List.getElem?_modify, hc]
  simp

/-- What `fsd_pool_alloc_aligned` takes keeps the cursor at a multiple of 8 just if its size is
one. -/
theorem cursorAligned_served_iff {k : ℕ} (hinv : Inv p) (h : CursorAligned p) (hlead : lead < 2 ^ k)
    (hdvd : 2 ^ k ∣ addr) (hserved : Served p lead need addr takes p') :
    CursorAligned p' ↔ 8 ∣ need := by
  cases hserved with
  | @fits i c hcur hc hroom haddr htakes =>
    have hused : 8 ∣ c.used := h c (by rw [MemoryPool.currentChunk, hcur]; exact hc)
    have hdata := hinv.data_aligned c (List.mem_of_getElem? hc)
    rw [haddr] at hdvd
    have hlead8 := dvd_lead (dvd_add hdata hused) hlead hdvd
    rw [CursorAligned, currentChunk_moved hcur hc, ← Nat.dvd_add_right (dvd_add hused hlead8)]
    simp
  | @grows i c hcur hi hc hused hroom haddr htakes =>
    rw [haddr] at hdvd
    have hlead8 := dvd_lead hc.data_aligned hlead hdvd
    rw [CursorAligned, currentChunk_grown, ← Nat.dvd_add_right hlead8, ← hused]
    simp

theorem CursorAligned.stepped {call : PoolCall} {run run' : PoolRun} (hinv : Inv run.state.pool)
    (h : CursorAligned run.state.pool) (hround : call.Granted A run.state → call.RoundSize)
    (hstep : Stepped A call run run') : CursorAligned run'.state.pool := by
  cases hstep with
  | refused hpool =>
    rw [hpool]
    exact h
  | reset hids hpool _ _ =>
    intro c hc
    rw [hpool, MemoryPool.currentChunk, MemoryPool.rewound] at hc
    dsimp only at hc
    rw [hinv.chunks_eq, Option.bind_some, getElem?_resetUsed] at hc
    obtain ⟨d, -, rfl⟩ := Option.map_eq_some_iff.mp hc
    simp
  | granted hneed hsize hrounded halign hdvd hlead hgrants hserved hgranted =>
    subst halign
    exact (cursorAligned_served_iff hinv h hlead hdvd hserved).mpr (hrounded (hround hgranted))

/-- Over every run whose granted aligned requests have sizes that are multiples of 8, what
`fsd_pool_alloc` returns is aligned to 8. A further aligned request that is granted keeps the
cursor, where the next request is placed, at a multiple of 8 just if its size is one. -/
theorem poolAlloc_aligned_of_roundSizes (A : Allocator) {chunkSize maxMemory : ℕ} {st : PoolState}
    (hcreate : poolCreate A chunkSize maxMemory = .ok st) (calls : List PoolCall)
    (hsized : ∀ call ∈ calls, call.Sized) (hround : RoundGrants A st calls) :
    ∃ run, PoolRun.steps A calls ⟨st, []⟩ = some run ∧
      (∀ size < 2 ^ 64, ∀ ptr, (poolAlloc A size run.state).1 = some ptr → 8 ∣ ptr) ∧
      ∀ size < 2 ^ 64, ∀ alignment < 2 ^ 64, ∀ ptr,
        (poolAllocAligned A size alignment run.state).1 = some ptr →
          (CursorAligned (poolAllocAligned A size alignment run.state).2.pool ↔ 8 ∣ size) := by
  have hfirst : CursorAligned st.pool := by
    obtain ⟨-, c, hheap, hused, -, hcur, -⟩ := poolCreate_cases hcreate
    intro d hd
    rw [MemoryPool.currentChunk, hcur, hheap] at hd
    cases hd
    rw [hused]
    exact dvd_zero 8
  obtain ⟨run, hrun, hinv, h⟩ := steps_rule hcreate (fun run => CursorAligned run.state.pool) hfirst calls
    hsized fun pre call run run' hpre hrun hinv h hstep => h.stepped hinv (hround pre call run hpre hrun) hstep
  refine ⟨run, hrun, ?_, ?_⟩
  · intro size hsize ptr hptr
    rcases poolAlloc_cases (A := A) hinv hsize with ⟨hnone, -⟩ | ⟨addr, need, hsome, -, -, -, hserved⟩
    · rw [hnone] at hptr
      cases hptr
    rw [hsome] at hptr
    cases hptr
    generalize (poolAlloc A size run.state).2.pool = q at *
    cases hserved with
    | @fits i c hcur hc hroom haddr htakes =>
      have hused : 8 ∣ c.used := h c (by rw [MemoryPool.currentChunk, hcur]; exact hc)
      have hdata := hinv.data_aligned c (List.mem_of_getElem? hc)
      rw [haddr]
      exact dvd_add (dvd_add hdata hused) (dvd_zero 8)
    | @grows i c hcur hi hc hused hroom haddr htakes =>
      rw [haddr]
      exact dvd_add hc.data_aligned (dvd_zero 8)
  · intro size hsize alignment halign ptr hptr
    rcases poolAllocAligned_cases (A := A) hinv hsize halign with
      ⟨hnone, -⟩ | ⟨addr, lead, k, hsome, -, rfl, hdvd, hlead, hserved⟩
    · rw [hnone] at hptr
      cases hptr
    · exact cursorAligned_served_iff hinv h hlead hdvd hserved

/-- A run with a request that is refused, as its alignment is no power of 2. -/
theorem poolAlloc_aligned_of_roundSizes_sample :
    RoundGrants .bump samplePool [.allocAligned 8 16, .allocAligned 1 3, .alloc 3] ∧
      ∃ run, PoolRun.steps .bump [.allocAligned 8 16, .allocAligned 1 3, .alloc 3] ⟨samplePool, []⟩ = some run ∧
        (∀ size < 2 ^ 64, ∀ ptr, (poolAlloc .bump size run.state).1 = some ptr → 8 ∣ ptr) ∧
        ∀ size < 2 ^ 64, ∀ alignment < 2 ^ 64, ∀ ptr,
          (poolAllocAligned .bump size alignment run.state).1 = some ptr →
            (CursorAligned (poolAllocAligned .bump size alignment run.state).2.pool ↔ 8 ∣ size) := by
  have hround : RoundGrants .bump samplePool [.allocAligned 8 16, .allocAligned 1 3, .alloc 3] := by
    rintro pre call run hpre - ⟨ptr, st, hgranted⟩
    have hmem : call ∈ [PoolCall.allocAligned 8 16, .allocAligned 1 3, .alloc 3] := hpre.subset (by simp)
    simp only [List.mem_cons, List.not_mem_nil, or_false] at hmem
    rcases hmem with rfl | rfl | rfl
    · exact dvd_refl 8
    · cases hgranted
    · trivial
  have hsized : ∀ call ∈ [PoolCall.allocAligned 8 16, .allocAligned 1 3, .alloc 3], call.Sized := by
    simp [PoolCall.Sized]
  exact ⟨hround, poolAlloc_aligned_of_roundSizes .bump poolCreate_bump _ hsized hround⟩

/-- After one byte from `fsd_pool_alloc_aligned`, `fsd_pool_alloc` returns an odd address. -/
theorem poolAlloc_misaligned :
    ∃ st run, poolCreate .bump 64 0 = .ok st ∧
      PoolRun.steps .bump [.allocAligned 1 1] ⟨st, []⟩ = some run ∧
      (poolAlloc .bump 8 run.state).1 = some 113 ∧ ¬ 8 ∣ 113 := by
  refine ⟨samplePool, ⟨⟨⟨8, [⟨80, 112, 64, 1, none⟩], some 0, some 0, 64, 64, 0⟩, 3⟩,
    [⟨⟨112, 1⟩, 1⟩]⟩, poolCreate_bump, ?_, ?_, ?_⟩
  · decide +kernel
  · decide +kernel
  · decide

end Alignment

end Fsdiff.Pool
