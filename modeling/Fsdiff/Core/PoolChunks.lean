import Fsdiff.Core.PoolRuns

/-! The list of chunks over a run. A new chunk is linked behind the current one, which is the
last one except after a reset: then the link to the second chunk is overwritten. -/
namespace Fsdiff.Pool

/-! ### Keeping every chunk -/

/-- The list runs once over every chunk that was made, `current` is on it, `total_allocated` is
its size, and `fsd_pool_destroy` frees everything that the pool has, each address once. -/
def KeepsChunks (p : MemoryPool) : Prop :=
  ∃ ids frees, poolChain p = some ids ∧ ids.Nodup ∧ (∀ i, i ∈ ids ↔ i < p.heap.length) ∧
    (∃ i ∈ ids, p.current = some i) ∧
    p.totalAllocated = ((ids.filterMap (p.heap[·]?)).map Chunk.size).sum ∧
    poolDestroy p = some frees ∧ frees.Nodup ∧ frees.Perm (p.held.map Region.addr)

/-- The call takes a new chunk while the current one has a successor. -/
def Overwrites (A : Allocator) (call : PoolCall) (st : PoolState) : Prop :=
  TakesChunk A call st ∧ ∃ c, st.pool.currentChunk = some c ∧ c.next ≠ none

/-- The chunks are linked in the order of their creation. -/
def Linked (heap : List Chunk) : Prop :=
  ∀ (i : ℕ) (c : Chunk), heap[i]? = some c → c.next = if i + 1 < heap.length then some (i + 1) else none

section Chains
variable {heap : List Chunk}

theorem Linked.chainFrom (h : Linked heap) (fuel i : ℕ) (hi : i < heap.length)
    (hfuel : heap.length ≤ i + fuel) :
    chainFrom heap fuel (some i) = some (List.range' i (heap.length - i)) := by
  induction fuel generalizing i with
  | zero => omega
  | succ fuel ih =>
    have hnext := h i heap[i] (List.getElem?_eq_getElem hi)
    obtain ⟨n, hn⟩ : ∃ n, heap.length - i = n + 1 := ⟨heap.length - i - 1, by omega⟩
    rw [Pool.chainFrom, List.getElem?_eq_getElem hi, Option.bind_some, hnext, hn, List.range'_succ]
    split_ifs with hlast
    · rw [ih (i + 1) hlast (by omega), show heap.length - (i + 1) = n by omega]
      rfl
    · obtain rfl : n = 0 := by omega
      cases fuel <;> rfl

theorem filterMap_range (heap : List Chunk) : (List.range heap.length).filterMap (heap[·]?) = heap := by
  induction heap with
  | nil => rfl
  | cons c heap ih =>
    rw [List.length_cons, List.range_succ_eq_map, List.filterMap_cons]
    simpa [List.filterMap_map, Function.comp_def] using ih

/-- What a loop over the list visits is where it starts, or the successor of a chunk. -/
theorem mem_chainFrom {fuel : ℕ} {ptr : Option ℕ} {ids : List ℕ} {j : ℕ}
    (h : chainFrom heap fuel ptr = some ids) (hj : j ∈ ids) :
    ptr = some j ∨ ∃ (i : ℕ) (c : Chunk), heap[i]? = some c ∧ c.next = some j := by
  induction fuel generalizing ptr ids with
  | zero =>
    cases ptr with
    | none =>
      cases h
      cases hj
    | some i => cases h
  | succ fuel ih =>
    cases ptr with
    | none =>
      cases h
      cases hj
    | some i =>
      rw [chainFrom] at h
      obtain ⟨rest, hrest, rfl⟩ := Option.map_eq_some_iff.mp h
      rcases List.mem_cons.mp hj with rfl | hj
      · exact .inl rfl
      · rcases ih hrest hj with hptr | hnext
        · obtain ⟨c, hc, hcj⟩ := Option.bind_eq_some_iff.mp hptr
          exact .inr ⟨i, c, hc, hcj⟩
        · exact .inr hnext

theorem Linked.of_shape {heap' : List Chunk} (h : Linked heap) (hshape : shape heap' = shape heap) :
    Linked heap' := by
  intro i c hc
  obtain ⟨d, hd, heq⟩ := getElem?_of_shape hshape hc
  rw [heq, length_of_shape hshape]
  exact h i d hd

end Chains

/-! ### The invariant of the list -/

/-- No two chunks have the same successor, and `total_allocated` is the size of all chunks. -/
structure Tracks (p : MemoryPool) : Prop where
  next_inj : ∀ (i i' : ℕ) (c c' : Chunk) (j : ℕ), p.heap[i]? = some c → p.heap[i']? = some c' → c.next = some j →
    c'.next = some j → i = i'
  total_eq : p.totalAllocated = (p.heap.map Chunk.size).sum

section Tracks
variable {A : Allocator} {p : MemoryPool}

/-- The chunks are apart, so their sizes do not add up to more than there are addresses. -/
theorem Inv.sum_lt (h : Inv p) : (p.heap.map Chunk.size).sum < 2 ^ 64 := by
  have hregions : (p.heap.map Chunk.region).Pairwise Region.Apart := by
    have happart := (List.pairwise_cons.mp h.held_apart).2
    rw [List.pairwise_iff_getElem]
    intro i j hi hj hij
    rw [List.length_map] at hi hj
    rw [List.getElem_map, List.getElem_map]
    exact regions_apart happart (List.getElem?_eq_getElem hi) (List.getElem?_eq_getElem hj) hij.ne
  have hle := @Region.sum_size_le 1 (2 ^ 64) _ hregions (by
    intro r hr
    obtain ⟨c, hc, rfl⟩ := List.mem_map.mp hr
    have hin := h.held_inside _ (mem_held hc).2
    exact ⟨hin.1, hin.2.2⟩)
  rw [List.map_map] at hle
  change (p.heap.map Chunk.size).sum ≤ _ at hle
  omega

theorem Tracks.of_shape {q : MemoryPool} (h : Tracks p) (hshape : shape q.heap = shape p.heap)
    (htotal : q.totalAllocated = p.totalAllocated) : Tracks q := by
  have hsizes : ∀ heap : List Chunk, heap.map Chunk.size = (shape heap).map Chunk.size := by
    intro heap
    rw [shape, List.map_map]
    rfl
  constructor
  · intro i i' c c' j hc hc' hnext hnext'
    obtain ⟨d, hd, heq⟩ := getElem?_of_shape hshape hc
    obtain ⟨d', hd', heq'⟩ := getElem?_of_shape hshape hc'
    rw [heq] at hnext
    rw [heq'] at hnext'
    exact h.next_inj i i' d d' j hd hd' hnext hnext'
  · rw [htotal, h.total_eq, hsizes, hsizes q.heap, hshape]

theorem sum_sizes_grown (p : MemoryPool) (i : ℕ) (c : Chunk) :
    ((p.grown i c).heap.map Chunk.size).sum = (p.heap.map Chunk.size).sum + c.size := by
  have hmod := flatMap_modify (f := fun c => { c with next := some p.heap.length })
    (g := fun c => [c.size]) (fun _ => rfl) p.heap i
  rw [← List.map_eq_flatMap, ← List.map_eq_flatMap] at hmod
  simp only [MemoryPool.grown, List.map_append, List.sum_append, hmod]
  simp

theorem Tracks.grown (h : Tracks p) (hinv : Inv p) {i : ℕ} {c : Chunk} (hc : Fresh p c)
    (hgrown : Inv (p.grown i c)) : Tracks (p.grown i c) := by
  constructor
  · intro j j' d d' k hd hd' hnext hnext'
    have hold : ∀ {j d}, (p.grown i c).heap[j]? = some d → d.next = some k →
        (i = j ∧ k = p.heap.length) ∨ (i ≠ j ∧ k < p.heap.length ∧ ∃ e, p.heap[j]? = some e ∧
          e.next = some k) := by
      intro j d hd hnext
      rcases getElem?_grown hd with ⟨e, he, rfl⟩ | ⟨-, rfl⟩
      · split_ifs at hnext with hij
        · cases hnext
          exact .inl ⟨hij, rfl⟩
        · exact .inr ⟨hij, (hinv.next_gt j e k he hnext).2, e, he, hnext⟩
      · rw [hc.next_eq] at hnext
        cases hnext
    rcases hold hd hnext with ⟨rfl, hk⟩ | ⟨-, hk, e, he, hek⟩ <;>
      rcases hold hd' hnext' with ⟨rfl, hk'⟩ | ⟨-, hk', e', he', hek'⟩
    · rfl
    · omega
    · omega
    · exact h.next_inj j j' e e' k he he' hek hek'
  · rw [sum_sizes_grown]
    change u64 (p.totalAllocated + c.size) = _
    have hlt := hgrown.sum_lt
    rw [sum_sizes_grown] at hlt
    rw [h.total_eq, u64_of_lt hlt]

theorem Tracks.stepped {call : PoolCall} {run run' : PoolRun} (hinv : Inv run.state.pool)
    (h : Tracks run.state.pool) (hstep : Stepped A call run run') : Tracks run'.state.pool := by
  have hinv' := hinv.stepped hstep
  cases hstep with
  | refused hpool =>
    rw [hpool]
    exact h
  | reset hids hpool =>
    rw [hpool]
    exact h.of_shape (shape_resetUsed _ _) rfl
  | granted hneed hsize hround halign hdvd hlead hgrants hserved =>
    generalize run'.state.pool = q at *
    cases hserved with
    | fits hcur hc hroom haddr htakes => exact h.of_shape (shape_modify_used _ _ _) rfl
    | grows hcur hi hc hused hroom haddr htakes => exact h.grown hinv hc hinv'

/-- As long as the chunks are linked in order, the list keeps them all. -/
theorem Linked.keepsChunks (h : Linked p.heap) (hinv : Inv p) (htracks : Tracks p) : KeepsChunks p := by
  obtain ⟨i, hi, hcur⟩ := hinv.current_lt
  have hchain : poolChain p = some (List.range p.heap.length) := by
    rw [poolChain, hinv.chunks_eq, h.chainFrom p.heap.length 0 (by omega) (by omega), Nat.sub_zero,
      List.range_eq_range']
  have hperm : (p.heap.flatMap (fun c => [c.data, c.self]) ++ [p.self]).Perm
      (p.held.map Region.addr) := by
    rw [MemoryPool.held, List.map_cons, List.map_flatMap]
    apply (List.perm_append_comm).trans
    apply List.Perm.cons
    apply List.Perm.flatMap_left
    intro c _
    exact List.Perm.swap _ _ _
  have hnodup : (p.held.map Region.addr).Nodup := by
    rw [List.Nodup, List.pairwise_map]
    apply hinv.held_apart.imp_of_mem
    intro r s hr hs happart
    exact happart.addr_ne (hinv.held_inside r hr).2.1 (hinv.held_inside s hs).2.1
  refine ⟨_, p.heap.flatMap (fun c => [c.data, c.self]) ++ [p.self], hchain, List.nodup_range, ?_,
    ⟨i, List.mem_range.mpr hi, hcur⟩, ?_, ?_, ?_, hperm⟩
  · intro j
    exact List.mem_range
  · rw [filterMap_range]
    exact htracks.total_eq
  · rw [poolDestroy, hchain, Option.map_some, filterMap_range]
  · exact hperm.nodup_iff.mpr hnodup

theorem Linked.grown (h : Linked p.heap) {i : ℕ} {c : Chunk} (hc : Fresh p c)
    (hlast : ∀ d, p.heap[i]? = some d → d.next = none) (hi : i < p.heap.length) :
    Linked (p.grown i c).heap := by
  have hlen : i + 1 = p.heap.length := by
    have hnext := h i p.heap[i] (List.getElem?_eq_getElem hi)
    rw [hlast _ (List.getElem?_eq_getElem hi)] at hnext
    split_ifs at hnext
    omega
  intro j d hd
  rw [length_grown]
  rcases getElem?_grown hd with ⟨e, he, rfl⟩ | ⟨rfl, rfl⟩
  · have hj := (List.getElem?_eq_some_iff.mp he).1
    rw [if_pos (show j + 1 < p.heap.length + 1 by omega)]
    split_ifs with hij
    · rw [← hlen, hij]
    · rw [h j e he, if_pos (by omega)]
  · rw [hc.next_eq, if_neg (by omega)]

theorem Linked.stepped {call : PoolCall} {run run' : PoolRun} (h : Linked run.state.pool.heap)
    (hstep : Stepped A call run run') (hkeep : ¬ Overwrites A call run.state) :
    Linked run'.state.pool.heap := by
  cases hstep with
  | refused hpool =>
    rw [hpool]
    exact h
  | reset hids hpool =>
    rw [hpool]
    exact h.of_shape (shape_resetUsed _ _)
  | granted hneed hsize hround halign hdvd hlead hgrants hserved =>
    generalize run'.state.pool = q at *
    cases hserved with
    | fits hcur hc hroom haddr htakes => exact h.of_shape (shape_modify_used _ _ _)
    | grows hcur hi hc hused hroom haddr htakes =>
      apply h.grown hc _ hi
      intro d hd
      by_contra hne
      exact hkeep ⟨htakes, d, by rw [MemoryPool.currentChunk, hcur]; exact hd, hne⟩

/-- The old successor of the current chunk is on no list any more. -/
theorem not_keepsChunks_of_overwrites {call : PoolCall} {run run' : PoolRun}
    (hinv : Inv run.state.pool) (htracks : Tracks run.state.pool) (hstep : Stepped A call run run')
    (hover : Overwrites A call run.state) : ¬ KeepsChunks run'.state.pool := by
  obtain ⟨htakes, c, hchunk, hnext⟩ := hover
  cases hstep with
  | refused _ _ hnot => exact absurd htakes hnot
  | reset _ _ _ hnot => exact absurd htakes hnot
  | granted hneed hsize hround halign hdvd hlead hgrants hserved =>
    generalize run'.state.pool = q at *
    cases hserved with
    | fits _ _ _ _ hnot => exact absurd htakes hnot
    | @grows i d hcur hi hd hused hroom haddr _ =>
      obtain ⟨j, hj⟩ := Option.ne_none_iff_exists'.mp hnext
      have hc : run.state.pool.heap[i]? = some c := by
        rw [MemoryPool.currentChunk, hcur] at hchunk
        exact hchunk
      have hgt := hinv.next_gt i c j hc hj
      rintro ⟨ids, -, hchain, -, hall, -⟩
      have hmem : j ∈ ids := by
        rw [hall, length_grown]
        omega
      rcases mem_chainFrom hchain hmem with hptr | ⟨k, e, he, hek⟩
      · have hfirst : (run.state.pool.grown i d).chunks = some 0 := hinv.chunks_eq
        rw [hfirst] at hptr
        cases hptr
        omega
      · rcases getElem?_grown he with ⟨e', he', rfl⟩ | ⟨-, rfl⟩
        · split_ifs at hek with hik
          · cases hek
            omega
          · exact hik (htracks.next_inj i k c e' j hc he' hj hek)
        · rw [hd.next_eq] at hek
          cases hek

/-- A run keeps every chunk in the list, in every state that it reaches, if and only if no call of
it takes a new chunk while the current one has a successor. -/
theorem keepsChunks_iff (A : Allocator) {chunkSize maxMemory : ℕ} {st : PoolState}
    (hcreate : poolCreate A chunkSize maxMemory = .ok st) (calls : List PoolCall)
    (hsized : ∀ call ∈ calls, call.Sized) :
    (∀ pre, pre <+: calls →
        ∃ run, PoolRun.steps A pre ⟨st, []⟩ = some run ∧ KeepsChunks run.state.pool) ↔
      ∀ pre call, pre ++ [call] <+: calls →
        ∀ run, PoolRun.steps A pre ⟨st, []⟩ = some run → ¬ Overwrites A call run.state := by
  obtain ⟨hinv, c, hheap, -, hnext, -, htotal⟩ := poolCreate_cases hcreate
  have hlinked : Linked st.pool.heap := by
    rw [hheap]
    intro i d hd
    obtain ⟨hi, rfl⟩ := List.getElem?_eq_some_iff.mp hd
    obtain rfl : i = 0 := Nat.lt_one_iff.mp hi
    exact hnext
  have htracks : Tracks st.pool := by
    constructor
    · intro i i' d d' j hd _ hj _
      rw [hheap] at hd
      rw [List.mem_singleton.mp (List.mem_of_getElem? hd), hnext] at hj
      cases hj
    · have hlt := hinv.sum_lt
      rw [hheap] at hlt ⊢
      rw [htotal]
      exact u64_of_lt hlt
  constructor
  · intro hkeeps pre call hpre run hrun hover
    have hsub : ∀ c ∈ pre ++ [call], c.Sized := fun c hc => hsized c (hpre.subset hc)
    obtain ⟨run₁, hrun₁, hinv₁, htracks₁⟩ := steps_rule hcreate (fun run => Tracks run.state.pool) htracks
      pre (fun c hc => hsub c (List.mem_append_left _ hc)) fun _ _ _ _ _ _ hinv h hstep => h.stepped hinv hstep
    rw [hrun] at hrun₁
    cases hrun₁
    obtain ⟨run', hrun', hstepped⟩ := exists_step hinv₁ (hsub call (by simp))
    obtain ⟨run₂, hrun₂, hkeep⟩ := hkeeps _ hpre
    rw [steps_concat, hrun, Option.bind_some, hrun'] at hrun₂
    cases hrun₂
    exact not_keepsChunks_of_overwrites hinv₁ htracks₁ hstepped hover hkeep
  · intro hgood pre hpre
    obtain ⟨run, hrun, hinv', hlinked', htracks'⟩ := steps_rule hcreate
      (fun run => Linked run.state.pool.heap ∧ Tracks run.state.pool) ⟨hlinked, htracks⟩ pre
      (fun c hc => hsized c (hpre.subset hc)) fun pre' call run run' hpre' hrun hinv h hstep =>
        ⟨h.1.stepped hstep (hgood pre' call (hpre'.trans hpre) run hrun), h.2.stepped hinv hstep⟩
    exact ⟨run, hrun, hlinked'.keepsChunks hinv' htracks'⟩

theorem keepsChunks_iff_sample :
    (∀ call ∈ [PoolCall.alloc 64, .alloc 8], call.Sized) ∧
      ((∀ pre, pre <+: [PoolCall.alloc 64, .alloc 8] →
          ∃ run, PoolRun.steps .bump pre ⟨samplePool, []⟩ = some run ∧ KeepsChunks run.state.pool) ↔
        ∀ pre call, pre ++ [call] <+: [PoolCall.alloc 64, .alloc 8] →
          ∀ run, PoolRun.steps .bump pre ⟨samplePool, []⟩ = some run →
            ¬ Overwrites .bump call run.state) := by
  have hsized : ∀ call ∈ [PoolCall.alloc 64, .alloc 8], call.Sized := by
    simp [PoolCall.Sized]
  exact ⟨hsized, keepsChunks_iff .bump poolCreate_bump _ hsized⟩

/-- Two chunks are filled, and filled again after a reset: the second chunk is lost, and is not
freed with the pool. -/
theorem keepsChunks_lost :
    ∃ st run, poolCreate .bump 64 0 = .ok st ∧
      PoolRun.steps .bump [.alloc 64, .alloc 8, .reset, .alloc 64, .alloc 8] ⟨st, []⟩ = some run ∧
      run.state.pool.heap.length = 3 ∧ poolChain run.state.pool = some [0, 2] ∧
      poolDestroy run.state.pool = some [112, 80, 304, 272, 8] ∧ ¬ KeepsChunks run.state.pool := by
  obtain ⟨run, hrun⟩ : ∃ run, PoolRun.steps .bump [.alloc 64, .alloc 8, .reset, .alloc 64, .alloc 8]
      ⟨samplePool, []⟩ = some run := Option.isSome_iff_exists.mp (by decide +kernel)
  have heval : (PoolRun.steps .bump [.alloc 64, .alloc 8, .reset, .alloc 64, .alloc 8]
      ⟨samplePool, []⟩).all (fun run => run.state.pool.heap.length = 3 ∧
        poolChain run.state.pool = some [0, 2] ∧
        poolDestroy run.state.pool = some [112, 80, 304, 272, 8]) = true := by
    decide +kernel
  rw [hrun, Option.all_some, decide_eq_true_eq] at heval
  obtain ⟨hlen, hchain, hfrees⟩ := heval
  refine ⟨samplePool, run, poolCreate_bump, hrun, hlen, hchain, hfrees, ?_⟩
  rintro ⟨ids, -, hids, -, hall, -⟩
  rw [hchain] at hids
  cases hids
  have hone := (hall 1).mpr (by omega)
  simp at hone

end Tracks

end Fsdiff.Pool
