import Fsdiff.Patch.Blocks

/-! The end of a block in the sparse format. The two kinds of runs are not treated alike there: a
copy-add run that passes the end is cut, with the rest of its bytes read and dropped, while a copy
run that passes the end is refused. -/
namespace Fsdiff.Patch
open ByteString Exec Format

/-! ### Which runs are refused -/

def runsLength (runs : Runs) : ℕ := (runs.map fun run => run.1.length + run.2.getD 0).sum

/-- The last run is a copy run, and passes the end of a block of `n` bytes. -/
def Overshoots (n : ℕ) (runs : Runs) : Prop :=
  (∃ diff copy, runs.getLast? = some (diff, some copy)) ∧ n < runsLength runs

/-- A copy-add run and a copy run that are both empty, so that a pass makes no progress. -/
def Stalls (runs : Runs) : Prop := ([], some 0) ∈ runs

instance (runs : Runs) : Decidable (Stalls runs) := inferInstanceAs (Decidable (_ ∈ runs))

theorem overshoots_cons {n : ℕ} {diff : Bytes} {copy : ℕ} {rest : Runs}
    (h : Reaches (n - (diff.length + copy)) rest) :
    Overshoots n ((diff, some copy) :: rest) ↔
      n < diff.length + copy ∨ Overshoots (n - (diff.length + copy)) rest := by
  cases rest with
  | nil => simp [Overshoots, runsLength]
  | cons run rest =>
    have hopen : 0 < n - (diff.length + copy) := by
      obtain ⟨d, _ | c⟩ := run
      · exact h.1
      · exact Nat.zero_lt_of_lt h.1
    have hlen : runsLength ((diff, some copy) :: run :: rest) =
        diff.length + copy + runsLength (run :: rest) := by
      simp [runsLength]
    rw [Overshoots, Overshoots, hlen, List.getLast?_cons_cons]
    constructor
    · rintro ⟨hlast, hlt⟩
      exact .inr ⟨hlast, by omega⟩
    · rintro (hlt | ⟨hlast, hlt⟩)
      · omega
      · exact ⟨hlast, by omega⟩

theorem copiesFit_iff {n : ℕ} {runs : Runs} (h : Reaches n runs) :
    CopiesFit n runs ↔ ¬ Stalls runs ∧ ¬ Overshoots n runs := by
  induction runs generalizing n with
  | nil => simp [CopiesFit, Stalls, Overshoots]
  | cons run rest ih =>
    obtain ⟨diff, _ | copy⟩ := run
    · obtain ⟨-, -, rfl⟩ := h
      simp [CopiesFit, Stalls, Overshoots]
    · have hstall : Stalls ((diff, some copy) :: rest) ↔ diff.length + copy = 0 ∨ Stalls rest := by
        rw [Stalls, List.mem_cons, Prod.mk.injEq, eq_comm, ← List.length_eq_zero_iff, Option.some.injEq,
          eq_comm (a := 0), ← Nat.add_eq_zero_iff]
        rfl
      rw [CopiesFit, ih h.2, overshoots_cons h.2, hstall, not_or, not_or, Nat.pos_iff_ne_zero, not_lt]
      tauto

/-- A block is filled, whatever its last run asks for. -/
theorem length_applyRuns {buf : Bytes} {runs : Runs} (h : Reaches buf.length runs) :
    (applyRuns buf runs).length = buf.length := by
  induction runs generalizing buf with
  | nil => exact h.symm
  | cons run rest ih =>
    obtain ⟨diff, _ | copy⟩ := run
    · obtain ⟨-, hle, rfl⟩ := h
      simp [applyRuns, hle]
    · obtain ⟨hlt, hrest⟩ := h
      have hnext : ((buf.drop diff.length).drop copy).length = buf.length - (diff.length + copy) := by
        rw [List.length_drop, List.length_drop, Nat.sub_sub]
      have hrec := ih (hnext.symm ▸ hrest)
      simp only [applyRuns, Option.getD_some, List.length_append, List.length_zipWith,
        List.length_take, List.length_drop] at hrec hnext ⊢
      rw [hrec, hnext]
      omega

/-! ### The blocks of one operation -/

/-- The runs of one block as they stand in the diff stream. -/
structure SpelledBlock (bs : ℕ) where
  spelling : List Bytes
  runs : Runs
  spells : List.Forall₂ SpellsRun spelling runs
  reaches : Reaches bs runs

def SpelledBlock.bytes {bs : ℕ} (block : SpelledBlock bs) : Bytes := block.spelling.flatten

/-- The decoder refuses the block. -/
def SpelledBlock.Refused {bs : ℕ} (block : SpelledBlock bs) : Prop :=
  Stalls block.runs ∨ Overshoots bs block.runs

theorem SpelledBlock.refused_iff {bs : ℕ} (block : SpelledBlock bs) :
    block.Refused ↔ ¬ CopiesFit bs block.runs := by
  rw [copiesFit_iff block.reaches, not_and_or, not_not, not_not]
  rfl

section Operation
variable {src patch : Bytes} {L : Layout patch} {r : Region} {s : Output}

/-- The source block under block `blk` of an operation. -/
def sourceBlock (src : Bytes) (L : Layout patch) (destBlock : ℕ) (byteOffset : ℤ) (blk : ℕ) : Bytes :=
  window src (copyAddPos L destBlock blk byteOffset).toNat L.blockSize

/-- What the runs denote on the source, block after block. -/
def copyAddOutput (src : Bytes) (L : Layout patch) (destBlock : ℕ) (byteOffset : ℤ) :
    ℕ → List (SpelledBlock L.blockSize) → Bytes
  | _, [] => []
  | blk, block :: rest => applyRuns (sourceBlock src L destBlock byteOffset blk) block.runs ++
      copyAddOutput src L destBlock byteOffset (blk + 1) rest

theorem length_copyAddOutput (b : ℕ) (byteOffset : ℤ) (blocks : List (SpelledBlock L.blockSize)) {i : ℕ}
    (hsrc : ∀ j < blocks.length, InSource src (copyAddPos L b (i + j) byteOffset) L.blockSize) :
    (copyAddOutput src L b byteOffset i blocks).length = blocks.length * L.blockSize := by
  induction blocks generalizing i with
  | nil => simp [copyAddOutput]
  | cons block rest ih =>
    have hlen : (sourceBlock src L b byteOffset i).length = L.blockSize :=
      (hsrc 0 (Nat.succ_pos _)).length_window le_rfl
    have hfull : (applyRuns (sourceBlock src L b byteOffset i) block.runs).length =
        (sourceBlock src L b byteOffset i).length := by
      apply length_applyRuns
      rw [hlen]
      exact block.reaches
    have hrest := ih (i := i + 1) fun j hj => by
      rw [add_assoc, add_comm 1]
      exact hsrc (j + 1) (Nat.succ_lt_succ hj)
    rw [copyAddOutput, List.length_append, hfull, hlen, hrest, List.length_cons, add_mul, one_mul,
      add_comm]

/-- One block: its runs, and the reading position behind them. -/
theorem copyAddBlock_runs (hr : r.Inside L) (hstream : r.stream = .diff) {b i cursor : ℕ} {byteOffset : ℤ}
    (block : SpelledBlock L.blockSize) (hsrc : InSource src (copyAddPos L b i byteOffset) L.blockSize)
    (hlo : r.lo ≤ cursor) (hend : cursor + block.bytes.length ≤ r.hi)
    (hocc : OccursAt patch cursor block.bytes) :
    Ends (copyAddBlock (reliable src) L r 1 b byteOffset i cursor s)
      (fun next s' => ¬ block.Refused ∧ next = cursor + block.bytes.length ∧
        Grows s s' (applyRuns (sourceBlock src L b byteOffset i) block.runs) []
          (List.range' cursor block.bytes.length) [])
      (fun e _ => block.Refused ∧ e = .fail .corruptData) := by
  obtain ⟨hnn, hfits⟩ := hsrc
  have hlen : (sourceBlock src L b byteOffset i).length = L.blockSize :=
    InSource.length_window ⟨hnn, hfits⟩ le_rfl
  refine ends_ite (fun hneg => absurd hnn (not_le.mpr hneg)) fun _ => ?_
  apply ((fetchBlock_reliable (copyAddPos_end_lt L b i byteOffset)).weaken
    (fun e s' h => absurd h (by omega))).bind
  intro _ s₁ hpost
  obtain ⟨-, rfl, hg₁⟩ := hpost
  have hblock := sparseBlock_runs (s := s₁) hr block.spells hlen block.reaches hlo hend hocc
  refine (hblock.weaken (fun e s' h => ⟨block.refused_iff.mpr h.1, h.2⟩)).bind ?_
  intro t _ hpost
  obtain ⟨hfit, hcur, hbuf, rfl⟩ := hpost
  apply ((writeBlock_reliable _).of_total).bind
  intro _ s₂ hw
  refine ⟨by rwa [block.refused_iff, not_not], hcur, ?_⟩
  rw [hbuf, hstream] at hw
  simpa only [List.nil_append, List.append_nil, SpelledBlock.bytes] using
    (hg₁.trans (grows_logReads_diff s₁ _)).trans hw

/-- The blocks of a sparse operation from block `i` on. Each of them starts behind the last run of
the block before it; a last copy-add run is cut at the end of its block, a last copy run has to end
with it. -/
theorem copyAdd_cuts_last_run (hr : r.Inside L) (hstream : r.stream = .diff) (b : ℕ) (byteOffset : ℤ)
    (blocks : List (SpelledBlock L.blockSize)) {i cursor : ℕ}
    (hsrc : ∀ j < blocks.length, InSource src (copyAddPos L b (i + j) byteOffset) L.blockSize)
    (hlo : r.lo ≤ cursor) (hend : cursor + (blocks.flatMap (·.bytes)).length ≤ r.hi)
    (hocc : OccursAt patch cursor (blocks.flatMap (·.bytes))) (s : Output) :
    Ends (iterM (copyAddBlock (reliable src) L r 1 b byteOffset) blocks.length i cursor s)
      (fun next s' => (∀ block ∈ blocks, ¬ block.Refused) ∧
        next = cursor + (blocks.flatMap (·.bytes)).length ∧
        (copyAddOutput src L b byteOffset i blocks).length = blocks.length * L.blockSize ∧
        Grows s s' (copyAddOutput src L b byteOffset i blocks) []
          (List.range' cursor (blocks.flatMap (·.bytes)).length) [])
      (fun e _ => (∃ block ∈ blocks, block.Refused) ∧ e = .fail .corruptData) := by
  have hfull := length_copyAddOutput b byteOffset blocks hsrc
  suffices h : Ends (iterM (copyAddBlock (reliable src) L r 1 b byteOffset) blocks.length i cursor s)
      (fun next s' => (∀ block ∈ blocks, ¬ block.Refused) ∧
        next = cursor + (blocks.flatMap (·.bytes)).length ∧
        Grows s s' (copyAddOutput src L b byteOffset i blocks) []
          (List.range' cursor (blocks.flatMap (·.bytes)).length) [])
      (fun e _ => (∃ block ∈ blocks, block.Refused) ∧ e = .fail .corruptData) from
    h.imp fun _ _ hpost => ⟨hpost.1, hpost.2.1, hfull, hpost.2.2⟩
  clear hfull
  induction blocks generalizing i cursor s with
  | nil => exact ⟨by simp, by simp, by simpa [copyAddOutput] using Grows.refl s⟩
  | cons block rest ih =>
    rw [List.flatMap_cons, List.length_append] at hend ⊢
    rw [List.flatMap_cons, occursAt_append] at hocc
    have hblock := copyAddBlock_runs (s := s) hr hstream block (hsrc 0 (Nat.succ_pos _)) hlo (by omega)
      hocc.1
    apply (hblock.weaken (fun e s' h => ⟨⟨block, List.mem_cons_self, h.1⟩, h.2⟩)).bind
    intro _ s₁ hpost
    obtain ⟨hok, rfl, hg⟩ := hpost
    have hsrc' : ∀ j < rest.length,
        InSource src (copyAddPos L b (i + 1 + j) byteOffset) L.blockSize := by
      intro j hj
      rw [add_assoc, add_comm 1]
      exact hsrc (j + 1) (Nat.succ_lt_succ hj)
    refine (ih hsrc' (by omega) (by omega) hocc.2 s₁).mono ?_ ?_
    · intro _ s₂ hpost
      obtain ⟨hall, rfl, hg'⟩ := hpost
      refine ⟨List.forall_mem_cons.mpr ⟨hok, hall⟩, add_assoc _ _ _, ?_⟩
      rw [copyAddOutput, ← List.range'_append_1]
      exact hg.trans hg'
    · intro e _ hpost
      obtain ⟨⟨refused, hmem, href⟩, rfl⟩ := hpost
      exact ⟨⟨refused, List.mem_cons_of_mem _ hmem, href⟩, rfl⟩

end Operation

/-- A patch of two blocks with nothing but a diff stream. -/
def diffsPatch (diffs : Bytes) : Bytes := headerWrite 2 5 0 diffs.length ++ diffs

theorem length_diffsPatch (diffs : Bytes) : headerSize + 0 + diffs.length ≤ (diffsPatch diffs).length := by
  rw [diffsPatch, List.length_append, length_headerWrite]
  exact le_rfl

def diffsLayout (diffs : Bytes) : Layout (diffsPatch diffs) :=
  ⟨smallHeader 2 0 diffs.length, show 2 ≤ int64Max / 2 ^ 5 by decide, length_diffsPatch diffs⟩

def diffsRegion (diffs : Bytes) : Region := ⟨.diff, 32, 32 + diffs.length⟩

theorem diffsRegion_inside (diffs : Bytes) : (diffsRegion diffs).Inside (diffsLayout diffs) :=
  ⟨le_rfl, le_rfl⟩

theorem occursAt_diffs (diffs : Bytes) : OccursAt (diffsPatch diffs) 32 diffs := by
  have hheader : 32 = (headerWrite 2 5 0 diffs.length).length := (length_headerWrite ..).symm
  rw [OccursAt, diffsPatch, hheader, List.drop_left]

theorem inSource_diffs (diffs : Bytes) {j : ℕ} (hj : j < 2) :
    InSource (List.replicate 64 7) (copyAddPos (diffsLayout diffs) 0 (0 + j) 0) 32 := by
  have hb : 0 + (0 + j) < (diffsLayout diffs).destBlocks := show 0 + (0 + j) < 2 by omega
  have hbs : (diffsLayout diffs).blockSize = 32 := rfl
  have hpos : copyAddPos (diffsLayout diffs) 0 (0 + j) 0 = _ :=
    copyAddPos_eq (diffsLayout diffs) hb (by decide) (by rw [hbs]; omega)
  rw [hpos, hbs]
  refine ⟨by omega, ?_⟩
  rw [List.length_replicate]
  omega

/-- Nothing in front, and a copy run of 33 bytes. -/
def longCopyBlock : SpelledBlock 32 :=
  ⟨[[0] ++ [] ++ [33]], [([], some 33)],
    .cons (SpellsRun.copy ⟨by decide, rfl, by decide, by decide⟩ ⟨by decide, rfl, by decide, by decide⟩)
      .nil, ⟨by decide, rfl⟩⟩

/-- Two empty runs, and a copy-add run of the whole block. -/
def idleBlock : SpelledBlock 32 :=
  ⟨[[0] ++ [] ++ [0], [32] ++ List.replicate 32 1], [([], some 0), (List.replicate 32 1, none)],
    .cons (SpellsRun.copy ⟨by decide, rfl, by decide, by decide⟩ ⟨by decide, rfl, by decide, by decide⟩)
      (.cons (SpellsRun.last ⟨by decide, rfl, by decide, by decide⟩) .nil),
    ⟨by decide, by decide, by decide, rfl⟩⟩

/-- A copy run of 33 bytes in a block of 32: no output, where the specification cuts the run. An
empty pair of runs in front of a whole block is refused too. -/
theorem copyAdd_refuses_long_copy :
    let src : Bytes := List.replicate 64 7
    applyRuns (List.replicate 32 7) longCopyBlock.runs = List.replicate 32 7 ∧
      applyRuns (List.replicate 32 7) idleBlock.runs = List.replicate 32 8 ∧
      ∀ block ∈ [longCopyBlock, idleBlock], ∃ s, copyAddBlock (reliable src) (diffsLayout block.bytes)
        (diffsRegion block.bytes) 1 0 0 0 32 {} = .error (.fail .corruptData) s := by
  intro src
  refine ⟨by decide, by decide, ?_⟩
  intro block hblock
  have hrefused : block.Refused := by
    rcases List.mem_pair.mp hblock with rfl | rfl
    · exact .inr ⟨⟨[], 33, rfl⟩, by decide⟩
    · exact .inl List.mem_cons_self
  have hends := copyAddBlock_runs (s := {}) (diffsRegion_inside block.bytes) rfl block
    (inSource_diffs block.bytes (j := 0) (by decide)) le_rfl le_rfl (occursAt_diffs block.bytes)
  obtain ⟨_, s, hrun, rfl⟩ := (hends.mono (fun _ _ h => h.1 hrefused) (fun _ _ h => h.2)).exists_error
  exact ⟨s, hrun⟩

/-- A copy-add run of 34 bytes. -/
def longAddBlock : SpelledBlock 32 :=
  ⟨[[34] ++ List.replicate 34 1], [(List.replicate 34 1, none)],
    .cons (SpellsRun.last ⟨by decide, rfl, by decide, by decide⟩) .nil, ⟨by decide, by decide, rfl⟩⟩

/-- A block that is copied as it is. -/
def copiedBlock : SpelledBlock 32 :=
  ⟨[[0] ++ [] ++ [32]], [([], some 32)],
    .cons (SpellsRun.copy ⟨by decide, rfl, by decide, by decide⟩ ⟨by decide, rfl, by decide, by decide⟩)
      .nil, ⟨by decide, rfl⟩⟩

/-- Two bytes of the first block are dropped, and the next block is read behind them. -/
theorem copyAdd_cuts_last_run_sample :
    let src : Bytes := List.replicate 64 7
    let diffs := [longAddBlock, copiedBlock].flatMap (·.bytes)
    ∃ s, iterM (copyAddBlock (reliable src) (diffsLayout diffs) (diffsRegion diffs) 1 0 0) 2 0 32 {} =
        .ok 69 s ∧ s.written = List.replicate 32 8 ++ List.replicate 32 7 := by
  intro src diffs
  have hends := copyAdd_cuts_last_run (diffsRegion_inside diffs) rfl 0 0 [longAddBlock, copiedBlock]
    (fun _ hj => inSource_diffs diffs hj) (i := 0) (show (diffsRegion diffs).lo ≤ 32 from le_rfl)
    le_rfl (occursAt_diffs diffs) {}
  have haccepted : ¬ ∃ block ∈ [longAddBlock, copiedBlock], block.Refused := by
    rintro ⟨block, hblock, hstall | ⟨⟨diff, copy, hlast⟩, hlong⟩⟩
    · rcases List.mem_pair.mp hblock with rfl | rfl
      · exact absurd hstall (by decide)
      · exact absurd hstall (by decide)
    · rcases List.mem_pair.mp hblock with rfl | rfl
      · cases hlast
      · exact absurd hlong (by decide)
  obtain ⟨next, s, hrun, -, rfl, -, hgrows⟩ := (hends.weaken fun _ _ h => haccepted h.1).exists_ok
  refine ⟨s, hrun, hgrows.written.trans ?_⟩
  decide +kernel

end Fsdiff.Patch
