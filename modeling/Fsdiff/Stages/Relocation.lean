import Fsdiff.Core.Crc32
import Fsdiff.Core.HashTable
import Fsdiff.Stages.Records

/-! `stage_relocation.c`: blocks that moved, found through a hash table of the source
blocks by CRC-32 and verified byte for byte. -/
namespace Fsdiff.Stages
open Exec

/-- `is_zero_block_quick`: the first and the last word, then all words. -/
def isZeroBlockQuick (block : Bytes) : Bool :=
  let words := block.length / 8
  (decide (block.length < 16) || (wordAt block 0 = 0 && wordAt block (words - 1) = 0)) &&
    (List.range words).all fun i => wordAt block i = 0

section Stage
variable (env : Env) (bs : ℕ) (src dest : Bytes)

/-- `fsd_hash_table_create` on the stage's pool: the table, then its buckets. -/
def hashTableCreate (expectedEntries : ℕ) : StageM HashTable := do
  if ← poolAlloc env then
    if ← poolAlloc env then pure (.create expectedEntries) else throw .outOfMemory
  else throw .outOfMemory

/-- `fsd_hash_table_insert`, which drops the entry when there is no memory for it. -/
def hashTableInsert (table : HashTable) (crc : BitVec 32) (blockIndex : ℕ) : StageM HashTable := do
  if ← poolAlloc env then pure (table.insert crc blockIndex) else pure table

/-- `fsd_relocation_stage_build_index` -/
def relocationBuildIndex (srcBlocks : ℕ) : StageM HashTable := do
  let table ← hashTableCreate env srcBlocks
  iterM (fun i table =>
    let block := blockAt bs src i
    if isZeroBlockQuick block then pure table
    else hashTableInsert env table (crc32 block) i) srcBlocks 0 table

/-- `while (entry)`: the first entry of the chain that is not the block's own position
and whose source block is equal. -/
def findRelocation (destIdx : ℕ) (chain : List HashEntry) : Option HashEntry :=
  chain.find? fun e => e.blockIndex ≠ destIdx ∧ blockAt bs src e.blockIndex = blockAt bs dest destIdx

/-- Loop body of `fsd_relocation_stage_run`. -/
def relocationBlock (table : HashTable) (destIdx : ℕ) : StageM Unit := do
  let t := (← get).tracker
  if t.isUnmatched destIdx then
    match t.get destIdx with
    | none => pure ()
    | some state =>
      match findRelocation bs src dest destIdx (table.lookup state.crc32) with
      | none => pure ()
      | some entry => updateTracker (·.setMatch destIdx .relocate entry.blockIndex)
  else pure ()

/-- `fsd_relocation_stage_run` -/
def relocationStageRun (table : HashTable) : StageM Unit := do
  let count := (← get).tracker.count
  iterM (fun destIdx _ => relocationBlock bs src dest table destIdx) count 0 ()

end Stage

section Soundness
variable {env : Env} {J : Comparison}

def InSource (J : Comparison) (table : HashTable) : Prop :=
  table.AllEntries fun e => e.blockIndex < J.srcBlocks

theorem hashTableCreate_ends (w : World) (n : ℕ) :
    Ends (hashTableCreate env n w) (fun table w' => InSource J table ∧ w'.tracker = w.tracker)
      (fun _ w' => w'.tracker = w.tracker) := by
  apply Ends.bind (x := poolAlloc env) (Q := fun _ w' => w'.tracker = w.tracker) rfl
  intro _ w₁ hw₁
  apply ends_ite
  · intro _
    apply Ends.bind (x := poolAlloc env) (Q := fun _ w' => w'.tracker = w.tracker) hw₁
    intro _ w₂ hw₂
    apply ends_ite
    · exact fun _ => ⟨HashTable.allEntries_create n, hw₂⟩
    · exact fun _ => hw₂
  · exact fun _ => hw₁

theorem hashTableInsert_ends {table : HashTable} (h : InSource J table) {i : ℕ} (hi : i < J.srcBlocks)
    (crc : BitVec 32) (w : World) :
    Ends (hashTableInsert env table crc i w)
      (fun table w' => InSource J table ∧ w'.tracker = w.tracker)
      (fun _ w' => w'.tracker = w.tracker) := by
  apply Ends.bind (x := poolAlloc env) (Q := fun _ w' => w'.tracker = w.tracker) rfl
  intro _ w₁ hw₁
  apply ends_ite
  · exact fun _ => ⟨h.insert hi, hw₁⟩
  · exact fun _ => ⟨h, hw₁⟩

/-- The index holds source blocks only, and building it leaves the tracker alone. -/
theorem relocationBuildIndex_ends (env : Env) (J : Comparison) (w : World) :
    Ends (relocationBuildIndex env J.bs J.src J.srcBlocks w)
      (fun table w' => InSource J table ∧ w'.tracker = w.tracker)
      (fun _ w' => w'.tracker = w.tracker) := by
  apply Ends.bind (hashTableCreate_ends w J.srcBlocks)
  intro table w₁ hpost
  obtain ⟨htable, hw₁⟩ := hpost
  apply Ends.iterM_zero (fun _ (table : HashTable) (w' : World) =>
    InSource J table ∧ w'.tracker = w.tracker)
  · intro i table w₂ hi hpost
    obtain ⟨htable, hw₂⟩ := hpost
    apply ends_ite
    · exact fun _ => ⟨htable, hw₂⟩
    · intro _
      apply (hashTableInsert_ends htable hi _ w₂).mono
      · intro table' w₃ hpost
        obtain ⟨htable', hw₃⟩ := hpost
        exact ⟨htable', hw₃.trans hw₂⟩
      · intro _ w₃ hw₃
        exact hw₃.trans hw₂
  · exact ⟨htable, hw₁⟩

theorem relocationBlock_advancing {table : HashTable} (h : InSource J table) (i : ℕ) :
    Advancing J (relocationBlock J.bs J.src J.dest table i) := by
  apply advancing_get
  intro w hw
  apply ends_ite
  · intro _
    cases w.tracker.get i with
    | none => exact hw.advances
    | some state =>
      cases hfind : findRelocation J.bs J.src J.dest i (table.lookup state.crc32) with
      | none =>
        simp only [hfind]
        exact hw.advances
      | some entry =>
        have hmem := List.mem_of_find?_eq_some hfind
        have hprop := List.find?_some hfind
        rw [decide_eq_true_eq] at hprop
        simp only [hfind]
        apply advancing_updateTracker _ w hw
        intro t ht
        exact ht.setMatch (by decide) fun _ => ⟨hprop.1, h.lookup _ entry hmem, hprop.2.symm⟩
  · exact fun _ => hw.advances

theorem relocationStageRun_advancing {table : HashTable} (h : InSource J table) :
    Advancing J (relocationStageRun J.bs J.src J.dest table) := by
  apply advancing_get
  intro w hw
  exact Advancing.iterM _ _ _ (fun i _ _ _ => relocationBlock_advancing h i) w hw

end Soundness

end Fsdiff.Stages
