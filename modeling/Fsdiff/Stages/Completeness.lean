import Fsdiff.Stages.Identity
import Fsdiff.Stages.Relocation

/-! Identity and relocation together miss nothing: with memory for the whole index, a block
that they leave unmatched is no constant block and equals no block of the source, whatever
CRC and bucket collisions occur. -/
namespace Fsdiff.Stages
open ByteString Exec

/-- The block is constant or equal to a block of the source. -/
def Comparison.Findable (J : Comparison) (i : ℕ) : Prop :=
  J.destBlock i = List.replicate J.bs 0x00 ∨ J.destBlock i = List.replicate J.bs 0xFF ∨
    ∃ j < J.srcBlocks, J.srcBlock j = J.destBlock i

/-- What the identity stage leaves for the relocation stage: the checksum of a block that is
not constant and did not stay in its place. -/
structure Searchable (J : Comparison) (i : ℕ) (b : BlockState) : Prop where
  crc_eq : b.crc32 = crc32 (J.destBlock i)
  not_zero : J.destBlock i ≠ List.replicate J.bs 0x00
  not_one : J.destBlock i ≠ List.replicate J.bs 0xFF
  not_identity : i < J.srcBlocks → J.srcBlock i ≠ J.destBlock i

/-- The blocks before `n` are matched, if they can be, or satisfy `Done`; the others are as
`Todo` says. -/
structure Progress (J : Comparison) (Done Todo : ℕ → BlockState → Prop) (n : ℕ) (t : Tracker) :
    Prop where
  inv : t.Inv
  count_eq : t.count = J.destBlocks
  matched : ∀ i b, t.get i = some b → b.matchType ≠ .none → J.Findable i
  done : ∀ i b, t.get i = some b → i < n → b.matchType = .none → Done i b
  todo : ∀ i b, t.get i = some b → n ≤ i → b.matchType = .none → Todo i b

section Steps
variable {J : Comparison} {Done Todo : ℕ → BlockState → Prop} {n : ℕ} {t : Tracker}

/-- A block that can be found is matched. -/
theorem Progress.setMatch (h : Progress J Done Todo n t) {ty : MatchType} (hty : ty ≠ .none)
    (src : ℕ) (hf : J.Findable n) : Progress J Done Todo (n + 1) (t.setMatch n ty src) := by
  have hget : ∀ i b', (t.setMatch n ty src).get i = some b' →
      ∃ b, t.get i = some b ∧ (n = i ∧ b'.matchType ≠ .none ∨ n ≠ i ∧ b' = b) := by
    intro i b' hb'
    rw [Tracker.get_setMatch] at hb'
    split_ifs at hb' with hi
    · obtain ⟨b, hb, hb'⟩ := Option.map_eq_some_iff.mp hb'
      refine ⟨b, hb, .inl ⟨hi, ?_⟩⟩
      split_ifs at hb' with hnone
      · subst hb'
        exact hty
      · subst hb'
        exact hnone
    · exact ⟨b', hb', .inr ⟨hi, rfl⟩⟩
  refine ⟨h.inv.setMatch hty src, (Tracker.count_setMatch t n ty src).trans h.count_eq, ?_, ?_, ?_⟩
  · intro i b' hb' hm
    obtain ⟨b, hb, ⟨rfl, -⟩ | ⟨-, rfl⟩⟩ := hget i b' hb'
    · exact hf
    · exact h.matched i b' hb hm
  · intro i b' hb' hi hm
    obtain ⟨b, hb, ⟨-, hne⟩ | ⟨hni, rfl⟩⟩ := hget i b' hb'
    · exact absurd hm hne
    · exact h.done i b' hb (by omega) hm
  · intro i b' hb' hi hm
    obtain ⟨b, hb, ⟨-, hne⟩ | ⟨-, rfl⟩⟩ := hget i b' hb'
    · exact absurd hm hne
    · exact h.todo i b' hb (by omega) hm

theorem Progress.skip (h : Progress J Done Todo n t)
    (hdone : ∀ b, t.get n = some b → b.matchType = .none → Done n b) :
    Progress J Done Todo (n + 1) t := by
  refine ⟨h.inv, h.count_eq, h.matched, ?_, fun i b hb hi => h.todo i b hb (by omega)⟩
  intro i b hb hi hm
  rcases Nat.lt_succ_iff_lt_or_eq.mp hi with hlt | rfl
  · exact h.done i b hb hlt hm
  · exact hdone b hb hm

/-- The checksum is stored in a block that stays unmatched. -/
theorem Progress.setCrc32 (h : Progress J (Searchable J) Todo n t)
    (hTodo : ∀ i b c, Todo i b → Todo i { b with crc32 := c })
    (hz : J.destBlock n ≠ List.replicate J.bs 0x00) (ho : J.destBlock n ≠ List.replicate J.bs 0xFF)
    (hid : n < J.srcBlocks → J.srcBlock n ≠ J.destBlock n) :
    Progress J (Searchable J) Todo (n + 1) (t.setCrc32 n (crc32 (J.destBlock n))) := by
  have hget : ∀ i b', (t.setCrc32 n (crc32 (J.destBlock n))).get i = some b' →
      ∃ b, t.get i = some b ∧ b'.matchType = b.matchType ∧
        (n = i ∧ b' = { b with crc32 := crc32 (J.destBlock n) } ∨ n ≠ i ∧ b' = b) := by
    intro i b' hb'
    rw [Tracker.get_setCrc32] at hb'
    split_ifs at hb' with hi
    · obtain ⟨b, hb, rfl⟩ := Option.map_eq_some_iff.mp hb'
      exact ⟨b, hb, rfl, .inl ⟨hi, rfl⟩⟩
    · exact ⟨b', hb', rfl, .inr ⟨hi, rfl⟩⟩
  refine ⟨h.inv.setCrc32 _, (Tracker.count_setCrc32 t n _).trans h.count_eq, ?_, ?_, ?_⟩
  · intro i b' hb' hm
    obtain ⟨b, hb, hty, -⟩ := hget i b' hb'
    exact h.matched i b hb (hty ▸ hm)
  · intro i b' hb' hi hm
    obtain ⟨b, hb, hty, ⟨rfl, rfl⟩ | ⟨hni, rfl⟩⟩ := hget i b' hb'
    · exact ⟨rfl, hz, ho, hid⟩
    · exact h.done i b' hb (by omega) hm
  · intro i b' hb' hi hm
    obtain ⟨b, hb, hty, ⟨-, rfl⟩ | ⟨-, rfl⟩⟩ := hget i b' hb'
    · exact hTodo i b _ (h.todo i b hb (by omega) (hty ▸ hm))
    · exact h.todo i b' hb (by omega) hm

end Steps

section Identity
variable {K : Kernels} {J : Comparison}

/-- Nothing is asked of the blocks that the identity stage has not reached. -/
abbrev Unread : ℕ → BlockState → Prop := fun _ _ => True

theorem isZero_iff_block {i : ℕ} (hi : i < J.destBlocks) :
    K.isZero (J.destBlock i) = true ↔ J.destBlock i = List.replicate J.bs 0x00 := by
  rw [K.isZero_iff, J.length_destBlock hi]

theorem isOne_iff_block {i : ℕ} (hi : i < J.destBlocks) :
    K.isOne (J.destBlock i) = true ↔ J.destBlock i = List.replicate J.bs 0xFF := by
  rw [K.isOne_iff, J.length_destBlock hi]

theorem identityCommonBlock_progress {i : ℕ} (hi : i < J.destBlocks) (hs : i < J.srcBlocks)
    {w : World} (h : Progress J (Searchable J) Unread i w.tracker) :
    Ends (identityCommonBlock K J.bs J.src J.dest i w)
      (fun _ w' => Progress J (Searchable J) Unread (i + 1) w'.tracker) (fun _ _ => False) := by
  apply ends_ite
  · intro hz
    exact h.setMatch (by decide) 0 (.inl ((isZero_iff_block hi).mp hz))
  intro hz
  apply ends_ite
  · intro ho
    exact h.setMatch (by decide) 0 (.inr (.inl ((isOne_iff_block hi).mp ho)))
  intro ho
  apply ends_ite
  · intro heq
    exact h.setMatch (by decide) i (.inr (.inr ⟨i, hs, heq⟩))
  · intro hne
    exact h.setCrc32 (fun _ _ _ _ => trivial) (fun h0 => hz ((isZero_iff_block hi).mpr h0))
      (fun h1 => ho ((isOne_iff_block hi).mpr h1)) (fun _ => hne)

theorem identityDestBlock_progress {i : ℕ} (hi : i < J.destBlocks) (hs : J.srcBlocks ≤ i)
    {w : World} (h : Progress J (Searchable J) Unread i w.tracker) :
    Ends (identityDestBlock K J.bs J.dest i w)
      (fun _ w' => Progress J (Searchable J) Unread (i + 1) w'.tracker) (fun _ _ => False) := by
  apply ends_ite
  · intro hz
    exact h.setMatch (by decide) 0 (.inl ((isZero_iff_block hi).mp hz))
  intro hz
  apply ends_ite
  · intro ho
    exact h.setMatch (by decide) 0 (.inr (.inl ((isOne_iff_block hi).mp ho)))
  · intro ho
    exact h.setCrc32 (fun _ _ _ _ => trivial) (fun h0 => hz ((isZero_iff_block hi).mpr h0))
      (fun h1 => ho ((isOne_iff_block hi).mpr h1)) (fun hlt => absurd hlt (not_lt.mpr hs))

/-- After the identity stage every unmatched block has its checksum. -/
theorem identityStageRun_progress (K : Kernels) {w : World}
    (h : Progress J (Searchable J) Unread 0 w.tracker) :
    Ends (identityStageRun K J.bs J.src J.dest J.srcBlocks J.destBlocks w)
      (fun _ w' => Progress J (Searchable J) Unread J.destBlocks w'.tracker) (fun _ _ => False) := by
  have hcommon : (if J.srcBlocks < J.destBlocks then J.srcBlocks else J.destBlocks) =
      min J.srcBlocks J.destBlocks := by
    split_ifs <;> omega
  unfold identityStageRun
  rw [hcommon]
  apply Ends.bind (Ends.iterM_zero
    (fun n _ (w' : World) => Progress J (Searchable J) Unread n w'.tracker) _ _ _ ?_ h)
  · intro _ w₁ h₁
    have hstep (i : ℕ) (_ : Unit) (w' : World) (hlo : min J.srcBlocks J.destBlocks ≤ i)
        (hhi : i < min J.srcBlocks J.destBlocks + (J.destBlocks - min J.srcBlocks J.destBlocks))
        (hp : Progress J (Searchable J) Unread i w'.tracker) :
        Ends (identityDestBlock K J.bs J.dest i w')
          (fun _ w' => Progress J (Searchable J) Unread (i + 1) w'.tracker) (fun _ _ => False) :=
      identityDestBlock_progress (by omega) (by omega) hp
    have hrest := Ends.iterM (fun n _ (w' : World) => Progress J (Searchable J) Unread n w'.tracker)
      (J.destBlocks - min J.srcBlocks J.destBlocks) (min J.srcBlocks J.destBlocks) () w₁ hstep h₁
    rwa [Nat.add_sub_cancel' (min_le_right _ _)] at hrest
  · intro i _ w₁ hi hp
    exact identityCommonBlock_progress (by omega) (by omega) hp

end Identity

section Relocation
variable {env : Env} {J : Comparison}

/-- The quick check takes only zero blocks for zero blocks. -/
theorem isZeroBlockQuick_sound {block : Bytes} (h8 : 8 ∣ block.length)
    (h : isZeroBlockQuick block = true) : block = List.replicate block.length 0x00 := by
  obtain ⟨n, hn⟩ := h8
  have hwords : block.length / 8 = n := by omega
  rw [isZeroBlockQuick, Bool.and_eq_true, hwords, List.all_eq_true] at h
  have hall : window block 0 (n * 8) = List.replicate (n * 8) 0x00 := by
    apply window_eq_replicate_of_blocks
    intro k hk
    have hword := of_decide_eq_true (h.2 k (List.mem_range.mpr hk))
    rw [zero_add]
    exact (wordAt_eq_iff (v := 0x00) k (by omega)).mp hword
  rw [mul_comm, ← hn, window_all] at hall
  exact hall

/-- The source blocks before `n` that a block can be equal to are in the index. -/
structure Indexed (J : Comparison) (n : ℕ) (table : HashTable) : Prop where
  buckets_pos : 0 < table.buckets.length
  inSource : InSource J table
  chained : ∀ j < n, J.srcBlock j ≠ List.replicate J.bs 0x00 →
    table.Chained ⟨crc32 (J.srcBlock j), j⟩

theorem poolAlloc_ends (hpool : ∀ n, env.poolAlloc n = true) (w : World) :
    Ends (poolAlloc env w) (fun ok w' => ok = true ∧ w'.tracker = w.tracker) (fun _ _ => False) :=
  ⟨hpool w.allocs, rfl⟩

theorem hashTableCreate_indexed (hpool : ∀ n, env.poolAlloc n = true) (w : World) (n : ℕ) :
    Ends (hashTableCreate env n w) (fun table w' => Indexed J 0 table ∧ w'.tracker = w.tracker)
      (fun _ _ => False) := by
  apply Ends.bind (poolAlloc_ends hpool w)
  rintro _ w₁ ⟨rfl, hw₁⟩
  rw [if_pos rfl]
  apply Ends.bind (poolAlloc_ends hpool w₁)
  rintro _ w₂ ⟨rfl, hw₂⟩
  rw [if_pos rfl]
  exact ⟨⟨HashTable.length_buckets_create n, HashTable.allEntries_create n,
    fun j hj => absurd hj (Nat.not_lt_zero j)⟩, hw₂.trans hw₁⟩

/-- With memory for every entry the whole source is indexed. -/
theorem relocationBuildIndex_indexed (hpool : ∀ n, env.poolAlloc n = true) (h8 : 8 ∣ J.bs)
    (w : World) :
    Ends (relocationBuildIndex env J.bs J.src J.srcBlocks w)
      (fun table w' => Indexed J J.srcBlocks table ∧ w'.tracker = w.tracker) (fun _ _ => False) := by
  apply Ends.bind (hashTableCreate_indexed hpool w J.srcBlocks)
  intro table w₁ hpost
  apply Ends.iterM_zero (fun n (table : HashTable) (w' : World) =>
    Indexed J n table ∧ w'.tracker = w.tracker) _ _ _ _ hpost
  rintro i table w₂ hi ⟨htable, hw₂⟩
  have hlen : (J.srcBlock i).length = J.bs := by
    have hle : (i + 1) * J.bs ≤ J.src.length :=
      (Nat.mul_le_mul_right _ hi).trans (Nat.div_mul_le_self _ _)
    apply length_window
    rw [add_mul, one_mul] at hle
    exact hle
  apply ends_ite
  · intro hzero
    refine ⟨⟨htable.buckets_pos, htable.inSource, ?_⟩, hw₂⟩
    intro j hj hne
    rcases Nat.lt_succ_iff_lt_or_eq.mp hj with hlt | rfl
    · exact htable.chained j hlt hne
    · have hz := isZeroBlockQuick_sound (show 8 ∣ (J.srcBlock j).length by rw [hlen]; exact h8) hzero
      rw [hlen] at hz
      exact absurd hz hne
  · intro _
    apply Ends.bind (poolAlloc_ends hpool w₂)
    rintro _ w₃ ⟨rfl, hw₃⟩
    rw [if_pos rfl]
    refine ⟨⟨?_, htable.inSource.insert hi, ?_⟩, hw₃.trans hw₂⟩
    · rw [HashTable.length_buckets_insert]
      exact htable.buckets_pos
    · intro j hj hne
      rcases Nat.lt_succ_iff_lt_or_eq.mp hj with hlt | rfl
      · exact (htable.chained j hlt hne).insert _ _
      · exact HashTable.chained_insert htable.buckets_pos _ _

/-- A search through a complete index fails only if no source block is equal. -/
theorem not_findable_of_findRelocation {table : HashTable} (hx : Indexed J J.srcBlocks table) {i : ℕ}
    {b : BlockState} (h : Searchable J i b)
    (hnone : findRelocation J.bs J.src J.dest i (table.lookup b.crc32) = none) : ¬ J.Findable i := by
  rintro (hz | ho | ⟨j, hj, heq⟩)
  · exact h.not_zero hz
  · exact h.not_one ho
  · have hmem := (hx.chained j hj (heq ▸ h.not_zero)).mem_lookup
    dsimp only at hmem
    rw [heq, ← h.crc_eq] at hmem
    have hfail := List.find?_eq_none.mp hnone _ hmem
    rw [decide_eq_true_eq, not_and_or, not_not] at hfail
    rcases hfail with rfl | hne
    · exact h.not_identity hj heq
    · exact hne heq

theorem relocationBlock_progress {table : HashTable} (hx : Indexed J J.srcBlocks table) {i : ℕ}
    {w : World} (h : Progress J (fun i _ => ¬ J.Findable i) (Searchable J) i w.tracker) :
    Ends (relocationBlock J.bs J.src J.dest table i w)
      (fun _ w' => Progress J (fun i _ => ¬ J.Findable i) (Searchable J) (i + 1) w'.tracker)
      (fun _ _ => False) := by
  change Ends ((if w.tracker.isUnmatched i then _ else pure () : StageM Unit) w) _ _
  apply ends_ite
  · intro hu
    cases hb : w.tracker.get i with
    | none => exact h.skip fun b hb' => by rw [hb] at hb'; cases hb'
    | some b =>
      have hm := (h.inv.isUnmatched_iff hb).mp hu
      have hs := h.todo i b hb le_rfl hm
      dsimp only
      cases hfind : findRelocation J.bs J.src J.dest i (table.lookup b.crc32) with
      | none => exact h.skip fun _ _ _ => not_findable_of_findRelocation hx hs hfind
      | some entry =>
        have hmem := List.mem_of_find?_eq_some hfind
        have hprop := List.find?_some hfind
        rw [decide_eq_true_eq] at hprop
        exact h.setMatch (by decide) _
          (.inr (.inr ⟨_, hx.inSource.lookup _ entry hmem, hprop.2⟩))
  · intro hu
    apply h.skip
    intro b hb hm
    exact absurd ((h.inv.isUnmatched_iff hb).mpr hm) hu

theorem relocationStageRun_progress {table : HashTable} (hx : Indexed J J.srcBlocks table)
    {w : World} (h : Progress J (fun i _ => ¬ J.Findable i) (Searchable J) 0 w.tracker) :
    Ends (relocationStageRun J.bs J.src J.dest table w)
      (fun _ w' => Progress J (fun i _ => ¬ J.Findable i) (Searchable J) J.destBlocks w'.tracker)
      (fun _ _ => False) := by
  change Ends (iterM (fun i _ => relocationBlock J.bs J.src J.dest table i) w.tracker.count 0 () w) _ _
  rw [h.count_eq]
  apply Ends.iterM_zero
    (fun n _ (w' : World) => Progress J (fun i _ => ¬ J.Findable i) (Searchable J) n w'.tracker)
  · exact fun i _ w₁ _ hp => relocationBlock_progress hx hp
  · exact h

end Relocation

theorem exactStages_progress {J : Comparison} (K : Kernels) {env : Env}
    (hpool : ∀ n, env.poolAlloc n = true) (h8 : 8 ∣ J.bs) {w : World}
    (h : Progress J (Searchable J) Unread 0 w.tracker) :
    Ends ((do
        identityStageRun K J.bs J.src J.dest J.srcBlocks J.destBlocks
        let table ← relocationBuildIndex env J.bs J.src J.srcBlocks
        relocationStageRun J.bs J.src J.dest table : StageM Unit) w)
      (fun _ w' => Progress J (fun i _ => ¬ J.Findable i) (Searchable J) J.destBlocks w'.tracker)
      (fun _ _ => False) := by
  apply Ends.bind (identityStageRun_progress K h)
  intro _ w₁ h₁
  apply Ends.bind (relocationBuildIndex_indexed hpool h8 w₁)
  rintro table w₂ ⟨hx, hw₂⟩
  apply relocationStageRun_progress hx
  rw [hw₂]
  refine ⟨h₁.inv, h₁.count_eq, h₁.matched, fun i _ _ hi => absurd hi (Nat.not_lt_zero i), ?_⟩
  intro i b hb _ hm
  have hi := Tracker.get_lt hb
  rw [h₁.count_eq] at hi
  exact h₁.done i b hb hi hm

/-- With memory for the whole index, the blocks that identity and relocation leave are those
that are not constant and equal no source block. The block sizes of the options are powers
of two from 32 on. -/
theorem isUnmatched_iff_not_findable (env : Env) (hpool : ∀ n, env.poolAlloc n = true)
    (K : Kernels) (bs : ℕ) (h8 : 8 ∣ bs) (src dest : Bytes) {t : Tracker}
    (hcreate : Tracker.create (dest.length / bs) bs = .ok t) :
    Ends ((do
        identityStageRun K bs src dest (src.length / bs) (dest.length / bs)
        let table ← relocationBuildIndex env bs src (src.length / bs)
        relocationStageRun bs src dest table : StageM Unit) { tracker := t })
      (fun _ w => w.tracker.count = dest.length / bs ∧ ∀ i < dest.length / bs,
        (w.tracker.isUnmatched i = true ↔
          blockAt bs dest i ≠ List.replicate bs 0x00 ∧ blockAt bs dest i ≠ List.replicate bs 0xFF ∧
            ∀ j < src.length / bs, blockAt bs src j ≠ blockAt bs dest i))
      (fun _ _ => False) := by
  obtain ⟨hinv, hcount, -, hblocks⟩ := Tracker.create_spec hcreate
  have hstart : Progress ⟨bs, 0, src, dest⟩ (Searchable ⟨bs, 0, src, dest⟩) Unread 0 t := by
    refine ⟨hinv, hcount, ?_, fun i _ _ hi => absurd hi (Nat.not_lt_zero i), fun _ _ _ _ _ => trivial⟩
    intro i b hb hm
    rw [hblocks i b hb] at hm
    exact absurd rfl hm
  have hrun := exactStages_progress (J := ⟨bs, 0, src, dest⟩) (w := { tracker := t }) K hpool h8 hstart
  apply hrun.imp
  intro _ w h
  refine ⟨h.count_eq, ?_⟩
  intro i hi
  obtain ⟨b, hb⟩ := Tracker.exists_get (t := w.tracker) (i := i) (by rw [h.count_eq]; exact hi)
  rw [h.inv.isUnmatched_iff hb]
  constructor
  · intro hm
    have hnot := h.done i b hb hi hm
    exact ⟨fun hz => hnot (.inl hz), fun ho => hnot (.inr (.inl ho)),
      fun j hj heq => hnot (.inr (.inr ⟨j, hj, heq⟩))⟩
  · rintro ⟨hz, ho, hsrc⟩
    by_contra hm
    rcases h.matched i b hb hm with hz' | ho' | ⟨j, hj, heq⟩
    · exact hz hz'
    · exact ho ho'
    · exact hsrc j hj heq

/-- A block that moved, a constant block and a block of its own. -/
theorem isUnmatched_iff_not_findable_threeBlocks :
    let src : Bytes := List.replicate 32 1 ++ List.replicate 32 2
    let dest : Bytes := List.replicate 32 2 ++ List.replicate 32 0 ++ List.replicate 32 3
    ∃ t, Tracker.create (dest.length / 32) 32 = .ok t ∧
      Ends ((do
          identityStageRun scalarKernels 32 src dest (src.length / 32) (dest.length / 32)
          let table ← relocationBuildIndex ⟨fun _ => true, fun _ => false⟩ 32 src (src.length / 32)
          relocationStageRun 32 src dest table : StageM Unit) { tracker := t })
        (fun _ w => w.tracker.count = dest.length / 32 ∧ ∀ i < dest.length / 32,
          (w.tracker.isUnmatched i = true ↔
            blockAt 32 dest i ≠ List.replicate 32 0x00 ∧ blockAt 32 dest i ≠ List.replicate 32 0xFF ∧
              ∀ j < src.length / 32, blockAt 32 src j ≠ blockAt 32 dest i))
        (fun _ _ => False) := by
  intro src dest
  obtain ⟨t, ht⟩ := Tracker.exists_create (show 0 < dest.length / 32 by decide) (show 0 < 32 by decide)
  exact ⟨t, ht, isUnmatched_iff_not_findable _ (fun _ => rfl) _ 32 (by decide) src dest ht⟩

end Fsdiff.Stages
