import Fsdiff.Stages.Completeness

/-! Identity and relocation as a function of the two images: which kind each block is of and which
source block it names, with no trace of checksums, buckets and chains. -/
namespace Fsdiff

namespace HashTable

/-- What has been inserted, the newest first: seen through one checksum, a chain is the list. -/
structure Holds (t : HashTable) (entries : List HashEntry) : Prop where
  buckets_pos : 0 < t.buckets.length
  mem : t.AllEntries (· ∈ entries)
  chain_eq : ∀ c : BitVec 32,
    (t.buckets.getD (hashToBucket c t.buckets.length) []).filter (fun e => decide (e.crc32 = c)) =
      entries.filter fun e => decide (e.crc32 = c)

section Holds
variable {t : HashTable} {entries : List HashEntry}

theorem holds_create (expected : ℕ) : (create expected).Holds [] := by
  refine ⟨length_buckets_create expected, allEntries_create expected, fun c => ?_⟩
  have hlt := Nat.mod_lt c.toNat (length_buckets_create expected)
  rw [create, List.length_replicate] at hlt
  simp [create, hashToBucket, List.getD_eq_getElem?_getD, hlt]

theorem Holds.insert (h : t.Holds entries) (crc32 : BitVec 32) (i : ℕ) :
    (t.insert crc32 i).Holds (⟨crc32, i⟩ :: entries) := by
  have hmem : t.AllEntries (· ∈ ⟨crc32, i⟩ :: entries) :=
    fun chain hc e he => List.mem_cons_of_mem _ (h.mem chain hc e he)
  refine ⟨by rw [length_buckets_insert]; exact h.buckets_pos, hmem.insert List.mem_cons_self,
    fun c => ?_⟩
  have hlt : hashToBucket c t.buckets.length < t.buckets.length := Nat.mod_lt _ h.buckets_pos
  have hold := h.chain_eq c
  rw [length_buckets_insert]
  simp only [HashTable.insert, List.getD_eq_getElem?_getD, List.getElem?_modify,
    List.getElem?_eq_getElem hlt] at hold ⊢
  by_cases hc : crc32 = c
  · subst hc
    simp only [if_true, Option.map_eq_map, Option.map_some, Option.getD_some] at hold ⊢
    rw [List.filter_cons_of_pos (by simp), List.filter_cons_of_pos (by simp), hold]
  · rw [List.filter_cons_of_neg (by simpa using hc), ← hold]
    split_ifs
    · simp only [Option.map_eq_map, Option.map_some, Option.getD_some]
      rw [List.filter_cons_of_neg (by simpa using hc)]
    · rfl

/-- A search among the entries of one checksum goes through them from the newest on. -/
theorem Holds.find?_lookup (h : t.Holds entries) {c : BitVec 32} {p : HashEntry → Bool}
    (hp : ∀ e ∈ entries, p e = true → e.crc32 = c) : (t.lookup c).find? p = entries.find? p := by
  have hfilter : ∀ l : List HashEntry, (∀ e ∈ l, e ∈ entries) →
      (l.filter fun e => decide (e.crc32 = c)).find? p = l.find? p := by
    intro l hl
    induction l with
    | nil => rfl
    | cons e l ih =>
      have ih := ih fun e' he' => hl e' (List.mem_cons_of_mem e he')
      rw [List.find?_cons]
      by_cases he : e.crc32 = c
      · rw [List.filter_cons_of_pos (by simpa using he), List.find?_cons, ih]
      · have hpe : p e = false := Bool.eq_false_iff.mpr fun hpe => he (hp e (hl e List.mem_cons_self) hpe)
        rw [List.filter_cons_of_neg (by simpa using he), hpe, ih]
  have hchain : ∀ e ∈ t.buckets.getD (hashToBucket c t.buckets.length) [], e ∈ entries := by
    have hlt : hashToBucket c t.buckets.length < t.buckets.length := Nat.mod_lt _ h.buckets_pos
    rw [List.getD_eq_getElem _ _ hlt]
    exact h.mem _ (List.getElem_mem hlt)
  have hdrop : ∀ l : List HashEntry, (l.dropWhile fun e => decide (e.crc32 ≠ c)).filter
      (fun e => decide (e.crc32 = c)) = l.filter fun e => decide (e.crc32 = c) := by
    intro l
    induction l with
    | nil => rfl
    | cons e l ih =>
      rw [List.dropWhile_cons]
      split_ifs with he
      · rw [List.filter_cons_of_neg (by simpa using he), ih]
      · rfl
  have hlookup : ∀ e ∈ t.lookup c, e ∈ entries :=
    fun e he => hchain e ((List.dropWhile_sublist _).mem he)
  rw [← hfilter _ hlookup, lookup, hdrop, h.chain_eq, hfilter _ fun _ he => he]

end Holds

end HashTable

namespace Stages
open ByteString Exec

/-! ### The function -/

/-- The last of the first `n` source blocks that is equal to block `i`. -/
def Comparison.lastEqual (J : Comparison) (i : ℕ) : ℕ → Option ℕ
  | 0 => none
  | n + 1 => if J.srcBlock n = J.destBlock i then some n else J.lastEqual i n

/-- The state of block `i` after the identity stage. -/
def Comparison.identityState (J : Comparison) (i : ℕ) : BlockState :=
  if J.destBlock i = List.replicate J.bs 0x00 then { destIndex := i, matchType := .zero }
  else if J.destBlock i = List.replicate J.bs 0xFF then { destIndex := i, matchType := .one }
  else if i < J.srcBlocks ∧ J.srcBlock i = J.destBlock i then
    { destIndex := i, matchType := .identity, srcIndex := i }
  else { destIndex := i, crc32 := crc32 (J.destBlock i) }

/-- The state of block `i` after both stages. -/
def Comparison.classify (J : Comparison) (i : ℕ) : BlockState :=
  if (J.identityState i).matchType = .none then
    match J.lastEqual i J.srcBlocks with
    | some j => { J.identityState i with matchType := .relocate, srcIndex := j }
    | none => J.identityState i
  else J.identityState i

/-- `lastEqual` is what its name says. -/
theorem Comparison.lastEqual_eq_some {J : Comparison} {i n j : ℕ} (h : J.lastEqual i n = some j) :
    j < n ∧ J.srcBlock j = J.destBlock i ∧ ∀ k, j < k → k < n → J.srcBlock k ≠ J.destBlock i := by
  induction n with
  | zero => cases h
  | succ n ih =>
    rw [Comparison.lastEqual] at h
    split_ifs at h with heq
    · obtain rfl := Option.some.inj h
      exact ⟨Nat.lt_succ_self n, heq, fun k hk hkn => absurd hk (by omega)⟩
    · obtain ⟨hlt, hj, hlast⟩ := ih h
      refine ⟨hlt.trans (Nat.lt_succ_self n), hj, fun k hk hkn => ?_⟩
      rcases Nat.lt_succ_iff_lt_or_eq.mp hkn with hkn | rfl
      · exact hlast k hk hkn
      · exact heq

/-! ### Loops that fill the tracker -/

/-- The states before `n` are those of `f`, the others those of `g`. -/
structure Filled (J : Comparison) (f g : ℕ → BlockState) (n : ℕ) (t : Tracker) : Prop where
  inv : t.Inv
  count_eq : t.count = J.destBlocks
  done : ∀ i < J.destBlocks, i < n → t.get i = some (f i)
  todo : ∀ i < J.destBlocks, n ≤ i → t.get i = some (g i)

section Filled
variable {J : Comparison} {f g : ℕ → BlockState} {n : ℕ} {t t' : Tracker}

theorem Filled.step (h : Filled J f g n t) (hinv : t'.Inv) (hcount : t'.count = t.count)
    (hn : n < J.destBlocks → t'.get n = some (f n)) (hother : ∀ i, n ≠ i → t'.get i = t.get i) :
    Filled J f g (n + 1) t' := by
  refine ⟨hinv, hcount.trans h.count_eq, fun i hi hlt => ?_, fun i hi hle => ?_⟩
  · rcases Nat.lt_succ_iff_lt_or_eq.mp hlt with hlt | rfl
    · rw [hother i (by omega)]
      exact h.done i hi hlt
    · exact hn hi
  · rw [hother i (by omega)]
    exact h.todo i hi (by omega)

theorem Filled.skip (h : Filled J f g n t) (hn : f n = g n) : Filled J f g (n + 1) t :=
  h.step h.inv rfl (fun hi => hn ▸ h.todo n hi le_rfl) fun _ _ => rfl

theorem Filled.setMatch (h : Filled J f g n t) {ty : MatchType} {src : ℕ} (hty : ty ≠ .none)
    (hg : (g n).matchType = .none) (hn : f n = { g n with matchType := ty, srcIndex := src }) :
    Filled J f g (n + 1) (t.setMatch n ty src) := by
  refine h.step (h.inv.setMatch hty src) (Tracker.count_setMatch t n ty src) (fun hi => ?_) fun i hni => ?_
  · rw [Tracker.get_setMatch, if_pos rfl, h.todo n hi le_rfl, Option.map_some, if_pos hg, hn]
  · rw [Tracker.get_setMatch, if_neg hni]

theorem Filled.setCrc32 (h : Filled J f g n t) {c : BitVec 32} (hn : f n = { g n with crc32 := c }) :
    Filled J f g (n + 1) (t.setCrc32 n c) := by
  refine h.step (h.inv.setCrc32 c) (Tracker.count_setCrc32 t n c) (fun hi => ?_) fun i hni => ?_
  · rw [Tracker.get_setCrc32, if_pos rfl, h.todo n hi le_rfl, Option.map_some, hn]
  · rw [Tracker.get_setCrc32, if_neg hni]

theorem Filled.blocks_eq (h : Filled J f g J.destBlocks t) :
    t.blocks = (List.range J.destBlocks).map f := by
  apply List.ext_getElem?
  intro i
  rw [List.getElem?_map]
  by_cases hi : i < J.destBlocks
  · rw [List.getElem?_range hi]
    exact h.done i hi hi
  · have hlen : t.blocks.length ≤ i := by
      have := h.count_eq
      unfold Tracker.count at this
      omega
    rw [List.getElem?_eq_none hlen, List.getElem?_eq_none (by simpa using hi)]
    rfl

end Filled

/-! ### The identity stage -/

section Identity
variable {K : Kernels} {J : Comparison}

abbrev newState (i : ℕ) : BlockState := { destIndex := i }

theorem filled_create {t : Tracker} (h : Tracker.create J.destBlocks J.bs = .ok t) :
    Filled J J.identityState newState 0 t := by
  obtain ⟨hinv, hcount, -, hblocks⟩ := Tracker.create_spec h
  refine ⟨hinv, hcount, fun i _ hi => absurd hi (Nat.not_lt_zero i), fun i hi _ => ?_⟩
  obtain ⟨b, hb⟩ := Tracker.exists_get (t := t) (i := i) (hcount.symm ▸ hi)
  rw [hb, hblocks i b hb]

theorem constantBlock_fills {i : ℕ} (hi : i < J.destBlocks) {rest : StageM Unit} {w : World}
    (h : Filled J J.identityState newState i w.tracker)
    (hrest : J.destBlock i ≠ List.replicate J.bs 0x00 → J.destBlock i ≠ List.replicate J.bs 0xFF →
      Ends (rest w) (fun _ w' => Filled J J.identityState newState (i + 1) w'.tracker)
        (fun _ _ => False)) :
    Ends ((if K.isZero (J.destBlock i) then updateTracker (·.setMatch i .zero 0)
        else if K.isOne (J.destBlock i) then updateTracker (·.setMatch i .one 0) else rest) w)
      (fun _ w' => Filled J J.identityState newState (i + 1) w'.tracker) (fun _ _ => False) := by
  apply ends_ite
  · intro hz
    apply h.setMatch (by decide) rfl
    rw [Comparison.identityState, if_pos ((isZero_iff_block hi).mp hz)]
  intro hz
  have hz' : J.destBlock i ≠ List.replicate J.bs 0x00 := fun h0 => hz ((isZero_iff_block hi).mpr h0)
  apply ends_ite
  · intro ho
    apply h.setMatch (by decide) rfl
    rw [Comparison.identityState, if_neg hz', if_pos ((isOne_iff_block hi).mp ho)]
  · intro ho
    exact hrest hz' fun h1 => ho ((isOne_iff_block hi).mpr h1)

theorem identityCommonBlock_fills {i : ℕ} (hi : i < J.destBlocks) (hs : i < J.srcBlocks) {w : World}
    (h : Filled J J.identityState newState i w.tracker) :
    Ends (identityCommonBlock K J.bs J.src J.dest i w)
      (fun _ w' => Filled J J.identityState newState (i + 1) w'.tracker) (fun _ _ => False) := by
  apply constantBlock_fills hi h
  intro hz ho
  apply ends_ite
  · intro heq
    apply h.setMatch (by decide) rfl
    rw [Comparison.identityState, if_neg hz, if_neg ho, if_pos ⟨hs, heq⟩]
  · intro hne
    apply h.setCrc32
    rw [Comparison.identityState, if_neg hz, if_neg ho, if_neg fun hsame => hne hsame.2]
    rfl

theorem identityDestBlock_fills {i : ℕ} (hi : i < J.destBlocks) (hs : J.srcBlocks ≤ i) {w : World}
    (h : Filled J J.identityState newState i w.tracker) :
    Ends (identityDestBlock K J.bs J.dest i w)
      (fun _ w' => Filled J J.identityState newState (i + 1) w'.tracker) (fun _ _ => False) := by
  apply constantBlock_fills hi h
  intro hz ho
  apply h.setCrc32
  rw [Comparison.identityState, if_neg hz, if_neg ho, if_neg fun hsame => absurd hsame.1 (by omega)]
  rfl

/-- Both loops of the stage. -/
theorem identityStageRun_fills (K : Kernels) {w : World}
    (h : Filled J J.identityState newState 0 w.tracker) :
    Ends (identityStageRun K J.bs J.src J.dest J.srcBlocks J.destBlocks w)
      (fun _ w' => Filled J J.identityState newState J.destBlocks w'.tracker) (fun _ _ => False) := by
  have hcommon : (if J.srcBlocks < J.destBlocks then J.srcBlocks else J.destBlocks) =
      min J.srcBlocks J.destBlocks := by
    split_ifs <;> omega
  unfold identityStageRun
  rw [hcommon]
  apply Ends.bind (Ends.iterM_zero
    (fun n _ (w' : World) => Filled J J.identityState newState n w'.tracker) _ _ _ ?_ h)
  · intro _ w₁ h₁
    have hstep (i : ℕ) (_ : Unit) (w' : World) (hlo : min J.srcBlocks J.destBlocks ≤ i)
        (hhi : i < min J.srcBlocks J.destBlocks + (J.destBlocks - min J.srcBlocks J.destBlocks))
        (hp : Filled J J.identityState newState i w'.tracker) :
        Ends (identityDestBlock K J.bs J.dest i w')
          (fun _ w' => Filled J J.identityState newState (i + 1) w'.tracker) (fun _ _ => False) :=
      identityDestBlock_fills (by omega) (by omega) hp
    have hrest := Ends.iterM (fun n _ (w' : World) => Filled J J.identityState newState n w'.tracker)
      (J.destBlocks - min J.srcBlocks J.destBlocks) (min J.srcBlocks J.destBlocks) () w₁ hstep h₁
    rwa [Nat.add_sub_cancel' (min_le_right _ _)] at hrest
  · intro i _ w₁ hi hp
    exact identityCommonBlock_fills (by omega) (by omega) hp

end Identity

/-! ### The relocation stage -/

section Relocation
variable {env : Env} {J : Comparison}

/-- The entries for the first `n` source blocks, the last block first. -/
def Comparison.indexEntries (J : Comparison) : ℕ → List HashEntry
  | 0 => []
  | n + 1 =>
    if isZeroBlockQuick (J.srcBlock n) then J.indexEntries n
    else ⟨crc32 (J.srcBlock n), n⟩ :: J.indexEntries n

theorem relocationBuildIndex_holds (hpool : ∀ n, env.poolAlloc n = true) (w : World) :
    Ends (relocationBuildIndex env J.bs J.src J.srcBlocks w)
      (fun table w' => table.Holds (J.indexEntries J.srcBlocks) ∧ w'.tracker = w.tracker)
      (fun _ _ => False) := by
  have hcreate : Ends (hashTableCreate env J.srcBlocks w)
      (fun table w' => table.Holds (J.indexEntries 0) ∧ w'.tracker = w.tracker) (fun _ _ => False) := by
    apply Ends.bind (poolAlloc_ends hpool w)
    rintro _ w₁ ⟨rfl, hw₁⟩
    rw [if_pos rfl]
    apply Ends.bind (poolAlloc_ends hpool w₁)
    rintro _ w₂ ⟨rfl, hw₂⟩
    rw [if_pos rfl]
    exact ⟨HashTable.holds_create _, hw₂.trans hw₁⟩
  apply Ends.bind hcreate
  intro table w₁ hpost
  apply Ends.iterM_zero (fun n (table : HashTable) (w' : World) =>
    table.Holds (J.indexEntries n) ∧ w'.tracker = w.tracker) _ _ _ _ hpost
  rintro i table w₂ hi ⟨htable, hw₂⟩
  apply ends_ite
  · intro hzero
    have hsame : J.indexEntries (i + 1) = J.indexEntries i := if_pos hzero
    rw [hsame]
    exact ⟨htable, hw₂⟩
  · intro hzero
    have hmore : J.indexEntries (i + 1) = ⟨crc32 (J.srcBlock i), i⟩ :: J.indexEntries i := if_neg hzero
    rw [hmore]
    apply Ends.bind (poolAlloc_ends hpool w₂)
    rintro _ w₃ ⟨rfl, hw₃⟩
    rw [if_pos rfl]
    exact ⟨htable.insert _ i, hw₃.trans hw₂⟩

/-- Among the entries the search finds the last equal block: a block that is passed over as a
zero block is not equal to one that is none. -/
theorem find?_indexEntries (h8 : 8 ∣ J.bs) {i n : ℕ} (hn : n ≤ J.srcBlocks)
    (hz : J.destBlock i ≠ List.replicate J.bs 0x00)
    (hid : i < J.srcBlocks → J.srcBlock i ≠ J.destBlock i) :
    (findRelocation J.bs J.src J.dest i (J.indexEntries n)).map (·.blockIndex) = J.lastEqual i n := by
  induction n with
  | zero => rfl
  | succ n ih =>
    have hlen : (J.srcBlock n).length = J.bs := by
      have hle : (n + 1) * J.bs ≤ J.src.length :=
        (Nat.mul_le_mul_right _ hn).trans (Nat.div_mul_le_self _ _)
      apply length_window
      rw [add_mul, one_mul] at hle
      exact hle
    have ih := ih (by omega)
    rw [Comparison.lastEqual, Comparison.indexEntries]
    by_cases hquick : isZeroBlockQuick (J.srcBlock n) = true
    · have hzero := isZeroBlockQuick_sound (by rw [hlen]; exact h8) hquick
      rw [hlen] at hzero
      have hne : J.srcBlock n ≠ J.destBlock i := fun heq => hz (heq.symm.trans hzero)
      rw [if_pos hquick, if_neg hne, ih]
    · rw [if_neg hquick, findRelocation, List.find?_cons]
      by_cases heq : J.srcBlock n = J.destBlock i
      · have hne : n ≠ i := by
          rintro rfl
          exact hid hn heq
        have htrue : decide (n ≠ i ∧ blockAt J.bs J.src n = blockAt J.bs J.dest i) = true :=
          decide_eq_true ⟨hne, heq⟩
        rw [if_pos heq]
        simp only [htrue]
        rfl
      · have hfalse : decide (n ≠ i ∧ blockAt J.bs J.src n = blockAt J.bs J.dest i) = false :=
          decide_eq_false fun h => heq h.2
        rw [if_neg heq]
        simp only [hfalse]
        exact ih

theorem mem_indexEntries {n : ℕ} : ∀ e ∈ J.indexEntries n, e.crc32 = crc32 (J.srcBlock e.blockIndex) := by
  induction n with
  | zero => exact fun e he => nomatch he
  | succ n ih =>
    rw [Comparison.indexEntries]
    split_ifs
    · exact ih
    · intro e he
      rcases List.mem_cons.mp he with rfl | he
      · rfl
      · exact ih e he

/-- A block that the identity stage left is not constant and did not stay in its place. -/
theorem identityState_none {i : ℕ} (h : (J.identityState i).matchType = .none) :
    J.destBlock i ≠ List.replicate J.bs 0x00 ∧ (i < J.srcBlocks → J.srcBlock i ≠ J.destBlock i) ∧
      J.identityState i = { destIndex := i, crc32 := crc32 (J.destBlock i) } := by
  unfold Comparison.identityState at h ⊢
  split_ifs at h ⊢ with hz ho hid
  exact ⟨hz, fun hi heq => hid ⟨hi, heq⟩, rfl⟩

theorem relocationBlock_fills (h8 : 8 ∣ J.bs) {table : HashTable}
    (hx : table.Holds (J.indexEntries J.srcBlocks)) {i : ℕ} (hi : i < J.destBlocks) {w : World}
    (h : Filled J J.classify J.identityState i w.tracker) :
    Ends (relocationBlock J.bs J.src J.dest table i w)
      (fun _ w' => Filled J J.classify J.identityState (i + 1) w'.tracker) (fun _ _ => False) := by
  have hget := h.todo i hi le_rfl
  change Ends ((if w.tracker.isUnmatched i then _ else pure () : StageM Unit) w) _ _
  apply ends_ite
  · intro hu
    have hnone := (h.inv.isUnmatched_iff hget).mp hu
    obtain ⟨hz, hid, hstate⟩ := identityState_none hnone
    have hfind : findRelocation J.bs J.src J.dest i (table.lookup (J.identityState i).crc32) =
        findRelocation J.bs J.src J.dest i (J.indexEntries J.srcBlocks) := by
      apply hx.find?_lookup
      intro e he hp
      rw [decide_eq_true_eq] at hp
      rw [mem_indexEntries e he, hstate]
      exact congrArg crc32 hp.2
    have hlast := find?_indexEntries h8 le_rfl hz hid
    rw [hget]
    dsimp only
    rw [hfind]
    cases hr : findRelocation J.bs J.src J.dest i (J.indexEntries J.srcBlocks) with
    | none =>
      rw [hr] at hlast
      apply h.skip
      rw [Comparison.classify, if_pos hnone, ← hlast]
      rfl
    | some entry =>
      rw [hr] at hlast
      apply h.setMatch (by decide) hnone
      rw [Comparison.classify, if_pos hnone, ← hlast]
      rfl
  · intro hu
    apply h.skip
    rw [Comparison.classify, if_neg fun hnone => hu ((h.inv.isUnmatched_iff hget).mpr hnone)]

theorem relocationStageRun_fills (h8 : 8 ∣ J.bs) {table : HashTable}
    (hx : table.Holds (J.indexEntries J.srcBlocks)) {w : World}
    (h : Filled J J.identityState newState J.destBlocks w.tracker) :
    Ends (relocationStageRun J.bs J.src J.dest table w)
      (fun _ w' => Filled J J.classify J.identityState J.destBlocks w'.tracker) (fun _ _ => False) := by
  have hstart : Filled J J.classify J.identityState 0 w.tracker :=
    ⟨h.inv, h.count_eq, fun i _ hi => absurd hi (Nat.not_lt_zero i), fun i hi _ => h.done i hi hi⟩
  change Ends (iterM (fun i _ => relocationBlock J.bs J.src J.dest table i) w.tracker.count 0 () w) _ _
  rw [h.count_eq]
  apply Ends.iterM_zero
    (fun n _ (w' : World) => Filled J J.classify J.identityState n w'.tracker) _ _ _ _ hstart
  exact fun i _ w' hi h => relocationBlock_fills h8 hx hi h

end Relocation

/-- With memory for the whole index, the tracker after identity and relocation is a function of the
images: kernels, checksums and collisions leave no trace in it, and a block that moved is taken
from the last place where the source has it. -/
theorem exactStages_classify (env : Env) (hpool : ∀ n, env.poolAlloc n = true) (K : Kernels)
    (bs : ℕ) (h8 : 8 ∣ bs) (src dest : Bytes) {t : Tracker}
    (hcreate : Tracker.create (dest.length / bs) bs = .ok t) :
    Ends ((do
        identityStageRun K bs src dest (src.length / bs) (dest.length / bs)
        let table ← relocationBuildIndex env bs src (src.length / bs)
        relocationStageRun bs src dest table : StageM Unit) { tracker := t })
      (fun _ w => w.tracker.Inv ∧
        w.tracker.blocks = (List.range (dest.length / bs)).map (Comparison.classify ⟨bs, 0, src, dest⟩))
      (fun _ _ => False) := by
  set J : Comparison := ⟨bs, 0, src, dest⟩
  have hstart : Filled J J.identityState newState 0 t := filled_create hcreate
  apply Ends.bind (identityStageRun_fills (J := J) (w := { tracker := t }) K hstart)
  intro _ w₁ h₁
  apply Ends.bind (relocationBuildIndex_holds (J := J) hpool w₁)
  rintro table w₂ ⟨hx, hw₂⟩
  have hrun := relocationStageRun_fills h8 hx (w := w₂) (by rw [hw₂]; exact h₁)
  apply hrun.imp
  intro _ w h
  exact ⟨h.inv, h.blocks_eq⟩

/-- The second block of the destination is the first and the last one of the source. -/
theorem exactStages_classify_threeBlocks :
    let src : Bytes := List.replicate 32 1 ++ List.replicate 32 2 ++ List.replicate 32 1
    let dest : Bytes := List.replicate 32 3 ++ List.replicate 32 1
    ∃ t, Tracker.create (dest.length / 32) 32 = .ok t ∧
      Ends ((do
          identityStageRun scalarKernels 32 src dest (src.length / 32) (dest.length / 32)
          let table ← relocationBuildIndex ⟨fun _ => true, fun _ => false⟩ 32 src (src.length / 32)
          relocationStageRun 32 src dest table : StageM Unit) { tracker := t })
        (fun _ w => w.tracker.Inv ∧
          w.tracker.blocks = (List.range (dest.length / 32)).map (Comparison.classify ⟨32, 0, src, dest⟩))
        (fun _ _ => False) ∧
      ((Comparison.classify ⟨32, 0, src, dest⟩ 1).matchType,
        (Comparison.classify ⟨32, 0, src, dest⟩ 1).srcIndex) = (.relocate, 2) := by
  intro src dest
  obtain ⟨t, ht⟩ := Tracker.exists_create (show 0 < dest.length / 32 by decide) (show 0 < 32 by decide)
  refine ⟨t, ht, exactStages_classify _ (fun _ => rfl) _ 32 (by decide) src dest ht, ?_⟩
  decide +kernel

end Stages

end Fsdiff
