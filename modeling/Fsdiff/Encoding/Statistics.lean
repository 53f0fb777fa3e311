import Fsdiff.Core.BlockStatistics
import Fsdiff.Encoding.RunLength
import Mathlib.Algebra.BigOperators.Ring.List

/-! The statistics of a diff against the operations of its patch. The counters are fixed by
the stages, but the encoder stores a run as literals when its distance does not fit an
offset field. -/
namespace Fsdiff.Encoder
open ByteString Exec Format Patch

/-! ### Operations of a stream -/

/-- A little-endian field of `k` bytes and what follows it. -/
def takeField (k : ℕ) (s : Bytes) : Option (ℕ × Bytes) :=
  if k ≤ s.length then some (leNat (s.take k), s.drop k) else none

/-- The count field, as `read_count` has it. -/
def takeCount (firstByte : UInt8) (s : Bytes) : Option (ℕ × Bytes) :=
  match countEncOf firstByte with
  | 0 => (takeField 1 s).map fun v => (v.1 + 1, v.2)
  | 1 => (takeField 2 s).map fun v => (v.1 + 1, v.2)
  | 2 => takeField 4 s
  | _ => some ((firstByte.toNat &&& 0x7) + 1, s)

def relocateFieldWidth (firstByte : UInt8) : ℕ :=
  match offsetEncOf firstByte with
  | 0 => 1
  | 1 => 2
  | _ => 4

def byteOffsetFieldWidth (firstByte : UInt8) : ℕ :=
  match offsetEncOf firstByte with
  | 0 => 2
  | 1 => 3
  | _ => 4

/-- Type and count of the first operation of a stream, and the operations behind it. -/
def takeOperation : Bytes → Option (ℕ × ℕ × Bytes)
  | [] => none
  | firstByte :: s =>
    if opTypeOf firstByte = opCopyAdd then do
      let (_, s) ← takeField (byteOffsetFieldWidth firstByte) s
      let (count, s) ← takeCount firstByte s
      let (_, s) ← takeField 4 s
      pure (opCopyAdd, count, s)
    else if opTypeOf firstByte = opCopyRelocate then do
      let (count, s) ← takeCount firstByte s
      let (_, s) ← takeField (relocateFieldWidth firstByte) s
      pure (opCopyRelocate, count, s)
    else do
      let (count, s) ← takeCount firstByte s
      pure (opTypeOf firstByte, count, s)

def storedLoop (ty : ℕ) : ℕ → Bytes → ℕ
  | 0, _ => 0
  | fuel + 1, s =>
    match takeOperation s with
    | none => 0
    | some (t, n, s) => (if t = ty then n else 0) + storedLoop ty fuel s

/-- The blocks that the operations of type `ty` in a stream produce. -/
def storedBlocks (ty : ℕ) (s : Bytes) : ℕ := storedLoop ty s.length s

section Fields
variable {rest : Bytes}

theorem takeField_append {k : ℕ} {s : Bytes} (h : s.length = k) :
    takeField k (s ++ rest) = some (leNat s, rest) := by
  subst h
  rw [takeField, if_pos (by simp), List.take_left, List.drop_left]

/-- What a count field gives back: the wide field drops the high bits. -/
def decodedCount (n : ℕ) : ℕ := if n ≤ 65536 then n else n % 2 ^ 32

theorem decodedCount_le (n : ℕ) : decodedCount n ≤ n := by
  unfold decodedCount
  split_ifs
  · exact le_rfl
  · exact Nat.mod_le _ _

theorem decodedCount_eq_iff (n : ℕ) : decodedCount n = n ↔ n < 2 ^ 32 := by
  unfold decodedCount
  split_ifs <;> omega

theorem takeCount_one {b : UInt8} {n : ℕ} (hb : countEncOf b = 0) (h1 : 1 ≤ n) (hn : n ≤ 256) :
    takeCount b (leBytes 1 (n - 1) ++ rest) = some (n, rest) := by
  simp only [takeCount, hb]
  rw [takeField_append (length_leBytes _ _), leNat_leBytes_of_lt (by omega), Option.map_some,
    Nat.sub_add_cancel h1]

theorem takeCount_two {b : UInt8} {n : ℕ} (hb : countEncOf b = 1) (h1 : 1 ≤ n) (hn : n ≤ 65536) :
    takeCount b (leBytes 2 (n - 1) ++ rest) = some (n, rest) := by
  simp only [takeCount, hb]
  rw [takeField_append (length_leBytes _ _), leNat_leBytes_of_lt (by omega), Option.map_some,
    Nat.sub_add_cancel h1]

theorem takeCount_four {b : UInt8} {n : ℕ} (hb : countEncOf b = 2) :
    takeCount b (leBytes 4 n ++ rest) = some (n % 2 ^ 32, rest) := by
  simp only [takeCount, hb]
  rw [takeField_append (length_leBytes _ _), leNat_leBytes]
  rfl

theorem takeCount_plain {b : UInt8} {n : ℕ} (h1 : 1 ≤ n)
    (hb : countEncOf b = (plainCountEnc n).code)
    (hlow : plainCountEnc n = .inline → b.toNat &&& 0x7 = n - 1) :
    takeCount b ((plainCountEnc n).bytes n ++ rest) = some (decodedCount n, rest) := by
  unfold plainCountEnc at hb hlow ⊢
  unfold decodedCount
  by_cases h8 : n ≤ 8
  · simp only [if_pos h8] at hb hlow ⊢
    rw [if_pos (by omega), takeCount, hb]
    change some ((b.toNat &&& 0x7) + 1, rest) = _
    rw [hlow trivial, Nat.sub_add_cancel h1]
  simp only [if_neg h8] at hb ⊢
  by_cases h256 : n ≤ 256
  · simp only [if_pos h256] at hb ⊢
    rw [if_pos (by omega)]
    exact takeCount_one hb h1 h256
  simp only [if_neg h256] at hb ⊢
  by_cases h65536 : n ≤ 65536
  · simp only [if_pos h65536] at hb ⊢
    exact takeCount_two hb h1 h65536
  · simp only [if_neg h65536] at hb ⊢
    exact takeCount_four hb

theorem takeCount_wide {b : UInt8} {n : ℕ} (h1 : 1 ≤ n)
    (hb : countEncOf b = (wideCountEnc n).code) :
    takeCount b ((wideCountEnc n).bytes n ++ rest) = some (decodedCount n, rest) := by
  unfold wideCountEnc at hb ⊢
  unfold decodedCount
  by_cases h256 : n ≤ 256
  · simp only [if_pos h256] at hb ⊢
    rw [if_pos (by omega)]
    exact takeCount_one hb h1 h256
  simp only [if_neg h256] at hb ⊢
  by_cases h65536 : n ≤ 65536
  · simp only [if_pos h65536] at hb ⊢
    exact takeCount_two hb h1 h65536
  · simp only [if_neg h65536] at hb ⊢
    exact takeCount_four hb

theorem relocateFieldWidth_eq {b : UInt8} {e : OffsetEnc} (hb : offsetEncOf b = e.code) :
    relocateFieldWidth b = e.relocateWidth := by
  rw [relocateFieldWidth, hb]
  cases e <;> rfl

theorem byteOffsetFieldWidth_eq {b : UInt8} {e : OffsetEnc} (hb : offsetEncOf b = e.code) :
    byteOffsetFieldWidth b = e.byteOffsetWidth := by
  rw [byteOffsetFieldWidth, hb]
  cases e <;> rfl

end Fields

section Operations
variable {n : ℕ} {rest : Bytes}

/-- The bytes of one operation of type `ty` that a reader counts as `n` blocks. -/
def Reads (op : Bytes) (ty n : ℕ) : Prop :=
  op ≠ [] ∧ ∀ rest, takeOperation (op ++ rest) = some (ty, n, rest)

theorem firstByte_parts {t c f : ℕ} (ht : t < 8) (hc : c < 4) (hf : f < 8) :
    opTypeOf (UInt8.ofNat (t * 32 + c * 8 + f)) = t ∧
      countEncOf (UInt8.ofNat (t * 32 + c * 8 + f)) = c ∧
      offsetEncOf (UInt8.ofNat (t * 32 + c * 8 + f)) = f / 2 ∧
      (UInt8.ofNat (t * 32 + c * 8 + f)).toNat &&& 0x7 = f := by
  rw [opTypeOf_eq, countEncOf_eq, offsetEncOf_eq, inlineCount_eq, UInt8.toNat_ofNat']
  omega

theorem reads_plain {t : ℕ} (ht : t < 6) (hadd : t ≠ opCopyAdd) (hrel : t ≠ opCopyRelocate)
    (h1 : 1 ≤ n) : Reads (plainBytes t n) t (decodedCount n) := by
  refine ⟨List.cons_ne_nil _ _, fun rest => ?_⟩
  have hlow : (if plainCountEnc n = .inline then n - 1 else 0) < 8 := by
    split_ifs with h
    · have : n ≤ 8 := by
        by_contra h8
        simp only [plainCountEnc, if_neg h8] at h
        split_ifs at h
      omega
    · decide
  obtain ⟨htype, hcount, -, hinline⟩ := firstByte_parts (show t < 8 by omega)
    (count_code_lt (plainCountEnc n)) hlow
  unfold plainBytes
  rw [List.cons_append, takeOperation, htype, if_neg hadd, if_neg hrel,
    takeCount_plain h1 hcount (fun he => by rw [hinline, if_pos he])]
  rfl

theorem reads_copyRelocate {negative : Bool} {d : ℕ} (h1 : 1 ≤ n) :
    Reads ((Op.copyRelocate n negative d).bytes ⟨wideCountEnc n, relocateEnc d⟩) opCopyRelocate
      (decodedCount n) := by
  refine ⟨List.cons_ne_nil _ _, fun rest => ?_⟩
  have ho := offset_code_lt (relocateEnc d)
  have hs := Bool.toNat_lt negative
  obtain ⟨htype, hcount, hoff, -⟩ := firstByte_parts (show opCopyRelocate < 8 by decide)
    (count_code_lt (wideCountEnc n)) (show (relocateEnc d).code * 2 + negative.toNat < 8 by omega)
  rw [show ((relocateEnc d).code * 2 + negative.toNat) / 2 = (relocateEnc d).code by omega] at hoff
  change takeOperation (UInt8.ofNat (opCopyRelocate * 32 + (wideCountEnc n).code * 8 +
    ((relocateEnc d).code * 2 + negative.toNat)) :: (((wideCountEnc n).bytes n ++
      leBytes (relocateEnc d).relocateWidth d) ++ rest)) = _
  rw [takeOperation, htype, if_neg (by decide), if_pos rfl, List.append_assoc,
    takeCount_wide h1 hcount]
  change (takeField _ _).bind _ = _
  rw [relocateFieldWidth_eq hoff, takeField_append (length_leBytes _ _)]
  rfl

theorem reads_copyAdd {x : ℤ} {fmt k : ℕ} (hfmt : fmt < 2) (h1 : 1 ≤ n) :
    Reads (copyAddBytes n x fmt k) opCopyAdd (decodedCount n) := by
  refine ⟨List.cons_ne_nil _ _, fun rest => ?_⟩
  have ho := offset_code_lt (byteEnc x)
  obtain ⟨htype, hcount, hoff, -⟩ := firstByte_parts (show opCopyAdd < 8 by decide)
    (count_code_lt (wideCountEnc n)) (show (byteEnc x).code * 2 + fmt < 8 by omega)
  rw [show ((byteEnc x).code * 2 + fmt) / 2 = (byteEnc x).code by omega] at hoff
  unfold copyAddBytes
  rw [List.cons_append, takeOperation, htype, if_pos rfl, List.append_assoc, List.append_assoc,
    byteOffsetFieldWidth_eq hoff, takeField_append (length_leBytes _ _)]
  change (takeCount _ _).bind _ = _
  rw [takeCount_wide h1 hcount]
  dsimp only [Option.bind_some]
  rw [takeField_append (length_leBytes _ _)]
  rfl

theorem storedLoop_flatMap {α : Type} (ty : ℕ) (l : List α) (op : α → Bytes) (t c : α → ℕ)
    (h : ∀ x ∈ l, Reads (op x) (t x) (c x)) {fuel : ℕ} (hf : l.length ≤ fuel) :
    storedLoop ty fuel (l.flatMap op) = (l.map fun x => if t x = ty then c x else 0).sum := by
  induction l generalizing fuel with
  | nil =>
    cases fuel with
    | zero => rfl
    | succ fuel => rfl
  | cons x l ih =>
    obtain ⟨fuel, rfl⟩ := Nat.exists_eq_add_of_le' (show 1 ≤ fuel from Nat.le_trans (by simp) hf)
    rw [List.flatMap_cons, storedLoop, (h x List.mem_cons_self).2]
    dsimp only
    rw [ih (fun y hy => h y (List.mem_cons_of_mem _ hy)) (by simpa using hf), List.map_cons,
      List.sum_cons]

theorem storedBlocks_flatMap {α : Type} (ty : ℕ) (l : List α) (op : α → Bytes) (t c : α → ℕ)
    (h : ∀ x ∈ l, Reads (op x) (t x) (c x)) :
    storedBlocks ty (l.flatMap op) = (l.map fun x => if t x = ty then c x else 0).sum := by
  apply storedLoop_flatMap ty l op t c h
  have hlen : ∀ l' : List α, (∀ x ∈ l', op x ≠ []) → l'.length ≤ (l'.flatMap op).length := by
    intro l' hne
    induction l' with
    | nil => exact Nat.zero_le _
    | cons x l' ih =>
      have hpos := List.length_pos_iff.mpr (hne x List.mem_cons_self)
      have hrest := ih fun y hy => hne y (List.mem_cons_of_mem _ hy)
      rw [List.flatMap_cons, List.length_append, List.length_cons]
      omega
  exact hlen l fun x hx => (h x hx).1

end Operations

/-! ### Runs of a tracker -/

/-- The positions and first blocks of the runs from block `i` on. -/
def runs (bs : ℕ) (blocks : List BlockState) : ℕ → ℕ → List (ℕ × BlockState)
  | 0, _ => []
  | fuel + 1, i =>
    match blocks[i]? with
    | none => []
    | some state => (i, state) :: runs bs blocks fuel (i + runCount bs blocks i state)

/-- Distances that the offset field of an operation can hold. -/
def Reachable (bs i : ℕ) (state : BlockState) : Prop :=
  match state.matchType with
  | .relocate => (relocateDistance i state).natAbs ≤ 0xFFFFFFFF
  | .partialMatch => -2 ^ 31 ≤ byteDistance bs i state ∧ byteDistance bs i state ≤ 2 ^ 31 - 1
  | _ => True

instance (bs i : ℕ) (state : BlockState) : Decidable (Reachable bs i state) := by
  unfold Reachable
  cases state.matchType <;> infer_instance

def operationFor : MatchType → ℕ
  | .identity => opCopyIdentity
  | .relocate => opCopyRelocate
  | .zero => opZero
  | .one => opOne
  | .partialMatch => opCopyAdd
  | .none => opLiteral

/-- The operation that a run headed by `state` becomes. -/
def operationOf (bs i : ℕ) (state : BlockState) : ℕ :=
  if Reachable bs i state then operationFor state.matchType else opLiteral

section Runs
variable {bs i fuel : ℕ} {blocks : List BlockState} {state : BlockState}

theorem mem_runs {r : ℕ × BlockState} (h : r ∈ runs bs blocks fuel i) :
    blocks[r.1]? = some r.2 := by
  induction fuel generalizing i with
  | zero => cases h
  | succ fuel ih =>
    unfold runs at h
    cases hb : blocks[i]? with
    | none =>
      simp only [hb] at h
      cases h
    | some first =>
      simp only [hb] at h
      rcases List.mem_cons.mp h with rfl | h
      · exact hb
      · exact ih h

/-- The run behind a run of the list is in the list. -/
theorem mem_runs_next {next : BlockState} (hf : blocks.length ≤ i + fuel) {j : ℕ}
    (h : (j, state) ∈ runs bs blocks fuel i)
    (hnext : blocks[j + runCount bs blocks j state]? = some next) :
    (j + runCount bs blocks j state, next) ∈ runs bs blocks fuel i := by
  induction fuel generalizing i with
  | zero => cases h
  | succ fuel ih =>
    unfold runs at h ⊢
    cases hb : blocks[i]? with
    | none =>
      simp only [hb] at h
      cases h
    | some first =>
      simp only [hb] at h ⊢
      have hone := one_le_runCount bs blocks i first
      apply List.mem_cons_of_mem
      rcases List.mem_cons.mp h with heq | h
      · cases heq
        obtain ⟨hlt, -⟩ := List.getElem?_eq_some_iff.mp hnext
        obtain ⟨fuel, rfl⟩ := Nat.exists_eq_add_of_le' (show 1 ≤ fuel by omega)
        rw [runs, hnext]
        exact List.mem_cons_self
      · exact ih (by omega) h

theorem mem_runs_of_runHead {j : ℕ} (hj : RunHead bs blocks j) (hs : blocks[j]? = some state) :
    (j, state) ∈ runs bs blocks blocks.length 0 := by
  induction hj generalizing state with
  | start =>
    obtain ⟨hlt, -⟩ := List.getElem?_eq_some_iff.mp hs
    obtain ⟨fuel, hfuel⟩ := Nat.exists_eq_add_of_le' hlt
    rw [hfuel, runs, hs]
    exact List.mem_cons_self
  | next hj hb ih => exact mem_runs_next (by omega) (ih hb) hs

theorem runCount_le (hs : blocks[i]? = some state) :
    i + runCount bs blocks i state ≤ blocks.length := by
  by_contra hlt
  obtain ⟨hi, -⟩ := List.getElem?_eq_some_iff.mp hs
  have hlong : blocks.length - i < runCount bs blocks i state := by omega
  obtain ⟨next, hnext, -⟩ := runCount_joins (show 1 ≤ blocks.length - i by omega) hlong
  rw [Nat.add_sub_cancel' hi.le] at hnext
  exact absurd (List.getElem?_eq_some_iff.mp hnext).1 (lt_irrefl _)

variable (bs) in
/-- The blocks of a run have one type. -/
theorem countP_run (hs : blocks[i]? = some state) (ty : MatchType) :
    (blocks.drop i).countP (·.matchType = ty) =
      (if state.matchType = ty then runCount bs blocks i state else 0) +
        (blocks.drop (i + runCount bs blocks i state)).countP (·.matchType = ty) := by
  have hle : i + runCount bs blocks i state ≤ blocks.length := runCount_le hs
  have hone := one_le_runCount bs blocks i state
  have htypes : ∀ b ∈ window blocks i (runCount bs blocks i state),
      b.matchType = state.matchType := by
    intro b hb
    obtain ⟨k, hk⟩ := List.mem_iff_getElem?.mp hb
    have hlt : k < runCount bs blocks i state :=
      (List.getElem?_eq_some_iff.mp hk).1.trans_le length_window_le
    rw [getElem?_window hlt] at hk
    rcases Nat.eq_zero_or_pos k with rfl | hpos
    · rw [add_zero, hs] at hk
      cases hk
      rfl
    · obtain ⟨next, hnext, hjoin⟩ := runCount_joins hpos hlt
      rw [hk] at hnext
      cases hnext
      exact joinsRun_type hjoin
  have hsplit := window_append_drop (s := blocks) (show i ≤ i + runCount bs blocks i state by omega)
  rw [Nat.add_sub_cancel_left] at hsplit
  rw [← hsplit, List.countP_append]
  congr 1
  split_ifs with hty
  · rw [List.countP_eq_length.mpr fun b hb => decide_eq_true ((htypes b hb).trans hty),
      length_window hle]
  · exact List.countP_eq_zero.mpr fun b hb => by simpa [htypes b hb] using hty

theorem sum_runs (ty : MatchType) (hf : blocks.length ≤ i + fuel) :
    ((runs bs blocks fuel i).map fun r =>
      if r.2.matchType = ty then runCount bs blocks r.1 r.2 else 0).sum =
      (blocks.drop i).countP (·.matchType = ty) := by
  induction fuel generalizing i with
  | zero =>
    rw [List.drop_eq_nil_of_le (by omega)]
    rfl
  | succ fuel ih =>
    unfold runs
    cases hb : blocks[i]? with
    | none =>
      rw [List.drop_eq_nil_of_le (List.getElem?_eq_none_iff.mp hb)]
      rfl
    | some first =>
      have hone := one_le_runCount bs blocks i first
      dsimp only
      rw [List.map_cons, List.sum_cons, ih (by omega), countP_run bs hb ty]

variable (bs blocks) in
/-- A block and the run it is in are at the same distance. -/
theorem forall_reachable_iff :
    (∀ r ∈ runs bs blocks blocks.length 0, Reachable bs r.1 r.2) ↔
      ∀ j b, blocks[j]? = some b → Reachable bs j b := by
  constructor
  · intro h j b hb
    obtain ⟨hlt, -⟩ := List.getElem?_eq_some_iff.mp hb
    obtain ⟨i, state, hi, hs, hle, hcover⟩ := exists_runHead bs hlt
    have hstate := h _ (mem_runs_of_runHead hi hs)
    obtain ⟨d, rfl⟩ := Nat.exists_eq_add_of_le hle
    rcases Nat.eq_zero_or_pos d with rfl | hpos
    · rw [add_zero, hs] at hb
      cases hb
      exact hstate
    · obtain ⟨next, hnext, hjoin⟩ := runCount_joins hpos (show d < runCount bs blocks i state by omega)
      rw [hb] at hnext
      cases hnext
      have hty := joinsRun_type hjoin
      unfold Reachable at hstate ⊢
      rw [hty]
      unfold joinsRun at hjoin
      cases hm : state.matchType with
      | relocate =>
        simp only [hm, Bool.and_eq_true, decide_eq_true_eq] at hjoin hstate ⊢
        rwa [hjoin.2]
      | partialMatch =>
        simp only [hm, Bool.and_eq_true, decide_eq_true_eq] at hjoin hstate ⊢
        rwa [hjoin.2.2]
      | _ => trivial
  · intro h r hr
    exact h _ _ (mem_runs hr)

theorem forall_decodedCount_iff {ty : MatchType} (hp : ty ≠ .partialMatch) :
    (∀ r ∈ runs bs blocks blocks.length 0, r.2.matchType = ty →
        decodedCount (runCount bs blocks r.1 r.2) = runCount bs blocks r.1 r.2) ↔
      ¬ HugeRunOf ty blocks := by
  constructor
  · intro h hhuge
    obtain ⟨j, state, hj, hs, hty, hlong⟩ := exists_long_run bs hp hhuge
    have heq := h _ (mem_runs_of_runHead hj hs) hty
    rw [decodedCount_eq_iff] at heq
    exact absurd heq (not_lt.mpr hlong)
  · intro h r hr hty
    rw [decodedCount_eq_iff]
    by_contra hlong
    obtain ⟨-, hhuge⟩ := hugeRunOf_of_runCount bs (mem_runs hr) (not_lt.mp hlong)
    rw [hty] at hhuge
    exact h hhuge

end Runs

section Streams
variable {env : Env} {bs i n : ℕ} {blocks : List BlockState} {dest : Bytes} {state : BlockState}

variable (bs) in
theorem far_iff_not_reachable (hty : state.matchType = .relocate) :
    0xFFFFFFFF < (relocateDistance i state).natAbs ↔ ¬ Reachable bs i state := by
  simp only [Reachable, hty, not_le]

theorem byteFar_iff_not_reachable (hty : state.matchType = .partialMatch) :
    (byteDistance bs i state < -2 ^ 31 ∨ 2 ^ 31 - 1 < byteDistance bs i state) ↔
      ¬ Reachable bs i state := by
  simp only [Reachable, hty, not_and_or, not_le]

/-- A run is one operation of its own kind, or a literal one with its blocks as data. -/
theorem emission_cases (bs : ℕ) (blocks : List BlockState) (dest : Bytes) (i n : ℕ)
    (state : BlockState) :
    emission bs blocks dest i state n = literalEmission bs dest i n ∧
        operationOf bs i state = opLiteral ∨
      (emission bs blocks dest i state n).lit = [] ∧ operationOf bs i state ≠ opLiteral ∧
        (1 ≤ n → Reads (emission bs blocks dest i state n).op (operationOf bs i state)
          (decodedCount n)) := by
  have hplain : ∀ t < 4, t ≠ opCopyRelocate → 1 ≤ n → Reads (plainBytes t n) t (decodedCount n) := by
    intro t ht hrel h1
    exact reads_plain (by omega) (by unfold opCopyAdd; omega) hrel h1
  unfold emission operationOf
  cases hty : state.matchType with
  | identity | zero | one =>
    rw [if_pos (by simp only [Reachable, hty])]
    exact .inr ⟨rfl, by decide, hplain _ (by decide) (by decide)⟩
  | none =>
    rw [if_pos (by simp only [Reachable, hty])]
    exact .inl ⟨rfl, rfl⟩
  | relocate =>
    simp only [relocateEmission, far_iff_not_reachable bs hty]
    by_cases hr : Reachable bs i state
    · rw [if_neg (not_not.mpr hr), if_pos hr]
      exact .inr ⟨rfl, by decide, reads_copyRelocate⟩
    · rw [if_pos hr, if_neg hr]
      exact .inl ⟨rfl, rfl⟩
  | partialMatch =>
    simp only [partialEmission, byteFar_iff_not_reachable hty]
    by_cases hr : Reachable bs i state
    · rw [if_neg (not_not.mpr hr), if_pos hr]
      exact .inr ⟨rfl, by decide, reads_copyAdd (Bool.toNat_lt _)⟩
    · rw [if_pos hr, if_neg hr]
      exact .inl ⟨rfl, rfl⟩

theorem emission_reads (h1 : 1 ≤ n) :
    Reads (emission bs blocks dest i state n).op (operationOf bs i state) (decodedCount n) := by
  obtain ⟨he, hop⟩ | ⟨-, -, hreads⟩ := emission_cases bs blocks dest i n state
  · rw [he, hop]
    exact reads_plain (by decide) (by decide) (by decide) h1
  · exact hreads h1

/-- Only a run that becomes a literal operation has literal data. -/
theorem length_emission_lit (hin : (i + n) * bs ≤ dest.length) (hlen : dest.length < 2 ^ 64) :
    (emission bs blocks dest i state n).lit.length =
      (if operationOf bs i state = opLiteral then n else 0) * bs := by
  obtain ⟨he, hop⟩ | ⟨hlit, hop, -⟩ := emission_cases bs blocks dest i n state
  · rw [add_mul] at hin
    rw [he, if_pos hop, literalEmission, u64_of_lt (by omega), u64_of_lt (by omega),
      length_window hin]
  · rw [hlit, if_neg hop, Nat.zero_mul, List.length_nil]

/-- What the run at one position emits. -/
def runEmission (bs : ℕ) (blocks : List BlockState) (dest : Bytes) (r : ℕ × BlockState) :
    Emission :=
  emission bs blocks dest r.1 r.2 (runCount bs blocks r.1 r.2)

/-- The streams are the emissions of the runs, in order. -/
theorem encodeLoop_emits {fuel : ℕ} {s s' : Streams}
    (h : encodeLoop env bs blocks dest fuel i s = .ok () s') :
    Emits s s' ((runs bs blocks fuel i).flatMap (fun r => (runEmission bs blocks dest r).op))
      ((runs bs blocks fuel i).flatMap (fun r => (runEmission bs blocks dest r).diff))
      ((runs bs blocks fuel i).flatMap (fun r => (runEmission bs blocks dest r).lit)) := by
  induction fuel generalizing i s with
  | zero =>
    cases h
    exact .refl _
  | succ fuel ih =>
    unfold encodeLoop at h
    unfold runs
    cases hb : blocks[i]? with
    | none =>
      simp only [hb] at h
      cases h
      exact .refl _
    | some state =>
      simp only [hb] at h
      change EStateM.bind _ _ s = _ at h
      unfold EStateM.bind at h
      cases hrun : encodeRun env bs blocks dest i state s with
      | error e s₁ =>
        rw [hrun] at h
        cases h
      | ok n s₁ =>
        rw [hrun] at h
        obtain ⟨rfl, hemits⟩ := (encodeRun_emits env bs blocks dest i state).of_ok hrun
        exact hemits.trans (ih h)

end Streams

/-! ### Agreement -/

/-- The statistics taken from the tracker are those of the streams. -/
structure StatsAgree (bs : ℕ) (t : Tracker) (s : Streams) : Prop where
  literal_eq : storedBlocks opLiteral s.op = t.literalCount
  literal_length : s.lit.length = t.literalCount * bs
  relocate_eq : storedBlocks opCopyRelocate s.op = t.relocateCount
  partial_eq : storedBlocks opCopyAdd s.op = t.partialCount

/-- Every distance fits its offset field, and every run of literals or relocations its
count field. -/
structure Encodable (bs : ℕ) (blocks : List BlockState) : Prop where
  reachable : ∀ i b, blocks[i]? = some b → Reachable bs i b
  literal_runs : ¬ HugeRunOf .none blocks
  relocate_runs : ¬ HugeRunOf .relocate blocks

private theorem sum_map_eq_iff {α : Type} {l : List α} {f g : α → ℕ} (h : ∀ x ∈ l, f x ≤ g x) :
    (l.map f).sum = (l.map g).sum ↔ ∀ x ∈ l, f x = g x := by
  induction l with
  | nil => simp
  | cons a l ih =>
    have ha := h a List.mem_cons_self
    have hl := fun x hx => h x (List.mem_cons_of_mem a hx)
    have hle := List.sum_le_sum hl
    rw [List.map_cons, List.map_cons, List.sum_cons, List.sum_cons, List.forall_mem_cons, ← ih hl]
    omega

section Agreement
variable {env : Env} {bs : ℕ} {t : Tracker} {dest : Bytes} {s : Streams}

/-- The counts of one operation against the blocks of one type, run by run. -/
theorem storedBlocks_encode (h : encode env bs t dest {} = .ok () s) (op : ℕ) :
    storedBlocks op s.op = ((runs bs t.blocks t.count 0).map fun r =>
      if operationOf bs r.1 r.2 = op then decodedCount (runCount bs t.blocks r.1 r.2) else 0).sum := by
  have hop := (encodeLoop_emits h).op_eq
  rw [List.nil_append] at hop
  rw [hop]
  apply storedBlocks_flatMap
  intro r _
  exact emission_reads (one_le_runCount _ _ _ _)

theorem length_lit_encode (h : encode env bs t dest {} = .ok () s)
    (hdest : t.count * bs ≤ dest.length) (hlen : dest.length < 2 ^ 64) :
    s.lit.length = ((runs bs t.blocks t.count 0).map fun r =>
      if operationOf bs r.1 r.2 = opLiteral then runCount bs t.blocks r.1 r.2 else 0).sum * bs := by
  have hlit := (encodeLoop_emits h).lit_eq
  rw [List.nil_append] at hlit
  rw [hlit, List.length_flatMap, ← List.sum_map_mul_right]
  congr 1
  apply List.map_congr_left
  intro r hr
  apply length_emission_lit _ hlen
  exact (Nat.mul_le_mul_right bs (runCount_le (mem_runs hr))).trans hdest

variable (bs) in
theorem typeCount_eq_sum (ty : MatchType) :
    t.typeCount ty = ((runs bs t.blocks t.count 0).map fun r =>
      if r.2.matchType = ty then runCount bs t.blocks r.1 r.2 else 0).sum := by
  rw [sum_runs ty (by rw [Tracker.count]; omega), List.drop_zero]
  rfl

theorem operationFor_inj {ty ty' : MatchType} (h : operationFor ty = operationFor ty') :
    ty = ty' := by
  cases ty <;> cases ty' <;> first | rfl | exact absurd h (by decide)

theorem operationOf_eq_literal_iff {i : ℕ} {state : BlockState} :
    operationOf bs i state = opLiteral ↔ state.matchType = .none ∨ ¬ Reachable bs i state := by
  unfold operationOf
  by_cases hr : Reachable bs i state
  · rw [if_pos hr]
    constructor
    · intro h
      exact .inl (operationFor_inj (h.trans (show opLiteral = operationFor .none from rfl)))
    · rintro (h | h)
      · rw [h]
        rfl
      · exact absurd hr h
  · simp [hr]

/-- Literal data beyond the unmatched blocks come from the runs that are out of reach. -/
theorem literal_length_iff (hbs : 0 < bs) (hfinal : t.Finalized)
    (h : encode env bs t dest {} = .ok () s) (hdest : t.count * bs ≤ dest.length)
    (hlen : dest.length < 2 ^ 64) :
    s.lit.length = t.literalCount * bs ↔
      ∀ r ∈ runs bs t.blocks t.count 0, Reachable bs r.1 r.2 := by
  rw [length_lit_encode h hdest hlen, Nat.mul_left_inj hbs.ne',
    show t.literalCount = t.typeCount .none from hfinal.counter_eq .none,
    typeCount_eq_sum bs, eq_comm]
  have hle : ∀ r ∈ runs bs t.blocks t.count 0,
      (if r.2.matchType = .none then runCount bs t.blocks r.1 r.2 else 0) ≤
        if operationOf bs r.1 r.2 = opLiteral then runCount bs t.blocks r.1 r.2 else 0 := by
    intro r _
    by_cases hty : r.2.matchType = .none
    · rw [if_pos hty, if_pos (operationOf_eq_literal_iff.mpr (.inl hty))]
    · rw [if_neg hty]
      exact Nat.zero_le _
  rw [sum_map_eq_iff hle]
  apply forall₂_congr
  intro r _
  have hone := one_le_runCount bs t.blocks r.1 r.2
  simp only [operationOf_eq_literal_iff]
  by_cases hty : r.2.matchType = .none
  · simp [hty, Reachable]
  · by_cases hr : Reachable bs r.1 r.2
    · simp [hty, hr]
    · simp [hty, hr]
      omega

/-- With every run in reach, the counts of one operation are right when its runs fit. -/
theorem storedBlocks_iff (ty : MatchType) (hfinal : t.Finalized)
    (h : encode env bs t dest {} = .ok () s)
    (hreach : ∀ r ∈ runs bs t.blocks t.count 0, Reachable bs r.1 r.2) :
    storedBlocks (operationFor ty) s.op = t.counter ty ↔ ∀ r ∈ runs bs t.blocks t.count 0, r.2.matchType = ty →
      decodedCount (runCount bs t.blocks r.1 r.2) = runCount bs t.blocks r.1 r.2 := by
  have hop : ∀ r ∈ runs bs t.blocks t.count 0,
      operationOf bs r.1 r.2 = operationFor ty ↔ r.2.matchType = ty := by
    intro r hr
    rw [operationOf, if_pos (hreach r hr)]
    exact ⟨operationFor_inj, congrArg operationFor⟩
  rw [storedBlocks_encode h, hfinal.counter_eq, typeCount_eq_sum bs]
  have hle : ∀ r ∈ runs bs t.blocks t.count 0,
      (if operationOf bs r.1 r.2 = operationFor ty then decodedCount (runCount bs t.blocks r.1 r.2) else 0) ≤
        if r.2.matchType = ty then runCount bs t.blocks r.1 r.2 else 0 := by
    intro r hr
    simp only [hop r hr]
    split_ifs
    · exact decodedCount_le _
    · exact le_rfl
  rw [sum_map_eq_iff hle]
  apply forall₂_congr
  intro r hr
  simp only [hop r hr]
  by_cases hty : r.2.matchType = ty
  · simp [hty]
  · simp [hty]

theorem statsAgree_iff (hbs : 0 < bs) (hfinal : t.Finalized)
    (h : encode env bs t dest {} = .ok () s) (hdest : t.count * bs ≤ dest.length)
    (hlen : dest.length < 2 ^ 64) : StatsAgree bs t s ↔ Encodable bs t.blocks := by
  have hlength := literal_length_iff hbs hfinal h hdest hlen
  have hreach := forall_reachable_iff bs t.blocks
  -- once every run is in reach, operations and types correspond
  have hstored : (∀ r ∈ runs bs t.blocks t.count 0, Reachable bs r.1 r.2) →
      (storedBlocks opLiteral s.op = t.counter .none ↔ ¬ HugeRunOf .none t.blocks) ∧
      (storedBlocks opCopyRelocate s.op = t.counter .relocate ↔ ¬ HugeRunOf .relocate t.blocks) ∧
      storedBlocks opCopyAdd s.op = t.counter .partialMatch := by
    intro hr
    refine ⟨?_, ?_, ?_⟩
    · exact (storedBlocks_iff .none hfinal h hr).trans (forall_decodedCount_iff (by decide))
    · exact (storedBlocks_iff .relocate hfinal h hr).trans (forall_decodedCount_iff (by decide))
    · apply (storedBlocks_iff .partialMatch hfinal h hr).mpr
      intro r hmem hty
      rw [decodedCount_eq_iff]
      by_contra hlong
      exact (hugeRunOf_of_runCount bs (mem_runs hmem) (not_lt.mp hlong)).1 hty
  constructor
  · intro ha
    have hr := hlength.mp ha.literal_length
    obtain ⟨hlit, hrel, -⟩ := hstored hr
    exact ⟨hreach.mp hr, hlit.mp ha.literal_eq, hrel.mp ha.relocate_eq⟩
  · intro he
    have hr := hreach.mpr he.reachable
    obtain ⟨hlit, hrel, hadd⟩ := hstored hr
    exact ⟨hlit.mpr he.literal_runs, hlength.mpr hr, hrel.mpr he.relocate_runs, hadd⟩

end Agreement

/-- The statistics of a finalized tracker agree with its patch exactly when nothing had to
be stored as literals for want of a field that is wide enough. -/
theorem encode_statsAgree_iff {destBlocks bs : ℕ} {t₀ : Tracker}
    (hcreate : Tracker.create destBlocks bs = .ok t₀) (calls : List Tracker.Call) (k : ℕ)
    (env : Env) {dest : Bytes} (hdest : destBlocks * bs ≤ dest.length) (hlen : dest.length < 2 ^ 64)
    {s : Streams}
    (h : encode env bs (Tracker.finalize^[k + 1] (t₀.runCalls calls)) dest {} = .ok () s) :
    StatsAgree bs (Tracker.finalize^[k + 1] (t₀.runCalls calls)) s ↔
      Encodable bs (t₀.runCalls calls).blocks := by
  have hbs : 0 < bs := by
    unfold Tracker.create at hcreate
    split_ifs at hcreate with hzero
    rw [not_or] at hzero
    exact Nat.pos_of_ne_zero hzero.2
  obtain ⟨hcons, hcount⟩ := Tracker.runCalls_consistent (Tracker.create_consistent hcreate) calls
  obtain ⟨hfinal, hblocks⟩ := hcons.finalize k
  rw [← hblocks]
  refine statsAgree_iff hbs hfinal h ?_ hlen
  rw [Tracker.count, hblocks, show (t₀.runCalls calls).blocks.length = destBlocks from
    hcount.trans (Tracker.create_spec hcreate).2.1]
  exact hdest

/-- Two blocks, the second a copy of source block 3. -/
theorem encode_statsAgree_twoBlocks :
    let calls : List Tracker.Call := [.setMatch 1 .relocate 3 (by decide)]
    ∃ t₀ s, Tracker.create 2 32 = .ok t₀ ∧
      encode faultless 32 (Tracker.finalize^[1] (t₀.runCalls calls)) (List.replicate 64 7) {} =
        .ok () s ∧
      StatsAgree 32 (Tracker.finalize^[1] (t₀.runCalls calls)) s := by
  intro calls
  have hok := eq_ok_of_stateOf (r := encode faultless 32 (Tracker.finalize^[1] (Tracker.runCalls
    { blocks := [{ destIndex := 0 }, { destIndex := 1 }], blockSize := 32, bitmap := [3] } calls))
    (List.replicate 64 7) {})
    (s := { op := [184, 32, 0, 2], lit := List.replicate 32 7, writes := 5 }) (by decide +kernel)
  refine ⟨_, _, rfl, hok, ?_⟩
  refine (encode_statsAgree_iff (show Tracker.create 2 32 = .ok _ from rfl) calls 0 faultless
    (by decide) (by decide) hok).mpr ?_
  have hshort : ∀ ty, ¬ HugeRunOf ty ([{ destIndex := 0 },
      { destIndex := 1, srcIndex := 3, matchType := .relocate }] : List BlockState) := by
    rintro ty ⟨i, first, -, -, hall⟩
    obtain ⟨next, hnext, -⟩ := hall 2 (by decide)
    exact absurd (List.getElem?_eq_some_iff.mp hnext).1 (by simp)
  refine ⟨?_, hshort .none, hshort .relocate⟩
  intro i b hb
  match i with
  | 0 =>
    cases hb
    trivial
  | 1 =>
    cases hb
    change (relocateDistance 1 _).natAbs ≤ 0xFFFFFFFF
    decide +kernel
  | i + 2 => cases hb

/-- A block found `2^32` blocks away is counted as relocated and stored as a literal. -/
theorem encode_literal_drift :
    ∃ t₀ s, Tracker.create 1 32 = .ok t₀ ∧
      let t := Tracker.finalize^[1] (t₀.runCalls [.setMatch 0 .relocate (2 ^ 32) (by decide)])
      encode faultless 32 t (List.replicate 32 7) {} = .ok () s ∧
        t.literalCount = 0 ∧ storedBlocks opLiteral s.op = 1 ∧ s.lit.length = 32 ∧
        t.relocateCount = 1 ∧ storedBlocks opCopyRelocate s.op = 0 := by
  refine ⟨_, { op := [184], lit := List.replicate 32 7, writes := 2 }, rfl,
    eq_ok_of_stateOf (by decide +kernel), rfl, by decide, rfl, rfl, by decide⟩

end Fsdiff.Encoder
