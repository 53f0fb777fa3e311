import Fsdiff.Encoding.Emission
import Fsdiff.Patch.Fields

/-! Run lengths: which blocks the encoder takes into one operation, and what the
decoder reads back from the count field of that operation. -/
namespace Fsdiff.Encoder
open ByteString Exec Format Patch

/-! ### Maximal runs -/

section Runs
variable {blocks : List BlockState} {i : ℕ} {joins : ℕ → BlockState → Bool}

theorem extendRun_joins {fuel run k : ℕ} (hk : run ≤ k)
    (hlt : k < extendRun blocks i joins fuel run) :
    ∃ next, blocks[i + k]? = some next ∧ joins k next = true := by
  induction fuel generalizing run with
  | zero =>
    rw [extendRun] at hlt
    omega
  | succ fuel ih =>
    unfold extendRun at hlt
    cases hnext : blocks[i + run]? with
    | none =>
      simp only [hnext] at hlt
      omega
    | some next =>
      simp only [hnext] at hlt
      split_ifs at hlt with hj
      · rcases Nat.eq_or_lt_of_le hk with rfl | hk
        · exact ⟨next, hnext, hj⟩
        · exact ih hk hlt
      · omega

/-- The block behind the run does not join it. -/
theorem extendRun_maximal {fuel run : ℕ} (hf : blocks.length ≤ i + run + fuel) {next : BlockState}
    (h : blocks[i + extendRun blocks i joins fuel run]? = some next) :
    joins (extendRun blocks i joins fuel run) next = false := by
  induction fuel generalizing run with
  | zero =>
    obtain ⟨hlt, -⟩ := List.getElem?_eq_some_iff.mp h
    rw [extendRun] at hlt
    omega
  | succ fuel ih =>
    unfold extendRun at h ⊢
    cases hrun : blocks[i + run]? with
    | none =>
      simp only [hrun] at h
      cases h
    | some block =>
      simp only [hrun] at h ⊢
      split_ifs at h ⊢ with hj
      · exact ih (by omega) h
      · rw [hrun] at h
        cases h
        simpa using hj

end Runs

/-- The positions at which the encoding loop starts an operation. -/
inductive RunHead (bs : ℕ) (blocks : List BlockState) : ℕ → Prop
  | start : RunHead bs blocks 0
  | next {i : ℕ} {state : BlockState} (h : RunHead bs blocks i) (hs : blocks[i]? = some state) :
      RunHead bs blocks (i + runCount bs blocks i state)

/-- Block `i + k` can share an operation with block `i`: same type, and for a
relocation the same distance. -/
def Coalesces (i : ℕ) (first : BlockState) (k : ℕ) (next : BlockState) : Prop :=
  next.matchType = first.matchType ∧
    (first.matchType = .relocate → relocateDistance (i + k) next = relocateDistance i first)

/-- `2^32` blocks in a row that share an operation. Partial matches are left out:
their runs are capped. -/
def HugeRun (blocks : List BlockState) : Prop :=
  ∃ i first, blocks[i]? = some first ∧ first.matchType ≠ .partialMatch ∧
    ∀ k < 2 ^ 32, ∃ next, blocks[i + k]? = some next ∧ Coalesces i first k next

/-- The same for blocks of one type. -/
def HugeRunOf (ty : MatchType) (blocks : List BlockState) : Prop :=
  ∃ i first, blocks[i]? = some first ∧ first.matchType = ty ∧
    ∀ k < 2 ^ 32, ∃ next, blocks[i + k]? = some next ∧ Coalesces i first k next

section Heads
variable {bs i : ℕ} {blocks : List BlockState} {state next : BlockState}

theorem joinsRun_iff {k : ℕ} (hp : state.matchType ≠ .partialMatch) :
    joinsRun bs i state k next = true ↔ Coalesces i state k next := by
  unfold joinsRun Coalesces
  cases hty : state.matchType with
  | partialMatch => exact absurd hty hp
  | _ => simp

theorem joinsRun_type {k : ℕ} (h : joinsRun bs i state k next = true) :
    next.matchType = state.matchType := by
  by_cases hp : state.matchType = .partialMatch
  · simp only [joinsRun, hp, Bool.and_eq_true, decide_eq_true_eq] at h
    rw [h.2.1, hp]
  · exact ((joinsRun_iff hp).mp h).1

theorem runCount_joins {k : ℕ} (hk : 1 ≤ k) (hlt : k < runCount bs blocks i state) :
    ∃ next, blocks[i + k]? = some next ∧ joinsRun bs i state k next = true :=
  extendRun_joins hk hlt

theorem runCount_maximal (h : blocks[i + runCount bs blocks i state]? = some next) :
    joinsRun bs i state (runCount bs blocks i state) next = false :=
  extendRun_maximal (by omega) h

theorem one_le_maxRunForFormat (bs : ℕ) : 1 ≤ maxRunForFormat bs := by
  unfold maxRunForFormat
  split_ifs with h
  · exact le_rfl
  · exact Nat.one_le_iff_ne_zero.mpr h

theorem maxRunForFormat_le (bs : ℕ) : maxRunForFormat bs ≤ uint32Max := by
  unfold maxRunForFormat
  split_ifs
  · decide
  · exact Nat.div_le_self _ _

/-- `run_count < max_run_for_format` holds for the last block that was added. -/
theorem runCount_le_maxRun (hp : state.matchType = .partialMatch) :
    runCount bs blocks i state ≤ maxRunForFormat bs := by
  by_contra hlt
  have hone := one_le_maxRunForFormat bs
  obtain ⟨next, -, hj⟩ := runCount_joins (k := maxRunForFormat bs) hone (not_le.mp hlt)
  simp [joinsRun, hp] at hj

theorem exists_runHead (bs : ℕ) (hi : i < blocks.length) :
    ∃ j state, RunHead bs blocks j ∧ blocks[j]? = some state ∧ j ≤ i ∧
      i < j + runCount bs blocks j state := by
  induction i with
  | zero =>
    obtain ⟨state, hs⟩ : ∃ state, blocks[0]? = some state := ⟨_, List.getElem?_eq_getElem hi⟩
    have := one_le_runCount bs blocks 0 state
    exact ⟨0, state, .start, hs, le_rfl, by omega⟩
  | succ i ih =>
    obtain ⟨j, state, hj, hs, hle, hlt⟩ := ih (by omega)
    by_cases hin : i + 1 < j + runCount bs blocks j state
    · exact ⟨j, state, hj, hs, by omega, hin⟩
    · have heq : i + 1 = j + runCount bs blocks j state := by omega
      obtain ⟨first, hf⟩ : ∃ first, blocks[i + 1]? = some first := ⟨_, List.getElem?_eq_getElem hi⟩
      have := one_le_runCount bs blocks (i + 1) first
      exact ⟨i + 1, first, heq ▸ hj.next hs, hf, le_rfl, by omega⟩

/-- A run that covers the first of many coalescing blocks covers them all. -/
theorem exists_long_run (bs : ℕ) {ty : MatchType} (hcoalesces : ty ≠ .partialMatch)
    (h : HugeRunOf ty blocks) :
    ∃ j state, RunHead bs blocks j ∧ blocks[j]? = some state ∧ state.matchType = ty ∧
      2 ^ 32 ≤ runCount bs blocks j state := by
  obtain ⟨i, first, hfirst, rfl, hall⟩ := h
  obtain ⟨hlt, -⟩ := List.getElem?_eq_some_iff.mp hfirst
  obtain ⟨j, state, hj, hs, hle, hcover⟩ := exists_runHead bs hlt
  obtain ⟨d, rfl⟩ := Nat.exists_eq_add_of_le hle
  have hjoins : d = 0 ∧ first = state ∨ joinsRun bs j state d first = true := by
    rcases Nat.eq_zero_or_pos d with rfl | hd
    · rw [add_zero, hs] at hfirst
      cases hfirst
      exact .inl ⟨rfl, rfl⟩
    · obtain ⟨b, hb, hjoin⟩ := runCount_joins hd (show d < runCount bs blocks j state by omega)
      rw [hfirst] at hb
      cases hb
      exact .inr hjoin
  have hty : first.matchType = state.matchType := by
    rcases hjoins with ⟨-, rfl⟩ | hjoin
    · rfl
    · exact joinsRun_type hjoin
  have hps : state.matchType ≠ .partialMatch := hty ▸ hcoalesces
  have hdist : state.matchType = .relocate →
      relocateDistance (j + d) first = relocateDistance j state := by
    intro hr
    rcases hjoins with ⟨rfl, rfl⟩ | hjoin
    · rfl
    · exact ((joinsRun_iff hps).mp hjoin).2 hr
  refine ⟨j, state, hj, hs, hty.symm, ?_⟩
  by_contra hshort
  -- the block behind the run is still one of the coalescing blocks
  obtain ⟨next, hnext, hsame, hreloc⟩ := hall (runCount bs blocks j state - d) (by omega)
  have hpos : j + d + (runCount bs blocks j state - d) = j + runCount bs blocks j state := by omega
  rw [hpos] at hnext hreloc
  have hjoin : joinsRun bs j state (runCount bs blocks j state) next = true := by
    rw [joinsRun_iff hps]
    exact ⟨hsame.trans hty, fun hr => (hreloc (hty.trans hr)).trans (hdist hr)⟩
  rw [runCount_maximal hnext] at hjoin
  cases hjoin

/-- The blocks of one run coalesce. -/
theorem hugeRunOf_of_runCount (bs : ℕ) (hs : blocks[i]? = some state)
    (hlong : 2 ^ 32 ≤ runCount bs blocks i state) :
    state.matchType ≠ .partialMatch ∧ HugeRunOf state.matchType blocks := by
  have hp : state.matchType ≠ .partialMatch := by
    intro hp
    have hcap : runCount bs blocks i state ≤ uint32Max :=
      (runCount_le_maxRun hp).trans (maxRunForFormat_le bs)
    have : uint32Max < 2 ^ 32 := by decide
    omega
  refine ⟨hp, i, state, hs, rfl, fun k hk => ?_⟩
  rcases Nat.eq_zero_or_pos k with rfl | hpos
  · exact ⟨state, hs, rfl, fun _ => rfl⟩
  · obtain ⟨next, hnext, hjoin⟩ := runCount_joins hpos (show k < runCount bs blocks i state by omega)
    exact ⟨next, hnext, (joinsRun_iff hp).mp hjoin⟩

end Heads

/-! ### Widths -/

theorem plainCountEnc_max {n : ℕ} (hn : n ≤ uint32Max) : n ≤ (plainCountEnc n).max := by
  unfold plainCountEnc
  split_ifs <;> assumption

theorem wideCountEnc_max {n : ℕ} (hn : n ≤ uint32Max) : n ≤ (wideCountEnc n).max := by
  unfold wideCountEnc
  split_ifs <;> assumption

theorem relocateEnc_lt {d : ℕ} (hd : d ≤ 0xFFFFFFFF) : d < 256 ^ (relocateEnc d).relocateWidth := by
  unfold relocateEnc
  split_ifs
  · change d < 256 ^ 1
    omega
  · change d < 256 ^ 2
    omega
  · change d < 256 ^ 4
    omega

theorem byteEnc_range {x : ℤ} (hl : -2 ^ 31 ≤ x) (hu : x ≤ 2 ^ 31 - 1) :
    -2 ^ (8 * (byteEnc x).byteOffsetWidth - 1) ≤ x ∧
      x < 2 ^ (8 * (byteEnc x).byteOffsetWidth - 1) := by
  unfold byteEnc
  split_ifs
  · change -2 ^ 15 ≤ x ∧ x < 2 ^ 15
    omega
  · change -2 ^ 23 ≤ x ∧ x < 2 ^ 23
    omega
  · change -2 ^ 31 ≤ x ∧ x < 2 ^ 31
    omega

theorem legal_copyRelocate (bs : ℕ) {n d : ℕ} (negative : Bool) (h1 : 1 ≤ n) (hn : n ≤ uint32Max)
    (hd : d ≤ 0xFFFFFFFF) :
    Legal bs ⟨wideCountEnc n, relocateEnc d⟩ (.copyRelocate n negative d) :=
  ⟨h1, wideCountEnc_max hn, wideCountEnc_ne n, relocateEnc_lt hd⟩

/-! ### Counts read back -/

section Counts
variable {patch : Bytes} {L : Layout patch} {ptr n : ℕ}

/-- What the decoder reads as the count of the operation at `ptr`: `read_count`
behind the first byte, or the switch of `COPY_ADD` behind its offset. -/
def operationCount (L : Layout patch) (ptr : ℕ) : Dec ℕ := do
  let firstByte ← readByte L L.opRegion ptr
  if opTypeOf firstByte = opCopyAdd then do
    let (_, ptr) ← readByteOffset L firstByte (ptr + 1)
    let (count, _) ← readCopyAddCount L firstByte ptr
    pure count
  else do
    let (count, _) ← readCount L firstByte (ptr + 1)
    pure count

/-- Wherever the operation stands in a patch, its count is read as `n`. -/
def CountDecodes (op : Bytes) (n : ℕ) : Prop :=
  ∀ (patch : Bytes) (L : Layout patch) (ptr : ℕ) (s : Output), headerSize ≤ ptr →
    ptr + op.length ≤ L.opEnd → OccursAt patch ptr op →
    Ends (operationCount L ptr s) (fun k _ => k = n) (fun _ _ => False)

theorem readByte_in_stream (s : Output) :
    Ends (readByte L L.opRegion ptr s) (fun _ _ => ptr < L.opEnd) (fun _ _ => True) := by
  unfold readByte
  apply ends_ite
  · intro h
    cases patch[ptr]? with
    | none => trivial
    | some b => exact h.2.1
  · intro _
    trivial

theorem operationCount_lt (s : Output) (hp : headerSize ≤ ptr) :
    Ends (operationCount L ptr s) (fun k _ => k < 2 ^ 32) (fun _ _ => True) := by
  apply Ends.bind (readByte_in_stream s)
  intro b s₁ hlt
  apply ends_ite
  · intro _
    have hoff := readByteOffset_moves (s := s₁) b (show headerSize ≤ ptr + 1 by omega) hlt
    apply Ends.bind (Ends.weaken hoff (fun _ _ _ => trivial))
    intro v s₂ hv
    have hcount := readCopyAddCount_moves (s := s₂) b (show headerSize ≤ v.2 by omega) hv.2.1
    apply Ends.bind (Ends.weaken hcount (fun _ _ _ => trivial))
    intro w s₃ hw
    exact hw.2.2.1
  · intro _
    have hcount := readCount_moves (s := s₁) b (show headerSize ≤ ptr + 1 by omega) hlt
    apply Ends.bind (Ends.weaken hcount (fun _ _ _ => trivial))
    intro w s₂ hw
    exact hw.2.2.1

/-- A patch whose operation stream is `op`. -/
def soleLayout (op : Bytes) : Layout (headerWrite 0 5 op.length 0 ++ op) :=
  ⟨⟨5, 0, op.length, 0, by decide, by decide⟩, Nat.zero_le _, by simp⟩

theorem not_countDecodes (op : Bytes) (hn : 2 ^ 32 ≤ n) : ¬ CountDecodes op n := by
  intro h
  have hend : (soleLayout op).opEnd = headerSize + op.length := rfl
  have hocc : OccursAt (headerWrite 0 5 op.length 0 ++ op) headerSize op := by
    have := occursAt_middle (headerWrite 0 5 op.length 0) op []
    rwa [List.append_nil, length_headerWrite] at this
  have hread := h _ (soleLayout op) headerSize {} le_rfl hend.ge hocc
  have hlt := operationCount_lt (L := soleLayout op) {} le_rfl
  obtain ⟨k, s, hr, rfl⟩ := hread.exists_ok
  have := hlt.of_ok hr
  omega

/-- Operations whose count follows the first byte. -/
theorem countDecodes_counted {bs : ℕ} {e : Enc} {op : Op} (h : Legal bs e op)
    (hop : op.type ≠ opCopyAdd) (rest : Bytes)
    (hfields : op.fields e = e.count.bytes op.count ++ rest)
    (hlow : e.count = .inline → op.flags e = op.count - 1) :
    CountDecodes (op.bytes e) op.count := by
  intro patch L ptr s hp hend hocc
  obtain ⟨htype, hcount, -, -, hbits⟩ := firstByte_fields h
  rw [Op.bytes, occursAt_cons, hfields, occursAt_append] at hocc
  rw [Op.bytes, hfields, List.length_cons, List.length_append] at hend
  apply Ends.bind (readByte_ends opRegion_inside hp (show ptr < L.opEnd by omega))
  intro b s₁ hpost
  obtain ⟨hb, -⟩ := hpost
  obtain rfl : b = op.firstByte e := Option.some.inj (hb.symm.trans hocc.1)
  apply ends_ite (fun hadd => absurd (htype.symm.trans hadd) hop)
  intro _
  have hread := readCount_parses (L := L) hcount (fun he => hbits.trans (hlow he)) h.1 h.2.1
    (by omega) (by omega) hocc.2.1
  apply Ends.bind (hread s₁)
  intro v s₂ hpost
  obtain ⟨rfl, -⟩ := hpost
  rfl

theorem countDecodes_plain (op : ℕ → Op) (h1 : 1 ≤ n) (hn : n ≤ uint32Max)
    (hop : op = .copyIdentity ∨ op = .zero ∨ op = .one ∨ op = .literal) :
    CountDecodes (plainBytes (op n).type n) n := by
  have hmax := plainCountEnc_max hn
  rcases hop with rfl | rfl | rfl | rfl
  all_goals
    exact countDecodes_counted (e := ⟨plainCountEnc n, .short⟩)
      (show Legal 0 _ _ from ⟨h1, hmax, trivial⟩) (by simp [Op.type, opCopyIdentity, opZero, opOne,
        opLiteral, opCopyAdd]) [] (List.append_nil _).symm (fun he => if_pos he)

theorem countDecodes_copyRelocate {d : ℕ} (negative : Bool) (h1 : 1 ≤ n) (hn : n ≤ uint32Max)
    (hd : d ≤ 0xFFFFFFFF) :
    CountDecodes ((Op.copyRelocate n negative d).bytes ⟨wideCountEnc n, relocateEnc d⟩) n :=
  countDecodes_counted (legal_copyRelocate 0 negative h1 hn hd) (by decide : (1 : ℕ) ≠ 4) _ rfl
    fun he => absurd he (wideCountEnc_ne n)

theorem countDecodes_copyAdd {byteOffset : ℤ} {fmt : ℕ} (k : ℕ) (h1 : 1 ≤ n) (hn : n ≤ uint32Max)
    (hl : -2 ^ 31 ≤ byteOffset) (hu : byteOffset ≤ 2 ^ 31 - 1) (hfmt : fmt < 2) :
    CountDecodes (copyAddBytes n byteOffset fmt k) n := by
  intro patch L ptr s hp hend hocc
  obtain ⟨hlo, hhi⟩ := byteEnc_range hl hu
  have hne := wideCountEnc_ne n
  have hmax := wideCountEnc_max hn
  unfold copyAddBytes at hend hocc
  generalize byteEnc byteOffset = o at hlo hhi hend hocc
  generalize wideCountEnc n = c at hne hmax hend hocc
  have hc := count_code_lt c
  have ho := offset_code_lt o
  rw [occursAt_cons, List.append_assoc, occursAt_append, occursAt_append, length_leBytes] at hocc
  simp only [List.length_cons, List.length_append, length_leBytes] at hend
  obtain ⟨hfirst, hoff, hcnt, -⟩ := hocc
  apply Ends.bind (readByte_ends opRegion_inside hp (show ptr < L.opEnd by omega))
  intro b s₁ hpost
  obtain ⟨hb, -⟩ := hpost
  have hval : b.toNat = opCopyAdd * 32 + c.code * 8 + (o.code * 2 + fmt) := by
    rw [Option.some.inj (hb.symm.trans hfirst), UInt8.toNat_ofNat']
    change (4 * 32 + c.code * 8 + (o.code * 2 + fmt)) % 256 = 4 * 32 + c.code * 8 + (o.code * 2 + fmt)
    omega
  have htype : opTypeOf b = opCopyAdd := by
    rw [opTypeOf_eq, hval]
    omega
  have hcode : countEncOf b = c.code := by
    rw [countEncOf_eq, hval]
    change (4 * 32 + c.code * 8 + (o.code * 2 + fmt)) / 8 % 4 = c.code
    omega
  have hocode : offsetEncOf b = o.code := by
    rw [offsetEncOf_eq, hval]
    change (4 * 32 + c.code * 8 + (o.code * 2 + fmt)) / 2 % 4 = o.code
    omega
  apply ends_ite _ (fun hadd => absurd htype hadd)
  intro _
  have hread := readByteOffset_parses (L := L) hocode hlo hhi (show headerSize ≤ ptr + 1 by omega)
    (by omega) hoff
  apply Ends.bind (hread s₁)
  intro v s₂ hpost
  obtain ⟨rfl, -⟩ := hpost
  rw [length_leBytes]
  have hcount := readCopyAddCount_parses (L := L) (ptr + 1 + o.byteOffsetWidth) hcode hne h1 hmax
    (by omega) (by omega) hcnt
  apply Ends.bind (hcount s₂)
  intro w s₃ hpost
  obtain ⟨rfl, -⟩ := hpost
  rfl

/-- Any run that a count field can hold is read back. -/
theorem emission_countDecodes {bs i : ℕ} {blocks : List BlockState} {dest : Bytes}
    {state : BlockState} (h1 : 1 ≤ n) (hn : n ≤ uint32Max) :
    CountDecodes (emission bs blocks dest i state n).op n := by
  have hlit : CountDecodes (literalEmission bs dest i n).op n :=
    countDecodes_plain .literal h1 hn (by simp)
  unfold emission
  cases state.matchType with
  | identity => exact countDecodes_plain .copyIdentity h1 hn (by simp)
  | zero => exact countDecodes_plain .zero h1 hn (by simp)
  | one => exact countDecodes_plain .one h1 hn (by simp)
  | none => exact hlit
  | relocate =>
    unfold relocateEmission
    dsimp only
    split_ifs with hfar
    · exact hlit
    · exact countDecodes_copyRelocate _ h1 hn (not_lt.mp hfar)
  | partialMatch =>
    unfold partialEmission
    dsimp only
    split_ifs with hfar
    · exact hlit
    · rw [not_or, not_lt, not_lt] at hfar
      exact countDecodes_copyAdd _ h1 hn hfar.1 hfar.2 (Bool.toNat_lt _)

end Counts

/-- Every operation that is emitted has the count of the run it stands for. -/
def RunsDecode (bs : ℕ) (tracker : Tracker) : Prop :=
  ∀ (env : Env) (dest : Bytes) (i : ℕ) (state : BlockState) (s s' : Streams) (n : ℕ),
    RunHead bs tracker.blocks i → tracker.get i = some state →
    encodeRun env bs tracker.blocks dest i state s = .ok n s' →
    ∃ op, s'.op = s.op ++ op ∧ CountDecodes op n

def faultless : Env := ⟨fun _ => true, fun _ => none⟩

theorem not_faulty_faultless : ¬ faultless.Faulty := by
  intro hcase
  rcases hcase with ⟨n, h⟩ | ⟨n, h⟩
  · cases h
  · exact h rfl

theorem not_runsDecode_of_hugeRun (bs : ℕ) {tracker : Tracker} (h : HugeRun tracker.blocks) :
    ¬ RunsDecode bs tracker := by
  intro hall
  obtain ⟨i₀, first, hfirst, hp, hhuge⟩ := h
  obtain ⟨i, state, hhead, hs, hty, hlong⟩ := exists_long_run bs hp ⟨i₀, first, hfirst, rfl, hhuge⟩
  rw [← hty] at hp
  have hrun := encodeRun_emits (s := {}) faultless bs tracker.blocks [] i state
  have hok : Ends _ _ (fun _ _ => False) := hrun.weaken fun _ _ hfail =>
    hfail.elim not_faulty_faultless fun hlarge => hp hlarge.1
  obtain ⟨n, s', hr, rfl, -⟩ := hok.exists_ok
  obtain ⟨op, -, hdec⟩ := hall _ _ _ _ _ _ _ hhead hs hr
  exact not_countDecodes op hlong hdec

/-- The encoder keeps every run length exactly when the tracker has no `2^32`
consecutive blocks of one run: the counts of partial matches are capped, the
others are not. -/
theorem runsDecode_iff (bs : ℕ) (tracker : Tracker) :
    RunsDecode bs tracker ↔ ¬ HugeRun tracker.blocks := by
  constructor
  · intro h hhuge
    exact not_runsDecode_of_hugeRun bs hhuge h
  · intro hshort env dest i state s s' n _ hs hr
    obtain ⟨rfl, hemits⟩ := (encodeRun_emits env bs tracker.blocks dest i state).of_ok hr
    refine ⟨_, hemits.op_eq, emission_countDecodes (one_le_runCount _ _ _ _) ?_⟩
    by_contra hlong
    have hmax : uint32Max = 2 ^ 32 - 1 := rfl
    obtain ⟨hp, j, first, hfirst, hty, hhuge⟩ := hugeRunOf_of_runCount bs hs (by omega)
    exact hshort ⟨j, first, hfirst, hty ▸ hp, hhuge⟩

/-- A finalized tracker of an image of `2^32` zero blocks of 32 bytes. -/
def zeroImageTracker : Tracker where
  blocks := (List.range (2 ^ 32)).map fun i => { destIndex := i, matchType := .zero }
  blockSize := 32
  bitmap := List.replicate (2 ^ 26) 0
  zeroCount := 2 ^ 32

/-- Its one run is encoded with the count `(uint32_t)2^32`, which is zero. -/
theorem zeroImageTracker_truncated : ¬ RunsDecode 32 zeroImageTracker := by
  apply not_runsDecode_of_hugeRun
  have hget : ∀ k < 2 ^ 32, zeroImageTracker.blocks[k]? =
      some { destIndex := k, matchType := .zero } := by
    intro k hk
    simp only [zeroImageTracker]
    rw [List.getElem?_map, List.getElem?_range hk]
    rfl
  refine ⟨0, _, hget 0 (by decide), by decide, fun k hk =>
    ⟨{ destIndex := k, matchType := .zero }, ?_, rfl, fun h => ?_⟩⟩
  · rw [zero_add]
    exact hget k hk
  · cases h

end Fsdiff.Encoder
