import Fsdiff.Data.Csv
import Fsdiff.Diff

/-! `fsd_write_match_log` of `diff.c`: a table with a row for every destination block. It holds all
that the encoder needs besides the images, so that the patch can be made again from the log. -/
namespace Fsdiff
open ByteString Exec Stages

/-- The value of `fsd_match_type_t`. -/
def MatchType.code : MatchType → ℕ
  | .none => 0
  | .identity => 1
  | .relocate => 2
  | .partialMatch => 3
  | .zero => 4
  | .one => 5

/-- `dest_index,match_type,src_index,byte_offset,rel_offset,match_bytes` -/
def matchLogColumns : List Csv.Field :=
  [['d', 'e', 's', 't', '_', 'i', 'n', 'd', 'e', 'x'],
   ['m', 'a', 't', 'c', 'h', '_', 't', 'y', 'p', 'e'],
   ['s', 'r', 'c', '_', 'i', 'n', 'd', 'e', 'x'],
   ['b', 'y', 't', 'e', '_', 'o', 'f', 'f', 's', 'e', 't'],
   ['r', 'e', 'l', '_', 'o', 'f', 'f', 's', 'e', 't'],
   ['m', 'a', 't', 'c', 'h', '_', 'b', 'y', 't', 'e', 's']]

section Log
variable (K : Kernels) (bs : ℕ) (src dest : Bytes)

/-- The bytes that agree at `src_pos`, recounted if the window lies in the source. -/
def recount (srcPos destPos : ℤ) : ℕ :=
  if 0 ≤ srcPos ∧ u64 (srcPos.toNat + bs) ≤ src.length then
    K.countMatches (window src srcPos.toNat bs) (window dest destPos.toNat bs)
  else 0

/-- What is printed for block `i`. -/
def matchLogRow (i : ℕ) (st : BlockState) : List Csv.Field :=
  let destPos := int64 (i * bs : ℕ)
  let srcPos := int64 (st.srcIndex * bs : ℕ)
  match st.matchType with
  | .identity | .relocate =>
    [Csv.ofNat i, Csv.ofNat st.matchType.code, Csv.ofNat st.srcIndex, Csv.ofInt 0,
      Csv.ofInt (int64 (srcPos - destPos)), Csv.ofNat bs]
  | .partialMatch =>
    let srcPos := int64 (srcPos + st.byteOffset)
    [Csv.ofNat i, Csv.ofNat st.matchType.code, Csv.ofNat st.srcIndex, Csv.ofInt st.byteOffset,
      Csv.ofInt (int64 (srcPos - destPos)), Csv.ofNat (recount K bs src dest srcPos destPos)]
  | _ => [Csv.ofNat i, Csv.ofNat st.matchType.code, [], [], [], []]

/-- `fsd_write_match_log` -/
def matchLog (t : Tracker) : List Char :=
  Csv.text (matchLogColumns :: t.blocks.mapIdx (matchLogRow K bs src dest))

end Log

/-! ### Reading a log -/

def MatchType.ofCode : ℕ → Option MatchType
  | 0 => some .none
  | 1 => some .identity
  | 2 => some .relocate
  | 3 => some .partialMatch
  | 4 => some .zero
  | 5 => some .one
  | _ => none

@[simp] theorem MatchType.ofCode_code (ty : MatchType) : ofCode ty.code = some ty := by
  cases ty <;> rfl

/-- A row of the log; a column may be empty. -/
structure LogRow where
  destIndex : ℕ
  matchType : MatchType
  srcIndex : Option ℕ
  byteOffset : Option ℤ
  relOffset : Option ℤ
  matchBytes : Option ℕ
deriving DecidableEq, Repr

def readLogRow : List Csv.Field → Option LogRow
  | [destIndex, matchType, srcIndex, byteOffset, relOffset, matchBytes] => do
    pure {
      destIndex := ← Csv.readNat destIndex
      matchType := ← MatchType.ofCode (← Csv.readNat matchType)
      srcIndex := ← Csv.readOptional Csv.readNat srcIndex
      byteOffset := ← Csv.readOptional Csv.readInt byteOffset
      relOffset := ← Csv.readOptional Csv.readInt relOffset
      matchBytes := ← Csv.readOptional Csv.readNat matchBytes }
  | _ => none

def readMatchLog (log : List Char) : Option (List LogRow) :=
  match Csv.rows log with
  | columns :: rows => if columns = matchLogColumns then rows.mapM readLogRow else none
  | [] => none

/-- What the row of block `i` says, in exact numbers. -/
def logRowOf (J : Comparison) (i : ℕ) (b : BlockState) : LogRow :=
  match b.matchType with
  | .identity | .relocate =>
    ⟨i, b.matchType, some b.srcIndex, some 0, some (b.srcIndex * J.bs - i * J.bs), some J.bs⟩
  | .partialMatch =>
    let pos := Encoder.windowPos J.bs b
    ⟨i, .partialMatch, some b.srcIndex, some b.byteOffset, some (pos - i * J.bs),
      some (matchCount (window J.src pos.toNat J.bs) (J.destBlock i))⟩
  | ty => ⟨i, ty, none, none, none, none⟩

/-- The state of a block from its row and the images. -/
def LogRow.state (bs : ℕ) (src dest : Bytes) (row : LogRow) : BlockState :=
  let srcIndex := row.srcIndex.getD 0
  let byteOffset := row.byteOffset.getD 0
  { destIndex := row.destIndex
    srcIndex := srcIndex
    byteOffset := byteOffset
    matchType := row.matchType
    delta :=
      if row.matchType = .partialMatch then
        some (deltaOf (blockAt bs dest row.destIndex) (window src (srcIndex * bs + byteOffset).toNat bs))
      else none }

/-! ### What the encoder reads of a state -/

namespace Encoder

/-- A state without what the encoder does not look at. -/
def essence (b : BlockState) : BlockState :=
  match b.matchType with
  | .relocate => { destIndex := 0, srcIndex := b.srcIndex, matchType := .relocate }
  | .partialMatch => { b with destIndex := 0, crc32 := 0 }
  | ty => { destIndex := 0, matchType := ty }

section Essence
variable {bs i : ℕ} {blocks : List BlockState} {state : BlockState}

@[simp] theorem essence_matchType (b : BlockState) : (essence b).matchType = b.matchType := by
  unfold essence
  split <;> simp_all

theorem relocateDistance_essence {b : BlockState} (h : b.matchType = .relocate) (i : ℕ) :
    relocateDistance i (essence b) = relocateDistance i b := by
  simp [relocateDistance, essence, h]

theorem essence_partialMatch {b : BlockState} (h : b.matchType = .partialMatch) :
    essence b = { b with destIndex := 0, crc32 := 0 } := by
  simp [essence, h]

theorem byteDistance_essence {b : BlockState} (h : b.matchType = .partialMatch) (bs i : ℕ) :
    byteDistance bs i (essence b) = byteDistance bs i b := by
  rw [essence_partialMatch h]
  rfl

theorem joinsRun_essence (bs i : ℕ) (state : BlockState) (k : ℕ) (next : BlockState) :
    joinsRun bs i (essence state) k (essence next) = joinsRun bs i state k next := by
  unfold joinsRun
  rw [essence_matchType, essence_matchType]
  cases hty : state.matchType with
  | relocate =>
    by_cases hnext : next.matchType = .relocate
    · simp only [relocateDistance_essence hty, relocateDistance_essence hnext]
    · simp [hnext]
  | partialMatch =>
    by_cases hnext : next.matchType = .partialMatch
    · simp only [byteDistance_essence hty, byteDistance_essence hnext]
    · simp [hnext]
  | _ => rfl

theorem extendRun_essence {joins joins' : ℕ → BlockState → Bool}
    (h : ∀ k b, joins' k (essence b) = joins k b) (fuel run : ℕ) :
    extendRun (blocks.map essence) i joins' fuel run = extendRun blocks i joins fuel run := by
  induction fuel generalizing run with
  | zero => rfl
  | succ fuel ih =>
    unfold extendRun
    rw [List.getElem?_map]
    cases blocks[i + run]? with
    | none => rfl
    | some next =>
      simp only [Option.map_some, h, ih]

theorem runCount_essence (bs : ℕ) (blocks : List BlockState) (i : ℕ) (state : BlockState) :
    runCount bs (blocks.map essence) i (essence state) = runCount bs blocks i state := by
  rw [runCount, runCount, List.length_map]
  exact extendRun_essence (joinsRun_essence bs i state) _ _

/-- The deltas of a partial run are kept, since all its blocks are partial. -/
theorem deltas_essence (hs : blocks[i]? = some state) (hty : state.matchType = .partialMatch) :
    (((blocks.map essence).drop i).take (runCount bs blocks i state)).map BlockState.delta =
      ((blocks.drop i).take (runCount bs blocks i state)).map BlockState.delta := by
  rw [← List.map_drop, ← List.map_take, List.map_map]
  apply List.map_congr_left
  intro b hb
  obtain ⟨k, hk, hget⟩ := List.mem_iff_getElem.mp hb
  have hlt : k < runCount bs blocks i state := by
    rw [List.length_take] at hk
    omega
  obtain ⟨b', hb', hsame, -⟩ := (isRun_runCount bs hs).block hlt
  have hbk : blocks[i + k]? = some b := by
    rw [List.getElem_take, List.getElem_drop] at hget
    rw [← hget]
    exact List.getElem?_eq_getElem _
  rw [hbk] at hb'
  cases hb'
  rw [Function.comp_apply, essence_partialMatch (hsame.trans hty)]

theorem encodeOperation_essence (env : Env) (dest : Bytes) (hs : blocks[i]? = some state) :
    encodeOperation env bs (blocks.map essence) dest i (essence state) (runCount bs blocks i state) =
      encodeOperation env bs blocks dest i state (runCount bs blocks i state) := by
  unfold encodeOperation
  rw [essence_matchType]
  cases hty : state.matchType with
  | relocate => simp only [encodeRelocate, relocateDistance_essence hty]
  | partialMatch => simp only [encodePartial, byteDistance_essence hty, deltas_essence hs hty]
  | _ => rfl

theorem encodeLoop_essence (env : Env) (bs : ℕ) (blocks : List BlockState) (dest : Bytes) (fuel i : ℕ) :
    encodeLoop env bs (blocks.map essence) dest fuel i = encodeLoop env bs blocks dest fuel i := by
  induction fuel generalizing i with
  | zero => rfl
  | succ fuel ih =>
    unfold encodeLoop
    rw [List.getElem?_map]
    cases hs : blocks[i]? with
    | none => rfl
    | some state =>
      simp only [Option.map_some, encodeRun, runCount_essence, encodeOperation_essence env dest hs, ih]

theorem encode_congr {t t' : Tracker} (h : t.blocks.map essence = t'.blocks.map essence) (env : Env) (bs : ℕ)
    (dest : Bytes) : encode env bs t dest = encode env bs t' dest := by
  have hcount : t.count = t'.count := by
    have hlength := congrArg List.length h
    rwa [List.length_map, List.length_map] at hlength
  rw [encode, encode, ← encodeLoop_essence, h, encodeLoop_essence, hcount]

end Essence

end Encoder

/-! ### The log of a run -/

section Reading
variable {J : Comparison} {i : ℕ} {b : BlockState}

theorem matchLogRow_plain (K : Kernels) (bs : ℕ) (src dest : Bytes) (i : ℕ) (b : BlockState) :
    matchLogRow K bs src dest i b ≠ [] ∧ ∀ f ∈ matchLogRow K bs src dest i b, Csv.Plain f := by
  cases hty : b.matchType <;> simp [matchLogRow, hty]

theorem int64_position {k n : ℕ} {image : Bytes} (himage : image.length < 2 ^ 63) (h : k * n + n ≤ image.length) :
    int64 (k * n : ℕ) = (k * n : ℕ) := int64_natCast (by omega)

theorem recount_eq (K : Kernels) {p : ℕ} (hsrc : J.src.length < 2 ^ 63) (hin : p + J.bs ≤ J.src.length)
    (hi : i < J.destBlocks) :
    recount K J.bs J.src J.dest p (i * J.bs : ℕ) = matchCount (window J.src p J.bs) (J.destBlock i) := by
  have hfits : u64 (p + J.bs) = p + J.bs := u64_of_lt (by omega)
  have hlen : (window J.src p J.bs).length = (J.destBlock i).length := by
    rw [length_window hin, J.length_destBlock hi]
  rw [recount, Int.toNat_natCast, Int.toNat_natCast, hfits, if_pos ⟨Int.natCast_nonneg p, hin⟩]
  exact K.countMatches_eq _ _ hlen

/-- What is read back of a row is true, and exact. -/
theorem readLogRow_matchLogRow (K : Kernels) (hsrc : J.src.length < 2 ^ 63) (hdest : J.dest.length < 2 ^ 63)
    (hi : i < J.destBlocks) (h : Recorded J i b) :
    readLogRow (matchLogRow K J.bs J.src J.dest i b) = some (logRowOf J i b) := by
  have hblock : i * J.bs + J.bs ≤ J.dest.length := by
    rw [← Nat.succ_mul]
    exact (Nat.mul_le_mul_right _ hi).trans (Nat.div_mul_le_self _ _)
  have hdistance : ∀ p : ℕ, p + J.bs ≤ J.src.length →
      int64 ((p : ℤ) - (i * J.bs : ℕ)) = (p : ℤ) - (i * J.bs : ℕ) :=
    fun p hp => int64_of_range (by omega) (by omega)
  have hwhole : b.srcIndex < J.srcBlocks → b.srcIndex * J.bs + J.bs ≤ J.src.length := by
    intro hlt
    rw [← Nat.succ_mul]
    exact Comparison.block_le hlt
  cases hty : b.matchType with
  | identity =>
    simp only [Recorded, hty] at h
    have hsrcBlock := hwhole (h.1 ▸ h.2.1)
    simp only [matchLogRow, logRowOf, hty, readLogRow, int64_position hdest hblock,
      int64_position hsrc hsrcBlock, hdistance _ hsrcBlock]
    simp
  | relocate =>
    simp only [Recorded, hty] at h
    have hsrcBlock := hwhole h.2.1
    simp only [matchLogRow, logRowOf, hty, readLogRow, int64_position hdest hblock,
      int64_position hsrc hsrcBlock, hdistance _ hsrcBlock]
    simp
  | partialMatch =>
    simp only [Recorded, hty] at h
    obtain ⟨hoffset, -, p, hp, ⟨hin, -⟩, -⟩ := h
    have hsrcPos : int64 (b.srcIndex * J.bs : ℕ) = (b.srcIndex * J.bs : ℕ) := by
      apply int64_natCast
      have hle : ((b.srcIndex * J.bs : ℕ) : ℤ) ≤ p := by
        rw [hp, Nat.cast_mul]
        omega
      omega
    have hpos : int64 ((b.srcIndex * J.bs : ℕ) + b.byteOffset) = p := by
      rw [Nat.cast_mul, ← hp]
      exact int64_natCast (by omega)
    have hwindow : Encoder.windowPos J.bs b = p := hp.symm
    simp only [matchLogRow, logRowOf, hty, readLogRow, int64_position hdest hblock, hsrcPos, hpos,
      hdistance p hin, recount_eq K hsrc hin hi, hwindow]
    simp
  | _ =>
    simp only [matchLogRow, logRowOf, hty, readLogRow]
    simp

theorem mapM_mapIdx {α β γ : Type} {f : ℕ → α → β} {read : β → Option γ} {g : ℕ → α → γ} {l : List α}
    (h : ∀ i a, l[i]? = some a → read (f i a) = some (g i a)) :
    (l.mapIdx f).mapM read = some (l.mapIdx g) := by
  induction l generalizing f g with
  | nil => rfl
  | cons a l ih =>
    have hfirst := h 0 a rfl
    have hrest := ih (f := fun i => f (i + 1)) (g := fun i => g (i + 1)) fun i b hb => h (i + 1) b hb
    rw [List.mapIdx_cons, List.mapIdx_cons, List.mapM_cons, hfirst, hrest]
    rfl

theorem readMatchLog_matchLog (K : Kernels) {t : Tracker} (hsrc : J.src.length < 2 ^ 63)
    (hdest : J.dest.length < 2 ^ 63) (hcount : t.count = J.destBlocks)
    (h : ∀ i b, t.get i = some b → Recorded J i b) :
    readMatchLog (matchLog K J.bs J.src J.dest t) = some (t.blocks.mapIdx (logRowOf J)) := by
  have hplain : ∀ row ∈ matchLogColumns :: t.blocks.mapIdx (matchLogRow K J.bs J.src J.dest),
      row ≠ [] ∧ ∀ f ∈ row, Csv.Plain f := by
    rw [List.forall_mem_cons]
    refine ⟨by decide, ?_⟩
    intro row hrow
    obtain ⟨i, hi, rfl⟩ := List.mem_mapIdx.mp hrow
    exact matchLogRow_plain _ _ _ _ _ _
  rw [readMatchLog, matchLog, Csv.rows_text hplain]
  dsimp only
  rw [if_pos rfl]
  apply mapM_mapIdx
  intro i b hb
  exact readLogRow_matchLogRow K hsrc hdest (hcount ▸ Tracker.get_lt hb) (h i b hb)

/-- The state of a row is, for the encoder, the state that was logged. -/
theorem essence_state (h : Recorded J i b) :
    Encoder.essence ((logRowOf J i b).state J.bs J.src J.dest) = Encoder.essence b := by
  cases hty : b.matchType with
  | partialMatch =>
    simp only [Recorded, hty] at h
    obtain ⟨-, -, p, hp, -, hdelta⟩ := h
    simp only [Encoder.essence, LogRow.state, logRowOf, hty, Option.getD_some, if_true, ← hp,
      Int.toNat_natCast, hdelta]
    rfl
  | _ => simp [Encoder.essence, LogRow.state, logRowOf, hty]

theorem logRowOf_matchBytes (h : Recorded J i b) (hty : (logRowOf J i b).matchType = .partialMatch) :
    ∃ n, (logRowOf J i b).matchBytes = some n ∧ J.threshold ≤ n := by
  cases hb : b.matchType with
  | partialMatch =>
    simp only [Recorded, hb] at h
    obtain ⟨-, -, p, hp, ⟨-, haccepts⟩, -⟩ := h
    have hwindow : Encoder.windowPos J.bs b = p := hp.symm
    refine ⟨matchCount (window J.src p J.bs) (J.destBlock i), ?_, haccepts⟩
    simp only [logRowOf, hb, hwindow, Int.toNat_natCast]
  | _ => simp [logRowOf, hb] at hty

end Reading

/-- From the log of a run that succeeds, with the images, the patch can be made again. Its rows are
exact: positions do not wrap, and the bytes that agree are counted, of which there are as many as the
threshold asks for. -/
theorem matchLog_reproduces (env : Stages.Env) (K K' : Kernels) {opts : DiffOptions} {src dest : Bytes}
    {ctrl : StageController} {w : World} (hsrc : src.length < 2 ^ 63) (hdest : dest.length < 2 ^ 63)
    (hcreate : controllerCreate opts (src.length / opts.blockSize) (dest.length / opts.blockSize) = .ok ctrl)
    (index : FsmapIndex ctrl.blockSize src.length (dest.length / ctrl.blockSize))
    (hrun : controllerRun env K ctrl src dest index { tracker := ctrl.tracker } = .ok () w) :
    ∃ rows, readMatchLog (matchLog K' opts.blockSize src dest w.tracker) = some rows ∧
      rows = w.tracker.blocks.mapIdx (logRowOf (ctrl.comparison src dest)) ∧
      (∀ row ∈ rows, row.matchType = .partialMatch →
        ∃ n, row.matchBytes = some n ∧ ctrl.thresholdCount ≤ n) ∧
      ∀ encoderEnv t, t.blocks = rows.map (LogRow.state opts.blockSize src dest) →
        Encoder.encode encoderEnv opts.blockSize t dest =
          Encoder.encode encoderEnv opts.blockSize w.tracker dest := by
  obtain ⟨hbs, hfor⟩ := controllerCreate_for hcreate
  obtain ⟨hcount, hrec⟩ := (controllerRun_recorded hfor index).of_ok hrun
  rw [← hbs]
  refine ⟨_, readMatchLog_matchLog (J := ctrl.comparison src dest) K' hsrc hdest hcount hrec, rfl, ?_, ?_⟩
  · intro row hrow hty
    obtain ⟨i, hi, rfl⟩ := List.mem_mapIdx.mp hrow
    exact logRowOf_matchBytes (hrec i _ (List.getElem?_eq_getElem hi)) hty
  · intro encoderEnv t ht
    apply Encoder.encode_congr
    apply List.ext_getElem?
    intro i
    rw [ht, List.map_map, List.getElem?_map, List.getElem?_mapIdx, List.getElem?_map]
    cases hb : w.tracker.blocks[i]? with
    | none => rfl
    | some b => exact congrArg some (essence_state (hrec i b hb))

/-- The log of an image that has a block of every kind but `ONE` and `IDENTITY`. -/
theorem matchLog_reproduces_patchwork :
    ∃ w rows s,
      readMatchLog (matchLog scalarKernels 32 patchworkSource patchworkImage w) = some rows ∧
      (∀ t, t.blocks = rows.map (LogRow.state 32 patchworkSource patchworkImage) →
        Encoder.encode Encoder.faultless 32 t patchworkImage {} = .ok () s) ∧
      patchworkPatch = Encoder.patchFile 5 (patchworkImage.length / 32) s := by
  obtain ⟨-, -, -, ctrl, w, s, hcreate, hrun, hs, hpatch⟩ := diffFiles_steps diffFiles_patchwork
  obtain ⟨rows, hrows, -, -, hencode⟩ := matchLog_reproduces _ _ scalarKernels (by decide +kernel)
    (by decide +kernel) hcreate _ hrun
  have hbs : DiffOptions.blockSize { blockSizeLog2 := 5, searchRadius := 2 } = 32 := rfl
  rw [hbs] at hrows hencode hs hpatch
  refine ⟨w.tracker, rows, s, hrows, ?_, hpatch⟩
  intro t ht
  exact (congrFun (hencode Encoder.faultless t ht) {}).trans hs

end Fsdiff
