import Fsdiff.Encoding.Codec
import Fsdiff.Patch.Faults
import Fsdiff.Patch.Grammar
import Fsdiff.Patch.Varints

/-! What a patch means, whoever wrote it. The decoder takes more spellings than the format
has: widths that are reserved, operations of no blocks, numbers with needless bytes, runs
that pass the end of their block. Each of them is read as some operations of the format, and
which ones does not depend on the source. -/
namespace Fsdiff.Patch
open ByteString Exec Format

/-! ### Reading fields -/

/-- In every state the same: `x` stops, or it returns one value, with `P`, and writes nothing. -/
def Settled {α : Type} (x : Dec α) (P : α → Prop) : Prop :=
  (∀ s, Ends (x s) (fun _ _ => False) (fun _ _ => True)) ∨
    ∃ a, P a ∧ ∀ s, Ends (x s) (fun a' s' => a' = a ∧ s'.written = s.written) (fun _ _ => False)

section Settled
variable {α β : Type} {x y : Dec α} {P : α → Prop} {Q : β → Prop}

theorem settled_pure {a : α} (h : P a) : Settled (pure a) P := .inr ⟨a, h, fun _ => ⟨rfl, rfl⟩⟩

theorem settled_fail (err : FsdError) : Settled (fail err) P := .inl fun _ => trivial

theorem Settled.bind {f : α → Dec β} (hx : Settled x P) (hf : ∀ a, P a → Settled (f a) Q) :
    Settled (x >>= f) Q := by
  rcases hx with hstop | ⟨a, ha, hx⟩
  · exact .inl fun s => (hstop s).bind fun _ _ h => h.elim
  rcases hf a ha with hstop | ⟨b, hb, hy⟩
  · left
    intro s
    apply (hx s).of_total.bind
    rintro _ s' ⟨rfl, -⟩
    exact hstop s'
  · refine .inr ⟨b, hb, fun s => ?_⟩
    apply (hx s).bind
    rintro _ s' ⟨rfl, hw⟩
    apply (hy s').imp
    rintro b' s'' ⟨hb', hw'⟩
    exact ⟨hb', hw'.trans hw⟩

theorem Settled.ite {p : Prop} {_ : Decidable p} (hx : p → Settled x P) (hy : ¬ p → Settled y P) :
    Settled (if p then x else y) P := by
  split_ifs with hp
  · exact hx hp
  · exact hy hp

/-- What is known of one run is known of the value. -/
theorem Settled.of_run (hx : Settled x (fun _ => True)) (h : ∀ a s', x {} = .ok a s' → P a) :
    Settled x P := by
  rcases hx with hstop | ⟨a, -, hx⟩
  · exact .inl hstop
  · obtain ⟨a', s', hrun, rfl, -⟩ := (hx {}).exists_ok
    exact .inr ⟨a', h a' s' hrun, hx⟩

end Settled

section Fields
variable {patch : Bytes} {L : Layout patch} {r : Region}

theorem settled_readByte (hr : r.Inside L) {pos : ℕ} (hlo : r.lo ≤ pos) (hhi : pos < r.hi) :
    Settled (readByte L r pos) (fun _ => True) := by
  have hp : pos < patch.length := (hhi.trans_le hr.2).trans_le (L.hi_le _)
  refine .inr ⟨patch[pos], trivial, fun s => (readByte_ends hr hlo hhi).imp ?_⟩
  rintro b s' ⟨hb, rfl⟩
  rw [List.getElem?_eq_getElem hp] at hb
  exact ⟨(Option.some.inj hb).symm, by simp⟩

theorem settled_readLe (k : ℕ) {ptr : ℕ} (hp : headerSize ≤ ptr) :
    Settled (readLe L k ptr) (fun _ => True) := by
  by_cases h : L.opEnd < ptr + k
  · refine .inl fun s => (readLe_ends k hp).mono ?_ (fun _ _ _ => trivial)
    rintro _ s' ⟨-, hle, -⟩
    omega
  · refine .inr ⟨(leNat (window patch ptr k), ptr + k), trivial, fun s => (readLe_ends k hp).mono ?_ ?_⟩
    · rintro v s' ⟨hv, -, rfl⟩
      exact ⟨hv, by simp⟩
    · rintro _ s' ⟨-, hlt, -⟩
      exact h hlt

theorem Settled.moves {α : Type} {ptr : ℕ} {x : Dec (α × ℕ)} {P : α → Prop}
    (hx : Settled x (fun _ => True)) (hm : ∀ s, Moves L ptr s x P) :
    Settled x (fun v => ptr ≤ v.2 ∧ v.2 ≤ L.opEnd ∧ P v.1) := by
  apply hx.of_run
  intro v s' hrun
  obtain ⟨hge, hle, hp, -⟩ := Ends.of_ok (hm {}) hrun
  exact ⟨hge, hle, hp⟩

theorem settled_readCount (b : UInt8) {p : ℕ} (hp : headerSize ≤ p) (hle : p ≤ L.opEnd) :
    Settled (readCount L b p) (fun v => p ≤ v.2 ∧ v.2 ≤ L.opEnd ∧ v.1 < 2 ^ 32) := by
  refine Settled.moves ?_ fun s => readCount_moves b hp hle
  unfold readCount
  split
  · exact (settled_readLe 1 hp).bind fun _ _ => settled_pure trivial
  · exact (settled_readLe 2 hp).bind fun _ _ => settled_pure trivial
  · exact settled_readLe 4 hp
  · exact settled_pure trivial

theorem settled_readCopyAddCount (b : UInt8) {p : ℕ} (hp : headerSize ≤ p) (hle : p ≤ L.opEnd) :
    Settled (readCopyAddCount L b p) (fun v => p ≤ v.2 ∧ v.2 ≤ L.opEnd ∧ v.1 < 2 ^ 32) := by
  refine Settled.moves ?_ fun s => readCopyAddCount_moves b hp hle
  unfold readCopyAddCount
  split
  · exact (settled_readLe 1 hp).bind fun _ _ => settled_pure trivial
  · exact (settled_readLe 2 hp).bind fun _ _ => settled_pure trivial
  · exact settled_readLe 4 hp
  · exact settled_pure trivial

theorem settled_readRelocateOffset (b : UInt8) {p : ℕ} (hp : headerSize ≤ p) (hle : p ≤ L.opEnd) :
    Settled (readRelocateOffset L b p) (fun v => p ≤ v.2 ∧ v.2 ≤ L.opEnd ∧ |v.1| ≤ 2 ^ 32 - 1) := by
  refine Settled.moves ?_ fun s => readRelocateOffset_moves b hp hle
  have hdistance : Settled (readRelocateDistance L b p) (fun _ => True) := by
    unfold readRelocateDistance
    split
    · exact settled_readLe 1 hp
    · exact settled_readLe 2 hp
    · exact settled_readLe 4 hp
    · exact settled_pure trivial
  exact hdistance.bind fun _ _ => settled_pure trivial

theorem settled_readByteOffset (b : UInt8) {p : ℕ} (hp : headerSize ≤ p) (hle : p ≤ L.opEnd) :
    Settled (readByteOffset L b p)
      (fun v => p ≤ v.2 ∧ v.2 ≤ L.opEnd ∧ -2 ^ 31 ≤ v.1 ∧ v.1 < 2 ^ 31) := by
  refine Settled.moves ?_ fun s => readByteOffset_moves b hp hle
  unfold readByteOffset
  split
  · exact (settled_readLe 2 hp).bind fun _ _ => settled_pure trivial
  · exact (settled_readLe 3 hp).bind fun _ _ => settled_pure trivial
  · exact (settled_readLe 4 hp).bind fun _ _ => settled_pure trivial
  · exact settled_pure trivial

theorem settled_readVarintLoop (hr : r.Inside L) (left ptr value shift : ℕ) (hlo : r.lo ≤ ptr)
    (hleft : ptr + left = r.hi) :
    Settled (readVarintLoop L r left ptr value shift) (fun _ => True) := by
  induction left generalizing ptr value shift with
  | zero => exact settled_fail _
  | succ left ih =>
    apply (settled_readByte hr hlo (by omega)).bind
    intro b _
    refine Settled.ite (fun _ => settled_pure trivial) fun _ => ?_
    refine Settled.ite (fun _ => settled_fail _) fun _ => ?_
    exact ih (ptr + 1) _ (shift + 7) (by omega) (by omega)

/-- However a number is spelled, its shortest spelling takes no more bytes, nor does that of
a smaller number. -/
theorem settled_readVarint (hr : r.Inside L) {ptr : ℕ} (hlo : r.lo ≤ ptr) (hhi : ptr ≤ r.hi) :
    Settled (readVarint L r ptr)
      (fun v => v.2 ≤ r.hi ∧ ∀ n ≤ v.1, ptr + (varint n).length ≤ v.2) := by
  apply (settled_readVarintLoop hr _ ptr 0 0 hlo (by omega)).of_run
  intro v s' hrun
  change readVarint L r ptr {} = _ at hrun
  rcases readVarint_cases hr hlo hhi {} with ⟨p, hp, hvar, -, s₁, hok⟩ | ⟨_, -, -, -, s₁, herr⟩ |
    ⟨-, -, s₁, herr⟩
  · rw [hok] at hrun
    cases hrun
    have hle := hp.length_le
    rw [length_rest hr hhi] at hle
    refine ⟨by dsimp only; omega, ?_⟩
    intro n hn
    obtain ⟨k, hk⟩ : ∃ k, p.length = k + 1 := by
      cases p with
      | nil => exact hvar.elim
      | cons b p => exact ⟨_, rfl⟩
    have hvalue := varintValue_lt p
    have hmod : u64 (varintValue p) ≤ varintValue p := Nat.mod_le _ _
    rw [hk] at hvalue
    have := length_varint_le_of_lt (n := n) (k := k) (by dsimp only at hn; omega)
    dsimp only
    omega
  · rw [herr] at hrun
    cases hrun
  · rw [herr] at hrun
    cases hrun

end Fields

/-! ### Diff data -/

section Diffs
variable {patch : Bytes} {L : Layout patch} {r : Region}

theorem sparseLoop_of_read (hr : r.Inside L) {fuel cursor outPos addLen next : ℕ} {buf : Bytes} {s : Output}
    (hbuf : buf.length = L.blockSize) (hopen : outPos < L.blockSize) (hlo : r.lo ≤ next)
    (hend : next + addLen ≤ r.hi)
    (hread : ∀ s, Ends (readVarint L r cursor s)
      (fun v s' => v = (addLen, next) ∧ s'.written = s.written) (fun _ _ => False))
    {Q : SparseState → Output → Prop} {E : Stop → Output → Prop}
    (h : ∀ s', s'.written = s.written → Ends (sparseTail L r fuel addLen
      ⟨next + addLen, min (outPos + addLen) L.blockSize,
        addAt buf outPos ((window patch next addLen).take (L.blockSize - outPos))⟩ s') Q E) :
    Ends (sparseLoop L r (fuel + 1) ⟨cursor, outPos, buf⟩ s) Q E := by
  refine ends_ite (fun _ => ?_) fun hfull => absurd hopen hfull
  apply (hread s).of_total.bind
  rintro _ s₁ ⟨rfl, hw₁⟩
  refine ends_ite (fun hshort => absurd hshort (by omega)) fun _ => ?_
  have hrun := addRun_adds (t := ⟨next, outPos, buf⟩) (s := s₁) hr addLen hbuf hlo hend hopen.le
  apply hrun.of_total.bind
  rintro _ _ ⟨rfl, rfl⟩
  exact h _ (by simpa using hw₁)

theorem sparseTail_of_read {fuel addLen copyLen next : ℕ} {t : SparseState} {s : Output}
    (hopen : t.outPos < L.blockSize)
    (hread : ∀ s, Ends (readVarint L r t.cursor s)
      (fun v s' => v = (copyLen, next) ∧ s'.written = s.written) (fun _ _ => False))
    {Q : SparseState → Output → Prop} {E : Stop → Output → Prop}
    (hbad : ¬ (0 < addLen + copyLen ∧ t.outPos + copyLen ≤ L.blockSize) → ∀ e s', E e s')
    (h : 0 < addLen + copyLen → t.outPos + copyLen ≤ L.blockSize → ∀ s', s'.written = s.written →
      Ends (sparseLoop L r fuel ⟨next, t.outPos + copyLen, t.buf⟩ s') Q E) :
    Ends (sparseTail L r fuel addLen t s) Q E := by
  refine ends_ite (fun hfull => absurd hopen (not_lt.mpr hfull)) fun _ => ?_
  apply (hread s).of_total.bind
  rintro _ s₁ ⟨rfl, hw₁⟩
  refine ends_ite (fun hlong => hbad (by omega) _ _) fun hfits => ?_
  refine ends_ite (fun hempty => hbad (by omega) _ _) fun hmoves => ?_
  exact h (by omega) (by omega) s₁ hw₁

/-- From `outPos` on, the data at `cursor` are refused whatever the buffer holds. -/
def SparseRefused (L : Layout patch) (r : Region) (fuel cursor outPos : ℕ) : Prop :=
  ∀ buf : Bytes, buf.length = L.blockSize → ∀ s, Ends (sparseLoop L r fuel ⟨cursor, outPos, buf⟩ s)
    (fun _ _ => False) (fun _ _ => True)

/-- They are read as `runs`, up to `next`, whatever the buffer holds. -/
structure SparseRead (L : Layout patch) (r : Region) (fuel cursor outPos : ℕ) (runs : Runs)
    (next : ℕ) : Prop where
  tiles : Tiles (L.blockSize - outPos) runs
  length_le : cursor + (runs.flatMap runBytes).length ≤ next
  next_le : next ≤ r.hi
  ends : ∀ buf : Bytes, buf.length = L.blockSize → ∀ s, Ends (sparseLoop L r fuel ⟨cursor, outPos, buf⟩ s)
    (fun t s' => t = ⟨next, L.blockSize, buf.take outPos ++ applyRuns (buf.drop outPos) runs⟩ ∧
      s'.written = s.written) (fun _ _ => False)

theorem sparseRead_full {fuel cursor : ℕ} (hhi : cursor ≤ r.hi) :
    SparseRead L r fuel cursor L.blockSize [] cursor := by
  refine ⟨by simp [Tiles], by simp, hhi, ?_⟩
  intro buf hbuf s
  have hdone : sparseLoop L r fuel ⟨cursor, L.blockSize, buf⟩ = pure ⟨cursor, L.blockSize, buf⟩ := by
    cases fuel <;> rw [sparseLoop, if_neg (lt_irrefl _)]
  rw [hdone]
  refine ⟨?_, rfl⟩
  simp [applyRuns, ← hbuf]

/-- A copy-add run that reaches the end of the block is cut there. -/
theorem sparseRead_last (hr : r.Inside L) {fuel cursor outPos addLen next : ℕ} (hopen : outPos < L.blockSize)
    (hlo : r.lo ≤ next) (hend : next + addLen ≤ r.hi) (hfull : L.blockSize ≤ outPos + addLen)
    (hshort : ∀ n ≤ addLen, cursor + (varint n).length ≤ next)
    (hread : ∀ s, Ends (readVarint L r cursor s)
      (fun v s' => v = (addLen, next) ∧ s'.written = s.written) (fun _ _ => False)) :
    SparseRead L r (fuel + 1) cursor outPos
      [((window patch next addLen).take (L.blockSize - outPos), none)] (next + addLen) := by
  have hwin : (window patch next addLen).length = addLen :=
    length_window (hend.trans (hr.2.trans (L.hi_le _)))
  have hlen : ((window patch next addLen).take (L.blockSize - outPos)).length = L.blockSize - outPos := by
    rw [List.length_take]
    omega
  refine ⟨⟨by omega, hlen, rfl⟩, ?_, hend, ?_⟩
  · have := hshort (L.blockSize - outPos) (by omega)
    simp only [List.flatMap_cons, List.flatMap_nil, List.append_nil, runBytes, Option.map_none,
      Option.getD_none, List.length_append, hlen]
    omega
  · intro buf hbuf s
    apply sparseLoop_of_read hr hbuf hopen hlo hend hread
    intro s' hw
    refine ends_ite (fun _ => ?_) fun h => absurd (le_min hfull le_rfl) h
    refine ⟨?_, hw⟩
    have hfills : addAt buf outPos
        (((window patch next addLen).take (L.blockSize - outPos)).take (buf.length - outPos)) = _ :=
      addAt_fills (by omega) (by omega)
    rw [List.take_of_length_le (by omega)] at hfills
    rw [hfills, min_eq_right hfull]

/-- A pair of runs in front of the rest of the block. -/
theorem SparseRead.cons (hr : r.Inside L) {fuel cursor outPos addLen next copyLen next' last : ℕ} {rest : Runs}
    (hlo : r.lo ≤ next) (hend : next + addLen ≤ r.hi) (hopen : outPos + addLen < L.blockSize)
    (hshort : cursor + (varint addLen).length ≤ next)
    (hread : ∀ s, Ends (readVarint L r cursor s)
      (fun v s' => v = (addLen, next) ∧ s'.written = s.written) (fun _ _ => False))
    (hshort' : next + addLen + (varint copyLen).length ≤ next')
    (hread' : ∀ s, Ends (readVarint L r (next + addLen) s)
      (fun v s' => v = (copyLen, next') ∧ s'.written = s.written) (fun _ _ => False))
    (hmoves : 0 < addLen + copyLen) (hfits : outPos + addLen + copyLen ≤ L.blockSize)
    (h : SparseRead L r fuel next' (outPos + addLen + copyLen) rest last) :
    SparseRead L r (fuel + 1) cursor outPos ((window patch next addLen, some copyLen) :: rest) last := by
  have hwin : (window patch next addLen).length = addLen :=
    length_window (hend.trans (hr.2.trans (L.hi_le _)))
  refine ⟨⟨by omega, by omega, by omega, ?_⟩, ?_, h.next_le, ?_⟩
  · have hleft : L.blockSize - outPos - ((window patch next addLen).length + copyLen) =
        L.blockSize - (outPos + addLen + copyLen) := by omega
    rw [hleft]
    exact h.tiles
  · have := h.length_le
    simp only [List.flatMap_cons, runBytes, Option.map_some, Option.getD_some, List.length_append, hwin]
    omega
  · intro buf hbuf s
    apply sparseLoop_of_read hr hbuf (by omega) hlo hend hread
    intro s₁ hw₁
    rw [min_eq_left hopen.le, List.take_of_length_le (by omega)]
    apply sparseTail_of_read hopen hread' (fun hbad => absurd ⟨hmoves, hfits⟩ hbad)
    intro _ _ s₂ hw₂
    apply (h.ends _ (by simpa using hbuf) s₂).imp
    rintro _ s₃ ⟨rfl, hw₃⟩
    have happly : (addAt buf outPos (window patch next addLen)).take
        (outPos + (window patch next addLen).length + copyLen) ++ applyRuns
          ((addAt buf outPos (window patch next addLen)).drop
            (outPos + (window patch next addLen).length + copyLen)) rest = _ :=
      applyRuns_after_add (by omega)
    rw [hwin] at happly
    rw [happly]
    exact ⟨rfl, hw₃.trans (hw₂.trans hw₁)⟩

/-- Sparse data are refused or read as runs that tile the block, and which it is does not
depend on what they are added to. -/
theorem sparse_refused_or_read (hr : r.Inside L) (fuel : ℕ) {cursor outPos : ℕ} (hlo : r.lo ≤ cursor)
    (hhi : cursor ≤ r.hi) (hout : outPos ≤ L.blockSize) :
    SparseRefused L r fuel cursor outPos ∨ ∃ runs next, SparseRead L r fuel cursor outPos runs next := by
  induction fuel generalizing cursor outPos with
  | zero =>
    by_cases hopen : outPos < L.blockSize
    · exact .inl fun buf _ s => ends_ite (fun _ => trivial) fun h => absurd hopen h
    · obtain rfl : outPos = L.blockSize := by omega
      exact .inr ⟨[], cursor, sparseRead_full hhi⟩
  | succ fuel ih =>
    by_cases hopen : outPos < L.blockSize
    swap
    · obtain rfl : outPos = L.blockSize := by omega
      exact .inr ⟨[], cursor, sparseRead_full hhi⟩
    rcases settled_readVarint hr hlo hhi with hstop | ⟨⟨addLen, next⟩, ⟨hnext, hshort⟩, hread⟩
    · left
      intro buf _ s
      refine ends_ite (fun _ => ?_) fun h => absurd hopen h
      exact (hstop s).bind fun _ _ h => h.elim
    dsimp only at hnext hshort
    have hle := hshort 0 (Nat.zero_le _)
    by_cases hend : next + addLen ≤ r.hi
    swap
    · left
      intro buf _ s
      refine ends_ite (fun _ => ?_) fun h => absurd hopen h
      apply (hread s).of_total.bind
      rintro _ s₁ ⟨rfl, -⟩
      exact ends_ite (fun _ => trivial) fun h => absurd h (by omega)
    by_cases hfull : L.blockSize ≤ outPos + addLen
    · exact .inr ⟨_, _, sparseRead_last hr hopen (by omega) hend hfull hshort hread⟩
    rw [not_le] at hfull
    have hle₁ : r.lo ≤ next + addLen := by omega
    rcases settled_readVarint hr hle₁ hend with
      hstop | ⟨⟨copyLen, next'⟩, ⟨hnext', hshort'⟩, hread'⟩
    · left
      intro buf hbuf s
      apply sparseLoop_of_read hr hbuf hopen (by omega) hend hread
      intro s₁ _
      rw [min_eq_left hfull.le]
      refine ends_ite (fun h => absurd h (not_le.mpr hfull)) fun _ => ?_
      exact (hstop s₁).bind fun _ _ h => h.elim
    dsimp only at hnext' hshort'
    have hle' := hshort' 0 (Nat.zero_le _)
    have hrefuse : (0 < addLen + copyLen → outPos + addLen + copyLen ≤ L.blockSize →
        SparseRefused L r fuel next' (outPos + addLen + copyLen)) →
        SparseRefused L r (fuel + 1) cursor outPos := by
      intro hrest buf hbuf s
      apply sparseLoop_of_read hr hbuf hopen (by omega) hend hread
      intro s₁ _
      rw [min_eq_left hfull.le]
      apply sparseTail_of_read hfull hread' (fun _ _ _ => trivial)
      intro hmoves hfits s₂ _
      exact hrest hmoves hfits _ (by simpa using hbuf) s₂
    by_cases hmoves : 0 < addLen + copyLen
    swap
    · exact .inl (hrefuse fun h => absurd h hmoves)
    by_cases hfits : outPos + addLen + copyLen ≤ L.blockSize
    swap
    · exact .inl (hrefuse fun _ h => absurd h hfits)
    rcases ih (by omega) hnext' hfits with hrest | ⟨rest, last, hrest⟩
    · exact .inl (hrefuse fun _ _ => hrest)
    · exact .inr ⟨_, last, hrest.cons hr (by omega) hend hfull (hshort _ le_rfl) hread (hshort' _ le_rfl)
        hread' hmoves hfits⟩

end Diffs

/-! ### Blocks of a `COPY_ADD` -/

section CopyAdd
variable {src patch : Bytes} {L : Layout patch} {r : Region} {s : Output} {b count : ℕ} {byteOffset : ℤ}

/-- A position that wraps is negative, so one that is not is exact. -/
theorem copyAddPos_exact {i : ℕ} (hb : b + i < L.destBlocks) (hl : -2 ^ 31 ≤ byteOffset)
    (hu : byteOffset < 2 ^ 31) (hnn : 0 ≤ copyAddPos L b i byteOffset) :
    copyAddPos L b i byteOffset = b * L.blockSize + byteOffset + i * L.blockSize := by
  have hlt := L.block_lt hb
  have hsum : (((b + i) * L.blockSize : ℕ) : ℤ) + byteOffset =
      b * L.blockSize + byteOffset + i * L.blockSize := by
    push_cast
    ring
  by_cases hfits : (((b + i) * L.blockSize : ℕ) : ℤ) + byteOffset < 2 ^ 63
  · rw [copyAddPos_eq L hb hl hfits, hsum]
  · have hwraps : (((b + i) * L.blockSize : ℕ) : ℤ) + byteOffset =
        ((((b + i) * L.blockSize : ℕ) : ℤ) + byteOffset - 2 ^ 64) + 2 ^ 64 := by ring
    rw [copyAddPos_def L hb, hwraps, int64_add_two_pow, int64_of_range (by omega) (by omega)] at hnn
    omega

/-- What a pass does with the source block. -/
def copyAddTail (m : Machine) (L : Layout patch) (r : Region) (diffFmt blk cursor : ℕ) (buf : Bytes) :
    Dec ℕ :=
  if diffFmt = 0 then do
    let buf ← denseBlock L r blk buf
    writeBlock m buf
    pure cursor
  else do
    let s ← sparseBlock L r cursor buf
    writeBlock m s.buf
    pure s.cursor

theorem copyAddBlock_of_fetch {diffFmt i cursor : ℕ} {Q : ℕ → Output → Prop} {E : Stop → Output → Prop}
    (hbad : ¬ InSource src (copyAddPos L b i byteOffset) L.blockSize → ∀ e s', E e s')
    (h : InSource src (copyAddPos L b i byteOffset) L.blockSize → ∀ s', s'.written = s.written →
      Ends (copyAddTail (reliable src) L r diffFmt i cursor
        (window src (copyAddPos L b i byteOffset).toNat L.blockSize) s') Q E) :
    Ends (copyAddBlock (reliable src) L r diffFmt b byteOffset i cursor s) Q E := by
  refine ends_ite (fun hneg => hbad (fun hin => absurd hin.1 (not_le.mpr hneg)) _ _) fun hnn => ?_
  refine ((fetchBlock_reliable (copyAddPos_end_lt L b i byteOffset)).weaken
    (fun e s' hout => hbad (fun hin => ?_) e s')).bind ?_
  · have := hin.2
    omega
  · rintro _ s' ⟨hin, rfl, hg⟩
    refine h ⟨not_lt.mp hnn, by omega⟩ s' ?_
    rw [hg.written, List.append_nil]

theorem ends_trivial {α : Type} (x : EStateM.Result Stop Output α) :
    Ends x (fun _ _ => True) (fun _ _ => True) := by
  cases x <;> trivial

theorem denseBlock_needs {blk : ℕ} (buf : Bytes) (hlt : blk * L.blockSize < 2 ^ 64) :
    Ends (denseBlock L r blk buf s) (fun _ _ => (blk + 1) * L.blockSize ≤ r.hi - r.lo)
      (fun _ _ => True) := by
  have hb := L.blockSize_ge
  rw [denseBlock, u64_of_lt hlt, add_mul, one_mul]
  refine ends_ite (fun _ => trivial) fun hfits => ?_
  exact (ends_trivial _).imp fun _ _ _ => by omega

/-- No pass starts before the source, and a dense pass has its diff bytes. -/
theorem copyAdd_needs (diffFmt cursor : ℕ) (hcount : b + count ≤ L.destBlocks) :
    Ends (iterM (copyAddBlock (reliable src) L r diffFmt b byteOffset) count 0 cursor s)
      (fun _ _ => ∀ j < count, 0 ≤ copyAddPos L b j byteOffset ∧
        (diffFmt = 0 → (j + 1) * L.blockSize ≤ r.hi - r.lo)) (fun _ _ => True) := by
  refine Ends.iterM_zero (fun i _ _ => ∀ j < i, 0 ≤ copyAddPos L b j byteOffset ∧
    (diffFmt = 0 → (j + 1) * L.blockSize ≤ r.hi - r.lo)) count cursor s ?_ (by omega)
  intro i c s' hi hall
  have hlt := L.block_lt (b := b + i) (by omega)
  rw [add_mul] at hlt
  apply copyAddBlock_of_fetch (fun _ _ _ => trivial)
  intro hin s₁ _
  have hsnoc : (diffFmt = 0 → (i + 1) * L.blockSize ≤ r.hi - r.lo) → ∀ j < i + 1,
      0 ≤ copyAddPos L b j byteOffset ∧ (diffFmt = 0 → (j + 1) * L.blockSize ≤ r.hi - r.lo) := by
    intro hdense j hj
    rcases Nat.lt_succ_iff_lt_or_eq.mp hj with hj | rfl
    · exact hall j hj
    · exact ⟨hin.1, hdense⟩
  refine ends_ite (fun _ => ?_) fun hfmt => ?_
  · apply (denseBlock_needs _ (by omega)).bind
    intro buf s₂ hfits
    exact (ends_trivial _).imp fun _ _ _ => hsnoc fun _ => hfits
  · exact (ends_trivial _).imp fun _ _ _ => hsnoc fun h => absurd h hfmt

/-- Positions of the passes are exact. -/
def ExactPasses (L : Layout patch) (b count : ℕ) (byteOffset : ℤ) : Prop :=
  ∀ j < count, copyAddPos L b j byteOffset = b * L.blockSize + byteOffset + j * L.blockSize

theorem copyAdd_dense (hr : r.Inside L) (hcount : b + count ≤ L.destBlocks) (hone : 1 ≤ count)
    (hexact : ExactPasses L b count byteOffset) (hfits : count * L.blockSize ≤ r.hi - r.lo)
    (cursor : ℕ) :
    Ends (iterM (copyAddBlock (reliable src) L r 0 b byteOffset) count 0 cursor s)
      (fun _ s' => InSource src (b * L.blockSize + byteOffset) (count * L.blockSize) ∧
        s'.written = s.written ++ List.zipWith (· + ·)
          (window src (b * L.blockSize + byteOffset : ℤ).toNat (count * L.blockSize))
          (window patch r.lo (count * L.blockSize)))
      (fun _ _ => ¬ InSource src (b * L.blockSize + byteOffset) (count * L.blockSize)) := by
  have himg := L.image_lt
  have hcap := Nat.mul_le_mul_right L.blockSize (show count ≤ L.destBlocks by omega)
  have hin := (L.hi_le r.stream).trans' hr.2
  have hbs := L.blockSize_ge
  have hloop : Ends (iterM (copyAddBlock (reliable src) L r 0 b byteOffset) count 0 cursor s)
      (fun _ s' => (∀ j < count, InSource src (b * L.blockSize + byteOffset + j * L.blockSize) L.blockSize) ∧
        s'.written = s.written ++ List.zipWith (· + ·)
          (window src (b * L.blockSize + byteOffset : ℤ).toNat (count * L.blockSize))
          (window patch r.lo (count * L.blockSize)))
      (fun _ _ => ¬ InSource src (b * L.blockSize + byteOffset) (count * L.blockSize)) := by
    refine Ends.iterM_zero (fun i _ s' =>
      (∀ j < i, InSource src (b * L.blockSize + byteOffset + j * L.blockSize) L.blockSize) ∧
        s'.written = s.written ++ List.zipWith (· + ·)
          (window src (b * L.blockSize + byteOffset : ℤ).toNat (i * L.blockSize))
          (window patch r.lo (i * L.blockSize))) count cursor s ?_ (by simp)
    rintro i c s' hi ⟨hall, hw⟩
    have hmul := Nat.mul_le_mul_right L.blockSize (show i + 1 ≤ count from hi)
    rw [add_mul, one_mul] at hmul
    apply copyAddBlock_of_fetch
    · intro hout e s' hrange
      rw [hexact i hi] at hout
      exact hout ((inSource_blocks hone).mpr hrange i hi)
    intro hblk s₁ hw₁
    rw [hexact i hi] at hblk ⊢
    have hall' : ∀ j < i + 1, InSource src (b * L.blockSize + byteOffset + j * L.blockSize) L.blockSize := by
      intro j hj
      rcases Nat.lt_succ_iff_lt_or_eq.mp hj with hj | rfl
      · exact hall j hj
      · exact hblk
    have hrange := (inSource_blocks (by omega)).mp hall'
    have hsrc := hrange.length_window (Nat.mul_le_mul_right L.blockSize (Nat.le_succ i))
    have hbuf := hblk.length_window le_rfl
    have hdiff : (window patch (r.lo + i * L.blockSize) L.blockSize).length = L.blockSize :=
      length_window (by omega)
    apply ((denseBlock_adds hr hbuf (by omega) (by omega)).of_total).bind
    rintro _ _ ⟨rfl, rfl⟩
    apply ((writeBlock_reliable _).of_total).bind
    intro _ s₂ hg
    refine ⟨hall', ?_⟩
    rw [hg.written, Output.logReads_written, hw₁, hw, addAt_zero (by rw [hdiff, hbuf]),
      ← window_blocks hrange.1, add_mul, one_mul, ← window_append (n := i * L.blockSize),
      List.zipWith_append (by rw [hsrc, length_window (by omega)]), List.append_assoc]
  exact hloop.imp fun _ s' h => ⟨(inSource_blocks hone).mp h.1, h.2⟩

theorem copyAddBlock_sparse {diffFmt i cursor next : ℕ} {runs : Runs} (hfmt : diffFmt ≠ 0)
    (h : SparseRead L r (r.hi - cursor + 1) cursor 0 runs next) :
    Ends (copyAddBlock (reliable src) L r diffFmt b byteOffset i cursor s)
      (fun c s' => c = next ∧ InSource src (copyAddPos L b i byteOffset) L.blockSize ∧
        s'.written = s.written ++
          applyRuns (window src (copyAddPos L b i byteOffset).toNat L.blockSize) runs)
      (fun _ _ => ¬ InSource src (copyAddPos L b i byteOffset) L.blockSize) := by
  apply copyAddBlock_of_fetch (fun hout _ _ => hout)
  intro hin s₁ hw₁
  refine ends_ite (fun h0 => absurd h0 hfmt) fun _ => ?_
  apply (h.ends _ (hin.length_window le_rfl) s₁).of_total.bind
  rintro _ s₂ ⟨rfl, hw₂⟩
  apply ((writeBlock_reliable _).of_total).bind
  intro _ s₃ hg
  refine ⟨rfl, hin, ?_⟩
  rw [hg.written, hw₂, hw₁, List.take_zero, List.drop_zero, List.nil_append]

/-- The blocks of a sparse operation are refused, or read as runs that tile them. -/
theorem copyAdd_sparse (hr : r.Inside L) {diffFmt : ℕ} (hfmt : diffFmt ≠ 0) (n i cursor : ℕ)
    (hexact : ExactPasses L b (i + n) byteOffset) (hlo : r.lo ≤ cursor) (hhi : cursor ≤ r.hi) :
    (∀ src s, Ends (iterM (copyAddBlock (reliable src) L r diffFmt b byteOffset) n i cursor s)
      (fun _ _ => False) (fun _ _ => True)) ∨
    ∃ blocks, blocks.length = n ∧ (∀ runs ∈ blocks, Tiles L.blockSize runs) ∧
      cursor + (Diff.sparse blocks).bytes.length ≤ r.hi ∧
      ∀ src s, Ends (iterM (copyAddBlock (reliable src) L r diffFmt b byteOffset) n i cursor s)
        (fun _ s' => (∀ j < n, InSource src (b * L.blockSize + byteOffset + i * L.blockSize +
            j * L.blockSize) L.blockSize) ∧
          s'.written = s.written ++ applySparse L.blockSize
            (window src (b * L.blockSize + byteOffset + i * L.blockSize : ℤ).toNat (n * L.blockSize))
            blocks)
        (fun _ _ => ¬ ∀ j < n, InSource src (b * L.blockSize + byteOffset + i * L.blockSize +
          j * L.blockSize) L.blockSize) := by
  induction n generalizing i cursor with
  | zero => exact .inr ⟨[], rfl, by simp, hhi, fun src s => ⟨by omega, by simp [applySparse]⟩⟩
  | succ n ih =>
    have hi : copyAddPos L b i byteOffset = _ := hexact i (by omega)
    rcases sparse_refused_or_read hr (r.hi - cursor + 1) hlo hhi (Nat.zero_le _) with
      hrefused | ⟨runs, next, hread⟩
    · left
      intro src s
      refine Ends.bind (Q := fun _ _ => False) ?_ fun _ _ h => h.elim
      apply copyAddBlock_of_fetch (fun _ _ _ => trivial)
      intro hin s₁ _
      refine ends_ite (fun h0 => absurd h0 hfmt) fun _ => ?_
      exact (hrefused _ (hin.length_window le_rfl) s₁).bind fun _ _ h => h.elim
    have hnext := hread.length_le
    rcases ih (i + 1) next (by rwa [add_right_comm, add_assoc]) (by omega) hread.next_le with
      hrefused | ⟨blocks, hlen, htiles, hle, hends⟩
    · left
      intro src s
      apply ((copyAddBlock_sparse hfmt hread).weaken (fun _ _ _ => trivial)).bind
      rintro _ s₁ ⟨rfl, -, -⟩
      exact hrefused src s₁
    refine .inr ⟨runs :: blocks, by rw [List.length_cons, hlen],
      List.forall_mem_cons.mpr ⟨hread.tiles, htiles⟩, ?_, ?_⟩
    · simp only [Diff.bytes, List.flatMap_cons, List.length_append] at hle ⊢
      omega
    intro src s
    have hpos : (b * L.blockSize + byteOffset + (i + 1 : ℕ) * L.blockSize : ℤ) =
        b * L.blockSize + byteOffset + i * L.blockSize + L.blockSize := by
      push_cast
      ring
    rw [hpos] at hends
    generalize (b * L.blockSize + byteOffset + i * L.blockSize : ℤ) = p at hi hends ⊢
    -- block `i`, and the blocks behind it
    have hsplit : (∀ j < n + 1, InSource src (p + j * L.blockSize) L.blockSize) ↔
        InSource src p L.blockSize ∧
          ∀ j < n, InSource src (p + L.blockSize + j * L.blockSize) L.blockSize := by
      rw [Nat.forall_lt_succ_left]
      refine and_congr (by simp) (forall₂_congr fun j _ => ?_)
      rw [show p + (j + 1 : ℕ) * L.blockSize = p + L.blockSize + j * L.blockSize by push_cast; ring]
    rw [hsplit]
    apply ((copyAddBlock_sparse hfmt hread).weaken (fun e s' hout h => hout (hi ▸ h.1))).bind
    rintro _ s₁ ⟨rfl, hin, hw₁⟩
    rw [hi] at hin hw₁
    refine (hends src s₁).mono ?_ (fun e s' hout h => hout h.2)
    rintro _ s₂ ⟨hall, hw₂⟩
    refine ⟨⟨hin, hall⟩, ?_⟩
    have hwin := hin.length_window le_rfl
    have hnat : (p + L.blockSize).toNat = p.toNat + L.blockSize := by
      have := hin.1
      omega
    rw [hw₂, hw₁, hnat, List.append_assoc, add_mul, one_mul, add_comm (n * L.blockSize), ← window_append,
      ← List.singleton_append, applySparse_append (by simpa using hwin), applySparse_singleton hwin]

end CopyAdd

/-! ### Operations -/

section Operations
variable {patch : Bytes} {L : Layout patch} {c c' : Cursors}

/-- No source makes `x` return. -/
def Rejects {α : Type} (x : Bytes → Dec α) : Prop :=
  ∀ src s, Ends (x src s) (fun _ _ => False) (fun _ _ => True)

/-- On every source `x` does what the script says: it takes the cursors from `c` to `c'` and
writes what the operations denote, or stops because they denote nothing. -/
structure Means (L : Layout patch) (x : Bytes → Dec Cursors) (c c' : Cursors) (script : Script) : Prop where
  legal : ∀ y ∈ script, Legal L.blockSize y.2 y.1
  dest : c.destBlock + totalCount (script.map Prod.fst) = c'.destBlock
  ends : ∀ src s, Ends (x src s)
    (fun c₁ s' => c₁ = c' ∧ ∃ out, s'.written = s.written ++ out ∧ ∀ ops,
      applyPatch L.blockSize src c.destBlock (patch.drop c.litPtr) (script.map Prod.fst ++ ops) =
        (applyPatch L.blockSize src c'.destBlock (patch.drop c'.litPtr) ops).map (out ++ ·))
    (fun _ _ => ∀ ops,
      applyPatch L.blockSize src c.destBlock (patch.drop c.litPtr) (script.map Prod.fst ++ ops) = none)

theorem means_nil {x : Bytes → Dec Cursors} (hlit : c'.litPtr = c.litPtr) (hdest : c'.destBlock = c.destBlock)
    (h : ∀ src s, Ends (x src s) (fun c₁ s' => c₁ = c' ∧ s'.written = s.written) (fun _ _ => False)) :
    Means L x c c' [] := by
  refine ⟨by simp, by simp [totalCount, hdest], fun src s => ((h src s).of_total).imp ?_⟩
  rintro c₁ s' ⟨rfl, hw⟩
  refine ⟨rfl, [], by simp [hw], fun ops => ?_⟩
  simp [hlit, hdest]

/-- The widest fields hold everything the decoder can read. -/
def widest : Enc := ⟨.four, .long⟩

theorem means_single {x : Bytes → Dec Cursors} (op : Op) (hlegal : Legal L.blockSize widest op)
    (hdest : c'.destBlock = c.destBlock + op.count)
    (h : ∀ src s, Ends (x src s)
      (fun c₁ s' => c₁ = c' ∧ ∃ out, s'.written = s.written ++ out ∧
        applyOperation L.blockSize src c.destBlock (patch.drop c.litPtr) op =
          some (out, patch.drop c'.litPtr))
      (fun _ _ => applyOperation L.blockSize src c.destBlock (patch.drop c.litPtr) op = none)) :
    Means L x c c' [(op, widest)] := by
  refine ⟨by simpa using hlegal, by simp [totalCount, hdest], fun src s => (h src s).mono ?_ ?_⟩
  · rintro c₁ s' ⟨rfl, out, hw, happly⟩
    refine ⟨rfl, out, hw, fun ops => ?_⟩
    rw [List.map_singleton, List.singleton_append, applyPatch, happly, hdest]
  · intro _ s' happly ops
    rw [List.map_singleton, List.singleton_append, applyPatch, happly]

/-- One operation after the other. -/
theorem Means.trans {x : Bytes → Dec Cursors} {y : Bytes → Cursors → Dec Cursors} {c₁ c₂ : Cursors}
    {script script' : Script} (h : Means L x c c₁ script)
    (h' : Means L (fun src => y src c₁) c₁ c₂ script') :
    Means L (fun src => x src >>= y src) c c₂ (script ++ script') := by
  constructor
  · intro z hz
    rcases List.mem_append.mp hz with hz | hz
    · exact h.legal z hz
    · exact h'.legal z hz
  · have := h.dest
    have := h'.dest
    rw [List.map_append, totalCount, List.map_append, List.sum_append]
    simp only [totalCount] at *
    omega
  · intro src s
    simp only [List.map_append, List.append_assoc]
    apply ((h.ends src s).weaken (fun e s' hnone ops => hnone _)).bind
    rintro _ s₁ ⟨rfl, out, hw, hrest⟩
    refine (h'.ends src s₁).mono ?_ ?_
    · rintro _ s₂ ⟨rfl, out', hw', hrest'⟩
      refine ⟨rfl, out ++ out', by rw [hw', hw, List.append_assoc], fun ops => ?_⟩
      rw [hrest, hrest', Option.map_map]
      congr 1
      funext bytes
      exact (List.append_assoc _ _ _).symm
    · intro e s₂ hnone ops
      rw [hrest, hnone]
      rfl

/-- What one iteration comes to, decided by the patch alone. -/
def Decided (L : Layout patch) (x : Bytes → Dec Cursors) (c : Cursors) : Prop :=
  Rejects x ∨ ∃ c' script, c'.Inside L ∧ Means L x c c' script

/-- Reading a field first changes nothing. -/
theorem Decided.of_settled {α : Type} {y : Dec α} {P : α → Prop} {x : Bytes → α → Dec Cursors}
    (hy : Settled y P) (hx : ∀ a, P a → Decided L (fun src => x src a) c) :
    Decided L (fun src => y >>= x src) c := by
  rcases hy with hstop | ⟨a, ha, hy⟩
  · exact .inl fun src s => (hstop s).bind fun _ _ h => h.elim
  rcases hx a ha with hrej | ⟨c', script, hc', hm⟩
  · left
    intro src s
    apply (hy s).of_total.bind
    rintro _ s₁ ⟨rfl, -⟩
    exact hrej src s₁
  · refine .inr ⟨c', script, hc', hm.legal, hm.dest, ?_⟩
    intro src s
    apply (hy s).of_total.bind
    rintro _ s₁ ⟨rfl, hw⟩
    rw [← hw]
    exact hm.ends src s₁

theorem decided_fail (err : FsdError) : Decided L (fun _ => fail err) c := .inl fun _ _ => trivial

theorem Decided.ite {p : Prop} {_ : Decidable p} {x y : Bytes → Dec Cursors} (hx : p → Decided L x c)
    (hy : ¬ p → Decided L y c) : Decided L (fun src => if p then x src else y src) c := by
  by_cases hp : p
  · simpa only [if_pos hp] using hx hp
  · simpa only [if_neg hp] using hy hp

theorem decided_blocks {count : ℕ} {body : Bytes → ℕ → Dec Unit} (op : Op) (hc' : c'.Inside L)
    (hlit : c'.litPtr = c.litPtr) (hdest : c'.destBlock = c.destBlock + count) (hop : op.count = count)
    (hlegal : 1 ≤ count → Legal L.blockSize widest op)
    (h : 1 ≤ count → ∀ src s, Ends (forBlocks count (body src) s)
      (fun _ s' => ∃ out, s'.written = s.written ++ out ∧
        applyOperation L.blockSize src c.destBlock (patch.drop c.litPtr) op =
          some (out, patch.drop c.litPtr))
      (fun _ _ => applyOperation L.blockSize src c.destBlock (patch.drop c.litPtr) op = none)) :
    Decided L (fun src => forBlocks count (body src) >>= fun _ => pure c') c := by
  rcases Nat.eq_zero_or_pos count with rfl | hpos
  · exact .inr ⟨c', [], hc', means_nil hlit hdest fun src s => ⟨rfl, rfl⟩⟩
  · refine .inr ⟨c', _, hc', means_single op (hlegal hpos) (hop.symm ▸ hdest) ?_⟩
    intro src s
    apply (h hpos src s).bind
    rintro _ s' ⟨out, hw, happly⟩
    exact ⟨rfl, out, hw, hlit ▸ happly⟩

theorem decided_literal {count p : ℕ} (hc : c.Inside L) (hcount : count < 2 ^ 32)
    (hdest : c.destBlock + count ≤ L.destBlocks) (hge : headerSize ≤ p) (hle : p ≤ L.opEnd) :
    Decided L (fun src => iterM (fun _ => writeLiteral (reliable src) L) count 0 c.litPtr >>= fun litPtr =>
      pure ⟨p, c.diffPtr, litPtr, c.destBlock + count⟩) c := by
  have hlit := hc.lit_ge
  have hlen := hc.lit_le
  rcases Nat.eq_zero_or_pos count with rfl | hpos
  · refine .inr ⟨⟨p, c.diffPtr, c.litPtr, c.destBlock⟩, [], ?_, means_nil rfl rfl fun src s => ⟨rfl, rfl⟩⟩
    exact ⟨hge, hle, hc.diff_ge, hc.diff_le, hlit, hlen, hc.dest_le⟩
  by_cases hfits : c.litPtr + count * L.blockSize ≤ patch.length
  · refine .inr ⟨⟨p, c.diffPtr, c.litPtr + count * L.blockSize, c.destBlock + count⟩, _, ?_,
      means_single (.literal count) ⟨hpos, ?_, trivial⟩ rfl ?_⟩
    · exact ⟨hge, hle, hc.diff_ge, hc.diff_le, hlit.trans (Nat.le_add_right _ _), hfits, hdest⟩
    · exact Nat.le_of_lt_succ hcount
    · intro src s
      apply ((iterM_writeLiteral count hpos hlit).weaken (fun _ _ hout => absurd hfits hout)).bind
      rintro _ s' ⟨rfl, -, hg⟩
      refine ⟨rfl, _, hg.written, ?_⟩
      rw [applyOperation, if_pos (by rw [List.length_drop]; omega), List.drop_drop]
      rfl
  · left
    intro src s
    apply ((iterM_writeLiteral count hpos hlit).weaken (fun _ _ _ => trivial)).bind
    rintro _ s' ⟨rfl, hin, -⟩
    exact absurd hin hfits

theorem decided_applyCounted (b : UInt8) (hc : c.Inside L) {count p : ℕ} (hcount : count < 2 ^ 32)
    (hdest : c.destBlock + count ≤ L.destBlocks) (hge : headerSize ≤ p) (hle : p ≤ L.opEnd) :
    Decided L (fun src => applyCounted (reliable src) L b count p c) c := by
  have hnext : ∀ q, headerSize ≤ q → q ≤ L.opEnd →
      Cursors.Inside L ⟨q, c.diffPtr, c.litPtr, c.destBlock + count⟩ := fun q hq hqe =>
    ⟨hq, hqe, hc.diff_ge, hc.diff_le, hc.lit_ge, hc.lit_le, hdest⟩
  have hmax : count ≤ uint32Max := Nat.le_of_lt_succ hcount
  unfold applyCounted
  generalize opTypeOf b = t
  rcases t with _ | _ | _ | _ | _ | _ | t
  · refine decided_blocks (.copyIdentity count) (hnext p hge hle) rfl rfl rfl
      (fun hpos => ⟨hpos, hmax, trivial⟩) fun hpos src s => ?_
    refine (forBlocks_copyIdentity hpos hdest).mono ?_ (fun _ _ hnone => congrArg (Option.map _) hnone)
    rintro _ s' ⟨out, hcopy, hg⟩
    exact ⟨out, hg.written, congrArg (Option.map _) hcopy⟩
  · apply Decided.of_settled (settled_readRelocateOffset b hge hle)
    rintro ⟨offset, q⟩ ⟨hq, hqe, hoff⟩
    dsimp only at hq hqe hoff
    refine decided_blocks (.copyRelocate count (offset < 0) offset.natAbs)
      (hnext q (by omega) hqe) rfl rfl rfl (fun hpos => ⟨hpos, hmax, by simp [widest], ?_⟩)
      fun hpos src s => ?_
    · have := abs_le.mp hoff
      simp only [widest, OffsetEnc.relocateWidth]
      omega
    · rw [applyOperation, Encoder.signedOffset_natAbs]
      refine (forBlocks_copyRelocate hpos hdest hoff).mono ?_
        (fun _ _ hnone => congrArg (Option.map _) hnone)
      rintro _ s' ⟨out, hcopy, hg⟩
      exact ⟨out, hg.written, congrArg (Option.map _) hcopy⟩
  · refine decided_blocks (.zero count) (hnext p hge hle) rfl rfl rfl
      (fun hpos => ⟨hpos, hmax, trivial⟩) fun hpos src s => ?_
    apply (forBlocks_fills count 0x00).of_total.imp
    exact fun _ s' hg => ⟨_, hg.written, rfl⟩
  · refine decided_blocks (.one count) (hnext p hge hle) rfl rfl rfl
      (fun hpos => ⟨hpos, hmax, trivial⟩) fun hpos src s => ?_
    apply (forBlocks_fills count 0xFF).of_total.imp
    exact fun _ s' hg => ⟨_, hg.written, rfl⟩
  · exact decided_fail _
  · exact decided_literal hc hcount hdest hge hle
  · exact decided_fail _

theorem decided_of_diff {count : ℕ} {byteOffset : ℤ} (diff : Diff) {loop : Bytes → Dec ℕ}
    (hc' : c'.Inside L) (hlit : c'.litPtr = c.litPtr) (hdest : c'.destBlock = c.destBlock + count)
    (hlegal : Legal L.blockSize widest (.copyAdd count byteOffset diff))
    (h : ∀ src s, Ends (loop src s)
      (fun _ s' => InSource src (c.destBlock * L.blockSize + byteOffset) (count * L.blockSize) ∧
        s'.written = s.written ++ applyDiff L.blockSize (window src
          (c.destBlock * L.blockSize + byteOffset : ℤ).toNat (count * L.blockSize)) diff)
      (fun _ _ => ¬ InSource src (c.destBlock * L.blockSize + byteOffset) (count * L.blockSize))) :
    Decided L (fun src => loop src >>= fun _ => pure c') c := by
  refine .inr ⟨c', _, hc', means_single _ hlegal hdest ?_⟩
  intro src s
  refine ((h src s).weaken (fun _ _ hout => ?_)).bind ?_
  · rw [applyOperation, copyRange_eq_none hout]
    rfl
  · rintro _ s' ⟨hin, hw⟩
    refine ⟨rfl, _, hw, ?_⟩
    rw [applyOperation, copyRange_of_inSource hin, hlit]
    rfl

theorem decided_copyAddBlocks (diffFmt : ℕ) {count diffLen p : ℕ} {byteOffset : ℤ} (hc : c.Inside L)
    (hcount : count < 2 ^ 32) (hdest : c.destBlock + count ≤ L.destBlocks) (hge : headerSize ≤ p)
    (hle : p ≤ L.opEnd) (hl : -2 ^ 31 ≤ byteOffset) (hu : byteOffset < 2 ^ 31) (hlen : diffLen < 2 ^ 32)
    (hdiff : c.diffPtr + diffLen ≤ L.diffEnd) :
    Decided L (fun src => iterM (copyAddBlock (reliable src) L ⟨.diff, c.diffPtr, c.diffPtr + diffLen⟩ diffFmt
      c.destBlock byteOffset) count 0 c.diffPtr >>= fun _ =>
        pure ⟨p, c.diffPtr + diffLen, c.litPtr, c.destBlock + count⟩) c := by
  have hr : Region.Inside L ⟨.diff, c.diffPtr, c.diffPtr + diffLen⟩ := ⟨hc.diff_ge, hdiff⟩
  have hc' : Cursors.Inside L ⟨p, c.diffPtr + diffLen, c.litPtr, c.destBlock + count⟩ :=
    ⟨hge, hle, hc.diff_ge.trans (Nat.le_add_right _ _), hdiff, hc.lit_ge, hc.lit_le, hdest⟩
  generalize hreg : (⟨.diff, c.diffPtr, c.diffPtr + diffLen⟩ : Region) = r at hr ⊢
  have hrlo : r.lo = c.diffPtr := by rw [← hreg]
  have hrhi : r.hi = c.diffPtr + diffLen := by rw [← hreg]
  rcases Nat.eq_zero_or_pos count with rfl | hpos
  · exact .inr ⟨_, [], hc', means_nil rfl rfl fun src s => ⟨rfl, rfl⟩⟩
  have hwide : ∀ diff : Diff, diff.bytes.length ≤ diffLen → diff.Fits L.blockSize count →
      Legal L.blockSize widest (.copyAdd count byteOffset diff) := by
    intro diff hbytes hfits
    refine ⟨hpos, Nat.le_of_lt_succ hcount, by simp [widest], hl, hu, ?_, hfits⟩
    exact Nat.le_of_lt_succ (hbytes.trans_lt hlen)
  have hrejects : (¬ ∀ j < count, 0 ≤ copyAddPos L c.destBlock j byteOffset ∧
      (diffFmt = 0 → (j + 1) * L.blockSize ≤ r.hi - r.lo)) →
      Rejects fun src => iterM (copyAddBlock (reliable src) L r diffFmt c.destBlock byteOffset) count 0
        c.diffPtr >>= fun _ =>
          pure (⟨p, c.diffPtr + diffLen, c.litPtr, c.destBlock + count⟩ : Cursors) := by
    intro hnot src s
    exact (copyAdd_needs diffFmt _ hdest).bind fun _ _ hall => absurd hall hnot
  by_cases hnn : ∀ j < count, 0 ≤ copyAddPos L c.destBlock j byteOffset
  swap
  · exact .inl (hrejects fun hall => hnn fun j hj => (hall j hj).1)
  have hexact : ExactPasses L c.destBlock count byteOffset := fun j hj =>
    copyAddPos_exact (by omega) hl hu (hnn j hj)
  by_cases hfmt : diffFmt = 0
  · subst hfmt
    by_cases hfits : count * L.blockSize ≤ r.hi - r.lo
    · have hdata : (window patch r.lo (count * L.blockSize)).length = count * L.blockSize := by
        have := L.diffEnd_le
        exact length_window (by omega)
      refine decided_of_diff (.dense (window patch r.lo (count * L.blockSize))) hc' rfl rfl
        (hwide _ ?_ hdata) fun src s => copyAdd_dense hr hdest hpos hexact hfits _
      simp only [Diff.bytes, hdata]
      omega
    · refine .inl (hrejects fun hall => hfits ?_)
      have := (hall (count - 1) (by omega)).2 rfl
      rwa [Nat.sub_add_cancel hpos] at this
  · rcases copyAdd_sparse hr hfmt count 0 c.diffPtr (by rwa [zero_add]) (by omega) (by omega) with
      hrefused | ⟨blocks, hblocks, htiles, hbytes, hends⟩
    · exact .inl fun src s => (hrefused src s).bind fun _ _ h => h.elim
    · refine decided_of_diff (.sparse blocks) hc' rfl rfl
        (hwide _ (by omega) ⟨hblocks, htiles⟩) fun src s => ?_
      have hends := hends src s
      simp only [Nat.cast_zero, zero_mul, add_zero, inSource_blocks hpos] at hends
      exact hends

theorem decided_applyCopyAdd (b : UInt8) (hc : c.Inside L) (hr : Running L c) :
    Decided L (fun src => applyCopyAdd (reliable src) L b c) c := by
  have hop := hc.op_ge
  refine Decided.ite (fun _ => decided_fail _) fun _ => ?_
  apply Decided.of_settled (settled_readByteOffset b (p := c.opPtr + 1) (by omega) hr.2)
  rintro ⟨byteOffset, p₁⟩ ⟨hp₁, hle₁, hl, hu⟩
  dsimp only at hp₁ hle₁ hl hu
  apply Decided.of_settled (settled_readCopyAddCount b (p := p₁) (by omega) hle₁)
  rintro ⟨count, p₂⟩ ⟨hp₂, hle₂, hcount⟩
  dsimp only at hp₂ hle₂ hcount
  refine Decided.ite (fun _ => decided_fail _) fun hdest => ?_
  have hge₂ : headerSize ≤ p₂ := by omega
  apply Decided.of_settled ((settled_readLe 4 hge₂).moves fun s => readLe_moves 4 hge₂)
  rintro ⟨diffLen, p₃⟩ ⟨hp₃, hle₃, hlen⟩
  dsimp only at hp₃ hle₃ hlen
  refine Decided.ite (fun _ => decided_fail _) fun hdiff => ?_
  have hrun := hr.1
  exact decided_copyAddBlocks (lowBitOf b) hc hcount (by omega) (by omega) hle₃ hl hu hlen (by omega)

theorem decided_applyOp (hc : c.Inside L) (hr : Running L c) :
    Decided L (fun src => applyOp (reliable src) L c) c := by
  have hop := hc.op_ge
  apply Decided.of_settled (settled_readByte opRegion_inside hop hr.2)
  intro b _
  refine Decided.ite (fun _ => decided_applyCopyAdd b hc hr) fun _ => ?_
  apply Decided.of_settled (settled_readCount b (p := c.opPtr + 1) (by omega) hr.2)
  rintro ⟨count, p⟩ ⟨hp, hle, hcount⟩
  dsimp only at hp hle hcount
  refine Decided.ite (fun _ => decided_fail _) fun hdest => ?_
  have hrun := hr.1
  exact decided_applyCounted b hc hcount (by omega) (by omega) hle

/-! ### Whole runs -/

theorem decided_opLoop (fuel : ℕ) (hc : c.Inside L) :
    Decided L (fun src => opLoop (reliable src) L fuel c) c := by
  have hidle : ∀ c : Cursors, Means L (fun _ => pure c) c c [] := fun c =>
    means_nil rfl rfl fun _ _ => ⟨rfl, rfl⟩
  induction fuel generalizing c with
  | zero =>
    by_cases hr : Running L c
    · exact .inl fun src s => ends_ite (fun _ => trivial) fun h => absurd hr h
    · simp only [opLoop, if_neg hr]
      exact .inr ⟨c, [], hc, hidle c⟩
  | succ fuel ih =>
    refine Decided.ite (fun hr => ?_) fun _ => .inr ⟨c, [], hc, hidle c⟩
    rcases decided_applyOp hc hr with hrej | ⟨c₁, script, hc₁, hm⟩
    · exact .inl fun src s => (hrej src s).bind fun _ _ h => h.elim
    rcases ih hc₁ with hrej | ⟨c₂, script', hc₂, hm'⟩
    · left
      intro src s
      apply ((hm.ends src s).weaken (fun _ _ _ => trivial)).bind
      rintro _ s₁ ⟨rfl, -⟩
      exact hrej src s₁
    · exact .inr ⟨c₂, _, hc₂, hm.trans hm'⟩

theorem decided_applyOps (L : Layout patch) :
    Rejects (fun src => applyOps (reliable src) L) ∨ ∃ c' script, c'.destBlock = L.destBlocks ∧
      Means L (fun src => applyOps (reliable src) L) L.start c' script := by
  rcases decided_opLoop L.header.opStreamLen (start_inside (L := L)) with hrej | ⟨c', script, -, hm⟩
  · exact .inl fun src s => (hrej src s).bind fun _ _ h => h.elim
  by_cases hdest : c'.destBlock = L.destBlocks
  · have hcheck : Means L (fun _ => if c'.destBlock ≠ L.destBlocks then fail .truncated else pure c') c' c' [] := by
      simp only [if_neg (not_not.mpr hdest)]
      exact means_nil rfl rfl fun _ _ => ⟨rfl, rfl⟩
    refine .inr ⟨c', script, hdest, ?_⟩
    have hrun := hm.trans (y := fun _ c => if c.destBlock ≠ L.destBlocks then fail .truncated else pure c) hcheck
    rwa [List.append_nil] at hrun
  · left
    intro src s
    apply ((hm.ends src s).weaken (fun _ _ _ => trivial)).bind
    rintro _ s₁ ⟨rfl, -⟩
    exact ends_ite (fun _ => trivial) fun h => absurd hdest h

end Operations

/-- No run over the patch succeeds, or the patch stands for one list of operations of the
format, the same for every source: a run that succeeds writes what they denote on its source,
and where they denote something a run without faults succeeds. -/
theorem patchApply_denotes (patch : Bytes) :
    (∀ m c o, patchApply m patch ≠ .ok c o) ∨
    ∃ (L : Layout patch) (script : Script), patchLayout patch = .ok L ∧
      (∀ x ∈ script, Legal L.blockSize x.2 x.1) ∧
      totalCount (script.map Prod.fst) = L.destBlocks ∧
      (∀ m c o, patchApply m patch = .ok c o →
        applyPatch L.blockSize m.src 0 (patch.drop L.diffEnd) (script.map Prod.fst) = some o.written) ∧
      ∀ src out, applyPatch L.blockSize src 0 (patch.drop L.diffEnd) (script.map Prod.fst) = some out →
        ∃ c o, patchApply (reliable src) patch = .ok c o ∧ o.written = out := by
  cases hL : patchLayout patch with
  | error err =>
    left
    intro m c o h
    rw [patchApply, hL] at h
    cases h
  | ok L =>
    have hrun : ∀ src, patchApply (reliable src) patch = applyOps (reliable src) L {} := by
      intro src
      rw [patchApply, hL]
    rcases decided_applyOps L with hrej | ⟨c', script, hdest, hm⟩
    · left
      intro m c o h
      have hreliable := patchApply_reliable m h
      rw [hrun] at hreliable
      exact Ends.of_ok (hrej m.src {}) hreliable
    refine .inr ⟨L, script, rfl, hm.legal, ?_, ?_, ?_⟩
    · rw [← hdest, ← hm.dest]
      exact (Nat.zero_add _).symm
    · intro m c o h
      have hreliable := patchApply_reliable m h
      rw [hrun] at hreliable
      obtain ⟨-, out, hw, hrest⟩ := Ends.of_ok (hm.ends m.src {}) hreliable
      have hall := hrest []
      rw [List.append_nil] at hall
      rw [hw]
      exact hall.trans (congrArg some (List.append_nil out))
    · intro src out hout
      have hends := hm.ends src {}
      rw [hrun]
      cases hres : applyOps (reliable src) L {} with
      | ok c o =>
        obtain ⟨-, out', hw, hrest⟩ := Ends.of_ok hends hres
        have hall := hrest []
        rw [List.append_nil] at hall
        refine ⟨c, o, rfl, ?_⟩
        have hsame := hout.symm.trans hall
        rw [hw]
        simpa [applyPatch] using hsame.symm
      | error e o =>
        have hnone := Ends.of_error hends hres []
        rw [List.append_nil] at hnone
        cases hout.symm.trans hnone

/-- An inline count and a sign in one byte, outside the grammar: still some operations of it. -/
theorem patchApply_denotes_inlineRelocate :
    ∃ (L : Layout inlineRelocatePatch) (script : Script), patchLayout inlineRelocatePatch = .ok L ∧
      (∀ x ∈ script, Legal L.blockSize x.2 x.1) ∧
      applyPatch L.blockSize (List.replicate 64 7) 0 (inlineRelocatePatch.drop L.diffEnd)
        (script.map Prod.fst) = some (List.replicate 64 7) := by
  obtain ⟨c, s, hrun, hw⟩ : ∃ c s, patchApply (reliable (List.replicate 64 7)) inlineRelocatePatch = .ok c s ∧
      s.written = List.replicate 64 7 :=
    ⟨⟨34, 34, 34, 2⟩, ⟨List.replicate 64 7, 2, 2, [32, 33], [], []⟩, by with_unfolding_all rfl, rfl⟩
  rcases patchApply_denotes inlineRelocatePatch with hno | ⟨L, script, hL, hlegal, -, hsound, -⟩
  · exact absurd hrun (hno _ c s)
  · refine ⟨L, script, hL, hlegal, ?_⟩
    exact (hsound _ c s hrun).trans (congrArg some hw)

end Fsdiff.Patch
