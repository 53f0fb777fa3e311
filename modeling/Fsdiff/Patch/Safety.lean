import Fsdiff.Patch.Offsets

/-! What each part of the decoder can do on arbitrary bytes: which positions it
reads, how far it moves, what it writes and how it may stop. From these follow
read safety for hostile patches and the exact size of the output. -/
namespace Fsdiff.Patch
open ByteString Exec

@[simp] theorem Output.logReads_written (o : Output) (ps : List ℕ) (st : Stream) :
    (o.logReads ps st).written = o.written := by cases st <;> rfl

theorem Output.logReads_append (o : Output) (ps qs : List ℕ) (st : Stream) :
    (o.logReads ps st).logReads qs st = o.logReads (ps ++ qs) st := by
  cases st <;> simp [Output.logReads]

@[simp] theorem Output.logReads_nil (o : Output) (st : Stream) : o.logReads [] st = o := by
  cases st <;> simp [Output.logReads]

def Region.Inside {patch : Bytes} (L : Layout patch) (r : Region) : Prop :=
  L.lo r.stream ≤ r.lo ∧ r.hi ≤ L.hi r.stream

section Reads
variable {m : Machine} {patch : Bytes} {L : Layout patch} {r : Region} {s : Output}

theorem opRegion_inside : L.opRegion.Inside L := ⟨le_rfl, le_rfl⟩

theorem litRegion_inside : L.litRegion.Inside L := ⟨le_rfl, le_rfl⟩

theorem readByte_ends (hr : r.Inside L) {pos : ℕ} (hlo : r.lo ≤ pos) (hhi : pos < r.hi) :
    Ends (readByte L r pos s)
      (fun b s' => patch[pos]? = some b ∧ s' = s.logReads [pos] r.stream) (fun _ _ => False) := by
  have hp : pos < patch.length := (hhi.trans_le hr.2).trans_le (L.hi_le _)
  rw [readByte, if_pos ⟨hr.1.trans hlo, hhi.trans_le hr.2, hlo, hhi⟩, List.getElem?_eq_getElem hp]
  exact ⟨rfl, rfl⟩

theorem readBytes_ends (hr : r.Inside L) (n pos : ℕ) (hlo : r.lo ≤ pos) (hhi : pos + n ≤ r.hi) :
    Ends (readBytes L r n pos s)
      (fun bs s' => bs = window patch pos n ∧ s' = s.logReads (List.range' pos n) r.stream)
      (fun _ _ => False) := by
  induction n generalizing pos s with
  | zero => simp [readBytes, ends_pure]
  | succ n ih =>
    apply (readByte_ends hr hlo (by omega)).bind
    intro b s₁ hpost
    obtain ⟨hb, rfl⟩ := hpost
    apply (ih (pos + 1) (by omega) (by omega)).bind
    intro bs s₂ hpost
    obtain ⟨rfl, rfl⟩ := hpost
    obtain ⟨hp, rfl⟩ := List.getElem?_eq_some_iff.mp hb
    refine ⟨(window_succ hp).symm, ?_⟩
    rw [Output.logReads_append, List.range'_succ, List.singleton_append]

theorem readLe_ends {ptr : ℕ} (k : ℕ) (hp : headerSize ≤ ptr) :
    Ends (readLe L k ptr s)
      (fun v s' => v = (leNat (window patch ptr k), ptr + k) ∧ ptr + k ≤ L.opEnd ∧
        s' = s.logReads (List.range' ptr k) .op)
      (fun e s' => e = .fail .truncated ∧ L.opEnd < ptr + k ∧ s' = s) := by
  refine ends_ite (fun h => ⟨rfl, h, rfl⟩) fun h => ?_
  apply ((readBytes_ends opRegion_inside k ptr hp (not_lt.mp h)).of_total).bind
  intro bs s' hpost
  obtain ⟨rfl, rfl⟩ := hpost
  exact ⟨rfl, not_lt.mp h, rfl⟩

theorem fetchBlock_ends {pos : ℕ} (hpos : pos + L.blockSize < 2 ^ 64) :
    Ends (fetchBlock m L pos s)
      (fun buf s' => pos + L.blockSize ≤ m.src.length ∧ buf = window m.src pos L.blockSize ∧
        s' = { s with reads := s.reads + 1 })
      (fun e s' => e.Defined ∧ s'.written = s.written ∧
        (m.readFault s.reads = none → m.src.length < pos + L.blockSize)) := by
  rw [fetchBlock, u64_of_lt hpos]
  apply ends_ite
  · exact fun h => ⟨⟨_, rfl⟩, rfl, fun _ => h⟩
  intro h
  unfold sourceReadAt
  apply Ends.bind (x := get) (Q := fun o s' => s = o ∧ s = s') ⟨rfl, rfl⟩
  intro _ _ hpost
  obtain ⟨rfl, rfl⟩ := hpost
  apply Ends.bind (Q := fun _ (s' : Output) => s' = { s with reads := s.reads + 1 })
  · exact ends_ok.mpr rfl
  rintro _ _ rfl
  cases hf : m.readFault s.reads with
  | some e => exact ⟨⟨_, rfl⟩, rfl, by simp⟩
  | none =>
    apply ends_ite
    · exact fun _ => ⟨not_lt.mp h, rfl, rfl⟩
    · exact fun hout => absurd (not_lt.mp h) hout

theorem writeBlock_ends (buf : Bytes) :
    Ends (writeBlock m buf s)
      (fun _ s' => s' = { s with written := s.written ++ buf, writes := s.writes + 1 })
      (fun e s' => e.Defined ∧ s'.written.length ≤ s.written.length + buf.length ∧
        m.writeFault s.writes ≠ none) := by
  unfold writeBlock
  apply Ends.bind (x := get) (Q := fun o s' => s = o ∧ s = s') ⟨rfl, rfl⟩
  intro _ _ hpost
  obtain ⟨rfl, rfl⟩ := hpost
  cases hf : m.writeFault s.writes with
  | none => exact rfl
  | some k =>
    refine ⟨⟨_, rfl⟩, ?_, by simp⟩
    simp only [List.length_append, List.length_take, List.length_dropLast]
    omega

theorem bufAdd_ends {buf : Bytes} {k : ℕ} (v : UInt8) (hk : k < buf.length) :
    Ends (bufAdd buf k v s) (fun buf' s' => buf' = buf.set k (buf.getD k 0 + v) ∧ s' = s)
      (fun _ _ => False) := by
  rw [bufAdd, List.getD_eq_getElem?_getD, List.getElem?_eq_getElem hk]
  exact ⟨rfl, rfl⟩

end Reads

/-! ### Diff data of one block -/

section Diffs
variable {patch : Bytes} {L : Layout patch} {r : Region} {s : Output}

theorem readVarintLoop_ends (hr : r.Inside L) (left ptr value shift : ℕ) (hlo : r.lo ≤ ptr)
    (hleft : ptr + left = r.hi) :
    Ends (readVarintLoop L r left ptr value shift s)
      (fun v s' => ptr < v.2 ∧ v.2 ≤ r.hi ∧ s'.written = s.written)
      (fun e s' => e.Defined ∧ s'.written = s.written) := by
  induction left generalizing ptr value shift s with
  | zero => exact ⟨⟨_, rfl⟩, rfl⟩
  | succ left ih =>
    apply ((readByte_ends hr hlo (by omega)).of_total).bind
    intro b s₁ hpost
    obtain ⟨-, rfl⟩ := hpost
    refine ends_ite (fun _ => ⟨by omega, by omega, by simp⟩) fun _ => ?_
    refine ends_ite (fun _ => ⟨⟨_, rfl⟩, by simp⟩) fun _ => ?_
    refine (ih (ptr + 1) _ (shift + 7) (by omega) (by omega)).mono ?_ ?_
    · intro v s' hpost
      obtain ⟨h₁, h₂, h₃⟩ := hpost
      exact ⟨by omega, h₂, by simpa using h₃⟩
    · intro e s' hpost
      obtain ⟨h₁, h₂⟩ := hpost
      exact ⟨h₁, by simpa using h₂⟩

theorem readVarint_ends (hr : r.Inside L) {ptr : ℕ} (hlo : r.lo ≤ ptr) (hhi : ptr ≤ r.hi) :
    Ends (readVarint L r ptr s)
      (fun v s' => ptr < v.2 ∧ v.2 ≤ r.hi ∧ s'.written = s.written)
      (fun e s' => e.Defined ∧ s'.written = s.written) :=
  readVarintLoop_ends hr _ ptr 0 0 hlo (by omega)

theorem denseBlock_ends (hr : r.Inside L) (hrr : r.lo ≤ r.hi) (blk : ℕ) {buf : Bytes}
    (hbuf : buf.length = L.blockSize) :
    Ends (denseBlock L r blk buf s)
      (fun buf' s' => buf'.length = L.blockSize ∧ s'.written = s.written)
      (fun e s' => e.Defined ∧ s'.written = s.written) := by
  refine ends_ite (fun _ => ⟨⟨_, rfl⟩, rfl⟩) fun hin => ?_
  refine Ends.iterM_zero (fun _ buf' s' => buf'.length = L.blockSize ∧ s'.written = s.written)
    L.blockSize buf s ?_ ⟨hbuf, rfl⟩
  intro k buf' s' hk hpost
  obtain ⟨hl, hw⟩ := hpost
  -- the guard leaves a whole block between `blk_offset` and the end of the region
  apply ((readByte_ends hr (by omega) (by omega)).of_total).bind
  intro v s₁ hpost
  obtain ⟨-, rfl⟩ := hpost
  refine (bufAdd_ends v (by omega)).mono ?_ (fun _ _ h => h.elim)
  intro buf₁ s₂ hpost
  obtain ⟨rfl, rfl⟩ := hpost
  exact ⟨by simpa using hl, by simpa using hw⟩

/-- Between two runs of a sparse block. -/
structure SparseInv (L : Layout patch) (r : Region) (t : SparseState) : Prop where
  lo_le : r.lo ≤ t.cursor
  le_hi : t.cursor ≤ r.hi
  outPos_le : t.outPos ≤ L.blockSize
  length_buf : t.buf.length = L.blockSize

theorem addRun_ends (hr : r.Inside L) (addLen : ℕ) {t : SparseState} (ht : SparseInv L r t)
    (hadd : t.cursor + addLen ≤ r.hi) :
    Ends (addRun L r addLen t s)
      (fun t' s' => SparseInv L r t' ∧ t'.cursor = t.cursor + addLen ∧ s'.written = s.written)
      (fun _ _ => False) := by
  refine Ends.iterM_zero
    (fun i t' s' => SparseInv L r t' ∧ t'.cursor = t.cursor + i ∧ s'.written = s.written)
    addLen t s ?_ ⟨ht, rfl, rfl⟩
  intro i t' s' hi hpost
  obtain ⟨ht', hc, hw⟩ := hpost
  have hlo := ht'.lo_le
  apply (readByte_ends hr hlo (by omega)).bind
  intro v s₁ hpost
  obtain ⟨-, rfl⟩ := hpost
  refine ends_ite (fun hout => ?_) fun hout => ?_
  · apply (bufAdd_ends v (by have := ht'.length_buf; omega)).bind
    intro buf s₂ hpost
    obtain ⟨rfl, rfl⟩ := hpost
    refine ⟨⟨Nat.le_succ_of_le hlo, ?_, hout, by simpa using ht'.length_buf⟩, ?_, by simpa using hw⟩
    all_goals dsimp only
    all_goals omega
  · refine ⟨⟨Nat.le_succ_of_le hlo, ?_, ht'.outPos_le, ht'.length_buf⟩, ?_, by simpa using hw⟩
    all_goals dsimp only
    all_goals omega

/-- Every run takes at least one byte of the region, so the fuel is never the
reason to stop. -/
theorem sparseLoop_ends (hr : r.Inside L) (fuel : ℕ) {t : SparseState} (ht : SparseInv L r t)
    (hf : r.hi < t.cursor + fuel) :
    Ends (sparseLoop L r fuel t s)
      (fun t' s' => SparseInv L r t' ∧ s'.written = s.written)
      (fun e s' => e.Defined ∧ s'.written = s.written) := by
  induction fuel generalizing t s with
  | zero => exact absurd ht.le_hi (by omega)
  | succ fuel ih =>
    refine ends_ite (fun _ => ?_) fun _ => ⟨ht, rfl⟩
    apply (readVarint_ends hr ht.lo_le ht.le_hi).bind
    rintro ⟨addLen, cursor⟩ s₁ ⟨hc, hch, hw₁⟩
    refine ends_ite (fun _ => ⟨⟨_, rfl⟩, hw₁⟩) fun hadd => ?_
    have ht₁ : SparseInv L r ⟨cursor, t.outPos, t.buf⟩ :=
      ⟨ht.lo_le.trans hc.le, hch, ht.outPos_le, ht.length_buf⟩
    apply ((addRun_ends hr addLen ht₁ (by dsimp only; omega)).of_total).bind
    intro t₂ s₂ hpost
    obtain ⟨ht₂, hc₂, hw₂⟩ := hpost
    refine ends_ite (fun _ => ⟨ht₂, hw₂.trans hw₁⟩) fun hout => ?_
    apply ((readVarint_ends hr ht₂.lo_le ht₂.le_hi).weaken
      (fun e s' h => ⟨h.1, h.2.trans (hw₂.trans hw₁)⟩)).bind
    rintro ⟨copyLen, cursor'⟩ s₃ ⟨hc₃, hch₃, hw₃⟩
    have hw : s₃.written = s.written := hw₃.trans (hw₂.trans hw₁)
    refine ends_ite (fun _ => ⟨⟨_, rfl⟩, hw⟩) fun hcopy => ?_
    refine ends_ite (fun _ => ⟨⟨_, rfl⟩, hw⟩) fun _ => ?_
    have hlo₂ := ht₂.lo_le
    dsimp only at hc hc₂ hc₃ hcopy
    have ht₃ : SparseInv L r ⟨cursor', t₂.outPos + copyLen, t₂.buf⟩ :=
      ⟨hlo₂.trans hc₃.le, hch₃, by dsimp only; omega, ht₂.length_buf⟩
    refine (ih ht₃ (by dsimp only; omega)).mono ?_ ?_
    · intro t' s' hpost
      obtain ⟨ht', hw'⟩ := hpost
      exact ⟨ht', hw'.trans hw⟩
    · intro e s' hpost
      obtain ⟨he, hw'⟩ := hpost
      exact ⟨he, hw'.trans hw⟩

theorem sparseBlock_ends (hr : r.Inside L) {cursor : ℕ} (hlo : r.lo ≤ cursor) (hhi : cursor ≤ r.hi)
    {buf : Bytes} (hbuf : buf.length = L.blockSize) :
    Ends (sparseBlock L r cursor buf s)
      (fun t' s' => SparseInv L r t' ∧ s'.written = s.written)
      (fun e s' => e.Defined ∧ s'.written = s.written) :=
  sparseLoop_ends hr _ ⟨hlo, hhi, Nat.zero_le _, hbuf⟩ (by dsimp only; omega)

end Diffs

/-! ### Operations -/

section Operations
variable {m : Machine} {patch : Bytes} {L : Layout patch} {s : Output} {c : Cursors}

/-- A field read moves `op_ptr` inside the operation stream and writes nothing. -/
def Moves {α : Type} (L : Layout patch) (ptr : ℕ) (s : Output) (x : Dec (α × ℕ))
    (P : α → Prop) : Prop :=
  Ends (x s) (fun v s' => ptr ≤ v.2 ∧ v.2 ≤ L.opEnd ∧ P v.1 ∧ s'.written = s.written)
    (fun e s' => e.Defined ∧ s'.written = s.written)

theorem readLe_moves {p : ℕ} (k : ℕ) (hp : headerSize ≤ p) :
    Moves L p s (readLe L k p) (fun v => v < 256 ^ k) := by
  refine (readLe_ends k hp).mono ?_ ?_
  · intro v s' hpost
    obtain ⟨rfl, hle, rfl⟩ := hpost
    refine ⟨Nat.le_add_right _ _, hle, ?_, by simp⟩
    refine (leNat_lt _).trans_le (Nat.pow_le_pow_right (by decide) length_window_le)
  · intro e s' hpost
    obtain ⟨rfl, -, rfl⟩ := hpost
    exact ⟨⟨_, rfl⟩, rfl⟩

theorem Moves.map {α β : Type} {ptr : ℕ} {x : Dec (α × ℕ)} {P : α → Prop} {Q : β → Prop} (f : α → β)
    (h : Moves L ptr s x P) (hf : ∀ a, P a → Q (f a)) :
    Moves L ptr s (x >>= fun v => pure (f v.1, v.2)) Q := by
  refine Ends.bind h ?_
  rintro ⟨a, p⟩ s' ⟨h₁, h₂, h₃, h₄⟩
  exact ⟨h₁, h₂, hf a h₃, h₄⟩

theorem Moves.mono {α : Type} {ptr : ℕ} {x : Dec (α × ℕ)} {P Q : α → Prop}
    (h : Moves L ptr s x P) (hf : ∀ a, P a → Q a) : Moves L ptr s x Q :=
  Ends.mono h (fun _ _ h => ⟨h.1, h.2.1, hf _ h.2.2.1, h.2.2.2⟩) (fun _ _ h => h)

theorem moves_pure {α : Type} {ptr : ℕ} {a : α} {P : α → Prop} (hp : ptr ≤ L.opEnd) (ha : P a) :
    Moves L ptr s (pure (a, ptr)) P := ⟨le_rfl, hp, ha, rfl⟩

theorem readCount_moves (b : UInt8) {p : ℕ} (hp : headerSize ≤ p) (hle : p ≤ L.opEnd) :
    Moves L p s (readCount L b p) (fun n => n < 2 ^ 32) := by
  unfold readCount
  split
  · exact (readLe_moves 1 hp).map (· + 1) fun _ h => by omega
  · exact (readLe_moves 2 hp).map (· + 1) fun _ h => by omega
  · exact (readLe_moves 4 hp).mono fun _ h => h
  · have hb : b.toNat &&& 0x7 ≤ 0x7 := Nat.and_le_right
    exact moves_pure hle (by omega)

theorem readCopyAddCount_moves (b : UInt8) {p : ℕ} (hp : headerSize ≤ p) (hle : p ≤ L.opEnd) :
    Moves L p s (readCopyAddCount L b p) (fun n => n < 2 ^ 32) := by
  unfold readCopyAddCount
  split
  · exact (readLe_moves 1 hp).map (· + 1) fun _ h => by omega
  · exact (readLe_moves 2 hp).map (· + 1) fun _ h => by omega
  · exact (readLe_moves 4 hp).mono fun _ h => h
  · exact moves_pure hle (by omega)

theorem readRelocateDistance_moves (b : UInt8) {p : ℕ} (hp : headerSize ≤ p)
    (hle : p ≤ L.opEnd) :
    Moves L p s (readRelocateDistance L b p) (fun n => n < 2 ^ 32) := by
  unfold readRelocateDistance
  split
  · exact (readLe_moves 1 hp).mono fun _ h => by omega
  · exact (readLe_moves 2 hp).mono fun _ h => by omega
  · exact (readLe_moves 4 hp).mono fun _ h => by omega
  · exact moves_pure hle (by omega)

theorem readRelocateOffset_moves (b : UInt8) {p : ℕ} (hp : headerSize ≤ p) (hle : p ≤ L.opEnd) :
    Moves L p s (readRelocateOffset L b p) (fun offset => |offset| ≤ 2 ^ 32 - 1) := by
  refine (readRelocateDistance_moves b hp hle).map
    (fun offset : ℕ => if lowBitOf b = 0 then (offset : ℤ) else -offset) ?_
  intro n hn
  split_ifs
  · rw [abs_of_nonneg (by omega)]
    omega
  · rw [abs_neg, abs_of_nonneg (by omega)]
    omega

/-- `(int64_t)(raw | 0xFFFFFFFFFF000000)` -/
theorem int64_or_mask24 {raw : ℕ} (h : raw < 256 ^ 3) :
    int64 ((raw ||| 0xFFFFFFFFFF000000 : ℕ) : ℤ) = raw - 2 ^ 24 := by
  have hor : raw ||| 0xFFFFFFFFFF000000 = 2 ^ 24 * 0xFFFFFFFFFF + raw := by
    rw [Nat.or_comm, Nat.two_pow_add_eq_or_of_lt h]
  have hcast : ((2 ^ 24 * 0xFFFFFFFFFF + raw : ℕ) : ℤ) = (raw - 2 ^ 24) + 2 ^ 64 := by
    push_cast
    ring
  rw [hor, hcast, int64_add_two_pow, int64_of_range (by omega) (by omega)]

theorem readByteOffset_moves (b : UInt8) {p : ℕ} (hp : headerSize ≤ p) (hle : p ≤ L.opEnd) :
    Moves L p s (readByteOffset L b p) (fun off => -2 ^ 31 ≤ off ∧ off < 2 ^ 31) := by
  unfold readByteOffset
  split
  · refine (readLe_moves 2 hp).map (fun raw : ℕ => signed 16 raw) fun raw _ => ?_
    have h := signed_range 16 (by decide) raw
    omega
  · refine (readLe_moves 3 hp).map (fun raw : ℕ => if raw &&& 0x800000 = 0 then (raw : ℤ)
      else int64 (raw ||| 0xFFFFFFFFFF000000 : ℕ)) fun raw hraw => ?_
    rw [int64_or_mask24 hraw]
    split_ifs <;> omega
  · refine (readLe_moves 4 hp).map (fun raw : ℕ => signed 32 raw) fun raw _ => ?_
    exact signed_range 32 (by decide) raw
  · exact moves_pure hle ⟨by norm_num, by norm_num⟩

/-- A run that stops has its code and has not written more than the whole image. -/
def Stops (L : Layout patch) (e : Stop) (s : Output) : Prop :=
  e.Defined ∧ s.written.length ≤ L.destBlocks * L.blockSize

/-- Exactly `b` blocks are in the output. -/
def Wrote (L : Layout patch) (b : ℕ) (s : Output) : Prop := s.written.length = b * L.blockSize

theorem Wrote.le {b : ℕ} (h : Wrote L b s) (hb : b ≤ L.destBlocks) :
    s.written.length ≤ L.destBlocks * L.blockSize := by
  rw [h]
  exact Nat.mul_le_mul_right _ hb

theorem Wrote.stops {b : ℕ} (h : Wrote L b s) (hb : b ≤ L.destBlocks) {e : Stop} {s' : Output}
    (he : e.Defined) (hs : s'.written = s.written) : Stops L e s' :=
  ⟨he, by rw [hs]; exact h.le hb⟩

theorem writeBlock_wrote {b : ℕ} {buf : Bytes} (h : Wrote L b s) (hb : b < L.destBlocks)
    (hbuf : buf.length = L.blockSize) :
    Ends (writeBlock m buf s) (fun _ s' => Wrote L (b + 1) s') (Stops L) := by
  refine (writeBlock_ends buf).mono ?_ ?_
  · rintro - s' rfl
    simp only [Wrote, List.length_append, hbuf, add_mul, one_mul]
    rw [h]
  · intro e s' hpost
    obtain ⟨he, hl, -⟩ := hpost
    have hle := L.block_le hb
    rw [h, hbuf] at hl
    exact ⟨he, by omega⟩

theorem fetchBlock_wrote {b pos : ℕ} (h : Wrote L b s) (hb : b ≤ L.destBlocks)
    (hpos : pos + L.blockSize < 2 ^ 64) :
    Ends (fetchBlock m L pos s) (fun buf s' => buf.length = L.blockSize ∧ Wrote L b s') (Stops L) := by
  refine (fetchBlock_ends hpos).mono ?_ ?_
  · intro buf s' hpost
    obtain ⟨hin, rfl, rfl⟩ := hpost
    exact ⟨length_window hin, h⟩
  · intro e s' hpost
    obtain ⟨he, hw, -⟩ := hpost
    exact h.stops hb he hw

theorem forBlocks_wrote {b count : ℕ} {body : ℕ → Dec Unit} (h : Wrote L b s)
    (hbody : ∀ i s, i < count → Wrote L (b + i) s →
      Ends (body i s) (fun _ s' => Wrote L (b + i + 1) s') (Stops L)) :
    Ends (forBlocks count body s) (fun _ s' => Wrote L (b + count) s') (Stops L) :=
  Ends.iterM_zero (fun i _ s' => Wrote L (b + i) s') count () s
    (fun i _ s' hi hw => hbody i s' hi hw) h

theorem copyIdentityBlock_wrote {b i : ℕ} (h : Wrote L (b + i) s) (hb : b + i < L.destBlocks) :
    Ends (copyIdentityBlock m L b i s) (fun _ s' => Wrote L (b + i + 1) s') (Stops L) := by
  have hpos : identityOffset L b i + L.blockSize < 2 ^ 64 := by
    rw [identityOffset_eq L hb]
    exact (L.block_lt hb).trans (by norm_num)
  apply (fetchBlock_wrote h hb.le hpos).bind
  intro buf s' hpost
  obtain ⟨hl, hw⟩ := hpost
  exact writeBlock_wrote hw hb hl

theorem copyRelocateBlock_wrote {b i : ℕ} {offset : ℤ} (h : Wrote L (b + i) s)
    (hb : b + i < L.destBlocks) (ho : |offset| ≤ 2 ^ 32 - 1) :
    Ends (copyRelocateBlock m L b offset i s) (fun _ s' => Wrote L (b + i + 1) s') (Stops L) := by
  have hpos : relocateOffset L (relocateBlock b i offset) + L.blockSize < 2 ^ 64 := by
    rw [relocateBlock_eq L hb ho, relocateOffset_eq L hb ho]
    exact relocate_end_lt L hb ho
  simp only [copyRelocateBlock]
  generalize relocateBlock b i offset = srcBlock at hpos ⊢
  refine ends_ite (fun _ => h.stops hb.le ⟨_, rfl⟩ rfl) fun _ => ?_
  apply (fetchBlock_wrote h hb.le hpos).bind
  intro buf s' hpost
  obtain ⟨hl, hw⟩ := hpost
  exact writeBlock_wrote hw hb hl

theorem writeLiteral_wrote {b litPtr : ℕ} (h : Wrote L b s) (hb : b < L.destBlocks)
    (hlit : L.diffEnd ≤ litPtr) :
    Ends (writeLiteral m L litPtr s)
      (fun p s' => Wrote L (b + 1) s' ∧ L.diffEnd ≤ p ∧ p ≤ patch.length) (Stops L) := by
  refine ends_ite (fun _ => h.stops hb.le ⟨_, rfl⟩ rfl) fun hin => ?_
  apply ((readBytes_ends litRegion_inside L.blockSize litPtr hlit (not_lt.mp hin)).mono
    (fun _ _ h => h) (fun _ _ h => h.elim)).bind
  intro buf s₁ hpost
  obtain ⟨rfl, rfl⟩ := hpost
  refine (writeBlock_wrote (m := m) (b := b) ?_ hb (length_window (not_lt.mp hin))).bind ?_
  · simpa [Wrote] using h
  · intro _ s₂ hw
    exact ⟨hw, hlit.trans (Nat.le_add_right _ _), not_lt.mp hin⟩

theorem copyAddBlock_wrote {r : Region} (hr : r.Inside L) (hrr : r.lo ≤ r.hi) (diffFmt : ℕ)
    {b i cursor : ℕ} (byteOffset : ℤ) (h : Wrote L (b + i) s) (hb : b + i < L.destBlocks)
    (hlo : r.lo ≤ cursor) (hhi : cursor ≤ r.hi) :
    Ends (copyAddBlock m L r diffFmt b byteOffset i cursor s)
      (fun p s' => Wrote L (b + i + 1) s' ∧ r.lo ≤ p ∧ p ≤ r.hi) (Stops L) := by
  have hpos := copyAddPos_end_lt L b i byteOffset
  simp only [copyAddBlock]
  generalize copyAddPos L b i byteOffset = srcBytePos at hpos ⊢
  refine ends_ite (fun _ => h.stops hb.le ⟨_, rfl⟩ rfl) fun _ => ?_
  apply (fetchBlock_wrote h hb.le hpos).bind
  intro buf s₁ hpost
  obtain ⟨hl, hw₁⟩ := hpost
  refine ends_ite (fun _ => ?_) fun _ => ?_
  · apply ((denseBlock_ends hr hrr i hl).weaken
      (fun e s' h => hw₁.stops hb.le h.1 h.2)).bind
    intro buf' s₂ hpost
    obtain ⟨hl₂, hw₂⟩ := hpost
    apply (writeBlock_wrote (m := m) (b := b + i) (by rwa [Wrote, hw₂]) hb hl₂).bind
    exact fun _ s₃ hw₃ => ⟨hw₃, hlo, hhi⟩
  · apply ((sparseBlock_ends hr hlo hhi hl).weaken
      (fun e s' h => hw₁.stops hb.le h.1 h.2)).bind
    intro t s₂ hpost
    obtain ⟨ht, hw₂⟩ := hpost
    apply (writeBlock_wrote (m := m) (b := b + i) (by rwa [Wrote, hw₂]) hb ht.length_buf).bind
    exact fun _ s₃ hw₃ => ⟨hw₃, ht.lo_le, ht.le_hi⟩

/-- Every cursor is inside its stream. -/
structure Cursors.Inside (L : Layout patch) (c : Cursors) : Prop where
  op_ge : headerSize ≤ c.opPtr
  op_le : c.opPtr ≤ L.opEnd
  diff_ge : L.opEnd ≤ c.diffPtr
  diff_le : c.diffPtr ≤ L.diffEnd
  lit_ge : L.diffEnd ≤ c.litPtr
  lit_le : c.litPtr ≤ patch.length
  dest_le : c.destBlock ≤ L.destBlocks

/-- What one iteration guarantees: cursors move inside their streams, the first
byte at least is consumed, and the output grows by whole blocks. -/
def Steps (L : Layout patch) (c c' : Cursors) (s' : Output) : Prop :=
  c'.Inside L ∧ c.opPtr < c'.opPtr ∧ Wrote L c'.destBlock s'

theorem applyCopyAdd_ends (b : UInt8) (hc : c.Inside L) (hr : Running L c)
    (hw : Wrote L c.destBlock s) :
    Ends (applyCopyAdd m L b c s) (Steps L c) (Stops L) := by
  have hop := hc.op_ge
  refine ends_ite (fun _ => hw.stops hc.dest_le ⟨_, rfl⟩ rfl) fun _ => ?_
  apply (Ends.mono (readByteOffset_moves b (p := c.opPtr + 1) (by omega) hr.2) (fun _ _ h => h)
    (fun e s' h => hw.stops hc.dest_le h.1 h.2)).bind
  rintro ⟨byteOffset, p₁⟩ s₁ ⟨hp₁, hle₁, -, hw₁⟩
  apply (Ends.mono (readCopyAddCount_moves b (p := p₁) (by dsimp only at hp₁; omega) hle₁)
    (fun _ _ h => h) (fun e s' h => hw.stops hc.dest_le h.1 (h.2.trans hw₁))).bind
  rintro ⟨count, p₂⟩ s₂ ⟨hp₂, hle₂, -, hw₂⟩
  refine ends_ite (fun _ => hw.stops hc.dest_le ⟨_, rfl⟩ (hw₂.trans hw₁)) fun hcount => ?_
  apply (Ends.mono (readLe_moves 4 (p := p₂) (by dsimp only at hp₁ hp₂; omega))
    (fun _ _ h => h) (fun e s' h => hw.stops hc.dest_le h.1 (h.2.trans (hw₂.trans hw₁)))).bind
  rintro ⟨diffLen, p₃⟩ s₃ ⟨hp₃, hle₃, -, hw₃⟩
  have hw' : s₃.written = s.written := hw₃.trans (hw₂.trans hw₁)
  refine ends_ite (fun _ => hw.stops hc.dest_le ⟨_, rfl⟩ hw') fun hdiff => ?_
  have hdest := hr.1
  have hins : Region.Inside L ⟨.diff, c.diffPtr, c.diffPtr + diffLen⟩ :=
    ⟨hc.diff_ge, not_lt.mp hdiff⟩
  have hloop : Ends (iterM (copyAddBlock m L ⟨.diff, c.diffPtr, c.diffPtr + diffLen⟩ (lowBitOf b)
      c.destBlock byteOffset) count 0 c.diffPtr s₃)
      (fun p s' => Wrote L (c.destBlock + count) s' ∧ c.diffPtr ≤ p ∧ p ≤ c.diffPtr + diffLen)
      (Stops L) :=
    Ends.iterM_zero (fun i p s' => Wrote L (c.destBlock + i) s' ∧ c.diffPtr ≤ p ∧
      p ≤ c.diffPtr + diffLen) count c.diffPtr s₃ (fun i p s' hi h => copyAddBlock_wrote hins
        (Nat.le_add_right _ _) _ byteOffset h.1 (by omega) h.2.1 h.2.2)
      ⟨by rwa [Wrote, hw'], le_rfl, by omega⟩
  apply hloop.bind
  intro p s' hpost
  obtain ⟨hwc, -, -⟩ := hpost
  dsimp only at hp₁ hp₂ hp₃
  refine ⟨⟨by dsimp only; omega, hle₃, ?_, not_lt.mp hdiff, hc.lit_ge, hc.lit_le, ?_⟩, ?_, hwc⟩
  · exact hc.diff_ge.trans (Nat.le_add_right _ _)
  all_goals dsimp only; omega

theorem applyCounted_ends (b : UInt8) (hc : c.Inside L) (hw : Wrote L c.destBlock s) {count opPtr : ℕ}
    (hcount : c.destBlock + count ≤ L.destBlocks) (hlt : c.opPtr < opPtr) (hle : opPtr ≤ L.opEnd) :
    Ends (applyCounted m L b count opPtr c s) (Steps L c) (Stops L) := by
  have hop := hc.op_ge
  have hnext : ∀ p, c.opPtr < p → p ≤ L.opEnd →
      Cursors.Inside L ⟨p, c.diffPtr, c.litPtr, c.destBlock + count⟩ := fun p hp hpe =>
    ⟨by dsimp only; omega, hpe, hc.diff_ge, hc.diff_le, hc.lit_ge, hc.lit_le, hcount⟩
  unfold applyCounted
  generalize opTypeOf b = t
  rcases t with _ | _ | _ | _ | _ | _ | t
  · apply (forBlocks_wrote hw fun i s' hi hwi => copyIdentityBlock_wrote hwi (by omega)).bind
    exact fun _ s' hs' => ⟨hnext _ hlt hle, hlt, hs'⟩
  · apply (Ends.mono (readRelocateOffset_moves b (p := opPtr) (by omega) hle) (fun _ _ h => h)
      (fun e s' h => hw.stops hc.dest_le h.1 h.2)).bind
    rintro ⟨offset, p⟩ s₁ ⟨hp, hpe, hoff, hs₁⟩
    have hloop : Ends (forBlocks count (copyRelocateBlock m L c.destBlock offset) s₁)
        (fun _ s' => Wrote L (c.destBlock + count) s') (Stops L) :=
      forBlocks_wrote (by rwa [Wrote, hs₁]) fun i s' hi hwi =>
        copyRelocateBlock_wrote hwi (by omega) hoff
    apply hloop.bind
    exact fun _ s' hs' => ⟨hnext _ (hlt.trans_le hp) hpe, hlt.trans_le hp, hs'⟩
  · apply (forBlocks_wrote hw fun i s' hi hwi =>
      writeBlock_wrote hwi (by omega) List.length_replicate).bind
    exact fun _ s' hs' => ⟨hnext _ hlt hle, hlt, hs'⟩
  · apply (forBlocks_wrote hw fun i s' hi hwi =>
      writeBlock_wrote hwi (by omega) List.length_replicate).bind
    exact fun _ s' hs' => ⟨hnext _ hlt hle, hlt, hs'⟩
  · exact hw.stops hc.dest_le ⟨_, rfl⟩ rfl
  · refine (Ends.iterM_zero (fun i p s' => Wrote L (c.destBlock + i) s' ∧ L.diffEnd ≤ p ∧
      p ≤ patch.length) count c.litPtr s ?_ ⟨hw, hc.lit_ge, hc.lit_le⟩).bind ?_
    · intro i p s' hi hpost
      obtain ⟨hwi, hlo, -⟩ := hpost
      exact writeLiteral_wrote (b := c.destBlock + i) hwi (by omega) hlo
    · intro p s' hpost
      obtain ⟨hwc, hlo, hhi⟩ := hpost
      have hn := hnext _ hlt hle
      exact ⟨⟨hn.op_ge, hle, hn.diff_ge, hn.diff_le, hlo, hhi, hcount⟩, hlt, hwc⟩
  · exact hw.stops hc.dest_le ⟨_, rfl⟩ rfl

theorem applyOp_ends (hc : c.Inside L) (hr : Running L c) (hw : Wrote L c.destBlock s) :
    Ends (applyOp m L c s) (Steps L c) (Stops L) := by
  have hop := hc.op_ge
  apply ((readByte_ends opRegion_inside hop hr.2).of_total).bind
  intro b s₁ hpost
  obtain ⟨-, rfl⟩ := hpost
  have hw₁ : Wrote L c.destBlock (s.logReads [c.opPtr] L.opRegion.stream) := by simpa [Wrote] using hw
  refine ends_ite (fun _ => applyCopyAdd_ends b hc hr hw₁) fun _ => ?_
  apply (Ends.mono (readCount_moves b (p := c.opPtr + 1) (by omega) hr.2) (fun _ _ h => h)
    (fun e s' h => hw₁.stops hc.dest_le h.1 h.2)).bind
  rintro ⟨count, p₁⟩ s₂ ⟨hp₁, hle₁, -, hs₂⟩
  have hw₂ : Wrote L c.destBlock s₂ := by rwa [Wrote, hs₂]
  refine ends_ite (fun _ => hw₂.stops hc.dest_le ⟨_, rfl⟩ rfl) fun hcount => ?_
  have hdest := hr.1
  exact applyCounted_ends b hc hw₂ (by omega) hp₁ hle₁

theorem start_inside : (L.start).Inside L :=
  ⟨le_rfl, Nat.le_add_right _ _, le_rfl, L.opEnd_le, le_rfl, L.diffEnd_le, Nat.zero_le _⟩

/-- Every iteration takes a byte of the operation stream, so its length is enough fuel. -/
theorem opLoop_ends (fuel : ℕ) (hc : c.Inside L) (hf : L.opEnd ≤ c.opPtr + fuel)
    (hw : Wrote L c.destBlock s) :
    Ends (opLoop m L fuel c s)
      (fun c' s' => c'.Inside L ∧ ¬ Running L c' ∧ Wrote L c'.destBlock s') (Stops L) := by
  induction fuel generalizing c s with
  | zero =>
    have hr : ¬ Running L c := fun hr => by have := hr.2; omega
    rw [opLoop, if_neg hr]
    exact ⟨hc, hr, hw⟩
  | succ fuel ih =>
    refine ends_ite (fun hr => ?_) fun hr => ⟨hc, hr, hw⟩
    apply (applyOp_ends hc hr hw).bind
    intro c' s' hpost
    obtain ⟨hc', hlt, hw'⟩ := hpost
    exact ih hc' (by omega) hw'

theorem applyOps_ends :
    Ends (applyOps m L {}) (fun _ s' => Wrote L L.destBlocks s') (Stops L) := by
  have hw : Wrote L L.start.destBlock {} := by simp [Wrote, Layout.start]
  refine (opLoop_ends _ start_inside ?_ hw).bind ?_
  · exact le_rfl
  · intro c s hpost
    obtain ⟨hc, -, hwc⟩ := hpost
    refine ends_ite (fun _ => hwc.stops hc.dest_le ⟨_, rfl⟩ rfl) fun hd => ?_
    rw [not_not] at hd
    exact hd ▸ hwc

/-- The loop invariant holds whenever the loop condition is evaluated. -/
theorem LoopHead.inv (h : LoopHead m L c s) : c.Inside L ∧ Wrote L c.destBlock s := by
  induction h with
  | start => exact ⟨start_inside, by simp [Wrote, Layout.start]⟩
  | next _ hr hs ih =>
    have h := (applyOp_ends ih.1 hr ih.2).of_ok hs
    exact ⟨h.1, h.2.2⟩

end Operations

theorem patchApply_defined (m : Machine) (patch : Bytes) :
    Ends (patchApply m patch) (fun _ _ => True) (fun e _ => e.Defined) := by
  unfold patchApply
  cases patchLayout patch with
  | error err => exact ⟨err, rfl⟩
  | ok L => exact applyOps_ends.mono (fun _ _ _ => trivial) (fun _ _ h => h.1)

/-- Whatever the patch, the source and the faults of the files, the decoder makes
no access out of range and returns `FSD_SUCCESS` or one of its error codes. -/
theorem patchApply_in_range (m : Machine) (patch : Bytes) :
    (∃ c s, patchApply m patch = .ok c s) ∨
      ∃ err s, patchApply m patch = .error (.fail err) s := by
  cases hr : patchApply m patch with
  | ok c s => exact .inl ⟨c, s, rfl⟩
  | error e s =>
    obtain ⟨err, rfl⟩ := (patchApply_defined m patch).of_error hr
    exact .inr ⟨err, s, rfl⟩

theorem patchLayout_header {patch : Bytes} {L : Layout patch} (h : patchLayout patch = .ok L) :
    headerReadMemory patch = .ok L.header := by
  unfold patchLayout at h
  cases hr : headerReadMemory patch with
  | error e => simp [hr] at h
  | ok header =>
    simp only [hr] at h
    split_ifs at h
    cases h
    rfl

theorem patchOutputSize_of_patchLayout {patch : Bytes} {L : Layout patch}
    (h : patchLayout patch = .ok L) :
    patchOutputSize patch = .ok (L.destBlocks * L.blockSize) := by
  have hlt := L.image_lt
  have hcap : ¬ (2 ^ 64 - 1) / L.header.blockSize < L.header.destBlocks := by
    rw [not_lt, Nat.le_div_iff_mul_le (lt_of_lt_of_le (by decide) L.header.blockSize_ge)]
    change L.destBlocks * L.blockSize ≤ _
    omega
  rw [patchOutputSize, headerRead_of_headerReadMemory (patchLayout_header h)]
  simp only [if_neg hcap]
  rw [u64_of_lt (by change L.destBlocks * L.blockSize < _; omega)]
  rfl

/-- At every loop head the output holds `dest_block` whole blocks. However an
operation ends (a fault may cut it at any call), the output is no larger than the
image; and a successful run writes exactly what `fsd_patch_output_size` reports. -/
theorem written_exact (m : Machine) (patch : Bytes) :
    (∀ L, patchLayout patch = .ok L → ∀ c s, LoopHead m L c s →
      s.written.length = c.destBlock * L.blockSize ∧ c.destBlock ≤ L.destBlocks ∧
      (Running L c → Ends (applyOp m L c s)
        (fun _ s' => s'.written.length ≤ L.destBlocks * L.blockSize)
        (fun _ s' => s'.written.length ≤ L.destBlocks * L.blockSize))) ∧
    ∀ c s, patchApply m patch = .ok c s → ∃ L, patchLayout patch = .ok L ∧
      s.written.length = L.destBlocks * L.blockSize ∧
      patchOutputSize patch = .ok s.written.length := by
  constructor
  · intro L _ c s h
    obtain ⟨hc, hw⟩ := h.inv
    refine ⟨hw, hc.dest_le, fun hr => ?_⟩
    exact (applyOp_ends hc hr hw).mono (fun c' s' h => h.2.2.le h.1.dest_le) (fun e s' h => h.2)
  · intro c s h
    unfold patchApply at h
    cases hl : patchLayout patch with
    | error e => simp [hl] at h
    | ok L =>
      simp only [hl] at h
      have hw : s.written.length = _ := applyOps_ends.of_ok h
      refine ⟨L, rfl, hw, ?_⟩
      rw [hw, patchOutputSize_of_patchLayout hl]

/-- One `ZERO` operation of one 32-byte block, with its count inline. -/
def zeroBlockPatch : Bytes := headerWrite 1 5 1 0 ++ [0x58]

/-- `ZERO`, `COPY_RELOCATE`, `COPY_ADD` with a sparse difference, and `LITERAL`, one block each. -/
def mixedPatch : Bytes :=
  headerWrite 4 5 13 3 ++ ([0x58, 0x21, 0x00, 0x01, 0x81, 0xC5, 0xFF, 0x00, 0x03, 0x00, 0x00, 0x00, 0xB8] ++
    ([1, 220, 31] ++ List.replicate 32 3))

def mixedSource : Bytes := List.replicate 72 7

def mixedLayout : Layout mixedPatch := ⟨smallHeader 4 13 3, by decide, by decide⟩

/-- Behind the third operation, and at the end. -/
theorem written_exact_mixedPatch :
    ∃ s o, LoopHead (reliable mixedSource) mixedLayout ⟨44, 48, 48, 3⟩ s ∧ s.written.length = 3 * 32 ∧
      patchApply (reliable mixedSource) mixedPatch = .ok ⟨45, 48, 80, 4⟩ o ∧
      patchOutputSize mixedPatch = .ok o.written.length := by
  obtain ⟨hheads, hend⟩ := written_exact (reliable mixedSource) mixedPatch
  have hop : ∀ c s c', (ending (applyOp (reliable mixedSource) mixedLayout c s)).1 = .ok c' →
      LoopHead (reliable mixedSource) mixedLayout c s → Running mixedLayout c →
      LoopHead (reliable mixedSource) mixedLayout c' (ending (applyOp (reliable mixedSource) mixedLayout c s)).2 :=
    fun c s c' h hhead hrunning => .next hhead hrunning (eq_ok_of_ending h)
  have h₁ := hop _ _ ⟨33, 45, 48, 1⟩ (by decide +kernel) .start (by decide)
  have h₂ := hop _ _ ⟨36, 45, 48, 2⟩ (by decide +kernel) h₁ (by decide)
  have h₃ := hop _ _ ⟨44, 48, 48, 3⟩ (by decide +kernel) h₂ (by decide)
  have hrun : patchApply (reliable mixedSource) mixedPatch = .ok ⟨45, 48, 80, 4⟩ _ :=
    eq_ok_of_ending (by decide +kernel)
  obtain ⟨_, _, _, hsize⟩ := hend _ _ hrun
  exact ⟨_, _, h₃, (hheads mixedLayout rfl _ _ h₃).1, hrun, hsize⟩

end Fsdiff.Patch
