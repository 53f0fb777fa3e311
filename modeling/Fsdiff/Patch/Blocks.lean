import Fsdiff.Patch.Diffs

/-! The block loops of the decoder on a source and an output that do not fail: when
a loop completes, what it writes, and which bytes of each stream it reads. -/
namespace Fsdiff.Patch
open ByteString Exec Format

/-- Between `s` and `s'` the output grew by `out`, and exactly these positions of
the three streams were read, in this order. -/
structure Grows (s s' : Output) (out : Bytes) (ops diffs lits : List ℕ) : Prop where
  written : s'.written = s.written ++ out
  opReads : s'.opReads = s.opReads ++ ops
  diffReads : s'.diffReads = s.diffReads ++ diffs
  litReads : s'.litReads = s.litReads ++ lits

theorem Grows.refl (s : Output) : Grows s s [] [] [] [] := by
  constructor <;> simp

theorem Grows.trans {s s₁ s₂ : Output} {out out' : Bytes} {ops ops' diffs diffs' lits lits' : List ℕ}
    (h : Grows s s₁ out ops diffs lits) (h' : Grows s₁ s₂ out' ops' diffs' lits') :
    Grows s s₂ (out ++ out') (ops ++ ops') (diffs ++ diffs') (lits ++ lits') := by
  constructor
  · rw [h'.written, h.written, List.append_assoc]
  · rw [h'.opReads, h.opReads, List.append_assoc]
  · rw [h'.diffReads, h.diffReads, List.append_assoc]
  · rw [h'.litReads, h.litReads, List.append_assoc]

theorem grows_logReads_op (s : Output) (ps : List ℕ) : Grows s (s.logReads ps .op) [] ps [] [] := by
  constructor <;> simp [Output.logReads]

theorem grows_logReads_diff (s : Output) (ps : List ℕ) :
    Grows s (s.logReads ps .diff) [] [] ps [] := by
  constructor <;> simp [Output.logReads]

theorem grows_logReads_lit (s : Output) (ps : List ℕ) :
    Grows s (s.logReads ps .lit) [] [] [] ps := by
  constructor <;> simp [Output.logReads]

/-! ### Block loops -/

section Blocks
variable {src patch : Bytes} {L : Layout patch} {s : Output}

theorem fetchBlock_reliable {pos : ℕ} (hpos : pos + L.blockSize < 2 ^ 64) :
    Ends (fetchBlock (reliable src) L pos s)
      (fun buf s' => pos + L.blockSize ≤ src.length ∧ buf = window src pos L.blockSize ∧
        Grows s s' [] [] [] [])
      (fun _ _ => src.length < pos + L.blockSize) := by
  refine (fetchBlock_ends hpos).mono ?_ (fun e s' h => h.2.2 rfl)
  intro buf s' hpost
  obtain ⟨hin, hbuf, rfl⟩ := hpost
  exact ⟨hin, hbuf, by constructor <;> simp⟩

theorem writeBlock_reliable (buf : Bytes) :
    Ends (writeBlock (reliable src) buf s) (fun _ s' => Grows s s' buf [] [] [])
      (fun _ _ => False) := by
  refine (writeBlock_ends buf).mono ?_ (fun e s' h => h.2.2 rfl)
  rintro - s' rfl
  constructor <;> simp

/-- A loop whose `i`-th pass completes exactly when `Ok i`, each pass taking the
loop state and the output one step along `cur`, `out` and the read positions. -/
theorem Ends.blocks {β : Type} (body : ℕ → β → Dec β) (count : ℕ) (Ok : ℕ → Prop) (cur : ℕ → β)
    (out : ℕ → Bytes) (diffs lits : ℕ → List ℕ)
    (hbody : ∀ i s', i < count → (∀ j < i, Ok j) → Grows s s' (out i) [] (diffs i) (lits i) →
      Ends (body i (cur i) s')
        (fun b s'' => b = cur (i + 1) ∧ Ok i ∧
          Grows s s'' (out (i + 1)) [] (diffs (i + 1)) (lits (i + 1)))
        (fun _ _ => ¬ Ok i))
    (h0 : out 0 = [] ∧ diffs 0 = [] ∧ lits 0 = []) :
    Ends (iterM body count 0 (cur 0) s)
      (fun b s' => b = cur count ∧ (∀ i < count, Ok i) ∧
        Grows s s' (out count) [] (diffs count) (lits count))
      (fun _ _ => ¬ ∀ i < count, Ok i) := by
  refine Ends.iterM_zero (fun i b s' => b = cur i ∧ (∀ j < i, Ok j) ∧
    Grows s s' (out i) [] (diffs i) (lits i)) count (cur 0) s ?_ ?_
  · intro i _ s' hi hpost
    obtain ⟨rfl, hok, hg⟩ := hpost
    refine (hbody i s' hi hok hg).mono ?_ (fun e s'' hne hall => hne (hall i hi))
    intro b s'' hpost
    obtain ⟨hb, hi', hg'⟩ := hpost
    refine ⟨hb, ?_, hg'⟩
    intro j hj
    rcases Nat.lt_succ_iff_lt_or_eq.mp hj with hlt | rfl
    · exact hok j hlt
    · exact hi'
  · rw [h0.1, h0.2.1, h0.2.2]
    exact ⟨rfl, by omega, Grows.refl s⟩

/-- The range `[p, p + n)` lies in the source. -/
def InSource (src : Bytes) (p : ℤ) (n : ℕ) : Prop := 0 ≤ p ∧ p + n ≤ src.length

theorem copyRange_of_inSource {p : ℤ} {n : ℕ} (h : InSource src p n) :
    copyRange src p n = some (window src p.toNat n) := if_pos h

theorem copyRange_eq_none {p : ℤ} {n : ℕ} (h : ¬ InSource src p n) : copyRange src p n = none :=
  if_neg h

theorem inSource_blocks {p : ℤ} {bs count : ℕ} (hc : 1 ≤ count) :
    (∀ i < count, InSource src (p + i * bs) bs) ↔ InSource src p (count * bs) := by
  obtain ⟨n, rfl⟩ : ∃ n, count = n + 1 := ⟨count - 1, by omega⟩
  constructor
  · intro h
    have hfirst := (h 0 (by omega)).1
    have hlast := (h n (by omega)).2
    refine ⟨by simpa using hfirst, ?_⟩
    push_cast
    linarith
  · rintro ⟨hp, hend⟩ i hi
    have hle : (i : ℤ) * bs ≤ n * bs := by
      exact_mod_cast Nat.mul_le_mul_right bs (by omega : i ≤ n)
    have hnn : (0 : ℤ) ≤ i * bs := by positivity
    push_cast at hend
    exact ⟨by linarith, by linarith⟩

theorem window_blocks {p : ℤ} {bs : ℕ} (hp : 0 ≤ p) (i : ℕ) :
    window src p.toNat (i * bs) ++ window src (p + i * bs).toNat bs =
      window src p.toNat ((i + 1) * bs) := by
  have hnat : (p + i * bs).toNat = p.toNat + i * bs := by
    have : (0 : ℤ) ≤ i * bs := by positivity
    zify
    rw [Int.toNat_of_nonneg (by linarith), Int.toNat_of_nonneg hp]
  rw [hnat, window_append, add_mul, one_mul]

theorem fetch_write_copies {pos : ℕ} (hpos : pos + L.blockSize < 2 ^ 64) {p : ℤ} (hp : p = pos) :
    Ends ((fetchBlock (reliable src) L pos >>= writeBlock (reliable src)) s)
      (fun _ s' => InSource src p L.blockSize ∧
        Grows s s' (window src p.toNat L.blockSize) [] [] [])
      (fun _ _ => ¬ InSource src p L.blockSize) := by
  subst hp
  refine ((fetchBlock_reliable hpos).weaken (fun e s' h hin => ?_)).bind ?_
  · have := hin.2
    omega
  · intro _ s' hpost
    obtain ⟨hin, rfl, hg⟩ := hpost
    refine (writeBlock_reliable _).mono (fun _ s'' hw => ?_) (fun _ _ h => h.elim)
    exact ⟨⟨by omega, by exact_mod_cast hin⟩, hg.trans hw⟩

theorem copyIdentityBlock_copies {b i : ℕ} (hb : b + i < L.destBlocks) :
    Ends (copyIdentityBlock (reliable src) L b i s)
      (fun _ s' => InSource src (b * L.blockSize + i * L.blockSize) L.blockSize ∧
        Grows s s' (window src (b * L.blockSize + i * L.blockSize : ℤ).toNat L.blockSize) [] [] [])
      (fun _ _ => ¬ InSource src (b * L.blockSize + i * L.blockSize) L.blockSize) := by
  have hlt := L.block_lt hb
  rw [copyIdentityBlock, identityOffset_eq L hb]
  exact fetch_write_copies (by omega) (by push_cast; ring)

theorem copyRelocateBlock_copies {b i : ℕ} {offset : ℤ} (hb : b + i < L.destBlocks)
    (ho : |offset| ≤ 2 ^ 32 - 1) :
    Ends (copyRelocateBlock (reliable src) L b offset i s)
      (fun _ s' => InSource src ((b + offset) * L.blockSize + i * L.blockSize) L.blockSize ∧
        Grows s s'
          (window src ((b + offset) * L.blockSize + i * L.blockSize : ℤ).toNat L.blockSize) [] [] [])
      (fun _ _ => ¬ InSource src ((b + offset) * L.blockSize + i * L.blockSize) L.blockSize) := by
  have hbs : (0 : ℤ) < L.blockSize := by exact_mod_cast lt_of_lt_of_le (by decide) L.blockSize_ge
  have hp : ((b : ℤ) + offset) * L.blockSize + i * L.blockSize =
      (b + i + offset) * L.blockSize := by ring
  simp only [copyRelocateBlock]
  rw [relocateBlock_eq L hb ho, relocateOffset_eq L hb ho, hp]
  refine ends_ite (fun hneg hin => ?_) fun hnn => ?_
  · have := mul_neg_of_neg_of_pos hneg hbs
    exact absurd hin.1 (by omega)
  · refine fetch_write_copies (relocate_end_lt L hb ho) ?_
    push_cast
    rw [Int.toNat_of_nonneg (by omega)]

/-- A loop that copies block after block copies the whole range, or fails when the
range leaves the source. -/
theorem forBlocks_copies {p : ℤ} {count : ℕ} {body : ℕ → Dec Unit} (hc : 1 ≤ count)
    (hbody : ∀ i s, i < count → Ends (body i s)
      (fun _ s' => InSource src (p + i * L.blockSize) L.blockSize ∧
        Grows s s' (window src (p + i * L.blockSize).toNat L.blockSize) [] [] [])
      (fun _ _ => ¬ InSource src (p + i * L.blockSize) L.blockSize)) :
    Ends (forBlocks count body s)
      (fun _ s' => ∃ out, copyRange src p (count * L.blockSize) = some out ∧ Grows s s' out [] [] [])
      (fun _ _ => copyRange src p (count * L.blockSize) = none) := by
  have hloop := Ends.blocks (s := s) (fun i _ => body i) count
    (fun i => InSource src (p + i * L.blockSize) L.blockSize) (fun _ => ())
    (fun i => window src p.toNat (i * L.blockSize)) (fun _ => []) (fun _ => []) ?_ ?_
  · refine hloop.mono ?_ (fun e s' h => copyRange_eq_none (by rwa [inSource_blocks hc] at h))
    intro _ s' hpost
    obtain ⟨-, hall, hg⟩ := hpost
    exact ⟨_, copyRange_of_inSource ((inSource_blocks hc).mp hall), hg⟩
  · intro i s' hi hok hg
    apply (hbody i s' hi).imp
    intro _ s'' hpost
    obtain ⟨hin, hg'⟩ := hpost
    have hp : 0 ≤ p := by
      rcases Nat.eq_zero_or_pos i with rfl | hpos
      · simpa using hin.1
      · simpa using (hok 0 hpos).1
    refine ⟨rfl, hin, ?_⟩
    rw [← window_blocks hp]
    exact hg.trans hg'
  · simp

theorem forBlocks_copyIdentity {b n : ℕ} (hn : 1 ≤ n) (hd : b + n ≤ L.destBlocks) :
    Ends (forBlocks n (copyIdentityBlock (reliable src) L b) s)
      (fun _ s' => ∃ out, copyRange src (b * L.blockSize) (n * L.blockSize) = some out ∧
        Grows s s' out [] [] [])
      (fun _ _ => copyRange src (b * L.blockSize) (n * L.blockSize) = none) :=
  forBlocks_copies hn fun _ _ hi => copyIdentityBlock_copies (by omega)

theorem forBlocks_copyRelocate {b n : ℕ} {offset : ℤ} (hn : 1 ≤ n) (hd : b + n ≤ L.destBlocks)
    (ho : |offset| ≤ 2 ^ 32 - 1) :
    Ends (forBlocks n (copyRelocateBlock (reliable src) L b offset) s)
      (fun _ s' => ∃ out, copyRange src ((b + offset) * L.blockSize) (n * L.blockSize) = some out ∧
        Grows s s' out [] [] [])
      (fun _ _ => copyRange src ((b + offset) * L.blockSize) (n * L.blockSize) = none) :=
  forBlocks_copies hn fun _ _ hi => copyRelocateBlock_copies (by omega) ho

theorem forBlocks_fills (count : ℕ) (v : UInt8) :
    Ends (forBlocks count (fun _ => writeBlock (reliable src) (List.replicate L.blockSize v)) s)
      (fun _ s' => Grows s s' (List.replicate (count * L.blockSize) v) [] [] [])
      (fun _ _ => False) := by
  have hloop := Ends.blocks (s := s)
    (fun _ _ => writeBlock (reliable src) (List.replicate L.blockSize v)) count (fun _ => True)
    (fun _ => ())
    (fun i => List.replicate (i * L.blockSize) v) (fun _ => []) (fun _ => []) ?_ ?_
  · exact hloop.mono (fun _ s' h => h.2.2) (fun _ _ h => h fun _ _ => trivial)
  · intro i s' _ _ hg
    refine (writeBlock_reliable _).mono (fun _ s'' hw => ?_) (fun _ _ h => h.elim)
    refine ⟨rfl, trivial, ?_⟩
    rw [add_mul, one_mul, List.replicate_add]
    exact hg.trans hw
  · simp

theorem writeLiteral_copies {litPtr : ℕ} (hlit : L.diffEnd ≤ litPtr) :
    Ends (writeLiteral (reliable src) L litPtr s)
      (fun p s' => p = litPtr + L.blockSize ∧ litPtr + L.blockSize ≤ patch.length ∧
        Grows s s' (window patch litPtr L.blockSize) [] [] (List.range' litPtr L.blockSize))
      (fun _ _ => ¬ litPtr + L.blockSize ≤ patch.length) := by
  refine ends_ite (fun h => not_le.mpr h) fun hin => ?_
  apply ((readBytes_ends litRegion_inside L.blockSize litPtr hlit (not_lt.mp hin)).mono
    (fun _ _ h => h) (fun _ _ h => h.elim)).bind
  intro _ _ hpost
  obtain ⟨rfl, rfl⟩ := hpost
  apply ((writeBlock_reliable _).of_total).bind
  intro _ s' hw
  exact ⟨rfl, not_lt.mp hin, by simpa using (grows_logReads_lit s _).trans hw⟩

/-- A literal loop copies the next `count` blocks of the literal stream, or fails
when the stream is shorter. -/
theorem iterM_writeLiteral (count : ℕ) {litPtr : ℕ} (hc : 1 ≤ count) (hlit : L.diffEnd ≤ litPtr) :
    Ends (iterM (fun _ => writeLiteral (reliable src) L) count 0 litPtr s)
      (fun p s' => p = litPtr + count * L.blockSize ∧ p ≤ patch.length ∧
        Grows s s' (window patch litPtr (count * L.blockSize)) [] []
          (List.range' litPtr (count * L.blockSize)))
      (fun _ _ => ¬ litPtr + count * L.blockSize ≤ patch.length) := by
  have hall : (∀ i < count, litPtr + i * L.blockSize + L.blockSize ≤ patch.length) ↔
      litPtr + count * L.blockSize ≤ patch.length := by
    constructor
    · intro h
      have := h (count - 1) (by omega)
      rwa [add_assoc, ← Nat.succ_mul, Nat.succ_eq_add_one, Nat.sub_add_cancel hc] at this
    · intro h i hi
      have := Nat.mul_le_mul_right L.blockSize (show i + 1 ≤ count from hi)
      rw [add_mul, one_mul] at this
      omega
  have hloop := Ends.blocks (s := s) (fun _ => writeLiteral (reliable src) L) count
    (fun i => litPtr + i * L.blockSize + L.blockSize ≤ patch.length)
    (fun i => litPtr + i * L.blockSize) (fun i => window patch litPtr (i * L.blockSize)) (fun _ => [])
    (fun i => List.range' litPtr (i * L.blockSize)) ?_ ?_
  · rw [zero_mul, add_zero] at hloop
    refine hloop.mono ?_ (fun e s' h => by rwa [hall] at h)
    intro _ s' hpost
    obtain ⟨rfl, hok, hg⟩ := hpost
    exact ⟨rfl, hall.mp hok, hg⟩
  · intro i s' _ _ hg
    apply (writeLiteral_copies (by omega)).imp
    intro _ s'' hpost
    obtain ⟨rfl, hin, hg'⟩ := hpost
    refine ⟨by rw [add_mul, one_mul, add_assoc], hin, ?_⟩
    rw [add_mul, one_mul, ← window_append, ← List.range'_append_1]
    exact hg.trans hg'
  · simp

/-! ### Blocks of a `COPY_ADD` -/

/-- The source block of one pass, for either diff format. -/
theorem copyAddBlock_copies {r : Region} {diffFmt b i cursor : ℕ} {byteOffset : ℤ}
    (hb : b + i < L.destBlocks) (h62 : L.destBlocks * L.blockSize ≤ 2 ^ 62)
    (hl : -2 ^ 31 ≤ byteOffset) (hu : byteOffset < 2 ^ 31) {Q : ℕ → Output → Prop}
    (hk : ∀ s', InSource src (b * L.blockSize + byteOffset + i * L.blockSize) L.blockSize →
      Grows s s' [] [] [] [] → Ends ((do
        let buf := window src
          (b * L.blockSize + byteOffset + i * L.blockSize : ℤ).toNat L.blockSize
        if diffFmt = 0 then do
          let buf ← denseBlock L r i buf
          writeBlock (reliable src) buf
          pure cursor
        else do
          let t ← sparseBlock L r cursor buf
          writeBlock (reliable src) t.buf
          pure t.cursor : Dec ℕ) s') Q (fun _ _ => False)) :
    Ends (copyAddBlock (reliable src) L r diffFmt b byteOffset i cursor s)
      (fun p s' => InSource src (b * L.blockSize + byteOffset + i * L.blockSize) L.blockSize ∧ Q p s')
      (fun _ _ => ¬ InSource src (b * L.blockSize + byteOffset + i * L.blockSize) L.blockSize) := by
  have hle := L.block_le hb
  have hpos := copyAddPos_end_lt L b i byteOffset
  have heq : copyAddPos L b i byteOffset = b * L.blockSize + byteOffset + i * L.blockSize := by
    rw [copyAddPos_eq L hb hl (by omega)]
    push_cast
    ring
  simp only [copyAddBlock]
  rw [heq] at hpos ⊢
  generalize (b : ℤ) * L.blockSize + byteOffset + i * L.blockSize = p at *
  refine ends_ite (fun hneg hin => absurd hin.1 (by omega)) fun hnn => ?_
  refine ((fetchBlock_reliable hpos).weaken (fun e s' h hin => ?_)).bind ?_
  · have := hin.2
    omega
  · intro _ s' hpost
    obtain ⟨hin, rfl, hg⟩ := hpost
    have hsrc : InSource src p L.blockSize := ⟨by omega, by omega⟩
    exact (hk s' hsrc hg).mono (fun _ _ h => ⟨hsrc, h⟩) (fun _ _ h => h.elim)

theorem addAt_zero {buf diff : Bytes} (h : diff.length = buf.length) :
    addAt buf 0 diff = List.zipWith (· + ·) buf diff := by
  rw [addAt_eq _ _ _ (by omega)]
  simp [h]

/-- Facts that the passes of one `COPY_ADD` share. -/
structure CopyAddInside (L : Layout patch) (r : Region) (b count : ℕ) (byteOffset : ℤ) : Prop where
  inside : r.Inside L
  stream : r.stream = .diff
  one_le : 1 ≤ count
  dest_le : b + count ≤ L.destBlocks
  image_le : L.destBlocks * L.blockSize ≤ 2 ^ 62
  offset_ge : -2 ^ 31 ≤ byteOffset
  offset_lt : byteOffset < 2 ^ 31

/-- A pass writes its block and moves the reading position of the diff stream. -/
theorem iterM_copyAddBlock (src : Bytes) (diffFmt : ℕ) {r : Region} {b count : ℕ} {byteOffset : ℤ}
    (h : CopyAddInside L r b count byteOffset) (cur : ℕ → ℕ) (out : ℕ → Bytes)
    (diffs : ℕ → List ℕ) (h0 : cur 0 = r.lo ∧ out 0 = [] ∧ diffs 0 = [])
    (hbody : ∀ i s', i < count → InSource src (b * L.blockSize + byteOffset) ((i + 1) * L.blockSize) →
      Grows s s' (out i) [] (diffs i) [] → Ends ((do
        let buf := window src
          (b * L.blockSize + byteOffset + i * L.blockSize : ℤ).toNat L.blockSize
        if diffFmt = 0 then do
          let buf ← denseBlock L r i buf
          writeBlock (reliable src) buf
          pure (cur i)
        else do
          let t ← sparseBlock L r (cur i) buf
          writeBlock (reliable src) t.buf
          pure t.cursor : Dec ℕ) s')
        (fun c s'' => c = cur (i + 1) ∧ Grows s s'' (out (i + 1)) [] (diffs (i + 1)) [])
        (fun _ _ => False)) :
    Ends (iterM (copyAddBlock (reliable src) L r diffFmt b byteOffset) count 0 r.lo s)
      (fun _ s' => InSource src (b * L.blockSize + byteOffset) (count * L.blockSize) ∧
        Grows s s' (out count) [] (diffs count) [])
      (fun _ _ => ¬ InSource src (b * L.blockSize + byteOffset) (count * L.blockSize)) := by
  have hdest := h.dest_le
  have hloop := Ends.blocks (s := s)
    (copyAddBlock (reliable src) L r diffFmt b byteOffset) count
    (fun i => InSource src (b * L.blockSize + byteOffset + i * L.blockSize) L.blockSize)
    cur out diffs (fun _ => []) ?_ ⟨h0.2.1, h0.2.2, rfl⟩
  · rw [h0.1] at hloop
    refine hloop.mono ?_ (fun e s' hne => by rwa [inSource_blocks h.one_le] at hne)
    intro c s' hpost
    obtain ⟨-, hall, hg⟩ := hpost
    exact ⟨(inSource_blocks h.one_le).mp hall, hg⟩
  · intro i s' hi hok hg
    refine (copyAddBlock_copies (by omega) h.image_le h.offset_ge h.offset_lt
      (fun s₁ hin hg₁ => hbody i s₁ hi ?_ (by simpa using hg.trans hg₁))).imp ?_
    · refine (inSource_blocks (by omega)).mp fun j hj => ?_
      rcases Nat.lt_succ_iff_lt_or_eq.mp hj with hlt | rfl
      · exact hok j hlt
      · exact hin
    · intro c s'' hpost
      obtain ⟨hin, hc, hg'⟩ := hpost
      exact ⟨hc, hin, hg'⟩

theorem InSource.length_window {src : Bytes} {p : ℤ} {n k : ℕ} (h : InSource src p n) (hk : k ≤ n) :
    (window src p.toNat k).length = k := by
  obtain ⟨h0, hend⟩ := h
  exact ByteString.length_window (by omega)

theorem iterM_dense {r : Region} {b count : ℕ} {byteOffset : ℤ} {data : Bytes}
    (h : CopyAddInside L r b count byteOffset) (hlen : data.length = count * L.blockSize)
    (hhi : r.hi = r.lo + data.length) (hocc : OccursAt patch r.lo data) :
    Ends (iterM (copyAddBlock (reliable src) L r 0 b byteOffset) count 0 r.lo s)
      (fun _ s' => InSource src (b * L.blockSize + byteOffset) (count * L.blockSize) ∧
        Grows s s' (List.zipWith (· + ·)
          (window src (b * L.blockSize + byteOffset : ℤ).toNat (count * L.blockSize)) data) []
          (List.range' r.lo data.length) [])
      (fun _ _ => ¬ InSource src (b * L.blockSize + byteOffset) (count * L.blockSize)) := by
  have hdest := h.dest_le
  have hdata : data = window patch r.lo (count * L.blockSize) := by rw [← hlen, hocc.window_eq]
  have hin := (L.hi_le r.stream).trans' h.inside.2
  have himg := L.image_lt
  rw [hlen, hdata]
  refine iterM_copyAddBlock src 0 h (fun _ => r.lo)
    (fun i => List.zipWith (· + ·)
      (window src (b * L.blockSize + byteOffset : ℤ).toNat (i * L.blockSize))
      (window patch r.lo (i * L.blockSize)))
    (fun i => List.range' r.lo (i * L.blockSize)) (by simp) ?_
  intro i s' hi hsrc hg
  have hmul := Nat.mul_le_mul_right L.blockSize (show i + 1 ≤ count from hi)
  have hcap := Nat.mul_le_mul_right L.blockSize (show count ≤ L.destBlocks by omega)
  rw [add_mul, one_mul] at hmul
  have hblk := (inSource_blocks (by omega)).mpr hsrc i (by omega)
  have hsrc_len := hsrc.length_window (Nat.mul_le_mul_right L.blockSize (Nat.le_succ i))
  have hbuf := hblk.length_window le_rfl
  apply (denseBlock_adds h.inside hbuf (by omega) (by omega)).bind
  intro _ _ hpost
  obtain ⟨rfl, rfl⟩ := hpost
  apply ((writeBlock_reliable _).of_total).bind
  intro _ s'' hw
  refine ⟨rfl, ?_⟩
  have hwin : (window patch (r.lo + i * L.blockSize) L.blockSize).length = L.blockSize :=
    length_window (by omega)
  rw [addAt_zero (by rw [hwin, hbuf])] at hw
  rw [← window_blocks hsrc.1, add_mul, one_mul, ← window_append (n := i * L.blockSize),
    List.zipWith_append (by rw [hsrc_len, length_window (by omega)]), ← List.range'_append_1]
  rw [h.stream] at hw
  simpa using (hg.trans (grows_logReads_diff s' _)).trans hw

theorem applySparse_append {bs : ℕ} {src₁ src₂ : Bytes} {blocks blocks' : List Runs}
    (h : src₁.length = blocks.length * bs) :
    applySparse bs (src₁ ++ src₂) (blocks ++ blocks') =
      applySparse bs src₁ blocks ++ applySparse bs src₂ blocks' := by
  induction blocks generalizing src₁ with
  | nil =>
    obtain rfl : src₁ = [] := List.eq_nil_of_length_eq_zero (by simpa using h)
    rfl
  | cons runs rest ih =>
    rw [List.length_cons, add_mul, one_mul] at h
    have hd : (src₁.drop bs).length = rest.length * bs := by
      rw [List.length_drop]
      omega
    rw [List.cons_append, applySparse, applySparse, List.take_append_of_le_length (by omega),
      List.drop_append_of_le_length (by omega), ih hd, List.append_assoc]

theorem applySparse_singleton {bs : ℕ} {buf : Bytes} (h : buf.length = bs) (runs : Runs) :
    applySparse bs buf [runs] = applyRuns buf runs := by
  simp [applySparse, ← h]

/-- Bytes of the first `i` blocks of a sparse diff. -/
def sparseLen (blocks : List Runs) (i : ℕ) : ℕ := (Diff.sparse (blocks.take i)).bytes.length

theorem sparse_split {blocks : List Runs} {i : ℕ} {runs : Runs} (h : blocks[i]? = some runs) :
    blocks.take (i + 1) = blocks.take i ++ [runs] ∧
      (Diff.sparse blocks).bytes = (Diff.sparse (blocks.take i)).bytes ++
        (runs.flatMap runBytes ++ (Diff.sparse (blocks.drop (i + 1))).bytes) := by
  constructor
  · rw [List.take_add_one, h, Option.toList_some]
  · have hsplit : blocks = blocks.take i ++ (runs :: blocks.drop (i + 1)) := by
      obtain ⟨hlt, rfl⟩ := List.getElem?_eq_some_iff.mp h
      rw [← List.drop_eq_getElem_cons hlt, List.take_append_drop]
    conv_lhs => rw [hsplit]
    simp [Diff.bytes]

theorem iterM_sparse {r : Region} {b count : ℕ} {byteOffset : ℤ} {blocks : List Runs}
    (h : CopyAddInside L r b count byteOffset) (hfits : (Diff.sparse blocks).Fits L.blockSize count)
    (hhi : r.hi = r.lo + (Diff.sparse blocks).bytes.length)
    (hocc : OccursAt patch r.lo (Diff.sparse blocks).bytes) :
    Ends (iterM (copyAddBlock (reliable src) L r 1 b byteOffset) count 0 r.lo s)
      (fun _ s' => InSource src (b * L.blockSize + byteOffset) (count * L.blockSize) ∧
        Grows s s' (applySparse L.blockSize
          (window src (b * L.blockSize + byteOffset : ℤ).toNat (count * L.blockSize)) blocks) []
          (List.range' r.lo (Diff.sparse blocks).bytes.length) [])
      (fun _ _ => ¬ InSource src (b * L.blockSize + byteOffset) (count * L.blockSize)) := by
  obtain ⟨hlen, htiles⟩ := hfits
  have hall : blocks.take count = blocks := by rw [← hlen, List.take_length]
  have hloop := iterM_copyAddBlock (s := s) src 1 h
    (fun i => r.lo + sparseLen blocks i)
    (fun i => applySparse L.blockSize
      (window src (b * L.blockSize + byteOffset : ℤ).toNat (i * L.blockSize)) (blocks.take i))
    (fun i => List.range' r.lo (sparseLen blocks i)) (by simp [sparseLen, Diff.bytes, applySparse]) ?_
  · simpa only [sparseLen, hall] using hloop
  intro i s' hi hsrc hg
  obtain ⟨runs, hruns⟩ : ∃ runs, blocks[i]? = some runs := ⟨_, List.getElem?_eq_getElem (by omega)⟩
  obtain ⟨htake, hbytes⟩ := sparse_split hruns
  have hstep : sparseLen blocks (i + 1) = sparseLen blocks i + (runs.flatMap runBytes).length := by
    simp [sparseLen, Diff.bytes, htake]
  have hruns_occ : OccursAt patch (r.lo + sparseLen blocks i) (runs.flatMap runBytes) := by
    rw [hbytes, occursAt_append, occursAt_append] at hocc
    exact hocc.2.1
  have hend : r.lo + sparseLen blocks (i + 1) ≤ r.hi := by
    rw [hhi, hbytes, hstep]
    simp only [List.length_append, sparseLen]
    omega
  have hblk := (inSource_blocks (by omega)).mpr hsrc i (by omega)
  have hsrc_len : (window src (b * L.blockSize + byteOffset : ℤ).toNat (i * L.blockSize)).length =
      (blocks.take i).length * L.blockSize := by
    rw [List.length_take, min_eq_left (by omega)]
    exact hsrc.length_window (Nat.mul_le_mul_right L.blockSize (Nat.le_succ i))
  have hbuf := hblk.length_window le_rfl
  apply (sparseBlock_tiles h.inside hbuf (htiles runs (List.mem_of_getElem? hruns)) (by omega)
    (by omega) hruns_occ).bind
  intro t _ hpost
  obtain ⟨hcur, hout, rfl⟩ := hpost
  apply ((writeBlock_reliable _).of_total).bind
  intro _ s'' hw
  refine ⟨by rw [hcur, hstep, add_assoc], ?_⟩
  rw [htake, hstep, ← window_blocks hsrc.1, applySparse_append hsrc_len, applySparse_singleton hbuf,
    ← List.range'_append_1, ← hout]
  rw [h.stream] at hw
  simpa using (hg.trans (grows_logReads_diff s' _)).trans hw

/-- Either format: the copied range with the diff applied. -/
theorem iterM_diff {r : Region} {b count : ℕ} {byteOffset : ℤ} {diff : Diff}
    (h : CopyAddInside L r b count byteOffset) (hfits : diff.Fits L.blockSize count)
    (hhi : r.hi = r.lo + diff.bytes.length) (hocc : OccursAt patch r.lo diff.bytes) :
    Ends (iterM (copyAddBlock (reliable src) L r diff.fmt b byteOffset) count 0 r.lo s)
      (fun _ s' => ∃ copied,
        copyRange src (b * L.blockSize + byteOffset) (count * L.blockSize) = some copied ∧
        Grows s s' (applyDiff L.blockSize copied diff) [] (List.range' r.lo diff.bytes.length) [])
      (fun _ _ => copyRange src (b * L.blockSize + byteOffset) (count * L.blockSize) = none) := by
  cases diff with
  | dense data =>
    exact (iterM_dense h hfits hhi hocc).mono
      (fun _ _ h => ⟨_, copyRange_of_inSource h.1, h.2⟩) (fun _ _ h => copyRange_eq_none h)
  | sparse blocks =>
    exact (iterM_sparse h hfits hhi hocc).mono
      (fun _ _ h => ⟨_, copyRange_of_inSource h.1, h.2⟩) (fun _ _ h => copyRange_eq_none h)

end Blocks

end Fsdiff.Patch
