import Fsdiff.Patch.Faults
import Fsdiff.Patch.Safety
import Mathlib.Data.List.GetD

/-! A patch that applies still applies, to the same effect, when bytes are added behind the source
or behind the patch: to an image on a larger device, or from a padded file. -/
namespace Fsdiff.Patch
open ByteString Exec

/-- The same faults, and a source that goes on where the other ends. -/
structure Machine.Extends (m m' : Machine) : Prop where
  src : m.src <+: m'.src
  readFault : m'.readFault = m.readFault
  writeFault : m'.writeFault = m.writeFault

/-- The same header, found at the head of a longer patch. -/
def Layout.extend {patch : Bytes} (L : Layout patch) (tail : Bytes) : Layout (patch ++ tail) where
  header := L.header
  destBlocks_le := L.destBlocks_le
  streams_le := by
    rw [List.length_append]
    exact L.streams_le.trans (Nat.le_add_right _ _)

section Reads
variable {patch : Bytes} (L : Layout patch) (tail : Bytes) (r : Region)

theorem hi_le_length (st : Stream) : L.hi st ≤ patch.length := by
  have := L.streams_le
  cases st <;> simp only [Layout.hi, Layout.diffEnd, Layout.opEnd] <;> omega

theorem lo_extend (st : Stream) : (L.extend tail).lo st = L.lo st := by
  cases st <;> rfl

theorem hi_le_extend (st : Stream) : L.hi st ≤ (L.extend tail).hi st := by
  cases st with
  | lit => simp [Layout.hi]
  | _ => exact le_rfl

/-- A position that a region of the patch has, the same region of the longer patch has too. -/
theorem readByte_extends {r r' : Region} (hs : r'.stream = r.stream) (hlo : r'.lo = r.lo)
    (hhi : r.hi ≤ r'.hi) (pos : ℕ) :
    Refines (readByte L r pos) (readByte (L.extend tail) r' pos) := by
  by_cases h : L.lo r.stream ≤ pos ∧ pos < L.hi r.stream ∧ r.lo ≤ pos ∧ pos < r.hi
  · have hlen := hi_le_length L r.stream
    have hext := hi_le_extend L tail r.stream
    have h' : (L.extend tail).lo r'.stream ≤ pos ∧ pos < (L.extend tail).hi r'.stream ∧
        r'.lo ≤ pos ∧ pos < r'.hi := by
      rw [hs, hlo, lo_extend]
      omega
    rw [readByte, readByte, if_pos h, if_pos h', hs, List.getElem?_append_left (by omega)]
    exact .refl _
  · rw [readByte, if_neg h]
    exact refines_throw _ _

theorem readBytes_extends {r r' : Region} (hs : r'.stream = r.stream) (hlo : r'.lo = r.lo)
    (hhi : r.hi ≤ r'.hi) (n pos : ℕ) :
    Refines (readBytes L r n pos) (readBytes (L.extend tail) r' n pos) := by
  induction n generalizing pos with
  | zero => exact .refl _
  | succ n ih =>
    apply (readByte_extends L tail hs hlo hhi pos).bind
    intro b
    exact (ih (pos + 1)).bind fun _ => .refl _

theorem readLe_extends (k ptr : ℕ) : Refines (readLe L k ptr) (readLe (L.extend tail) k ptr) :=
  .ite (.refl _) ((readBytes_extends L tail rfl rfl le_rfl k ptr).bind fun _ => .refl _)

theorem readVarintLoop_extends (left ptr value shift : ℕ) :
    Refines (readVarintLoop L r left ptr value shift)
      (readVarintLoop (L.extend tail) r left ptr value shift) := by
  induction left generalizing ptr value shift with
  | zero => exact .refl _
  | succ left ih =>
    apply (readByte_extends L tail rfl rfl le_rfl ptr).bind
    intro byte
    exact .ite (.refl _) (.ite (.refl _) (ih _ _ _))

theorem readVarint_extends (ptr : ℕ) :
    Refines (readVarint L r ptr) (readVarint (L.extend tail) r ptr) :=
  readVarintLoop_extends L tail r _ ptr 0 0

theorem readLe_map_extends {α : Type} (k ptr : ℕ) (f : ℕ × ℕ → Dec α) :
    Refines (readLe L k ptr >>= f) (readLe (L.extend tail) k ptr >>= f) :=
  (readLe_extends L tail k ptr).bind fun _ => .refl _

theorem readCount_extends (b : UInt8) (ptr : ℕ) :
    Refines (readCount L b ptr) (readCount (L.extend tail) b ptr) := by
  unfold readCount
  split
  · exact readLe_map_extends L tail 1 ptr _
  · exact readLe_map_extends L tail 2 ptr _
  · exact readLe_extends L tail 4 ptr
  · exact .refl _

theorem readCopyAddCount_extends (b : UInt8) (ptr : ℕ) :
    Refines (readCopyAddCount L b ptr) (readCopyAddCount (L.extend tail) b ptr) := by
  unfold readCopyAddCount
  split
  · exact readLe_map_extends L tail 1 ptr _
  · exact readLe_map_extends L tail 2 ptr _
  · exact readLe_extends L tail 4 ptr
  · exact .refl _

theorem readRelocateOffset_extends (b : UInt8) (ptr : ℕ) :
    Refines (readRelocateOffset L b ptr) (readRelocateOffset (L.extend tail) b ptr) := by
  have hdistance : Refines (readRelocateDistance L b ptr) (readRelocateDistance (L.extend tail) b ptr) := by
    unfold readRelocateDistance
    split
    · exact readLe_extends L tail 1 ptr
    · exact readLe_extends L tail 2 ptr
    · exact readLe_extends L tail 4 ptr
    · exact .refl _
  exact hdistance.bind fun _ => .refl _

theorem readByteOffset_extends (b : UInt8) (ptr : ℕ) :
    Refines (readByteOffset L b ptr) (readByteOffset (L.extend tail) b ptr) := by
  unfold readByteOffset
  split
  · exact readLe_map_extends L tail 2 ptr _
  · exact readLe_map_extends L tail 3 ptr _
  · exact readLe_map_extends L tail 4 ptr _
  · exact .refl _

theorem denseBlock_extends (blk : ℕ) (buf : Bytes) :
    Refines (denseBlock L r blk buf) (denseBlock (L.extend tail) r blk buf) := by
  refine .ite (.refl _) (.iterM (fun k buf => ?_) _ 0 buf)
  exact (readByte_extends L tail rfl rfl le_rfl _).bind fun _ => .refl _

theorem addRun_extends (addLen : ℕ) (s : SparseState) :
    Refines (addRun L r addLen s) (addRun (L.extend tail) r addLen s) := by
  refine .iterM (fun _ s => ?_) addLen 0 s
  exact (readByte_extends L tail rfl rfl le_rfl s.cursor).bind fun _ => .refl _

theorem sparseLoop_extends (fuel : ℕ) (s : SparseState) :
    Refines (sparseLoop L r fuel s) (sparseLoop (L.extend tail) r fuel s) := by
  induction fuel generalizing s with
  | zero => exact .refl _
  | succ fuel ih =>
    refine .ite ?_ (.refl _)
    apply (readVarint_extends L tail r s.cursor).bind
    rintro ⟨addLen, cursor⟩
    refine .ite (.refl _) ?_
    apply (addRun_extends L tail r addLen _).bind
    intro s
    refine .ite (.refl _) ?_
    apply (readVarint_extends L tail r s.cursor).bind
    rintro ⟨copyLen, cursor⟩
    exact .ite (.refl _) (.ite (.refl _) (ih _))

end Reads

section Blocks
variable {m m' : Machine} (hm : m.Extends m') {patch : Bytes} (L : Layout patch) (tail : Bytes)
include hm

theorem sourceReadAt_extends (offset len : ℕ) :
    Refines (sourceReadAt m offset len) (sourceReadAt m' offset len) := by
  obtain ⟨more, hmore⟩ := hm.src
  unfold sourceReadAt
  rw [hm.readFault]
  apply (Refines.refl get).bind
  intro s
  apply (Refines.refl (modify _)).bind
  intro _
  cases m.readFault s.reads with
  | some e => exact .refl _
  | none =>
    dsimp only
    by_cases hin : offset + len ≤ m.src.length
    · have hin' : offset + len ≤ m'.src.length := by
        rw [← hmore, List.length_append]
        omega
      have hwindow : window m'.src offset len = window m.src offset len := by
        apply window_ext
        intro k hk
        rw [← hmore, List.getElem?_append_left (by omega)]
      rw [if_pos hin, if_pos hin', hwindow]
      exact .refl _
    · rw [if_neg hin]
      exact refines_throw _ _

theorem writeBlock_extends (buf : Bytes) : Refines (writeBlock m buf) (writeBlock m' buf) := by
  unfold writeBlock
  rw [hm.writeFault]
  exact .refl _

theorem fetchBlock_extends (pos : ℕ) :
    Refines (fetchBlock m L pos) (fetchBlock m' (L.extend tail) pos) := by
  have hlen := hm.src.length_le
  unfold fetchBlock
  by_cases h : m.src.length < u64 (pos + L.blockSize)
  · rw [if_pos h]
    exact refines_throw _ _
  · have h' : ¬ m'.src.length < u64 (pos + (L.extend tail).blockSize) := by
      change ¬ m'.src.length < u64 (pos + L.blockSize)
      omega
    rw [if_neg h, if_neg h']
    exact sourceReadAt_extends hm pos L.blockSize

theorem fetch_write_extends (pos : ℕ) :
    Refines (fetchBlock m L pos >>= writeBlock m)
      (fetchBlock m' (L.extend tail) pos >>= writeBlock m') :=
  (fetchBlock_extends hm L tail pos).bind (writeBlock_extends hm)

theorem writeLiteral_extends (litPtr : ℕ) :
    Refines (writeLiteral m L litPtr) (writeLiteral m' (L.extend tail) litPtr) := by
  unfold writeLiteral
  by_cases h : patch.length < litPtr + L.blockSize
  · rw [if_pos h]
    exact refines_throw _ _
  · have h' : ¬ (patch ++ tail).length < litPtr + (L.extend tail).blockSize := by
      change ¬ (patch ++ tail).length < litPtr + L.blockSize
      rw [List.length_append]
      omega
    have hhi : L.litRegion.hi ≤ (L.extend tail).litRegion.hi := hi_le_extend L tail .lit
    have hread : Refines (readBytes L L.litRegion L.blockSize litPtr)
        (readBytes (L.extend tail) (L.extend tail).litRegion L.blockSize litPtr) := by
      refine readBytes_extends L tail ?_ ?_ hhi L.blockSize litPtr <;> rfl
    rw [if_neg h, if_neg h']
    apply hread.bind
    intro buf
    exact (writeBlock_extends hm buf).bind fun _ => .refl _

theorem copyAddBlock_extends (r : Region) (diffFmt destBlock : ℕ) (byteOffset : ℤ) (blk cursor : ℕ) :
    Refines (copyAddBlock m L r diffFmt destBlock byteOffset blk cursor)
      (copyAddBlock m' (L.extend tail) r diffFmt destBlock byteOffset blk cursor) := by
  refine .ite (.refl _) ?_
  apply (fetchBlock_extends hm L tail _).bind
  intro buf
  apply Refines.ite
  · apply (denseBlock_extends L tail r blk buf).bind
    exact fun buf => (writeBlock_extends hm buf).bind fun _ => .refl _
  · apply (sparseLoop_extends L tail r _ _).bind
    exact fun s => (writeBlock_extends hm s.buf).bind fun _ => .refl _

theorem applyCopyAdd_extends (b : UInt8) (c : Cursors) :
    Refines (applyCopyAdd m L b c) (applyCopyAdd m' (L.extend tail) b c) := by
  refine .ite (.refl _) ?_
  apply (readByteOffset_extends L tail b _).bind
  rintro ⟨byteOffset, opPtr⟩
  apply (readCopyAddCount_extends L tail b opPtr).bind
  rintro ⟨count, opPtr⟩
  refine .ite (.refl _) ?_
  apply (readLe_extends L tail 4 opPtr).bind
  rintro ⟨diffLen, opPtr⟩
  refine .ite (.refl _) ?_
  apply (Refines.iterM (copyAddBlock_extends hm L tail _ _ _ byteOffset) count 0 _).bind
  exact fun _ => .refl _

theorem applyCounted_extends (b : UInt8) (count opPtr : ℕ) (c : Cursors) :
    Refines (applyCounted m L b count opPtr c) (applyCounted m' (L.extend tail) b count opPtr c) := by
  unfold applyCounted
  split
  · exact (forBlocks_refines fun _ => fetch_write_extends hm L tail _).bind fun _ => .refl _
  · apply (readRelocateOffset_extends L tail b opPtr).bind
    rintro ⟨offset, opPtr⟩
    refine (forBlocks_refines fun i => ?_).bind fun _ => .refl _
    exact .ite (.refl _) (fetch_write_extends hm L tail _)
  · exact (forBlocks_refines fun _ => writeBlock_extends hm _).bind fun _ => .refl _
  · exact (forBlocks_refines fun _ => writeBlock_extends hm _).bind fun _ => .refl _
  · exact (Refines.iterM (fun _ => writeLiteral_extends hm L tail) count 0 _).bind fun _ => .refl _
  · exact .refl _

theorem applyOp_extends (c : Cursors) :
    Refines (applyOp m L c) (applyOp m' (L.extend tail) c) := by
  apply (readByte_extends L tail rfl rfl le_rfl c.opPtr).bind
  intro b
  apply Refines.ite (applyCopyAdd_extends hm L tail b c)
  apply (readCount_extends L tail b _).bind
  rintro ⟨count, opPtr⟩
  exact .ite (.refl _) (applyCounted_extends hm L tail b count opPtr c)

theorem opLoop_extends (fuel : ℕ) (c : Cursors) :
    Refines (opLoop m L fuel c) (opLoop m' (L.extend tail) fuel c) := by
  induction fuel generalizing c with
  | zero => exact .refl _
  | succ fuel ih => exact .ite ((applyOp_extends hm L tail c).bind ih) (.refl _)

end Blocks

theorem headerReadMemory_append {data : Bytes} (h : headerSize ≤ data.length) (tail : Bytes) :
    headerReadMemory (data ++ tail) = headerReadMemory data := by
  have hlen : ¬ (data ++ tail).length < headerSize := by
    rw [List.length_append]
    omega
  have hw : ∀ p n, p + n ≤ headerSize → window (data ++ tail) p n = window data p n := by
    intro p n hpn
    apply window_ext
    intro k hk
    rw [List.getElem?_append_left (by omega)]
  have hg : ∀ k < headerSize, (data ++ tail).getD k 0 = data.getD k 0 := by
    intro k hk
    rw [List.getD_append _ _ _ _ (by omega)]
  unfold headerReadMemory
  rw [if_neg hlen, if_neg (not_lt.mpr h)]
  simp only [hw 0 4 (by decide), hg 4 (by decide), hg 5 (by decide), hg 6 (by decide),
    hg 7 (by decide), hw 8 8 (by decide), hw 16 8 (by decide), hw 24 8 (by decide)]

theorem patchLayout_extend {patch : Bytes} {L : Layout patch} (h : patchLayout patch = .ok L)
    (tail : Bytes) : patchLayout (patch ++ tail) = .ok (L.extend tail) := by
  have hheader := patchLayout_header h
  have hstreams := L.streams_le
  have hdest := L.destBlocks_le
  have hlen : (patch ++ tail).length = patch.length + tail.length := List.length_append
  unfold patchLayout
  rw [headerReadMemory_append (by omega), hheader]
  dsimp only
  rw [dif_neg (by omega), dif_neg (by omega), dif_neg (by omega), dif_neg (by omega)]
  rfl

/-- What is added behind the source and behind the patch is neither read nor missed: an
application that succeeds, succeeds with the same output, having read the same patch bytes. -/
theorem patchApply_extends {m m' : Machine} (hm : m.Extends m') (patch tail : Bytes) (c : Cursors)
    (o : Output) (h : patchApply m patch = .ok c o) : patchApply m' (patch ++ tail) = .ok c o := by
  unfold patchApply at h ⊢
  cases hL : patchLayout patch with
  | error e =>
    rw [hL] at h
    cases h
  | ok L =>
    rw [hL] at h
    rw [patchLayout_extend hL tail]
    have hops : Refines (applyOps m L) (applyOps m' (L.extend tail)) :=
      (opLoop_extends hm L tail _ _).bind fun _ => .refl _
    exact hops _ _ _ h

/-- One block, copied from its own place. -/
def identityPatch : Bytes := headerWrite 1 5 1 0 ++ [0x18]

theorem patchApply_extends_identityPatch :
    ∃ c o, patchApply (reliable (List.replicate 40 7)) (identityPatch ++ [1, 2, 3]) = .ok c o ∧
      o.written = List.replicate 32 7 := by
  obtain ⟨c, o, hok, hwritten⟩ :
      ∃ c o, patchApply (reliable (List.replicate 32 7)) identityPatch = .ok c o ∧
        o.written = List.replicate 32 7 := ⟨_, _, rfl, rfl⟩
  have hext : (reliable (List.replicate 32 7)).Extends (reliable (List.replicate 40 7)) :=
    ⟨by decide, rfl, rfl⟩
  exact ⟨c, o, patchApply_extends hext _ _ c o hok, hwritten⟩

end Fsdiff.Patch
