import Fsdiff.Data.Exec
import Fsdiff.Encoding.BkdfHeader

/-! `fsd_patch_apply` on the bytes of a source and of a patch, statement by
statement. Pointers into the mapped patch are positions; a read names the stream
and the region it belongs to and stops the run when it falls outside either, so
an access the C code must not make is a visible outcome and not a default value.
Opening, closing and unlinking files surround this part and are not in it. -/
namespace Fsdiff.Patch
open ByteString Exec

/-- Why a run ends before its last statement. -/
inductive Stop where
  | fail (err : FsdError)
  | outOfRange
  | outOfFuel
  deriving DecidableEq, Repr

/-- The codes the decoder may return; the other two outcomes are not its own. -/
def Stop.Defined (e : Stop) : Prop := ∃ err, e = .fail err

inductive Stream where
  | op | diff | lit
  deriving DecidableEq, Repr

/-- What surrounds one run: the source and the faults of its files. The `n`-th
source read fails with the given code, the `n`-th `fwrite` stores fewer bytes
than it was given. -/
structure Machine where
  src : Bytes
  readFault : ℕ → Option FsdError
  writeFault : ℕ → Option ℕ

def reliable (src : Bytes) : Machine := ⟨src, fun _ => .none, fun _ => .none⟩

/-- The output file, the calls made so far, and a log of the patch bytes read. -/
structure Output where
  written : Bytes := []
  reads : ℕ := 0
  writes : ℕ := 0
  opReads : List ℕ := []
  diffReads : List ℕ := []
  litReads : List ℕ := []
  deriving DecidableEq, Repr

abbrev Dec := EStateM Stop Output

def fail {α : Type} (err : FsdError) : Dec α := throw (.fail err)

/-- A header whose streams lie inside the patch and whose image fits `int64_t`. -/
structure Layout (patch : Bytes) where
  header : Header
  destBlocks_le : header.destBlocks ≤ int64Max / header.blockSize
  streams_le : headerSize + header.opStreamLen + header.diffStreamLen ≤ patch.length

/-- The checks between opening the patch and creating the output file. -/
def patchLayout (patch : Bytes) : Except FsdError (Layout patch) :=
  match headerReadMemory patch with
  | .error e => .error e
  | .ok header =>
    if hd : int64Max / header.blockSize < header.destBlocks then .error .corruptData
    else if hp : patch.length < headerSize then .error .truncated
    else if ho : patch.length - headerSize < header.opStreamLen then .error .corruptData
    else if hf : patch.length - headerSize - header.opStreamLen < header.diffStreamLen then
      .error .corruptData
    else .ok ⟨header, not_lt.mp hd, by omega⟩

section Streams
variable {patch : Bytes} (L : Layout patch)

def Layout.blockSize : ℕ := L.header.blockSize
def Layout.destBlocks : ℕ := L.header.destBlocks
def Layout.opEnd : ℕ := headerSize + L.header.opStreamLen
def Layout.diffEnd : ℕ := L.opEnd + L.header.diffStreamLen

def Layout.lo : Stream → ℕ
  | .op => headerSize
  | .diff => L.opEnd
  | .lit => L.diffEnd

/-- One past the last position of a stream; the literal stream ends with the file. -/
def Layout.hi : Stream → ℕ
  | .op => L.opEnd
  | .diff => L.diffEnd
  | .lit => patch.length

end Streams

structure Region where
  stream : Stream
  lo : ℕ
  hi : ℕ

/-- Note the positions `ps` as read, in this order. -/
def Output.logReads (o : Output) (ps : List ℕ) : Stream → Output
  | .op => { o with opReads := o.opReads ++ ps }
  | .diff => { o with diffReads := o.diffReads ++ ps }
  | .lit => { o with litReads := o.litReads ++ ps }

section Decoder
variable (m : Machine) {patch : Bytes} (L : Layout patch)

def Layout.opRegion : Region := ⟨.op, headerSize, L.opEnd⟩
def Layout.litRegion : Region := ⟨.lit, L.diffEnd, patch.length⟩

def readByte (r : Region) (pos : ℕ) : Dec UInt8 :=
  if L.lo r.stream ≤ pos ∧ pos < L.hi r.stream ∧ r.lo ≤ pos ∧ pos < r.hi then
    match patch[pos]? with
    | some b => do
      modify (·.logReads [pos] r.stream)
      pure b
    | none => throw .outOfRange
  else throw .outOfRange

def readBytes (r : Region) : ℕ → ℕ → Dec Bytes
  | 0, _ => pure []
  | n + 1, pos => do
    let b ← readByte L r pos
    let bs ← readBytes r n (pos + 1)
    pure (b :: bs)

/-- The guarded little-endian field reads of the operation stream:
`if (ptr + k > end) TRUNCATED; value = ptr[0] | ptr[1] << 8 | ..; ptr += k`. -/
def readLe (k ptr : ℕ) : Dec (ℕ × ℕ) :=
  if L.opEnd < ptr + k then fail .truncated
  else do
    let bs ← readBytes L L.opRegion k ptr
    pure (leNat bs, ptr + k)

/-- `fsd_source_reader_read_at`. Its own range check returns a code; here a range
outside the source is the outcome the callers' checks have to exclude. -/
def sourceReadAt (offset len : ℕ) : Dec Bytes := do
  let n := (← get).reads
  modify fun o => { o with reads := n + 1 }
  match m.readFault n with
  | some e => fail e
  | none =>
    if offset + len ≤ m.src.length then pure (window m.src offset len) else throw .outOfRange

/-- `fwrite` of one block, a short count being `FSD_ERR_IO`. -/
def writeBlock (buf : Bytes) : Dec Unit := do
  let n := (← get).writes
  match m.writeFault n with
  | none => modify fun o => { o with written := o.written ++ buf, writes := n + 1 }
  | some k => do
    modify fun o => { o with written := o.written ++ buf.dropLast.take k, writes := n + 1 }
    fail .io

/-- The bounds check before every source read, and the read. -/
def fetchBlock (pos : ℕ) : Dec Bytes :=
  if m.src.length < u64 (pos + L.blockSize) then fail .corruptData
  else sourceReadAt m pos L.blockSize

/-- `block_buf[k] += v` -/
def bufAdd (buf : Bytes) (k : ℕ) (v : UInt8) : Dec Bytes :=
  match buf[k]? with
  | some b => pure (buf.set k (b + v))
  | none => throw .outOfRange

/-- `read_varint`, with `left = end - *ptr`. -/
def readVarintLoop (r : Region) : ℕ → ℕ → ℕ → ℕ → Dec (ℕ × ℕ)
  | 0, _, _, _ => fail .truncated
  | left + 1, ptr, value, shift => do
    let byte ← readByte L r ptr
    let value := value ||| u64 ((byte.toNat &&& 0x7F) <<< shift)
    if byte.toNat &&& 0x80 = 0 then pure (value, ptr + 1)
    else if 64 ≤ shift + 7 then fail .corruptData
    else readVarintLoop r left (ptr + 1) value (shift + 7)

def readVarint (r : Region) (ptr : ℕ) : Dec (ℕ × ℕ) := readVarintLoop L r (r.hi - ptr) ptr 0 0

def opTypeOf (b : UInt8) : ℕ := b.toNat >>> 5 &&& 0x7
def countEncOf (b : UInt8) : ℕ := b.toNat >>> 3 &&& 0x3
def offsetEncOf (b : UInt8) : ℕ := b.toNat >>> 1 &&& 0x3
def lowBitOf (b : UInt8) : ℕ := b.toNat &&& 0x1

/-- `read_count` -/
def readCount (firstByte : UInt8) (ptr : ℕ) : Dec (ℕ × ℕ) :=
  match countEncOf firstByte with
  | 0 => do
    let (v, ptr) ← readLe L 1 ptr
    pure (v + 1, ptr)
  | 1 => do
    let (v, ptr) ← readLe L 2 ptr
    pure (v + 1, ptr)
  | 2 => readLe L 4 ptr
  | _ => pure ((firstByte.toNat &&& 0x7) + 1, ptr)

/-- The count switch inside `COPY_ADD`, reached only when `count_enc` is not 3. -/
def readCopyAddCount (firstByte : UInt8) (ptr : ℕ) : Dec (ℕ × ℕ) :=
  match countEncOf firstByte with
  | 0 => do
    let (v, ptr) ← readLe L 1 ptr
    pure (v + 1, ptr)
  | 1 => do
    let (v, ptr) ← readLe L 2 ptr
    pure (v + 1, ptr)
  | 2 => readLe L 4 ptr
  | _ => pure (1, ptr)

/-- The offset switch of `COPY_RELOCATE`, which has no default. -/
def readRelocateDistance (firstByte : UInt8) (ptr : ℕ) : Dec (ℕ × ℕ) :=
  match offsetEncOf firstByte with
  | 0 => readLe L 1 ptr
  | 1 => readLe L 2 ptr
  | 2 => readLe L 4 ptr
  | _ => pure (0, ptr)

/-- The distance with the sign of bit 0. -/
def readRelocateOffset (firstByte : UInt8) (ptr : ℕ) : Dec (ℤ × ℕ) := do
  let (offset, ptr) ← readRelocateDistance L firstByte ptr
  pure (if lowBitOf firstByte = 0 then (offset : ℤ) else -offset, ptr)

/-- The offset switch of `COPY_ADD`: two's complement of 2, 3 or 4 bytes, again
with no default. -/
def readByteOffset (firstByte : UInt8) (ptr : ℕ) : Dec (ℤ × ℕ) :=
  match offsetEncOf firstByte with
  | 0 => do
    let (raw, ptr) ← readLe L 2 ptr
    pure (signed 16 raw, ptr)
  | 1 => do
    let (raw, ptr) ← readLe L 3 ptr
    pure (if raw &&& 0x800000 = 0 then (raw : ℤ) else int64 (raw ||| 0xFFFFFFFFFF000000 : ℕ), ptr)
  | 2 => do
    let (raw, ptr) ← readLe L 4 ptr
    pure (signed 32 raw, ptr)
  | _ => pure (0, ptr)

/-- `(dest_block + i) * block_size` -/
def identityOffset (destBlock i : ℕ) : ℕ := u64 (u64 (destBlock + i) * L.blockSize)

/-- `(int64_t)(dest_block + i) + offset` -/
def relocateBlock (destBlock i : ℕ) (offset : ℤ) : ℤ := int64 (int64 (u64 (destBlock + i)) + offset)

/-- `(uint64_t)src_block * block_size` -/
def relocateOffset (srcBlock : ℤ) : ℕ := u64 (srcBlock.toNat * L.blockSize)

/-- `(int64_t)((dest_block + blk) * block_size) + byte_offset` -/
def copyAddPos (destBlock blk : ℕ) (byteOffset : ℤ) : ℤ :=
  int64 (int64 (u64 (u64 (destBlock + blk) * L.blockSize)) + byteOffset)

/-- Loop body of `OP_COPY_IDENTITY`. -/
def copyIdentityBlock (destBlock i : ℕ) : Dec Unit := do
  let buf ← fetchBlock m L (identityOffset L destBlock i)
  writeBlock m buf

/-- Loop body of `OP_COPY_RELOCATE`. -/
def copyRelocateBlock (destBlock : ℕ) (offset : ℤ) (i : ℕ) : Dec Unit :=
  let srcBlock := relocateBlock destBlock i offset
  if srcBlock < 0 then fail .corruptData
  else do
    let buf ← fetchBlock m L (relocateOffset L srcBlock)
    writeBlock m buf

/-- `for (i = 0; i < count; i++)` around a block copy. -/
def forBlocks (count : ℕ) (body : ℕ → Dec Unit) : Dec Unit := iterM (fun i _ => body i) count 0 ()

/-- Loop body of `OP_LITERAL`; the result is the advanced `lit_ptr`. -/
def writeLiteral (litPtr : ℕ) : Dec ℕ :=
  if patch.length < litPtr + L.blockSize then fail .truncated
  else do
    let buf ← readBytes L L.litRegion L.blockSize litPtr
    writeBlock m buf
    pure (litPtr + L.blockSize)

/-- One step of the dense loop; `base` is `diff_cursor + blk_offset`. -/
def denseByte (r : Region) (base k : ℕ) (buf : Bytes) : Dec Bytes := do
  let v ← readByte L r (base + k)
  bufAdd buf k v

/-- Dense diff of one block; `r` is the operation's diff region. -/
def denseBlock (r : Region) (blk : ℕ) (buf : Bytes) : Dec Bytes :=
  let blkOffset := u64 (blk * L.blockSize)
  if r.hi - r.lo < blkOffset ∨ r.hi - r.lo - blkOffset < L.blockSize then fail .truncated
  else iterM (denseByte L r (r.lo + blkOffset)) L.blockSize 0 buf

/-- `diff_cursor`, `out_pos` and `block_buf` inside one sparse block. -/
structure SparseState where
  cursor : ℕ
  outPos : ℕ
  buf : Bytes

/-- Copy-add mode consumes every diff byte and drops those past the block. -/
def addByte (r : Region) (s : SparseState) : Dec SparseState := do
  let v ← readByte L r s.cursor
  if s.outPos < L.blockSize then do
    let buf ← bufAdd s.buf s.outPos v
    pure ⟨s.cursor + 1, s.outPos + 1, buf⟩
  else pure ⟨s.cursor + 1, s.outPos, s.buf⟩

def addRun (r : Region) (addLen : ℕ) (s : SparseState) : Dec SparseState :=
  iterM (fun _ => addByte L r) addLen 0 s

/-- `while (out_pos < block_size)`: alternating copy-add and copy runs. -/
def sparseLoop (r : Region) : ℕ → SparseState → Dec SparseState
  | 0, s => if s.outPos < L.blockSize then throw .outOfFuel else pure s
  | fuel + 1, s =>
    if s.outPos < L.blockSize then do
      let (addLen, cursor) ← readVarint L r s.cursor
      if r.hi - cursor < addLen then fail .truncated
      else do
        let s ← addRun L r addLen ⟨cursor, s.outPos, s.buf⟩
        if L.blockSize ≤ s.outPos then pure s
        else do
          let (copyLen, cursor) ← readVarint L r s.cursor
          if L.blockSize - s.outPos < copyLen then fail .corruptData
          else if addLen = 0 ∧ copyLen = 0 ∧ s.outPos + copyLen < L.blockSize then fail .corruptData
          else sparseLoop r fuel ⟨cursor, s.outPos + copyLen, s.buf⟩
    else pure s

def sparseBlock (r : Region) (cursor : ℕ) (buf : Bytes) : Dec SparseState :=
  sparseLoop L r (r.hi - cursor + 1) ⟨cursor, 0, buf⟩

/-- Loop body of `COPY_ADD`; the loop state is `diff_cursor`. -/
def copyAddBlock (r : Region) (diffFmt destBlock : ℕ) (byteOffset : ℤ) (blk cursor : ℕ) : Dec ℕ :=
  let srcBytePos := copyAddPos L destBlock blk byteOffset
  if srcBytePos < 0 then fail .corruptData
  else do
    let buf ← fetchBlock m L srcBytePos.toNat
    if diffFmt = 0 then do
      let buf ← denseBlock L r blk buf
      writeBlock m buf
      pure cursor
    else do
      let s ← sparseBlock L r cursor buf
      writeBlock m s.buf
      pure s.cursor

/-- `op_ptr`, `diff_ptr`, `lit_ptr` and `dest_block`. -/
structure Cursors where
  opPtr : ℕ
  diffPtr : ℕ
  litPtr : ℕ
  destBlock : ℕ
  deriving DecidableEq, Repr

/-- `COPY_ADD` after its first byte: offset, count and diff length, then the blocks. -/
def applyCopyAdd (firstByte : UInt8) (c : Cursors) : Dec Cursors :=
  if countEncOf firstByte = 3 then fail .corruptData
  else do
    let (byteOffset, opPtr) ← readByteOffset L firstByte (c.opPtr + 1)
    let (count, opPtr) ← readCopyAddCount L firstByte opPtr
    if L.destBlocks - c.destBlock < count then fail .corruptData
    else do
      let (diffLen, opPtr) ← readLe L 4 opPtr
      if L.diffEnd < c.diffPtr + diffLen then fail .truncated
      else do
        let r : Region := ⟨.diff, c.diffPtr, c.diffPtr + diffLen⟩
        let _ ← iterM (copyAddBlock m L r (lowBitOf firstByte) c.destBlock byteOffset) count 0 r.lo
        pure ⟨opPtr, r.hi, c.litPtr, c.destBlock + count⟩

/-- `switch (op_type)` for an operation of `count` blocks; `COPY_ADD` does not get here. -/
def applyCounted (firstByte : UInt8) (count opPtr : ℕ) (c : Cursors) : Dec Cursors :=
  match opTypeOf firstByte with
  | 0 => do
    forBlocks count (copyIdentityBlock m L c.destBlock)
    pure ⟨opPtr, c.diffPtr, c.litPtr, c.destBlock + count⟩
  | 1 => do
    let (offset, opPtr) ← readRelocateOffset L firstByte opPtr
    forBlocks count (copyRelocateBlock m L c.destBlock offset)
    pure ⟨opPtr, c.diffPtr, c.litPtr, c.destBlock + count⟩
  | 2 => do
    forBlocks count fun _ => writeBlock m (List.replicate L.blockSize 0x00)
    pure ⟨opPtr, c.diffPtr, c.litPtr, c.destBlock + count⟩
  | 3 => do
    forBlocks count fun _ => writeBlock m (List.replicate L.blockSize 0xFF)
    pure ⟨opPtr, c.diffPtr, c.litPtr, c.destBlock + count⟩
  | 5 => do
    let litPtr ← iterM (fun _ => writeLiteral m L) count 0 c.litPtr
    pure ⟨opPtr, c.diffPtr, litPtr, c.destBlock + count⟩
  | _ => fail .badOperation

/-- One iteration of the operation loop. -/
def applyOp (c : Cursors) : Dec Cursors := do
  let firstByte ← readByte L L.opRegion c.opPtr
  if opTypeOf firstByte = opCopyAdd then applyCopyAdd m L firstByte c
  else do
    let (count, opPtr) ← readCount L firstByte (c.opPtr + 1)
    if L.destBlocks - c.destBlock < count then fail .corruptData
    else applyCounted m L firstByte count opPtr c

/-- `dest_block < header.dest_blocks && op_ptr < op_end` -/
def Running (c : Cursors) : Prop := c.destBlock < L.destBlocks ∧ c.opPtr < L.opEnd

instance (c : Cursors) : Decidable (Running L c) := inferInstanceAs (Decidable (_ ∧ _))

def opLoop : ℕ → Cursors → Dec Cursors
  | 0, c => if Running L c then throw .outOfFuel else pure c
  | fuel + 1, c =>
    if Running L c then do
      let c ← applyOp m L c
      opLoop fuel c
    else pure c

def Layout.start : Cursors := ⟨headerSize, L.opEnd, L.diffEnd, 0⟩

/-- The operation loop and the final block count check. -/
def applyOps : Dec Cursors := do
  let c ← opLoop m L L.header.opStreamLen L.start
  if c.destBlock ≠ L.destBlocks then fail .truncated
  else pure c

/-- The states in which the loop condition is evaluated. -/
inductive LoopHead : Cursors → Output → Prop
  | start : LoopHead L.start {}
  | next {c c' : Cursors} {s s' : Output} (h : LoopHead c s) (hr : Running L c)
      (hs : applyOp m L c s = .ok c' s') : LoopHead c' s'

end Decoder

/-- `fsd_patch_apply` -/
def patchApply (m : Machine) (patch : Bytes) : EStateM.Result Stop Output Cursors :=
  match patchLayout patch with
  | .error e => .error (.fail e) {}
  | .ok L => applyOps m L {}

/-- `fsd_patch_output_size` -/
def patchOutputSize (patch : Bytes) : Except FsdError ℕ :=
  match headerRead patch with
  | .error e => .error e
  | .ok header =>
    if (2 ^ 64 - 1) / header.blockSize < header.destBlocks then .error .corruptData
    else .ok (u64 (header.destBlocks * header.blockSize))

end Fsdiff.Patch
