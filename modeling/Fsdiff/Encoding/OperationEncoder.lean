import Fsdiff.Core.BlockTracker
import Fsdiff.Data.Exec

/-! `operation_encoder.c`: a finalized tracker becomes three byte streams. Writers
and the allocation of `diff_buf` may fail at any call; `diff_buf` itself is a list
of the bytes stored in it. Block sizes are those of the options, at most `2^24`, so
products of a run with a block size are written without wrapping where the source
has bounded them before. -/
namespace Fsdiff.Encoder
open ByteString

/-- `SPARSE_THRESHOLD_PER_BLOCK` -/
def sparseThresholdPerBlock : ℕ := 512

/-- The faults around one run: whether the `n`-th `malloc` succeeds, and the code
that the `n`-th writer call fails with. -/
structure Env where
  malloc : ℕ → Bool
  writeFault : ℕ → Option FsdError

structure Streams where
  op : Bytes := []
  diff : Bytes := []
  lit : Bytes := []
  mallocs : ℕ := 0
  writes : ℕ := 0
  deriving DecidableEq, Repr

inductive Writer where
  | op | diff | lit
  deriving DecidableEq, Repr

def Streams.append (s : Streams) (data : Bytes) : Writer → Streams
  | .op => { s with op := s.op ++ data }
  | .diff => { s with diff := s.diff ++ data }
  | .lit => { s with lit := s.lit ++ data }

abbrev EncM := EStateM FsdError Streams

section Writers
variable (env : Env) (w : Writer)

/-- `fsd_writer_write` -/
def write (data : Bytes) : EncM Unit := do
  let n := (← get).writes
  modify fun s => { s with writes := n + 1 }
  match env.writeFault n with
  | some e => throw e
  | none => modify (·.append data w)

/-- `fsd_writer_write_byte` -/
def writeByte (byte : ℕ) : EncM Unit := write env w [UInt8.ofNat byte]

/-- `fsd_writer_write_u16_le` -/
def writeU16Le (value : ℕ) : EncM Unit := write env w (leBytes 2 (value % 2 ^ 16))

/-- `fsd_writer_write_u32_le` -/
def writeU32Le (value : ℕ) : EncM Unit := write env w (leBytes 4 (value % 2 ^ 32))

/-- `malloc`, a failure being `FSD_ERR_OUT_OF_MEMORY`. -/
def allocate : EncM Unit := do
  let n := (← get).mallocs
  modify fun s => { s with mallocs := n + 1 }
  if env.malloc n then pure () else throw .outOfMemory

end Writers

/-- `while (value >= 128)` of `encode_varint`; ten bytes hold any `size_t`. -/
def encodeVarintLoop : ℕ → ℕ → Bytes
  | 0, value => [UInt8.ofNat (value &&& 0x7F)]
  | fuel + 1, value =>
    if 128 ≤ value then
      UInt8.ofNat ((value &&& 0x7F) ||| 0x80) :: encodeVarintLoop fuel (value >>> 7)
    else [UInt8.ofNat (value &&& 0x7F)]

/-- `encode_varint` -/
def encodeVarint (value : ℕ) : Bytes := encodeVarintLoop 9 value

/-- `encode_count` -/
def encodeCount (env : Env) (opByte count : ℕ) : EncM Unit :=
  if count ≤ 8 then writeByte env .op (opByte ||| 3 <<< 3 ||| ((count - 1) &&& 0x7))
  else if count ≤ 256 then do
    writeByte env .op (opByte ||| 0 <<< 3)
    writeByte env .op (count - 1)
  else if count ≤ 65536 then do
    writeByte env .op (opByte ||| 1 <<< 3)
    writeU16Le env .op (count - 1)
  else do
    writeByte env .op (opByte ||| 2 <<< 3)
    writeU32Le env .op count

/-- `emit_literal_run` -/
def emitLiteralRun (env : Env) (bs : ℕ) (dest : Bytes) (firstBlock runCount : ℕ) : EncM Unit := do
  encodeCount env (opLiteral <<< 5) runCount
  write env .lit (window dest (u64 (firstBlock * bs)) (u64 (runCount * bs)))

/-! ### Runs -/

/-- `(int64_t)state->src_index - (int64_t)i` -/
def relocateDistance (i : ℕ) (state : BlockState) : ℤ := int64 (int64 state.srcIndex - int64 i)

/-- `(int64_t)(src_index * block_size + byte_offset) - (int64_t)(i * block_size)`. The
unsigned sum wraps modulo `2^64`, which the cast absorbs. -/
def byteDistance (bs i : ℕ) (state : BlockState) : ℤ :=
  int64 (int64 (state.srcIndex * bs + state.byteOffset) - int64 (i * bs))

/-- `while (i + run_count < tracker->count)`: blocks are taken into the run as long
as they join it. -/
def extendRun (blocks : List BlockState) (i : ℕ) (joins : ℕ → BlockState → Bool) : ℕ → ℕ → ℕ
  | 0, run => run
  | fuel + 1, run =>
    match blocks[i + run]? with
    | none => run
    | some next => if joins run next then extendRun blocks i joins fuel (run + 1) else run

/-- `max_run_for_format` -/
def maxRunForFormat (bs : ℕ) : ℕ :=
  if uint32Max / (bs * 2) = 0 then 1 else uint32Max / (bs * 2)

/-- Whether block `i + run` continues the run that starts at block `i`. -/
def joinsRun (bs i : ℕ) (state : BlockState) (run : ℕ) (next : BlockState) : Bool :=
  match state.matchType with
  | .relocate =>
    next.matchType = .relocate && relocateDistance (i + run) next = relocateDistance i state
  | .partialMatch =>
    run < maxRunForFormat bs && (next.matchType = .partialMatch &&
      byteDistance bs (i + run) next = byteDistance bs i state)
  | ty => next.matchType = ty

/-- `run_count` of the run that starts at block `i`. -/
def runCount (bs : ℕ) (blocks : List BlockState) (i : ℕ) (state : BlockState) : ℕ :=
  extendRun blocks i (joinsRun bs i state) blocks.length 1

/-! ### Diff data -/

/-- `!delta || delta[pos] == 0` -/
def deltaIsZero (delta : Option Bytes) (pos : ℕ) : Bool :=
  match delta with
  | none => true
  | some d => d.getD pos 0 = 0

/-- Non-zero bytes of one delta, up to `block_size`. -/
def nonzeroCount (bs : ℕ) (delta : Option Bytes) : ℕ :=
  match delta with
  | none => 0
  | some d => ((d.take bs).filter (· ≠ 0)).length

/-- Dense data of one block: a short or missing delta is padded with zeros. -/
def denseData (bs : ℕ) (delta : Option Bytes) : Bytes :=
  match delta with
  | none => List.replicate bs 0
  | some d => d.take bs ++ List.replicate (bs - d.length) 0

/-- Where a copy-add run that starts at `pos` ends: at two consecutive zeros. -/
def addRunEnd (bs : ℕ) (delta : Option Bytes) : ℕ → ℕ → ℕ
  | 0, pos => pos
  | fuel + 1, pos =>
    if pos < bs then
      if deltaIsZero delta pos && (bs ≤ pos + 1 || deltaIsZero delta (pos + 1)) then pos
      else addRunEnd bs delta fuel (pos + 1)
    else pos

/-- Where a copy run that starts at `pos` ends: at the first non-zero byte. -/
def copyRunEnd (bs : ℕ) (delta : Option Bytes) : ℕ → ℕ → ℕ
  | 0, pos => pos
  | fuel + 1, pos =>
    if pos < bs then
      if deltaIsZero delta pos then copyRunEnd bs delta fuel (pos + 1) else pos
    else pos

/-- `while (pos < block_size)`: the bytes stored for one sparse block from `pos` on. -/
def sparseData (bs : ℕ) (delta : Option Bytes) : ℕ → ℕ → Bytes
  | 0, _ => []
  | fuel + 1, pos =>
    if pos < bs then
      let addEnd := addRunEnd bs delta bs pos
      let add := encodeVarint (addEnd - pos) ++ window (delta.getD []) pos (addEnd - pos)
      if bs ≤ addEnd then add
      else
        let copyEnd := copyRunEnd bs delta bs addEnd
        add ++ (encodeVarint (copyEnd - addEnd) ++ sparseData bs delta fuel copyEnd)
    else []

/-- Contents of `diff_buf` for the blocks of a run. -/
def diffData (bs : ℕ) (sparse : Bool) (deltas : List (Option Bytes)) : Bytes :=
  deltas.flatMap fun delta => if sparse then sparseData bs delta bs 0 else denseData bs delta

/-! ### Operations -/

/-- `count_enc` of the operations without an inline count. -/
def countEncFor (runCount : ℕ) : ℕ := if runCount ≤ 256 then 0 else if runCount ≤ 65536 then 1 else 2

/-- The count field of these operations. -/
def writeCount (env : Env) (runCount : ℕ) : EncM Unit :=
  if countEncFor runCount = 0 then writeByte env .op (runCount - 1)
  else if countEncFor runCount = 1 then writeU16Le env .op (runCount - 1)
  else writeU32Le env .op runCount

def relocateOffsetEnc (absOffset : ℕ) : ℕ :=
  if absOffset ≤ 0xFF then 0 else if absOffset ≤ 0xFFFF then 1 else 2

def writeRelocateOffset (env : Env) (absOffset : ℕ) : EncM Unit :=
  if relocateOffsetEnc absOffset = 0 then writeByte env .op absOffset
  else if relocateOffsetEnc absOffset = 1 then writeU16Le env .op absOffset
  else writeU32Le env .op absOffset

/-- `case FSD_MATCH_RELOCATE` -/
def encodeRelocate (env : Env) (bs : ℕ) (dest : Bytes) (i : ℕ) (state : BlockState)
    (runCount : ℕ) : EncM Unit :=
  let offset := relocateDistance i state
  let absOffset := offset.natAbs
  if 0xFFFFFFFF < absOffset then emitLiteralRun env bs dest i runCount
  else do
    let signBit := if offset < 0 then 1 else 0
    writeByte env .op (opCopyRelocate <<< 5 ||| countEncFor runCount <<< 3 |||
      relocateOffsetEnc absOffset <<< 1 ||| signBit)
    writeCount env runCount
    writeRelocateOffset env absOffset

def byteOffsetEnc (byteOffset : ℤ) : ℕ :=
  if byteOffset.natAbs ≤ 0x7FFF then 0 else if byteOffset.natAbs ≤ 0x7FFFFF then 1 else 2

/-- The `byte_offset` field, in two's complement. -/
def writeByteOffset (env : Env) (byteOffset : ℤ) : EncM Unit :=
  if byteOffsetEnc byteOffset = 0 then writeU16Le env .op (byteOffset % 2 ^ 16).toNat
  else if byteOffsetEnc byteOffset = 1 then do
    let val := (byteOffset % 2 ^ 32).toNat
    writeByte env .op (val &&& 0xFF)
    writeByte env .op (val >>> 8 &&& 0xFF)
    writeByte env .op (val >>> 16 &&& 0xFF)
  else writeU32Le env .op (byteOffset % 2 ^ 32).toNat

/-- `case FSD_MATCH_PARTIAL`; `deltas` are those of the run's blocks. -/
def encodePartial (env : Env) (bs : ℕ) (dest : Bytes) (i : ℕ) (state : BlockState)
    (runCount : ℕ) (deltas : List (Option Bytes)) : EncM Unit :=
  let byteOffset := byteDistance bs i state
  if byteOffset < -2 ^ 31 ∨ 2 ^ 31 - 1 < byteOffset then emitLiteralRun env bs dest i runCount
  else
    let nonzero := (deltas.map (nonzeroCount bs)).sum
    let sparse : Bool := nonzero < runCount * sparseThresholdPerBlock
    if (2 ^ 64 - 1) / bs / 2 < runCount then throw .outOfMemory
    else do
      allocate env
      let diff := diffData bs sparse deltas
      writeByte env .op (opCopyAdd <<< 5 ||| countEncFor runCount <<< 3 |||
        byteOffsetEnc byteOffset <<< 1 ||| sparse.toNat)
      writeByteOffset env byteOffset
      writeCount env runCount
      if uint32Max < diff.length then throw .outOfMemory
      else do
        writeU32Le env .op diff.length
        write env .diff diff

/-- `switch (match_type)` for a run of `run` blocks. -/
def encodeOperation (env : Env) (bs : ℕ) (blocks : List BlockState) (dest : Bytes) (i : ℕ)
    (state : BlockState) (run : ℕ) : EncM Unit :=
  match state.matchType with
  | .identity => encodeCount env (opCopyIdentity <<< 5) run
  | .relocate => encodeRelocate env bs dest i state run
  | .zero => encodeCount env (opZero <<< 5) run
  | .one => encodeCount env (opOne <<< 5) run
  | .partialMatch =>
    encodePartial env bs dest i state run (((blocks.drop i).take run).map BlockState.delta)
  | .none => emitLiteralRun env bs dest i run

/-- One iteration of the encoding loop; the result is `run_count`. -/
def encodeRun (env : Env) (bs : ℕ) (blocks : List BlockState) (dest : Bytes) (i : ℕ)
    (state : BlockState) : EncM ℕ := do
  encodeOperation env bs blocks dest i state (runCount bs blocks i state)
  pure (runCount bs blocks i state)

/-- `while (i < tracker->count)` -/
def encodeLoop (env : Env) (bs : ℕ) (blocks : List BlockState) (dest : Bytes) : ℕ → ℕ → EncM Unit
  | 0, _ => pure ()
  | fuel + 1, i =>
    match blocks[i]? with
    | none => pure ()
    | some state => do
      let run ← encodeRun env bs blocks dest i state
      encodeLoop env bs blocks dest fuel (i + run)

/-- `fsd_op_encoder_encode` of an encoder for blocks of `bs` bytes. -/
def encode (env : Env) (bs : ℕ) (tracker : Tracker) (dest : Bytes) : EncM Unit :=
  encodeLoop env bs tracker.blocks dest tracker.count 0

end Fsdiff.Encoder
