import Fsdiff.Data.Varint
import Fsdiff.Encoding.BkdfHeader

/-! The BKDF operations of `PATCH_FORMAT_SPEC.md`: what they mean, and the bytes
that spell them under every choice of field widths the specification allows. -/
namespace Fsdiff.Format
open ByteString

/-- Count encodings 0 to 3 of the first byte. -/
inductive CountEnc where
  | one | two | four | inline
  deriving DecidableEq, Repr

def CountEnc.code : CountEnc → ℕ
  | .one => 0
  | .two => 1
  | .four => 2
  | .inline => 3

def CountEnc.max : CountEnc → ℕ
  | .one => 256
  | .two => 65536
  | .four => uint32Max
  | .inline => 8

/-- The bytes of the count field: one less than the count in the narrow fields. -/
def CountEnc.bytes : CountEnc → ℕ → Bytes
  | .one, n => leBytes 1 (n - 1)
  | .two, n => leBytes 2 (n - 1)
  | .four, n => leBytes 4 n
  | .inline, _ => []

/-- Offset encodings 0 to 2; the widths depend on the operation. -/
inductive OffsetEnc where
  | short | middle | long
  deriving DecidableEq, Repr

def OffsetEnc.code : OffsetEnc → ℕ
  | .short => 0
  | .middle => 1
  | .long => 2

def OffsetEnc.relocateWidth : OffsetEnc → ℕ
  | .short => 1
  | .middle => 2
  | .long => 4

def OffsetEnc.byteOffsetWidth : OffsetEnc → ℕ
  | .short => 2
  | .middle => 3
  | .long => 4

/-- A copy-add run and the copy run after it. A block that the copy-add run fills
has no copy run left. -/
abbrev Runs := List (Bytes × Option ℕ)

/-- Diff data of one `COPY_ADD`. -/
inductive Diff where
  | dense (data : Bytes)
  | sparse (blocks : List Runs)
  deriving DecidableEq, Repr

inductive Op where
  | copyIdentity (count : ℕ)
  | copyRelocate (count : ℕ) (negative : Bool) (distance : ℕ)
  | zero (count : ℕ)
  | one (count : ℕ)
  | copyAdd (count : ℕ) (byteOffset : ℤ) (diff : Diff)
  | literal (count : ℕ)
  deriving DecidableEq, Repr

def Op.count : Op → ℕ
  | .copyIdentity n | .copyRelocate n _ _ | .zero n | .one n | .copyAdd n _ _ | .literal n => n

def Op.type : Op → ℕ
  | .copyIdentity _ => opCopyIdentity
  | .copyRelocate _ _ _ => opCopyRelocate
  | .zero _ => opZero
  | .one _ => opOne
  | .copyAdd _ _ _ => opCopyAdd
  | .literal _ => opLiteral

/-- `sign ? -offset : +offset` -/
def signedOffset (negative : Bool) (distance : ℕ) : ℤ := if negative then -distance else distance

/-! ### Meaning -/

section Meaning
variable (bs : ℕ) (src : Bytes)

/-- `copy(reference, offset, output, len)`, undefined outside the reference. -/
def copyRange (offset : ℤ) (len : ℕ) : Option Bytes :=
  if 0 ≤ offset ∧ offset + len ≤ src.length then some (window src offset.toNat len) else none

/-- Alternate between adding diff values and copying. -/
def applyRuns : Bytes → Runs → Bytes
  | _, [] => []
  | src, (diff, copy) :: rest =>
    let next := src.drop diff.length
    List.zipWith (· + ·) (src.take diff.length) diff ++ next.take (copy.getD 0) ++
      applyRuns (next.drop (copy.getD 0)) rest

def applySparse : Bytes → List Runs → Bytes
  | _, [] => []
  | src, runs :: rest => applyRuns (src.take bs) runs ++ applySparse (src.drop bs) rest

/-- `apply_diff` on the bytes copied from the reference. -/
def applyDiff (src : Bytes) : Diff → Bytes
  | .dense data => List.zipWith (· + ·) src data
  | .sparse blocks => applySparse bs src blocks

/-- One iteration of `apply_patch`: the bytes written and the literals left. -/
def applyOperation (destPos : ℕ) (lits : Bytes) : Op → Option (Bytes × Bytes)
  | .copyIdentity n => (copyRange src (destPos * bs) (n * bs)).map (·, lits)
  | .copyRelocate n negative distance =>
    (copyRange src ((destPos + signedOffset negative distance) * bs) (n * bs)).map (·, lits)
  | .zero n => some (List.replicate (n * bs) 0x00, lits)
  | .one n => some (List.replicate (n * bs) 0xFF, lits)
  | .copyAdd n byteOffset diff =>
    (copyRange src (destPos * bs + byteOffset) (n * bs)).map fun copied =>
      (applyDiff bs copied diff, lits)
  | .literal n =>
    if n * bs ≤ lits.length then some (lits.take (n * bs), lits.drop (n * bs)) else none

/-- `apply_patch` from block `destPos` on. -/
def applyPatch : ℕ → Bytes → List Op → Option Bytes
  | _, _, [] => some []
  | destPos, lits, op :: ops =>
    match applyOperation bs src destPos lits op with
    | none => none
    | some (out, lits) => (applyPatch (destPos + op.count) lits ops).map (out ++ ·)

/-- The part of the reference that an operation refers to. -/
def Op.range (destPos : ℕ) : Op → Option (ℤ × ℕ)
  | .copyIdentity n => some (destPos * bs, n * bs)
  | .copyRelocate n negative distance =>
    some ((destPos + signedOffset negative distance) * bs, n * bs)
  | .copyAdd n byteOffset _ => some (destPos * bs + byteOffset, n * bs)
  | .zero _ | .one _ | .literal _ => none

/-- Every range referred to lies inside the reference. -/
def RangesInside : ℕ → List Op → Prop
  | _, [] => True
  | destPos, op :: ops =>
    (∀ r ∈ op.range bs destPos, 0 ≤ r.1 ∧ r.1 + r.2 ≤ src.length) ∧
      RangesInside (destPos + op.count) ops

end Meaning

def totalCount (ops : List Op) : ℕ := (ops.map Op.count).sum

def Op.litLen (bs : ℕ) : Op → ℕ
  | .literal n => n * bs
  | _ => 0

def litLen (bs : ℕ) (ops : List Op) : ℕ := (ops.map (Op.litLen bs)).sum

/-! ### Spelling -/

/-- Widths chosen for one operation; `offset` is read only by the two operations
that have one. -/
structure Enc where
  count : CountEnc
  offset : OffsetEnc
  deriving DecidableEq, Repr

def runBytes (run : Bytes × Option ℕ) : Bytes :=
  varint run.1.length ++ run.1 ++ (run.2.map varint).getD []

def Diff.bytes : Diff → Bytes
  | .dense data => data
  | .sparse blocks => blocks.flatMap (·.flatMap runBytes)

def Diff.fmt : Diff → ℕ
  | .dense _ => 0
  | .sparse _ => 1

/-- Two's complement of `w` bytes. -/
def twosComplement (w : ℕ) (x : ℤ) : ℕ := (x % 256 ^ w).toNat

def Op.flags (e : Enc) : Op → ℕ
  | .copyRelocate _ negative _ => e.offset.code * 2 + negative.toNat
  | .copyAdd _ _ diff => e.offset.code * 2 + diff.fmt
  | .copyIdentity n | .zero n | .one n | .literal n => if e.count = .inline then n - 1 else 0

def Op.firstByte (op : Op) (e : Enc) : UInt8 :=
  UInt8.ofNat (op.type * 32 + e.count.code * 8 + op.flags e)

def Op.fields (e : Enc) : Op → Bytes
  | .copyRelocate n _ distance => e.count.bytes n ++ leBytes e.offset.relocateWidth distance
  | .copyAdd n byteOffset diff =>
    leBytes e.offset.byteOffsetWidth (twosComplement e.offset.byteOffsetWidth byteOffset) ++
      e.count.bytes n ++ leBytes 4 diff.bytes.length
  | .copyIdentity n | .zero n | .one n | .literal n => e.count.bytes n

def Op.bytes (op : Op) (e : Enc) : Bytes := op.firstByte e :: op.fields e

def Op.diffBytes : Op → Bytes
  | .copyAdd _ _ diff => diff.bytes
  | _ => []

/-- The runs fill `n` bytes exactly: none starts in a full block, and no pair of
two empty runs occurs before the block is full. -/
def Tiles : ℕ → Runs → Prop
  | n, [] => n = 0
  | n, (diff, none) :: rest => 0 < n ∧ diff.length = n ∧ rest = []
  | n, (diff, some copy) :: rest =>
    diff.length < n ∧ 0 < diff.length + copy ∧ diff.length + copy ≤ n ∧
      Tiles (n - (diff.length + copy)) rest

instance decidableTiles : (n : ℕ) → (runs : Runs) → Decidable (Tiles n runs)
  | n, [] => inferInstanceAs (Decidable (n = 0))
  | n, (diff, none) :: rest => inferInstanceAs (Decidable (0 < n ∧ diff.length = n ∧ rest = []))
  | n, (diff, some copy) :: rest =>
    haveI := decidableTiles (n - (diff.length + copy)) rest
    inferInstanceAs (Decidable (diff.length < n ∧ 0 < diff.length + copy ∧ diff.length + copy ≤ n ∧
      Tiles (n - (diff.length + copy)) rest))

/-- The diff data fit `count` blocks. -/
def Diff.Fits (bs count : ℕ) : Diff → Prop
  | .dense data => data.length = count * bs
  | .sparse blocks => blocks.length = count ∧ ∀ runs ∈ blocks, Tiles bs runs

instance (bs count : ℕ) : (diff : Diff) → Decidable (diff.Fits bs count)
  | .dense data => inferInstanceAs (Decidable (data.length = count * bs))
  | .sparse blocks =>
    inferInstanceAs (Decidable (blocks.length = count ∧ ∀ runs ∈ blocks, Tiles bs runs))

/-- Every field holds its value, and the inline count is not used where the low
bits carry an offset encoding. -/
def Legal (bs : ℕ) (e : Enc) (op : Op) : Prop :=
  1 ≤ op.count ∧ op.count ≤ e.count.max ∧
    match op with
    | .copyRelocate _ _ distance => e.count ≠ .inline ∧ distance < 256 ^ e.offset.relocateWidth
    | .copyAdd n byteOffset diff =>
      e.count ≠ .inline ∧ -2 ^ (8 * e.offset.byteOffsetWidth - 1) ≤ byteOffset ∧
        byteOffset < 2 ^ (8 * e.offset.byteOffsetWidth - 1) ∧ diff.bytes.length ≤ uint32Max ∧
        diff.Fits bs n
    | _ => True

instance (bs : ℕ) (e : Enc) (op : Op) : Decidable (Legal bs e op) := by
  unfold Legal
  cases op <;> infer_instance

abbrev Script := List (Op × Enc)

def opStream (script : Script) : Bytes := script.flatMap fun x => x.1.bytes x.2

def diffStream (script : Script) : Bytes := script.flatMap fun x => x.1.diffBytes

/-- Header and three streams. -/
def patchBytes (log2 : ℕ) (script : Script) (lits : Bytes) : Bytes :=
  headerWrite (totalCount (script.map Prod.fst)) log2 (opStream script).length
    (diffStream script).length ++ (opStream script ++ (diffStream script ++ lits))

/-! ### Consequences of the definitions -/

section Streams
variable {bs : ℕ} {src : Bytes}

theorem opStream_cons (op : Op) (e : Enc) (script : Script) :
    opStream ((op, e) :: script) = op.bytes e ++ opStream script := rfl

theorem diffStream_cons (op : Op) (e : Enc) (script : Script) :
    diffStream ((op, e) :: script) = op.diffBytes ++ diffStream script := rfl

@[simp] theorem totalCount_cons (op : Op) (ops : List Op) :
    totalCount (op :: ops) = op.count + totalCount ops := by
  simp [totalCount]

@[simp] theorem litLen_cons (op : Op) (ops : List Op) :
    litLen bs (op :: ops) = op.litLen bs + litLen bs ops := by
  simp [litLen]

theorem length_count_bytes_le (e : CountEnc) (n : ℕ) : (e.bytes n).length ≤ 4 := by
  cases e <;> simp [CountEnc.bytes]

theorem length_bytes_le (op : Op) (e : Enc) : (op.bytes e).length ≤ 13 := by
  have hr : e.offset.relocateWidth ≤ 4 := by cases e.offset <;> decide
  have hb : e.offset.byteOffsetWidth ≤ 4 := by cases e.offset <;> decide
  have hc := length_count_bytes_le e.count op.count
  cases op <;> simp only [Op.count] at hc <;> simp [Op.bytes, Op.fields] <;> omega

theorem length_le_opStream (script : Script) : script.length ≤ (opStream script).length := by
  induction script with
  | nil => exact le_rfl
  | cons x rest ih =>
    rw [opStream_cons, List.length_append, List.length_cons, Op.bytes, List.length_cons]
    omega

/-- A pair of runs costs at most three bytes for each byte it covers. -/
theorem length_runs_le {n : ℕ} {runs : Runs} (h : Tiles n runs) :
    (runs.flatMap runBytes).length ≤ 3 * n := by
  induction runs generalizing n with
  | nil => exact Nat.zero_le _
  | cons run rest ih =>
    obtain ⟨diff, copy⟩ := run
    have hvar : ∀ k, (varint k).length ≤ k ∨ (varint k).length = 1 ∧ k = 0 := by
      intro k
      rcases Nat.eq_zero_or_pos k with rfl | hk
      · exact .inr ⟨rfl, rfl⟩
      · exact .inl (length_varint_le hk)
    have hd := hvar diff.length
    rw [List.flatMap_cons, List.length_append]
    cases copy with
    | none =>
      obtain ⟨hn, hlen, rfl⟩ := h
      simp only [runBytes, Option.map_none, Option.getD_none, List.append_nil, List.length_append,
        List.flatMap_nil, List.length_nil]
      omega
    | some copyLen =>
      obtain ⟨-, hpos, hle, htile⟩ := h
      have hc := hvar copyLen
      have := ih htile
      simp only [runBytes, Option.map_some, Option.getD_some, List.length_append]
      omega

theorem length_diff_le {count : ℕ} {diff : Diff} (h : diff.Fits bs count) :
    diff.bytes.length ≤ 3 * (count * bs) := by
  cases diff with
  | dense data =>
    have : data.length = count * bs := h
    simp only [Diff.bytes]
    omega
  | sparse blocks =>
    obtain ⟨rfl, htiles⟩ := h
    simp only [Diff.bytes]
    induction blocks with
    | nil => simp
    | cons runs rest ih =>
      have hr := length_runs_le (htiles runs List.mem_cons_self)
      have := ih fun x hx => htiles x (List.mem_cons_of_mem _ hx)
      rw [List.flatMap_cons, List.length_append, List.length_cons, add_mul, one_mul]
      omega

theorem length_streams_le {script : Script} (h : ∀ x ∈ script, Legal bs x.2 x.1) :
    (opStream script).length ≤ 13 * totalCount (script.map Prod.fst) ∧
      (diffStream script).length ≤ 3 * (totalCount (script.map Prod.fst) * bs) := by
  induction script with
  | nil => simp [opStream, diffStream]
  | cons x rest ih =>
    obtain ⟨op, e⟩ := x
    obtain ⟨ho, hd⟩ := ih fun x hx => h x (List.mem_cons_of_mem _ hx)
    have hlegal := h (op, e) List.mem_cons_self
    have hone : 1 ≤ op.count := hlegal.1
    have hop := length_bytes_le op e
    have hdiff : op.diffBytes.length ≤ 3 * (op.count * bs) := by
      cases op with
      | copyAdd n byteOffset diff => exact length_diff_le hlegal.2.2.2.2.2.2
      | _ => exact Nat.zero_le _
    rw [opStream_cons, diffStream_cons, List.map_cons, totalCount_cons, List.length_append,
      List.length_append, add_mul]
    dsimp only
    omega

/-- An operation has a meaning when its range is in the reference and its literals
are there; it takes exactly those. -/
theorem applyOperation_isSome_iff (bs : ℕ) (src : Bytes) (pos : ℕ) (lits : Bytes) (op : Op) :
    (applyOperation bs src pos lits op).isSome ↔
      (∀ r ∈ op.range bs pos, 0 ≤ r.1 ∧ r.1 + r.2 ≤ src.length) ∧ op.litLen bs ≤ lits.length := by
  cases op <;> simp [applyOperation, Op.range, Op.litLen, copyRange]

theorem applyOperation_lits {pos : ℕ} {lits lits' out : Bytes} {op : Op}
    (h : applyOperation bs src pos lits op = some (out, lits')) :
    lits' = lits.drop (op.litLen bs) := by
  cases op with
  | literal n =>
    simp only [applyOperation, Option.ite_none_right_eq_some, Option.some.injEq, Prod.mk.injEq] at h
    exact h.2.2.symm
  | zero n | one n =>
    simp only [applyOperation, Option.some.injEq, Prod.mk.injEq] at h
    simp [Op.litLen, h.2]
  | _ =>
    simp only [applyOperation, Option.map_eq_some_iff, Prod.mk.injEq] at h
    obtain ⟨_, _, _, rfl⟩ := h
    simp [Op.litLen]

theorem applyPatch_isSome_iff (bs : ℕ) (src : Bytes) (ops : List Op) (pos : ℕ) (lits : Bytes) :
    (applyPatch bs src pos lits ops).isSome ↔
      RangesInside bs src pos ops ∧ litLen bs ops ≤ lits.length := by
  induction ops generalizing pos lits with
  | nil => simp [applyPatch, RangesInside, litLen]
  | cons op ops ih =>
    have hop := applyOperation_isSome_iff bs src pos lits op
    rw [applyPatch, RangesInside, litLen_cons]
    cases happly : applyOperation bs src pos lits op with
    | none =>
      rw [happly] at hop
      have hno : ¬ _ := fun h => absurd (hop.mpr h) (by simp)
      refine ⟨fun h => absurd h (by simp), ?_⟩
      rintro ⟨⟨hr, -⟩, hl⟩
      exact absurd ⟨hr, by omega⟩ hno
    | some v =>
      obtain ⟨out, lits'⟩ := v
      obtain rfl := applyOperation_lits happly
      rw [happly] at hop
      obtain ⟨hr, hl⟩ := hop.mp rfl
      rw [Option.isSome_map, ih, List.length_drop]
      constructor
      · rintro ⟨hrest, hlen⟩
        exact ⟨⟨hr, hrest⟩, by omega⟩
      · rintro ⟨⟨-, hrest⟩, hlen⟩
        exact ⟨hrest, by omega⟩

end Streams

end Fsdiff.Format
