import Fsdiff.Io.BufferedWriter

/-! Sequences of calls on a buffered writer whose file takes every write. -/
namespace Fsdiff.Io
open ByteString Exec

def valueBytes (n value : ℕ) : Bytes :=
  (List.range n).map fun i => UInt8.ofNat (value >>> (8 * i) &&& 0xFF)

/-- `fsd_writer_write_u16_le` -/
def writerWriteU16Le (value : UInt16) : WriterM Unit := writerWrite (valueBytes 2 value.toNat)

/-- `fsd_writer_write_u32_le` -/
def writerWriteU32Le (value : UInt32) : WriterM Unit := writerWrite (valueBytes 4 value.toNat)

/-- `fsd_writer_write_u64_le` -/
def writerWriteU64Le (value : UInt64) : WriterM Unit := writerWrite (valueBytes 8 value.toNat)

/-- A call on a writer. -/
inductive WriterOp where
  | write (data : Bytes)
  | writeByte (byte : UInt8)
  | writeU16Le (value : UInt16)
  | writeU32Le (value : UInt32)
  | writeU64Le (value : UInt64)
  | flush
  deriving DecidableEq

def WriterOp.run : WriterOp → WriterM Unit
  | .write data => writerWrite data
  | .writeByte byte => writerWriteByte byte
  | .writeU16Le value => writerWriteU16Le value
  | .writeU32Le value => writerWriteU32Le value
  | .writeU64Le value => writerWriteU64Le value
  | .flush => writerFlush

def WriterOp.bytes : WriterOp → Bytes
  | .write data => data
  | .writeByte byte => [byte]
  | .writeU16Le value => leBytes 2 value.toNat
  | .writeU32Le value => leBytes 4 value.toNat
  | .writeU64Le value => leBytes 8 value.toNat
  | .flush => []

def runOps : List WriterOp → WriterM Unit
  | [] => pure ()
  | op :: ops => do
    op.run
    runOps ops

/-! ### The loop of a write -/

/-- The turns of the loop in `fsd_writer_write`, and how it ends. -/
inductive WriteEnds : Bytes → BufferedWriter → EStateM.Result FsdError BufferedWriter Unit → Prop
  | empty (w : BufferedWriter) : WriteEnds [] w (.ok () w)
  | fits {data : Bytes} {w : BufferedWriter} (hne : data.length ≠ 0) (h : data.length ≤ w.space) :
      WriteEnds data w (.ok () (w.store data h))
  | fail {data : Bytes} {w w' : BufferedWriter} {e : FsdError} (h : w.space < data.length)
      (hflush : writerFlush (w.store (data.take w.space) (List.length_take_le _ _)) = .error e w') :
      WriteEnds data w (.error e w')
  | turn {data : Bytes} {w w' : BufferedWriter} {r : EStateM.Result FsdError BufferedWriter Unit}
      (h : w.space < data.length)
      (hflush : writerFlush (w.store (data.take w.space) (List.length_take_le _ _)) = .ok () w')
      (hrest : WriteEnds (data.drop w.space) w' r) : WriteEnds data w r

/-- A flush that returns leaves the whole buffer free. -/
theorem writerFlush_space (w : BufferedWriter) :
    Ends (writerFlush w) (fun _ w' => w'.space = w.bufferSize) (fun _ _ => True) := by
  rcases writerFlush_cases w with ⟨h0, hrun⟩ | ⟨-, hrun⟩ | ⟨-, hrun⟩
  · rw [hrun]
    change w.bufferSize - w.buffer.length = _
    rw [h0]
    rfl
  · rw [hrun]
    rfl
  · rw [hrun]
    trivial

/-- The turns come to an end: all but the first take a byte or more. -/
theorem writerWriteLoop_ends (fuel : ℕ) (data : Bytes) (w : BufferedWriter)
    (hfuel : data.length + (if w.space = 0 then 1 else 0) < fuel) :
    WriteEnds data w (writerWriteLoop fuel data w) := by
  induction fuel generalizing data w with
  | zero => exact absurd hfuel (Nat.not_lt_zero _)
  | succ fuel ih =>
    change WriteEnds data w ((if data.length = 0 then _ else _ : WriterM Unit) w)
    by_cases h0 : data.length = 0
    · rw [if_pos h0]
      obtain rfl := List.length_eq_zero_iff.mp h0
      exact .empty w
    rw [if_neg h0]
    by_cases hfit : data.length ≤ w.space
    · rw [dif_pos hfit]
      exact .fits h0 hfit
    rw [dif_neg hfit, set_bind]
    have hspace := writerFlush_space (w.store (data.take w.space) (List.length_take_le _ _))
    cases hflush : writerFlush (w.store (data.take w.space) (List.length_take_le _ _)) with
    | error e w' =>
      rw [bind_of_error hflush]
      exact .fail (not_le.mp hfit) hflush
    | ok _ w' =>
      rw [bind_of_ok hflush]
      have hfree : w'.space = w.bufferSize := hspace.of_ok hflush
      have hpos := w.bufferSize_pos
      refine .turn (not_le.mp hfit) hflush (ih _ _ ?_)
      rw [hfree, if_neg (by omega), List.length_drop]
      split_ifs at hfuel <;> omega

theorem writerWrite_ends (data : Bytes) (w : BufferedWriter) :
    WriteEnds data w (writerWrite data w) := by
  apply writerWriteLoop_ends
  split_ifs <;> omega

/-! ### A file that takes every write -/

theorem writerFlush_reliable {w : BufferedWriter} (h : w.file.Reliable) :
    Ends (writerFlush w) (fun _ w' => w'.file.Reliable) (fun _ _ => False) := by
  obtain ⟨htaken, hlater⟩ := h.fwrite w.buffer
  rcases writerFlush_cases w with ⟨-, hrun⟩ | ⟨-, hrun⟩ | ⟨hshort, -⟩
  · rw [hrun]
    exact h
  · rw [hrun]
    exact hlater
  · exact absurd htaken hshort

theorem writerWrite_reliable {w : BufferedWriter} (h : w.file.Reliable) (data : Bytes) :
    Ends (writerWrite data w) (fun _ w' => w'.file.Reliable) (fun _ _ => False) := by
  have hends := writerWrite_ends data w
  generalize writerWrite data w = r at hends
  induction hends with
  | empty w => exact h
  | fits hne hfit => exact h
  | @fail data w w' e hlt hflush =>
    exact (writerFlush_reliable (w := w.store (data.take w.space) (List.length_take_le _ _)) h).of_error
      hflush
  | @turn data w w' r hlt hflush hrest ih =>
    exact ih ((writerFlush_reliable (w := w.store (data.take w.space) (List.length_take_le _ _)) h).of_ok
      hflush)

theorem writerWriteByte_reliable {w : BufferedWriter} (h : w.file.Reliable) (byte : UInt8) :
    Ends (writerWriteByte byte w) (fun _ w' => w'.file.Reliable) (fun _ _ => False) := by
  have hpush : ∀ w' : BufferedWriter, w'.file.Reliable → (w'.push byte).file.Reliable := by
    intro w' h'
    unfold BufferedWriter.push
    split_ifs
    · exact h'
    · exact h'
  change Ends ((do
    if w.bufferSize ≤ w.buffer.length then writerFlush else pure ()
    modify (·.push byte) : WriterM Unit) w) _ _
  by_cases hfull : w.bufferSize ≤ w.buffer.length
  · rw [if_pos hfull]
    apply (writerFlush_reliable h).bind
    exact fun _ w' h' => hpush w' h'
  · rw [if_neg hfull]
    exact hpush w h

/-! ### Calls -/

theorem valueBytes_eq (n value : ℕ) : valueBytes n value = leBytes n value := by
  induction n generalizing value with
  | zero => rfl
  | succ n ih =>
    have hshift : ∀ i, value >>> (8 * (i + 1)) = (value / 256) >>> (8 * i) := by
      intro i
      rw [Nat.mul_succ, Nat.add_comm, Nat.shiftRight_add, Nat.shiftRight_eq_div_pow value 8]
    have hlow : UInt8.ofNat (value &&& 0xFF) = UInt8.ofNat value := by
      apply UInt8.toNat_inj.mp
      rw [UInt8.toNat_ofNat', UInt8.toNat_ofNat']
      change (value &&& (2 ^ 8 - 1)) % 2 ^ 8 = _
      rw [Nat.and_two_pow_sub_one_eq_mod, Nat.mod_mod]
    rw [leBytes, ← ih, valueBytes, List.range_succ_eq_map, List.map_cons, List.map_map]
    simp only [Nat.mul_zero, Nat.shiftRight_zero, hlow, valueBytes]
    congr 1
    apply List.map_congr_left
    intro i _
    exact congrArg (fun v => UInt8.ofNat (v &&& 0xFF)) (hshift i)

/-- One call adds its bytes. -/
theorem WriterOp.run_keeps {before bytes : Bytes} {w : BufferedWriter} (op : WriterOp)
    (h : Keeps before bytes w) (hfile : w.file.Reliable) :
    Ends (op.run w)
      (fun _ w' => (Keeps before (bytes ++ op.bytes) w' ∧ w'.bufferSize = w.bufferSize) ∧
        w'.file.Reliable)
      (fun _ _ => False) := by
  have hwrite : ∀ data, Ends (writerWrite data w)
      (fun _ w' => (Keeps before (bytes ++ data) w' ∧ w'.bufferSize = w.bufferSize) ∧
        w'.file.Reliable) (fun _ _ => False) := by
    intro data
    exact ((writerWrite_keeps data h).and (writerWrite_reliable hfile data)).weaken fun _ _ hf => hf.2
  cases op with
  | write data => exact hwrite data
  | writeByte byte =>
    exact ((writerWriteByte_keeps byte h).and (writerWriteByte_reliable hfile byte)).weaken
      fun _ _ hf => hf.2
  | writeU16Le value =>
    rw [WriterOp.bytes, ← valueBytes_eq]
    exact hwrite _
  | writeU32Le value =>
    rw [WriterOp.bytes, ← valueBytes_eq]
    exact hwrite _
  | writeU64Le value =>
    rw [WriterOp.bytes, ← valueBytes_eq]
    exact hwrite _
  | flush =>
    refine ((writerFlush_keeps h).and (writerFlush_reliable hfile)).mono ?_ fun _ _ hf => hf.2
    rintro _ w' ⟨⟨hk, -, hsize⟩, hr⟩
    rw [WriterOp.bytes, List.append_nil]
    exact ⟨⟨hk, hsize⟩, hr⟩

theorem runOps_keeps {before bytes : Bytes} {w : BufferedWriter} (ops : List WriterOp)
    (h : Keeps before bytes w) (hfile : w.file.Reliable) :
    Ends (runOps ops w)
      (fun _ w' => Keeps before (bytes ++ ops.flatMap WriterOp.bytes) w' ∧
        w'.bufferSize = w.bufferSize)
      (fun _ _ => False) := by
  induction ops generalizing bytes w with
  | nil =>
    rw [List.flatMap_nil, List.append_nil]
    exact ⟨h, rfl⟩
  | cons op ops ih =>
    apply (op.run_keeps h hfile).bind
    rintro _ w' ⟨⟨h', hsize⟩, hfile'⟩
    have hrest := ih h' hfile'
    rw [hsize, List.append_assoc] at hrest
    exact hrest

/-- Over a file that takes every write, any sequence of calls returns. The file has grown by
the arguments, in order, but for what is still in the buffer; that is no longer than the buffer
is, and the count of bytes is theirs. No loop of a call runs on. -/
theorem runOps_accounts (file : Stdio.Stream UInt8) (hfile : file.Reliable) (size : ℕ)
    (hsize : 1 ≤ size) (ops : List WriterOp) :
    (∃ w, runOps ops (writerCreateFromFile file size) = .ok () w ∧
      w.file.contents ++ w.buffer = file.contents ++ ops.flatMap WriterOp.bytes ∧
      w.buffer.length ≤ w.bufferSize ∧ w.bufferSize = size ∧
      w.bytesWritten = (ops.flatMap WriterOp.bytes).length) ∧
    ∀ data w, WriteEnds data w (writerWrite data w) := by
  refine ⟨?_, writerWrite_ends⟩
  obtain ⟨_, w, hrun, hkeeps, hbuf⟩ :=
    (runOps_keeps ops (keeps_create file size) hfile).exists_ok
  refine ⟨w, hrun, hkeeps.accepted_eq, w.buffer_le, ?_, hkeeps.bytesWritten_eq⟩
  rw [hbuf]
  exact if_neg (by omega)

/-- A buffer of three bytes, and values that straddle its end. -/
theorem runOps_accounts_straddling :
    let file : Stdio.Stream UInt8 := { disk := [], answers := fun _ => ⟨true, 2⟩ }
    let ops : List WriterOp := [.writeU16Le 0x0201, .writeU32Le 0x06050403, .writeByte 7, .flush,
      .write [8, 9, 10, 11]]
    ∃ w, runOps ops (writerCreateFromFile file 3) = .ok () w ∧
      w.file.contents ++ w.buffer = [1, 2, 3, 4, 5, 6, 7, 8, 9, 10, 11] ∧ w.bytesWritten = 11 := by
  intro file ops
  obtain ⟨w, hrun, hbytes, -, -, hcount⟩ := (runOps_accounts file (fun _ => rfl) 3 (by decide) ops).1
  have hops : ops.flatMap WriterOp.bytes = [1, 2, 3, 4, 5, 6, 7, 8, 9, 10, 11] := by decide
  rw [hops] at hbytes hcount
  exact ⟨w, hrun, hbytes, hcount⟩

end Fsdiff.Io
