import Fsdiff.Data.Exec
import Fsdiff.Data.Stdio
import Fsdiff.Types

/-! `buffered_writer.c`: a buffer in front of the one that stdio keeps. -/
namespace Fsdiff.Io
open ByteString Exec

/-- `fsd_buffered_writer_t`; `buffer_pos` is the number of bytes in the buffer, which never
exceeds its size. -/
structure BufferedWriter where
  file : Stdio.Stream UInt8
  bufferSize : ℕ
  buffer : Bytes
  totalWritten : ℕ
  buffer_le : buffer.length ≤ bufferSize
  bufferSize_pos : 0 < bufferSize

abbrev WriterM := EStateM FsdError BufferedWriter

/-- `FSD_WRITER_DEFAULT_BUFFER` -/
def writerDefaultBuffer : ℕ := 64 * 1024

/-- `fsd_writer_create_from_file` once its memory is there. -/
def writerCreateFromFile (file : Stdio.Stream UInt8) (bufferSize : ℕ) : BufferedWriter where
  file := file
  bufferSize := if bufferSize = 0 then writerDefaultBuffer else bufferSize
  buffer := []
  totalWritten := 0
  buffer_le := Nat.zero_le _
  bufferSize_pos := by
    split_ifs with h
    · decide
    · exact Nat.pos_of_ne_zero h

namespace BufferedWriter
variable (w : BufferedWriter)

/-- `writer->buffer_size - writer->buffer_pos` -/
def space : ℕ := w.bufferSize - w.buffer.length

/-- `memcpy` behind the bytes in the buffer. -/
def store (data : Bytes) (h : data.length ≤ w.space) : BufferedWriter :=
  { w with
    buffer := w.buffer ++ data
    buffer_le := by
      have hle := w.buffer_le
      unfold space at h
      rw [List.length_append]
      omega }

/-- `writer->buffer[writer->buffer_pos++] = byte`, which is not done outside the buffer. -/
def push (byte : UInt8) : BufferedWriter :=
  if h : [byte].length ≤ w.space then w.store [byte] h else w

/-- `fsd_writer_bytes_written` -/
def bytesWritten : ℕ := w.totalWritten + w.buffer.length

/-- The writer after `fwrite` has taken the whole buffer. -/
def drained (file : Stdio.Stream UInt8) : BufferedWriter :=
  { w with
    file := file
    buffer := []
    totalWritten := w.totalWritten + w.buffer.length
    buffer_le := Nat.zero_le _ }

end BufferedWriter

/-- `fsd_writer_flush` -/
def writerFlush : WriterM Unit := do
  let w ← get
  if w.buffer.length = 0 then pure ()
  else do
    let (written, file) := w.file.fwrite w.buffer
    if written ≠ w.buffer.length then do
      set { w with file := file }
      throw .io
    else set (w.drained file)

/-- `while (len > 0)` of `fsd_writer_write`. A turn that is not the last one empties the
buffer, so all but the first take at least one byte. -/
def writerWriteLoop : ℕ → Bytes → WriterM Unit
  | 0, _ => pure ()
  | fuel + 1, data => do
    let w ← get
    if data.length = 0 then pure ()
    else if h : data.length ≤ w.space then set (w.store data h)
    else do
      set (w.store (data.take w.space) (List.length_take_le _ _))
      writerFlush
      writerWriteLoop fuel (data.drop w.space)

/-- `fsd_writer_write` -/
def writerWrite (data : Bytes) : WriterM Unit := writerWriteLoop (data.length + 2) data

/-- `fsd_writer_write_byte` -/
def writerWriteByte (byte : UInt8) : WriterM Unit := do
  let w ← get
  if w.bufferSize ≤ w.buffer.length then writerFlush else pure ()
  modify (·.push byte)

/-- What a flush can do. -/
theorem writerFlush_cases (w : BufferedWriter) :
    (w.buffer = [] ∧ writerFlush w = .ok () w) ∨
      ((w.file.fwrite w.buffer).1 = w.buffer.length ∧
        writerFlush w = .ok () (w.drained (w.file.fwrite w.buffer).2)) ∨
      ((w.file.fwrite w.buffer).1 ≠ w.buffer.length ∧
        writerFlush w = .error .io { w with file := (w.file.fwrite w.buffer).2 }) := by
  have hrun : writerFlush w = (if w.buffer.length = 0 then pure ()
      else if (w.file.fwrite w.buffer).1 ≠ w.buffer.length then do
        set { w with file := (w.file.fwrite w.buffer).2 }
        throw .io
      else set (w.drained (w.file.fwrite w.buffer).2) : WriterM Unit) w := rfl
  rw [hrun]
  by_cases h0 : w.buffer.length = 0
  · rw [if_pos h0]
    exact .inl ⟨List.length_eq_zero_iff.mp h0, rfl⟩
  right
  rw [if_neg h0]
  by_cases hw : (w.file.fwrite w.buffer).1 = w.buffer.length
  · rw [if_neg (not_not.mpr hw)]
    exact .inl ⟨hw, rfl⟩
  · rw [if_pos hw]
    exact .inr ⟨hw, rfl⟩

/-! ### Nothing is lost -/

/-- The file held `before`. Since then the writer has accepted `bytes`, and it still has all of
them. -/
structure Keeps (before bytes : Bytes) (w : BufferedWriter) : Prop where
  accepted_eq : w.file.contents ++ w.buffer = before ++ bytes
  bytesWritten_eq : w.bytesWritten = bytes.length

/-- All that a writer on an empty file has accepted. -/
abbrev Intact (bytes : Bytes) (w : BufferedWriter) : Prop := Keeps [] bytes w

section Keeps
variable {before bytes : Bytes} {w : BufferedWriter}

theorem keeps_create (file : Stdio.Stream UInt8) (size : ℕ) :
    Keeps file.contents [] (writerCreateFromFile file size) :=
  ⟨by simp [writerCreateFromFile], by simp [writerCreateFromFile, BufferedWriter.bytesWritten]⟩

theorem Keeps.store (h : Keeps before bytes w) {data : Bytes} (hd : data.length ≤ w.space) :
    Keeps before (bytes ++ data) (w.store data hd) := by
  have hacc := h.accepted_eq
  have hlen := h.bytesWritten_eq
  unfold BufferedWriter.bytesWritten at hlen
  constructor
  · change w.file.contents ++ (w.buffer ++ data) = _
    rw [← List.append_assoc, hacc, List.append_assoc]
  · simp [BufferedWriter.store, BufferedWriter.bytesWritten, ← hlen]
    omega

/-- A flush that returns has emptied the buffer into the file. -/
theorem writerFlush_keeps (h : Keeps before bytes w) :
    Ends (writerFlush w)
      (fun _ w' => Keeps before bytes w' ∧ w'.buffer = [] ∧ w'.bufferSize = w.bufferSize)
      (fun e _ => e = .io) := by
  rcases writerFlush_cases w with ⟨h0, hrun⟩ | ⟨hw, hrun⟩ | ⟨hw, hrun⟩
  · rw [hrun]
    exact ⟨h, h0, rfl⟩
  · rw [hrun]
    refine ⟨⟨?_, h.bytesWritten_eq⟩, rfl, rfl⟩
    change (w.file.fwrite w.buffer).2.contents ++ [] = before ++ bytes
    rw [Stdio.Stream.fwrite_contents hw, List.append_nil, h.accepted_eq]
  · rw [hrun]
    rfl

/-- The fuel is enough: either the buffer is full, and one turn more is needed, or each turn
takes a byte. -/
theorem writerWriteLoop_keeps (fuel : ℕ) (data : Bytes) (h : Keeps before bytes w)
    (hfuel : data.length + (if w.space = 0 then 1 else 0) < fuel) :
    Ends (writerWriteLoop fuel data w)
      (fun _ w' => Keeps before (bytes ++ data) w' ∧ w'.bufferSize = w.bufferSize)
      (fun e _ => e = .io) := by
  induction fuel generalizing data bytes w with
  | zero => exact absurd hfuel (Nat.not_lt_zero _)
  | succ fuel ih =>
    change Ends ((if data.length = 0 then _ else _ : WriterM Unit) w) _ _
    by_cases h0 : data.length = 0
    · rw [if_pos h0, List.length_eq_zero_iff.mp h0, List.append_nil]
      exact ⟨h, rfl⟩
    rw [if_neg h0]
    by_cases hfit : data.length ≤ w.space
    · rw [dif_pos hfit]
      exact ⟨h.store hfit, rfl⟩
    rw [dif_neg hfit]
    have hstored := h.store (List.length_take_le w.space data)
    apply Ends.bind (x := writerFlush) (writerFlush_keeps hstored)
    rintro _ w' ⟨h', hbuf, hsize⟩
    have hspace : w'.space = w.bufferSize := by
      unfold BufferedWriter.space
      rw [hbuf, hsize]
      rfl
    have hpos := w.bufferSize_pos
    have hrest := ih (data.drop w.space) h' ?_
    · rw [hsize, List.append_assoc, List.take_append_drop] at hrest
      exact hrest
    · rw [hspace, if_neg (by omega), List.length_drop]
      split_ifs at hfuel <;> omega

theorem writerWrite_keeps (data : Bytes) (h : Keeps before bytes w) :
    Ends (writerWrite data w)
      (fun _ w' => Keeps before (bytes ++ data) w' ∧ w'.bufferSize = w.bufferSize)
      (fun e _ => e = .io) := by
  apply writerWriteLoop_keeps _ _ h
  split_ifs <;> omega

theorem writerWriteByte_keeps (byte : UInt8) (h : Keeps before bytes w) :
    Ends (writerWriteByte byte w)
      (fun _ w' => Keeps before (bytes ++ [byte]) w' ∧ w'.bufferSize = w.bufferSize)
      (fun e _ => e = .io) := by
  have hpush : ∀ w' : BufferedWriter, Keeps before bytes w' → [byte].length ≤ w'.space →
      Keeps before (bytes ++ [byte]) (w'.push byte) ∧ (w'.push byte).bufferSize = w'.bufferSize := by
    intro w' h' hspace
    rw [BufferedWriter.push, dif_pos hspace]
    exact ⟨h'.store hspace, rfl⟩
  change Ends ((do
    if w.bufferSize ≤ w.buffer.length then writerFlush else pure ()
    modify (·.push byte) : WriterM Unit) w) _ _
  by_cases hfull : w.bufferSize ≤ w.buffer.length
  · rw [if_pos hfull]
    apply Ends.bind (writerFlush_keeps h)
    rintro _ w' ⟨h', hbuf, hsize⟩
    have hpos := w'.bufferSize_pos
    have hspace : [byte].length ≤ w'.space := by
      simp only [BufferedWriter.space, hbuf, List.length_singleton, List.length_nil]
      omega
    exact (hpush w' h' hspace).imp_right fun hpushed => hpushed.trans hsize
  · rw [if_neg hfull]
    apply hpush w h
    rw [BufferedWriter.space, List.length_singleton]
    omega

end Keeps

/-! ### Errors -/

theorem writerFlush_stops : Stops (· = .io) writerFlush := by
  apply stops_get.bind
  intro w
  apply Stops.ite (fun _ => stops_pure _) fun _ => ?_
  apply Stops.ite
  · intro _
    exact (stops_set _).bind fun _ => stops_throw rfl
  · exact fun _ => stops_set _

theorem writerWrite_stops (data : Bytes) : Stops (· = .io) (writerWrite data) := by
  have hloop : ∀ (fuel : ℕ) (data : Bytes), Stops (· = .io) (writerWriteLoop fuel data) := by
    intro fuel
    induction fuel with
    | zero => exact fun _ => stops_pure ()
    | succ fuel ih =>
      intro data
      apply stops_get.bind
      intro w
      apply Stops.ite (fun _ => stops_pure _) fun _ => ?_
      by_cases hfit : data.length ≤ w.space
      · rw [dif_pos hfit]
        exact stops_set _
      · rw [dif_neg hfit]
        apply (stops_set _).bind
        intro _
        exact writerFlush_stops.bind fun _ => ih _
  exact hloop _ data

theorem writerWriteByte_stops (byte : UInt8) : Stops (· = .io) (writerWriteByte byte) := by
  apply stops_get.bind
  intro w
  apply Stops.ite
  · intro _
    exact writerFlush_stops.bind fun _ => stops_modify _
  · exact fun _ => stops_modify _

end Fsdiff.Io
