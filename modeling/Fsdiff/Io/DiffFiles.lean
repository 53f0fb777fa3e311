import Fsdiff.Diff
import Fsdiff.Io.BufferedWriter
import Fsdiff.Io.Path
import Mathlib.Logic.Function.Basic

/-! `fsd_diff_files` with the files around it: the streams go through writers into temporary
files, and from there behind a header into the patch. Any call of stdio and any allocation may
fail. The streams of a run that fails before the patch is opened are not looked at, so the
encoder is run first and what it passes to the writers afterwards. -/
namespace Fsdiff.Io
open ByteString Exec Stages

/-! ### Temporary files -/

def stream (s : Encoder.Streams) : Encoder.Writer → Bytes
  | .op => s.op
  | .diff => s.diff
  | .lit => s.lit

abbrev Temps := Encoder.Writer → BufferedWriter

abbrev TempM := EStateM FsdError Temps

/-- A call of one of the writers. -/
def onWriter (w : Encoder.Writer) (x : WriterM Unit) : TempM Unit := fun temps =>
  match x (temps w) with
  | .ok a t => .ok a (Function.update temps w t)
  | .error e t => .error e (Function.update temps w t)

/-- A call that the encoder makes. -/
inductive WriterCall where
  | write (w : Encoder.Writer) (data : Bytes)
  | writeByte (w : Encoder.Writer) (byte : UInt8)
  deriving DecidableEq, Repr

def WriterCall.run : WriterCall → TempM Unit
  | .write w data => onWriter w (writerWrite data)
  | .writeByte w byte => onWriter w (writerWriteByte byte)

/-- What a call passes to the writer `w`. -/
def WriterCall.passes (w : Encoder.Writer) : WriterCall → Bytes
  | .write w' data => if w' = w then data else []
  | .writeByte w' byte => if w' = w then [byte] else []

/-- How the encoder cuts its streams into calls, and in which order it makes them. -/
structure Passing where
  calls : Encoder.Streams → List WriterCall
  passes_eq : ∀ s w, (calls s).flatMap (WriterCall.passes w) = stream s w

def runCalls : List WriterCall → TempM Unit
  | [] => pure ()
  | c :: cs => do
    c.run
    runCalls cs

/-- `fflush(file)` of the file below a writer. -/
def fflushFile : WriterM Unit := do
  let w ← get
  let (ok, file) := w.file.fflush
  set { w with file := file }
  if ok then pure () else throw .io

def onWriters (x : WriterM Unit) : List Encoder.Writer → TempM Unit
  | [] => pure ()
  | w :: ws => do
    onWriter w x
    onWriters x ws

/-- The calls of the encoder, then the flushes of the writers and of stdio. -/
def writeTemps (calls : List WriterCall) : TempM Unit := do
  runCalls calls
  onWriters writerFlush [.op, .diff, .lit]
  onWriters fflushFile [.op, .diff, .lit]

/-! ### The patch file -/

abbrev OutM := EStateM FsdError (Stdio.Stream UInt8)

/-- `fwrite`, a short count being `FSD_ERR_IO`. -/
def fwriteAll (data : Bytes) : OutM Unit := do
  let f ← get
  let (n, f) := f.fwrite data
  set f
  if n ≠ data.length then throw .io else pure ()

/-- `sizeof(copy_buf)` -/
def copyBufSize : ℕ := 65536

/-- `while ((n = fread(..)) > 0)` -/
def copyLoop : ℕ → Stdio.Stream UInt8 → ℕ → OutM (Stdio.Stream UInt8 × ℕ)
  | 0, src, copied => pure (src, copied)
  | fuel + 1, src, copied => do
    let (buf, src) := src.fread copyBufSize
    if buf.length = 0 then pure (src, copied)
    else do
      fwriteAll buf
      copyLoop fuel src (copied + buf.length)

/-- `fsd_copy_stream`; a read that is not the last one takes at least one byte. -/
def copyStream (src : Stdio.Stream UInt8) (expected : ℕ) : OutM Unit := do
  let src := src.rewind
  let (src, copied) ← copyLoop (src.disk.length + 1) src 0
  if src.err = true ∨ copied ≠ expected then throw .io else pure ()

def assemble (log2 destBlocks : ℕ) (temps : Temps) : OutM Unit := do
  fwriteAll (headerWrite destBlocks log2 (temps .op).bytesWritten (temps .diff).bytesWritten)
  copyStream (temps .op).file (temps .op).bytesWritten
  copyStream (temps .diff).file (temps .diff).bytesWritten
  copyStream (temps .lit).file (temps .lit).bytesWritten

/-! ### The run -/

/-- What may fail around a run: opening the images, the allocations, the temporary files and
the calls of stdio on each of the files. An image that is empty and mapped, so that its pointer is
the `NULL` that `fsd_stage_controller_run` refuses, is an error among `images`. -/
structure Surroundings where
  images : Except FsdError (Bytes × Bytes)
  controllerMemory : Bool
  stages : Stages.Env
  tempFile : Encoder.Writer → Bool
  writerMemory : Encoder.Writer → Bool
  encoderMemory : Bool
  diffBufMemory : ℕ → Bool
  tempAnswers : Encoder.Writer → ℕ → Stdio.Answer
  fopen : Bool
  outputAnswers : ℕ → Stdio.Answer

/-- How a run ends: the code, or `stats.patch_size`; what the output path names then; and
whether it was opened. -/
structure Outcome where
  result : Except FsdError ℕ
  output : Path
  opened : Bool

/-- An index of hypotheses for each pair of images. -/
abbrev Index := ∀ (src dest : Bytes) (bs : ℕ), FsmapIndex bs src.length (dest.length / bs)

section Run
variable (S : Surroundings) (K : Kernels) (opts : DiffOptions) (index : Index) (passing : Passing)

/-- From the images to the tracker. -/
def matchImages (src dest : Bytes) : Except FsdError Tracker :=
  if dest.length % opts.blockSize ≠ 0 then .error .sizeMismatch
  else if S.controllerMemory = false then .error .outOfMemory
  else
    match controllerCreate opts (src.length / opts.blockSize) (dest.length / opts.blockSize) with
    | .error e => .error e
    | .ok ctrl =>
      match controllerRun S.stages K ctrl src dest (index src dest ctrl.blockSize)
          { tracker := ctrl.tracker } with
      | .error e _ => .error e
      | .ok _ w => .ok w.tracker

/-- From the tracker to the temporary files. A writer that could not be created is the `NULL`
that the encoder refuses. -/
def encodeTemps (t : Tracker) (dest : Bytes) : Except FsdError Temps :=
  if S.tempFile .op = false ∨ S.tempFile .diff = false ∨ S.tempFile .lit = false then .error .io
  else if S.encoderMemory = false then .error .outOfMemory
  else if S.writerMemory .op = false ∨ S.writerMemory .diff = false ∨ S.writerMemory .lit = false then
    .error .invalidArg
  else
    match Encoder.encode ⟨S.diffBufMemory, fun _ => none⟩ opts.blockSize t dest {} with
    | .error e _ => .error e
    | .ok _ s =>
      match writeTemps (passing.calls s) fun w => writerCreateFromFile ⟨[], S.tempAnswers w, [], 0, false⟩ 0 with
      | .error e _ => .error e
      | .ok _ temps => .ok temps

/-- From `fopen(output_path, "wb")` on. -/
def writeOutput (destBlocks : ℕ) (temps : Temps) (out : Path) : Outcome :=
  if S.fopen = false then ⟨.error .io, out, false⟩
  else
    let written : Option FsdError × Stdio.Stream UInt8 :=
      match assemble opts.blockSizeLog2 destBlocks temps ⟨[], S.outputAnswers, [], 0, false⟩ with
      | .ok _ f => (none, f)
      | .error e f => (some e, f)
    let closed := written.2.fclose
    let err := if closed.1 = false ∧ written.1 = none then some .io else written.1
    match err with
    | some e => ⟨.error e, out.removed closed.2, true⟩
    | none =>
      ⟨.ok (headerSize + (temps .op).bytesWritten + (temps .diff).bytesWritten +
        (temps .lit).bytesWritten), out.opened closed.2, true⟩

/-- `fsd_diff_create` and `fsd_diff_files` -/
def diffFiles (out : Path) : Outcome :=
  if opts.blockSizeLog2 < 5 ∨ 24 < opts.blockSizeLog2 then ⟨.error .badBlockSize, out, false⟩
  else
    match S.images with
    | .error e => ⟨.error e, out, false⟩
    | .ok (src, dest) =>
      match matchImages S K opts index src dest with
      | .error e => ⟨.error e, out, false⟩
      | .ok t =>
        match encodeTemps S opts passing t dest with
        | .error e => ⟨.error e, out, false⟩
        | .ok temps => writeOutput S opts (dest.length / opts.blockSize) temps out

end Run

/-! ### What reaches the temporary files -/

section Temps
variable {temps : Temps} {w : Encoder.Writer}

/-- Each writer has accepted its share, and has it still. -/
def AllIntact (share : Encoder.Writer → Bytes) (temps : Temps) : Prop := ∀ w, Intact (share w) (temps w)

/-- The file below a writer holds exactly `bytes`, and nothing is on its way. -/
structure Settled (bytes : Bytes) (w : BufferedWriter) : Prop where
  disk_eq : w.file.disk = bytes
  pending_eq : w.file.pending = []
  bytesWritten_eq : w.bytesWritten = bytes.length

theorem onWriter_ends {x : WriterM Unit} {Q : BufferedWriter → Prop}
    (h : Ends (x (temps w)) (fun _ t => Q t) (fun _ _ => True)) :
    Ends (onWriter w x temps) (fun _ temps' => Q (temps' w) ∧ ∀ v, v ≠ w → temps' v = temps v)
      (fun _ _ => True) := by
  unfold onWriter
  cases hx : x (temps w) with
  | ok a t =>
    rw [hx] at h
    constructor
    · rw [Function.update_self]
      exact h
    · exact fun v hv => Function.update_of_ne hv _ _
  | error e t => trivial

theorem WriterCall.run_intact {share : Encoder.Writer → Bytes} (c : WriterCall)
    (h : AllIntact share temps) :
    Ends (c.run temps) (fun _ temps' => AllIntact (fun w => share w ++ c.passes w) temps')
      (fun _ _ => True) := by
  have hstep : ∀ (w : Encoder.Writer) (x : WriterM Unit) (data : Bytes),
      Ends (x (temps w)) (fun _ t => Intact (share w ++ data) t) (fun e _ => e = .io) →
      Ends (onWriter w x temps)
        (fun _ temps' => AllIntact (fun v => share v ++ if w = v then data else []) temps')
        (fun _ _ => True) := by
    intro w x data hx
    refine (onWriter_ends (hx.weaken fun _ _ _ => trivial)).imp ?_
    rintro _ temps' ⟨hw, hothers⟩ v
    dsimp only
    by_cases hv : w = v
    · rw [← hv, if_pos rfl]
      exact hw
    · rw [if_neg hv, hothers v (Ne.symm hv), List.append_nil]
      exact h v
  cases c with
  | write w data => exact hstep w _ data ((writerWrite_keeps data (h w)).imp fun _ _ h' => h'.1)
  | writeByte w byte => exact hstep w _ [byte] ((writerWriteByte_keeps byte (h w)).imp fun _ _ h' => h'.1)

/-- However the streams are cut into calls, each file gets its own. -/
theorem runCalls_intact {share : Encoder.Writer → Bytes} (calls : List WriterCall)
    (h : AllIntact share temps) :
    Ends (runCalls calls temps)
      (fun _ temps' => AllIntact (fun w => share w ++ calls.flatMap (WriterCall.passes w)) temps')
      (fun _ _ => True) := by
  induction calls generalizing share temps with
  | nil =>
    simp only [List.flatMap_nil, List.append_nil]
    exact h
  | cons c cs ih =>
    apply (c.run_intact h).bind
    intro _ temps' h'
    simpa using ih h'

/-- What a call makes of each writer, the calls on all of them make of all. -/
theorem onWriters_ends {x : WriterM Unit} {P Q : Encoder.Writer → BufferedWriter → Prop}
    (hx : ∀ v t, P v t → Ends (x t) (fun _ t' => Q v t') (fun _ _ => True))
    (h : ∀ v, P v (temps v)) :
    Ends (onWriters x [.op, .diff, .lit] temps) (fun _ temps' => ∀ v, Q v (temps' v))
      (fun _ _ => True) := by
  have hrun : ∀ ws : List Encoder.Writer, ws.Nodup → ∀ temps : Temps, (∀ v ∈ ws, P v (temps v)) →
      Ends (onWriters x ws temps)
        (fun _ temps' => ∀ v, if v ∈ ws then Q v (temps' v) else temps' v = temps v)
        (fun _ _ => True) := by
    intro ws
    induction ws with
    | nil => exact fun _ temps _ v => rfl
    | cons w ws ih =>
      intro hnodup temps hP
      obtain ⟨hw, hws⟩ := List.nodup_cons.mp hnodup
      apply Ends.bind (onWriter_ends (hx w _ (hP w List.mem_cons_self)))
      rintro _ temps' ⟨hQ, hothers⟩
      refine (ih hws temps' ?_).imp ?_
      · intro v hv
        rw [hothers v (fun heq => hw (heq ▸ hv))]
        exact hP v (List.mem_cons_of_mem _ hv)
      · intro _ temps'' h'' v
        have hv := h'' v
        by_cases hmem : v ∈ ws
        · rw [if_pos hmem] at hv
          rw [if_pos (List.mem_cons_of_mem _ hmem)]
          exact hv
        · rw [if_neg hmem] at hv
          rw [hv]
          by_cases heq : v = w
          · rw [heq, if_pos List.mem_cons_self]
            exact hQ
          · rw [if_neg (by simp [heq, hmem])]
            exact hothers v heq
  refine (hrun _ (by decide) temps fun v _ => h v).imp ?_
  intro _ temps' h' v
  have hall : v ∈ [Encoder.Writer.op, .diff, .lit] := by cases v <;> decide
  have hv := h' v
  rwa [if_pos hall] at hv

theorem fflushFile_settled {bytes : Bytes} {t : BufferedWriter} (h : Intact bytes t)
    (hbuf : t.buffer = []) : Ends (fflushFile t) (fun _ t' => Settled bytes t') (fun _ _ => True) := by
  change Ends ((if t.file.fflush.1 then pure () else throw .io : WriterM Unit)
    { t with file := t.file.fflush.2 }) _ _
  split_ifs with hok
  · refine ⟨?_, Stdio.Stream.fflush_pending, h.bytesWritten_eq⟩
    have hacc := h.accepted_eq
    rw [hbuf, List.append_nil] at hacc
    exact (Stdio.Stream.fflush_disk hok).trans hacc
  · trivial

theorem writeTemps_settled (calls : List WriterCall) (h : AllIntact (fun _ => []) temps) :
    Ends (writeTemps calls temps)
      (fun _ temps' => ∀ w, Settled (calls.flatMap (WriterCall.passes w)) (temps' w))
      (fun _ _ => True) := by
  have hflush : ∀ w t, Intact (calls.flatMap (WriterCall.passes w)) t → Ends (writerFlush t)
      (fun _ t' => Intact (calls.flatMap (WriterCall.passes w)) t' ∧ t'.buffer = [])
      (fun _ _ => True) := by
    intro w t ht
    exact (writerFlush_keeps ht).mono (fun _ t' h' => ⟨h'.1, h'.2.1⟩) fun _ _ _ => trivial
  have hsync : ∀ w t, Intact (calls.flatMap (WriterCall.passes w)) t ∧ t.buffer = [] →
      Ends (fflushFile t) (fun _ t' => Settled (calls.flatMap (WriterCall.passes w)) t')
      (fun _ _ => True) := by
    intro w t ht
    exact fflushFile_settled ht.1 ht.2
  apply (runCalls_intact calls h).bind
  intro _ temps₁ h₁
  apply (onWriters_ends hflush h₁).bind
  intro _ temps₂ h₂
  exact onWriters_ends hsync h₂

end Temps

/-! ### What reaches the patch file -/

section Output
variable {out : Stdio.Stream UInt8}

theorem fwriteAll_ends (data : Bytes) :
    Ends (fwriteAll data out) (fun _ out' => out'.contents = out.contents ++ data)
      (fun _ _ => True) := by
  change Ends ((if (out.fwrite data).1 ≠ data.length then throw .io else pure () : OutM Unit)
    (out.fwrite data).2) _ _
  split_ifs with hn
  · trivial
  · exact Stdio.Stream.fwrite_contents (not_not.mp hn)

/-- A copy that ends without an error indicator has passed on the rest of the file. -/
theorem copyLoop_ends (fuel : ℕ) (src : Stdio.Stream UInt8) (copied : ℕ)
    (hfuel : (src.disk.drop src.pos).length < fuel) :
    Ends (copyLoop fuel src copied out)
      (fun r out' => r.1.err = false →
        src.err = false ∧ out'.contents = out.contents ++ src.disk.drop src.pos)
      (fun _ _ => True) := by
  induction fuel generalizing src copied out with
  | zero => exact absurd hfuel (Nat.not_lt_zero _)
  | succ fuel ih =>
    have hdisk := Stdio.Stream.fread_disk (f := src) copyBufSize
    have hpos := Stdio.Stream.fread_pos (f := src) copyBufSize
    have hle := Stdio.Stream.fread_length_le (f := src) copyBufSize
    change Ends ((if (src.fread copyBufSize).1.length = 0 then pure ((src.fread copyBufSize).2, copied)
      else do
        fwriteAll (src.fread copyBufSize).1
        copyLoop fuel (src.fread copyBufSize).2 (copied + (src.fread copyBufSize).1.length) : OutM _) out)
      _ _
    by_cases h0 : (src.fread copyBufSize).1.length = 0
    · rw [if_pos h0]
      intro herr
      obtain ⟨herr', hread⟩ := Stdio.Stream.fread_eq herr
      rw [hread, List.length_take, Nat.min_eq_zero_iff] at h0
      have hend : src.disk.drop src.pos = [] := by
        rcases h0 with h0 | h0
        · exact absurd h0 (by decide)
        · exact List.length_eq_zero_iff.mp h0
      rw [hend, List.append_nil]
      exact ⟨herr', rfl⟩
    · rw [if_neg h0]
      apply (fwriteAll_ends _).bind
      intro _ out₁ h₁
      refine (ih (src.fread copyBufSize).2 _ ?_).imp ?_
      · rw [hdisk, hpos, List.length_drop]
        rw [List.length_drop] at hfuel hle
        omega
      · intro r out₂ h₂ herr
        obtain ⟨hnext, hout⟩ := h₂ herr
        obtain ⟨herr', hread⟩ := Stdio.Stream.fread_eq hnext
        have hsplit : (src.fread copyBufSize).1 ++
            (src.disk.drop src.pos).drop (src.fread copyBufSize).1.length = src.disk.drop src.pos := by
          rw [hread]
          exact List.prefix_iff_eq_append.mp (List.take_prefix _ _)
        refine ⟨herr', ?_⟩
        calc
          out₂.contents = out₁.contents ++
              (src.disk.drop src.pos).drop (src.fread copyBufSize).1.length := by
            rw [hout, hdisk, hpos, List.drop_drop]
          _ = out.contents ++ src.disk.drop src.pos := by rw [h₁, List.append_assoc, hsplit]

theorem copyStream_ends {src : Stdio.Stream UInt8} (hsrc : src.pending = []) (expected : ℕ) :
    Ends (copyStream src expected out) (fun _ out' => out'.contents = out.contents ++ src.disk)
      (fun _ _ => True) := by
  have hfuel : (src.rewind.disk.drop src.rewind.pos).length < src.rewind.disk.length + 1 :=
    Nat.lt_succ_self _
  apply (copyLoop_ends _ src.rewind 0 hfuel).bind
  intro r out' h
  change Ends ((if r.1.err = true ∨ r.2 ≠ expected then throw .io else pure () : OutM Unit) out') _ _
  split_ifs with hbad
  · trivial
  · have herr : r.1.err = false := by simpa using (not_or.mp hbad).1
    have hcopied := (h herr).2
    rwa [Stdio.Stream.rewind_pos, List.drop_zero, Stdio.Stream.rewind_disk hsrc] at hcopied

/-- What is assembled from settled files is the patch. -/
theorem assemble_ends {temps : Temps} {s : Encoder.Streams} (log2 destBlocks : ℕ)
    (h : ∀ w, Settled (stream s w) (temps w)) :
    Ends (assemble log2 destBlocks temps out)
      (fun _ out' => out'.contents = out.contents ++ Encoder.patchFile log2 destBlocks s)
      (fun _ _ => True) := by
  apply (fwriteAll_ends _).bind
  intro _ out₁ h₁
  apply (copyStream_ends (h .op).pending_eq _).bind
  intro _ out₂ h₂
  apply (copyStream_ends (h .diff).pending_eq _).bind
  intro _ out₃ h₃
  refine (copyStream_ends (h .lit).pending_eq _).imp ?_
  intro _ out₄ h₄
  rw [h₄, h₃, h₂, h₁, (h .op).disk_eq, (h .diff).disk_eq, (h .lit).disk_eq, (h .op).bytesWritten_eq,
    (h .diff).bytesWritten_eq]
  simp [Encoder.patchFile, stream]

end Output

/-! ### The outcome -/

section Outcome
variable {S : Surroundings} {K : Kernels} {opts : DiffOptions} {index : Index} {passing : Passing}

theorem encodeTemps_settled {t : Tracker} {dest : Bytes} {temps : Temps}
    (h : encodeTemps S opts passing t dest = .ok temps) :
    ∃ s, Encoder.encode ⟨S.diffBufMemory, fun _ => none⟩ opts.blockSize t dest {} = .ok () s ∧
      ∀ w, Settled (stream s w) (temps w) := by
  unfold encodeTemps at h
  split_ifs at h
  cases hs : Encoder.encode ⟨S.diffBufMemory, fun _ => none⟩ opts.blockSize t dest {} with
  | error e s => simp [hs] at h
  | ok _ s =>
    have hstart : AllIntact (fun _ => []) fun w =>
        writerCreateFromFile ⟨[], S.tempAnswers w, [], 0, false⟩ 0 := fun w =>
        keeps_create ⟨[], S.tempAnswers w, [], 0, false⟩ 0
    have hwrite := writeTemps_settled (passing.calls s) hstart
    simp only [hs] at h
    split at h
    · cases h
    · next temps' hrun =>
      cases h
      refine ⟨s, rfl, ?_⟩
      intro w
      have hw := hwrite.of_ok hrun w
      rwa [passing.passes_eq] at hw

variable (S opts) in
/-- The ways to end once the streams are there. Success needs every write and the close to
succeed. -/
theorem writeOutput_cases (destBlocks : ℕ) {temps : Temps} {s : Encoder.Streams}
    (h : ∀ w, Settled (stream s w) (temps w)) (out : Path) :
    (∃ e, writeOutput S opts destBlocks temps out = ⟨.error e, out, false⟩) ∨
      (∃ e p, writeOutput S opts destBlocks temps out = ⟨.error e, p, true⟩ ∧
        (out.kind ≠ .other → p.kind = .missing)) ∨
      writeOutput S opts destBlocks temps out =
        ⟨.ok (Encoder.patchFile opts.blockSizeLog2 destBlocks s).length,
          out.opened (Encoder.patchFile opts.blockSizeLog2 destBlocks s), true⟩ := by
  have hbody : Ends (assemble opts.blockSizeLog2 destBlocks temps ⟨[], S.outputAnswers, [], 0, false⟩)
      (fun _ f => f.contents = Encoder.patchFile opts.blockSizeLog2 destBlocks s) (fun _ _ => True) :=
    assemble_ends opts.blockSizeLog2 destBlocks h
  unfold writeOutput
  by_cases hopen : S.fopen = false
  · left
    exact ⟨.io, if_pos hopen⟩
  right
  rw [if_neg hopen]
  cases hrun : assemble opts.blockSizeLog2 destBlocks temps ⟨[], S.outputAnswers, [], 0, false⟩ with
  | error e f =>
    left
    exact ⟨e, out.removed f.fclose.2, by simp, Path.removed_kind_missing⟩
  | ok _ f =>
    rw [hrun] at hbody
    by_cases hclose : f.fclose.1 = true
    · right
      have hcontents : f.fclose.2 = Encoder.patchFile opts.blockSizeLog2 destBlocks s := by
        rw [Stdio.Stream.fclose_disk hclose]
        exact hbody
      have hsize : headerSize + (temps .op).bytesWritten + (temps .diff).bytesWritten +
          (temps .lit).bytesWritten = (Encoder.patchFile opts.blockSizeLog2 destBlocks s).length := by
        rw [(h .op).bytesWritten_eq, (h .diff).bytesWritten_eq, (h .lit).bytesWritten_eq]
        simp [Encoder.patchFile, stream]
        omega
      simp only [hclose, hcontents, hsize, Bool.true_eq_false, false_and, if_false]
    · left
      have hfalse : f.fclose.1 = false := by simpa using hclose
      exact ⟨.io, out.removed f.fclose.2, by simp [hfalse], Path.removed_kind_missing⟩

/-- The temporary files and the patch file aside, this is the diff of two images. -/
theorem diffFiles_pure {src dest : Bytes} {t : Tracker} {s : Encoder.Streams} {encoderEnv : Encoder.Env}
    (hlog : ¬ (opts.blockSizeLog2 < 5 ∨ 24 < opts.blockSizeLog2))
    (ht : matchImages S K opts index src dest = .ok t)
    (hs : Encoder.encode encoderEnv opts.blockSize t dest {} = .ok () s) :
    Fsdiff.diffFiles S.stages encoderEnv K opts src dest (index src dest) =
      .ok (Encoder.patchFile opts.blockSizeLog2 (dest.length / opts.blockSize) s) := by
  unfold matchImages at ht
  split_ifs at ht with hmod hmem
  cases hctrl : controllerCreate opts (src.length / opts.blockSize) (dest.length / opts.blockSize) with
  | error e =>
    rw [hctrl] at ht
    cases ht
  | ok ctrl =>
    rw [hctrl] at ht
    dsimp only at ht
    cases hw : controllerRun S.stages K ctrl src dest (index src dest ctrl.blockSize)
        { tracker := ctrl.tracker } with
    | error e w =>
      rw [hw] at ht
      cases ht
    | ok _ w =>
      rw [hw] at ht
      cases ht
      rw [Fsdiff.diffFiles, encodeImages_ok hlog hmod hctrl hw hs]
      rfl

variable (S K opts index passing) in
/-- The ways to end. -/
theorem diffFiles_cases (out : Path) :
    (∃ e, diffFiles S K opts index passing out = ⟨.error e, out, false⟩) ∨
      (∃ e p, diffFiles S K opts index passing out = ⟨.error e, p, true⟩ ∧
        (out.kind ≠ .other → p.kind = .missing)) ∨
      ∃ src dest t s, ¬ (opts.blockSizeLog2 < 5 ∨ 24 < opts.blockSizeLog2) ∧
        S.images = .ok (src, dest) ∧ matchImages S K opts index src dest = .ok t ∧
        Encoder.encode ⟨S.diffBufMemory, fun _ => none⟩ opts.blockSize t dest {} = .ok () s ∧
        diffFiles S K opts index passing out =
          ⟨.ok (Encoder.patchFile opts.blockSizeLog2 (dest.length / opts.blockSize) s).length,
            out.opened (Encoder.patchFile opts.blockSizeLog2 (dest.length / opts.blockSize) s), true⟩ := by
  unfold diffFiles
  by_cases hlog : opts.blockSizeLog2 < 5 ∨ 24 < opts.blockSizeLog2
  · left
    exact ⟨.badBlockSize, if_pos hlog⟩
  rw [if_neg hlog]
  cases himages : S.images with
  | error e => exact .inl ⟨e, rfl⟩
  | ok images =>
    obtain ⟨src, dest⟩ := images
    dsimp only
    cases ht : matchImages S K opts index src dest with
    | error e => exact .inl ⟨e, rfl⟩
    | ok t =>
      dsimp only
      cases htemps : encodeTemps S opts passing t dest with
      | error e => exact .inl ⟨e, rfl⟩
      | ok temps =>
        obtain ⟨s, hs, hsettled⟩ := encodeTemps_settled htemps
        rcases writeOutput_cases S opts (dest.length / opts.blockSize) hsettled out with h | h | h
        · exact .inl h
        · exact .inr (.inl h)
        · exact .inr (.inr ⟨src, dest, t, s, hlog, rfl, ht, hs, h⟩)

end Outcome

/-! ### Errors -/

section Errors
variable {S : Surroundings} {opts : DiffOptions} {passing : Passing}

theorem onWriter_stops (w : Encoder.Writer) {x : WriterM Unit} {E : FsdError → Prop}
    (h : Stops E x) : Stops E (onWriter w x) := by
  intro temps
  have hx := h (temps w)
  unfold onWriter
  cases hr : x (temps w) with
  | ok a t => trivial
  | error e t => exact hx.of_error hr

theorem onWriters_stops {x : WriterM Unit} {E : FsdError → Prop} (h : Stops E x)
    (ws : List Encoder.Writer) : Stops E (onWriters x ws) := by
  induction ws with
  | nil => exact stops_pure ()
  | cons w ws ih => exact (onWriter_stops w h).bind fun _ => ih

theorem writeTemps_stops (calls : List WriterCall) : Stops (· = .io) (writeTemps calls) := by
  have hcalls : Stops (· = .io) (runCalls calls) := by
    induction calls with
    | nil => exact stops_pure ()
    | cons c cs ih =>
      apply Stops.bind _ fun _ => ih
      cases c with
      | write w data => exact onWriter_stops w (writerWrite_stops data)
      | writeByte w byte => exact onWriter_stops w (writerWriteByte_stops byte)
  have hflush : Stops (· = .io) fflushFile := by
    apply stops_get.bind
    intro w
    apply (stops_set _).bind
    intro _
    exact .ite (fun _ => stops_pure _) fun _ => stops_throw rfl
  apply hcalls.bind
  intro _
  exact (onWriters_stops writerFlush_stops _).bind fun _ => onWriters_stops hflush _

theorem fwriteAll_stops (data : Bytes) : Stops (· = .io) (fwriteAll data) := by
  apply stops_get.bind
  intro f
  apply (stops_set _).bind
  intro _
  exact .ite (fun _ => stops_throw rfl) fun _ => stops_pure _

theorem copyStream_stops (src : Stdio.Stream UInt8) (expected : ℕ) :
    Stops (· = .io) (copyStream src expected) := by
  have hloop : ∀ (fuel : ℕ) (src : Stdio.Stream UInt8) (copied : ℕ),
      Stops (· = .io) (copyLoop fuel src copied) := by
    intro fuel
    induction fuel with
    | zero => exact fun _ _ => stops_pure _
    | succ fuel ih =>
      intro src copied
      apply Stops.ite (fun _ => stops_pure _) fun _ => ?_
      exact (fwriteAll_stops _).bind fun _ => ih _ _
  apply (hloop _ _ _).bind
  intro _
  exact .ite (fun _ => stops_throw rfl) fun _ => stops_pure _

theorem assemble_stops (log2 destBlocks : ℕ) (temps : Temps) :
    Stops (· = .io) (assemble log2 destBlocks temps) := by
  apply (fwriteAll_stops _).bind
  intro _
  apply (copyStream_stops _ _).bind
  intro _
  exact (copyStream_stops _ _).bind fun _ => copyStream_stops _ _

/-- Past the tracker a run fails only with one of these three. -/
theorem encodeTemps_error {t : Tracker} {dest : Bytes} {e : FsdError}
    (h : encodeTemps S opts passing t dest = .error e) : e = .io ∨ e = .outOfMemory ∨ e = .invalidArg := by
  unfold encodeTemps at h
  split_ifs at h
  · cases h
    exact .inl rfl
  · cases h
    exact .inr (.inl rfl)
  · cases h
    exact .inr (.inr rfl)
  have hencode : Stops (Encoder.Env.Raises ⟨S.diffBufMemory, fun _ => none⟩)
      (Encoder.encode ⟨S.diffBufMemory, fun _ => none⟩ opts.blockSize t dest) := Encoder.encode_stops t
  split at h
  · next hs =>
    cases h
    rcases (hencode {}).of_error hs with hmem | ⟨n, hn⟩
    · exact .inr (.inl hmem)
    · cases hn
  · next s _ =>
    split at h
    · next hs =>
      cases h
      exact .inl ((writeTemps_stops (passing.calls s) _).of_error hs)
    · cases h

theorem writeOutput_error {destBlocks : ℕ} {temps : Temps} {out : Path} {e : FsdError}
    (h : (writeOutput S opts destBlocks temps out).result = .error e) : e = .io := by
  have hassemble := assemble_stops opts.blockSizeLog2 destBlocks temps ⟨[], S.outputAnswers, [], 0, false⟩
  unfold writeOutput at h
  split_ifs at h
  · cases h
    rfl
  cases hrun : assemble opts.blockSizeLog2 destBlocks temps ⟨[], S.outputAnswers, [], 0, false⟩ with
  | ok a f =>
    simp only [hrun] at h
    by_cases hclose : f.fclose.1 = false
    · simp [hclose] at h
      exact h.symm
    · simp [hclose] at h
  | error e' f =>
    simp [hrun] at h
    exact h.symm.trans (hassemble.of_error hrun)

/-- The errors of a run that are not those of opening the images or of the stages. -/
theorem diffFiles_error {K : Kernels} {index : Index} {out : Path} {e : FsdError}
    (h : (diffFiles S K opts index passing out).result = .error e) :
    S.images = .error e ∨
      (∃ src dest, S.images = .ok (src, dest) ∧ matchImages S K opts index src dest = .error e) ∨
      e ∈ [.badBlockSize, .io, .outOfMemory, .invalidArg] := by
  unfold diffFiles at h
  split_ifs at h
  · cases h
    exact .inr (.inr (by simp))
  cases himages : S.images with
  | error e' =>
    rw [himages] at h
    cases h
    exact .inl rfl
  | ok images =>
    obtain ⟨src, dest⟩ := images
    simp only [himages] at h
    right
    cases ht : matchImages S K opts index src dest with
    | error e' =>
      rw [ht] at h
      cases h
      exact .inl ⟨src, dest, rfl, ht⟩
    | ok t =>
      simp only [ht] at h
      right
      cases htemps : encodeTemps S opts passing t dest with
      | error e' =>
        rw [htemps] at h
        cases h
        rcases encodeTemps_error htemps with rfl | rfl | rfl <;> simp
      | ok temps =>
        rw [htemps] at h
        rw [writeOutput_error h]
        simp

end Errors

/-- Whatever fails, a diff that succeeds has written the whole patch, whose size it reports,
with the lengths of its streams in the header; and one that fails has not opened the output
path, or has removed what it had put there. -/
theorem diffFiles_atomic (S : Surroundings) (K : Kernels) (opts : DiffOptions) (index : Index)
    (passing : Passing) (out : Path) :
    (∀ patchSize, (diffFiles S K opts index passing out).result = .ok patchSize →
      ∃ src dest t s, S.images = .ok (src, dest) ∧ matchImages S K opts index src dest = .ok t ∧
        Encoder.encode ⟨S.diffBufMemory, fun _ => none⟩ opts.blockSize t dest {} = .ok () s ∧
        (diffFiles S K opts index passing out).output.kind ≠ .missing ∧
        (diffFiles S K opts index passing out).output.contents =
          headerWrite (dest.length / opts.blockSize) opts.blockSizeLog2 s.op.length s.diff.length ++
            (s.op ++ (s.diff ++ s.lit)) ∧
        patchSize = (diffFiles S K opts index passing out).output.contents.length ∧
        (patchSize < 2 ^ 64 →
          leNat (window (diffFiles S K opts index passing out).output.contents 16 8) = s.op.length ∧
          leNat (window (diffFiles S K opts index passing out).output.contents 24 8) = s.diff.length) ∧
        Fsdiff.diffFiles S.stages ⟨S.diffBufMemory, fun _ => none⟩ K opts src dest (index src dest) =
          .ok (diffFiles S K opts index passing out).output.contents) ∧
    ∀ e, (diffFiles S K opts index passing out).result = .error e →
      (diffFiles S K opts index passing out).opened = false ∧
          (diffFiles S K opts index passing out).output = out ∨
        (diffFiles S K opts index passing out).opened = true ∧
          (out.kind ≠ .other → (diffFiles S K opts index passing out).output.kind = .missing) := by
  rcases diffFiles_cases S K opts index passing out with
    ⟨e, h⟩ | ⟨e, p, h, hp⟩ | ⟨src, dest, t, s, hlog, himages, ht, hs, h⟩
  · rw [h]
    constructor
    · intro n hn
      cases hn
    · exact fun _ _ => .inl ⟨rfl, rfl⟩
  · rw [h]
    constructor
    · intro n hn
      cases hn
    · exact fun _ _ => .inr ⟨rfl, hp⟩
  · rw [h]
    constructor
    swap
    · intro e he
      cases he
    intro n hn
    cases hn
    refine ⟨src, dest, t, s, himages, ht, hs, Path.opened_kind_ne_missing, rfl, rfl, ?_, diffFiles_pure hlog ht hs⟩
    intro hlt
    obtain ⟨hop, hdiff⟩ := headerWrite_lengths (dest.length / opts.blockSize) opts.blockSizeLog2
      s.op.length s.diff.length (s.op ++ (s.diff ++ s.lit))
    have hlen : (Encoder.patchFile opts.blockSizeLog2 (dest.length / opts.blockSize) s).length =
        headerSize + (s.op.length + (s.diff.length + s.lit.length)) := by
      simp [Encoder.patchFile]
    change leNat (window (Encoder.patchFile _ _ s) 16 8) = _ ∧ leNat (window (Encoder.patchFile _ _ s) 24 8) = _
    unfold Encoder.patchFile
    rw [hop, hdiff]
    exact ⟨leNat_leBytes_of_lt (by omega), leNat_leBytes_of_lt (by omega)⟩

def Passing.whole : Passing where
  calls s := [.write .op s.op, .write .diff s.diff, .write .lit s.lit]
  passes_eq s w := by cases w <;> simp [WriterCall.passes, stream]

/-- Nothing fails but, perhaps, the last call on the patch file. -/
def patchworkSurroundings (close : Stdio.Answer) : Surroundings where
  images := .ok (patchworkSource, patchworkImage)
  controllerMemory := true
  stages := ⟨fun _ => true, fun _ => false⟩
  tempFile _ := true
  writerMemory _ := true
  encoderMemory := true
  diffBufMemory _ := true
  tempAnswers _ _ := ⟨true, 5⟩
  fopen := true
  outputAnswers n := if n = 4 then close else ⟨true, 5⟩

example :
    (diffFiles (patchworkSurroundings ⟨true, 0⟩) scalarKernels { blockSizeLog2 := 5, searchRadius := 2 }
      (fun _ _ bs => .inactive bs _ _) .whole ⟨.missing, []⟩).output = ⟨.regular, patchworkPatch⟩ := by
  decide +kernel

example :
    (diffFiles (patchworkSurroundings ⟨false, 9⟩) scalarKernels { blockSizeLog2 := 5, searchRadius := 2 }
      (fun _ _ bs => .inactive bs _ _) .whole ⟨.regular, [1]⟩).output = ⟨.missing, []⟩ := by
  decide +kernel

end Fsdiff.Io
