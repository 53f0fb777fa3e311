import Fsdiff.Io.Lifetimes

/-! `fsd_diff_files` and `fsd_patch_apply` with all that they take. Whichever calls fail, nothing is
given back that is not in use; after any sequence of runs only those temporary streams are still
open whose writer could not be allocated, and only those temporary files are there whose `unlink`
failed. `close`, `fclose` and `munmap` let go of their handle also when they report an error. -/
namespace Fsdiff.Resources
open Exec Ownership

/-! ### Temporary files and writers -/

structure Streams (α : Type) where
  op : α
  diff : α
  lit : α

def Streams.own {α : Type} (own : α → Handles Kind) (s : Streams α) : Handles Kind :=
  own s.op + (own s.diff + own s.lit)

/-- The name of a temporary file, by the number of its handle. -/
abbrev TempName := ℕ

def TempName.handle (name : TempName) : Res := (.tempFile, name)

/-- `fsd_unlink` of a temporary file; nothing looks at what it returns. -/
def TempName.unlink (name : TempName) (succeeds : Bool) : ResM Unit := tryRelease name.handle succeeds

structure Temp where
  fd : Res
  name : TempName

/-- `fsd_create_temp_file` -/
def createTempFile (succeeds : Bool) : ResM (Option Temp) :=
  if succeeds then do
    let fd ← take .descriptor
    let (_, name) ← take .tempFile
    pure (some ⟨fd, name⟩)
  else pure none

/-- `fsd_close(fd); fsd_unlink(tmp);` -/
def discardTemp (unlinked : Bool) (t : Temp) : ResM Unit := do
  release t.fd
  t.name.unlink unlinked

/-- The three temporary files; if one is missing, the others are discarded. -/
def createTemps (E unlinks : Streams Bool) : ResM (Option (Streams Temp)) := do
  let op ← createTempFile E.op
  let diff ← createTempFile E.diff
  let lit ← createTempFile E.lit
  match op, diff, lit with
  | some op, some diff, some lit => pure (some ⟨op, diff, lit⟩)
  | op, diff, lit => do
    whenSome (discardTemp unlinks.op) op
    whenSome (discardTemp unlinks.diff) diff
    whenSome (discardTemp unlinks.lit) lit
    pure none

/-- `FILE *`, by the number of its handle. -/
abbrev File := ℕ

def File.handle (file : File) : Res := (.stream, file)

/-- `fdopen`; the descriptor belongs to the stream from then on. -/
def fdopen (fd : Res) (succeeds : Bool) : ResM (Option File) :=
  if succeeds then do
    release fd
    let (_, file) ← take .stream
    pure (some file)
  else pure none

/-- `if (file) fclose(file); else fsd_close(fd);` -/
def closeEither (fd : Res) : Option File → ResM Unit
  | some file => release file.handle
  | none => release fd

/-- A temporary file behind a `FILE`. -/
structure TempStream where
  file : File
  name : TempName

def unlinkTemps (unlinks : Streams Bool) (names : Streams TempName) : ResM Unit := do
  names.op.unlink unlinks.op
  names.diff.unlink unlinks.diff
  names.lit.unlink unlinks.lit

/-- The three streams, or none of them. -/
def openStreams (E unlinks : Streams Bool) (t : Streams Temp) : ResM (Option (Streams TempStream)) := do
  let op ← fdopen t.op.fd E.op
  let diff ← fdopen t.diff.fd E.diff
  let lit ← fdopen t.lit.fd E.lit
  match op, diff, lit with
  | some op, some diff, some lit => pure (some ⟨⟨op, t.op.name⟩, ⟨diff, t.diff.name⟩, ⟨lit, t.lit.name⟩⟩)
  | op, diff, lit => do
    closeEither t.op.fd op
    closeEither t.diff.fd diff
    closeEither t.lit.fd lit
    unlinkTemps unlinks ⟨t.op.name, t.diff.name, t.lit.name⟩
    pure none

/-- `fsd_buffered_writer_t` -/
structure Writer where
  self : Res
  buffer : Res
  file : File

/-- Whether the two allocations of a writer succeed. -/
structure WriterEnv where
  alloc : Bool
  buffer : Bool

def WriterEnv.fails (E : WriterEnv) : Bool := !(E.alloc && E.buffer)

/-- `fsd_writer_create_from_file`; the pointer stays `NULL` when it fails. -/
def writerCreateFromFile (E : WriterEnv) (file : File) : ResM (Option Writer) := do
  match ← malloc E.alloc with
  | .error _ => pure none
  | .ok self =>
    match ← malloc E.buffer with
    | .error _ =>
      release self
      pure none
    | .ok buffer => pure (some ⟨self, buffer, file⟩)

/-- `fsd_writer_close` of a writer that owns its file. -/
def writerClose (w : Writer) : ResM Unit := do
  release w.file.handle
  release w.buffer
  release w.self

def Streams.all (s : Streams Bool) : Bool := s.op && s.diff && s.lit

theorem Streams.eq_of_all {s : Streams Bool} (h : s.all = true) : s = ⟨true, true, true⟩ := by
  obtain ⟨op, diff, lit⟩ := s
  simp only [Streams.all, Bool.and_eq_true] at h
  obtain ⟨⟨rfl, rfl⟩, rfl⟩ := h
  rfl

def Temp.own (t : Temp) : Handles Kind := {t.fd} + {t.name.handle}

def TempStream.own (t : TempStream) : Handles Kind := {t.file.handle} + {t.name.handle}

/-- So many streams and temporary files, and nothing else. -/
structure Leftover (streams files : ℕ) (m : Handles Kind) : Prop where
  streams : m.countP (fun h => h.1 = .stream) = streams
  files : m.countP (fun h => h.1 = .tempFile) = files
  others : ∀ h ∈ m, h.1 = .stream ∨ h.1 = .tempFile

theorem leftover_zero : Leftover 0 0 0 := ⟨rfl, rfl, nofun⟩

theorem Leftover.add {k l k' l' : ℕ} {m n : Handles Kind} (hm : Leftover k l m) (hn : Leftover k' l' n) :
    Leftover (k + k') (l + l') (m + n) := by
  refine ⟨by rw [Multiset.countP_add, hm.streams, hn.streams], by rw [Multiset.countP_add, hm.files, hn.files], ?_⟩
  intro h hmem
  rcases Multiset.mem_add.mp hmem with hmem | hmem
  · exact hm.others h hmem
  · exact hn.others h hmem

theorem leftover_stream (file : File) : Leftover 1 0 {file.handle} := by
  refine ⟨rfl, rfl, fun h hmem => .inl ?_⟩
  rw [Multiset.mem_singleton.mp hmem]
  rfl

theorem leftover_kept (name : TempName) (unlinked : Bool) :
    Leftover 0 (!unlinked).toNat (kept {name.handle} unlinked) := by
  cases unlinked with
  | true => exact leftover_zero
  | false =>
    refine ⟨rfl, rfl, fun h hmem => .inr ?_⟩
    change h ∈ ({name.handle} : Handles Kind) at hmem
    rw [Multiset.mem_singleton.mp hmem]
    rfl

theorem triple_unlink (name : TempName) (unlinked : Bool) :
    Triple {name.handle} (name.unlink unlinked) (fun _ m => Leftover 0 (!unlinked).toNat m) := by
  apply (triple_tryRelease name.handle unlinked).imp
  rintro _ _ rfl
  exact leftover_kept name unlinked

theorem triple_createTempFile (succeeds : Bool) :
    Triple 0 (createTempFile succeeds) (fun t m => m = ofOption Temp.own t ∧ t.isSome = succeeds) := by
  cases succeeds with
  | false => exact triple_pure ⟨rfl, rfl⟩
  | true =>
    refine triple_take fun fd => triple_take fun name => triple_pure ⟨?_, rfl⟩
    rw [add_zero, add_comm]
    rfl

theorem triple_discardTemp (unlinked : Bool) (t : Option Temp) :
    Triple (ofOption Temp.own t) (whenSome (discardTemp unlinked) t)
      (fun _ m => Leftover 0 (t.isSome && !unlinked).toNat m) := by
  cases t with
  | none => exact triple_pure leftover_zero
  | some t => exact (destroys_release t.fd).then (triple_unlink t.name unlinked)

/-- How many of the files that were made cannot be unlinked. -/
def strayed (made unlinks : Streams Bool) : ℕ :=
  (made.op && !unlinks.op).toNat + ((made.diff && !unlinks.diff).toNat + (made.lit && !unlinks.lit).toNat)

theorem triple_createTemps (E unlinks : Streams Bool) :
    Triple 0 (createTemps E unlinks) (fun r m => r.isSome = E.all ∧
      match r with
      | some t => m = t.own Temp.own
      | none => Leftover 0 (strayed E unlinks) m) := by
  apply (triple_createTempFile E.op).framed 0 (add_zero _).symm
  rintro op _ ⟨rfl, hop⟩
  apply (triple_createTempFile E.diff).framed _ (zero_add _).symm
  rintro diff _ ⟨rfl, hdiff⟩
  apply (triple_createTempFile E.lit).framed _ (zero_add _).symm
  rintro lit _ ⟨rfl, hlit⟩
  simp only [Streams.all, strayed, ← hop, ← hdiff, ← hlit]
  split
  · refine triple_pure ⟨rfl, ?_⟩
    simp only [ofOption_some, Streams.own]
    abel
  · rename_i hsome
    apply (triple_discardTemp unlinks.op op).framed (ofOption Temp.own diff + ofOption Temp.own lit) (by abel)
    intro _ m₁ hm₁
    apply (triple_discardTemp unlinks.diff diff).framed (m₁ + ofOption Temp.own lit) (by abel)
    intro _ m₂ hm₂
    apply (triple_discardTemp unlinks.lit lit).framed (m₁ + m₂) (by abel)
    intro _ m₃ hm₃
    refine triple_pure ⟨?_, ?_⟩
    · cases op <;> cases diff <;> cases lit <;> simp at hsome ⊢
    · rw [show m₃ + (m₁ + m₂) = m₁ + (m₂ + m₃) by abel]
      exact hm₁.add (hm₂.add hm₃)

/-- What is held of a stream: the `FILE`, or still the descriptor. -/
def eitherOwn (fd : Res) : Option File → Handles Kind
  | some file => {file.handle}
  | none => {fd}

theorem triple_fdopen (fd : Res) (succeeds : Bool) :
    Triple {fd} (fdopen fd succeeds) (fun o m => m = eitherOwn fd o ∧ o.isSome = succeeds) := by
  cases succeeds with
  | false => exact triple_pure ⟨rfl, rfl⟩
  | true =>
    apply Triple.of_eq (add_zero _).symm
    apply (destroys_release fd).then
    exact triple_take fun file => triple_pure ⟨add_zero _, rfl⟩

theorem destroys_closeEither (fd : Res) (o : Option File) : Destroys (eitherOwn fd o) (closeEither fd o) := by
  cases o with
  | some file => exact destroys_release file.handle
  | none => exact destroys_release fd

theorem triple_unlinkTemps (unlinks : Streams Bool) (names : Streams TempName) :
    Triple (names.own fun name => {name.handle}) (unlinkTemps unlinks names)
      (fun _ m => Leftover 0 (strayed ⟨true, true, true⟩ unlinks) m) := by
  apply (triple_unlink names.op unlinks.op).framed _ rfl
  intro _ m₁ hm₁
  apply (triple_unlink names.diff unlinks.diff).framed (m₁ + {names.lit.handle}) (by abel)
  intro _ m₂ hm₂
  apply Triple.of_eq (show _ = {names.lit.handle} + (m₁ + m₂) by abel)
  apply (triple_unlink names.lit unlinks.lit).frame.imp
  rintro _ _ ⟨m₃, rfl, hm₃⟩
  rw [show m₃ + (m₁ + m₂) = m₁ + (m₂ + m₃) by abel]
  exact hm₁.add (hm₂.add hm₃)

theorem triple_openStreams (E unlinks : Streams Bool) (t : Streams Temp) :
    Triple (t.own Temp.own) (openStreams E unlinks t) (fun r m => r.isSome = E.all ∧
      match r with
      | some s => m = s.own TempStream.own
      | none => Leftover 0 (strayed ⟨true, true, true⟩ unlinks) m) := by
  apply (triple_fdopen t.op.fd E.op).framed ({t.op.name.handle} + (t.diff.own + t.lit.own))
    (by rw [Streams.own, Temp.own, add_assoc])
  rintro op _ ⟨rfl, hop⟩
  apply (triple_fdopen t.diff.fd E.diff).framed
    (eitherOwn t.op.fd op + ({t.op.name.handle} + ({t.diff.name.handle} + t.lit.own))) (by rw [Temp.own]; abel)
  rintro diff _ ⟨rfl, hdiff⟩
  apply (triple_fdopen t.lit.fd E.lit).framed
    (eitherOwn t.op.fd op + (eitherOwn t.diff.fd diff +
      ({t.op.name.handle} + ({t.diff.name.handle} + {t.lit.name.handle})))) (by rw [Temp.own]; abel)
  rintro lit _ ⟨rfl, hlit⟩
  have hown : eitherOwn t.lit.fd lit + (eitherOwn t.op.fd op + (eitherOwn t.diff.fd diff +
      ({t.op.name.handle} + ({t.diff.name.handle} + {t.lit.name.handle})))) =
      eitherOwn t.op.fd op + (eitherOwn t.diff.fd diff + (eitherOwn t.lit.fd lit +
        Streams.own (fun name : TempName => {name.handle}) ⟨t.op.name, t.diff.name, t.lit.name⟩)) := by
    rw [Streams.own]
    abel
  apply Triple.of_eq hown
  simp only [Streams.all, ← hop, ← hdiff, ← hlit]
  split
  · refine triple_pure ⟨rfl, ?_⟩
    simp only [eitherOwn, Streams.own, TempStream.own]
    abel
  · rename_i hsome
    apply (destroys_closeEither _ _).then
    apply (destroys_closeEither _ _).then
    apply (destroys_closeEither _ _).then
    apply (triple_unlinkTemps unlinks _).bind
    intro _ m hm
    refine triple_pure ⟨?_, hm⟩
    cases op <;> cases diff <;> cases lit <;> simp at hsome ⊢

def Writer.own (w : Writer) : Handles Kind := {w.buffer} + {w.self}

theorem triple_writerCreateFromFile (E : WriterEnv) (file : File) :
    Triple 0 (writerCreateFromFile E file) (fun r m => m = ofOption Writer.own r ∧
      r.isNone = E.fails ∧ ∀ w, r = some w → w.file = file) := by
  refine triple_malloc (fun halloc => ?_) fun halloc self => ?_
  · exact triple_pure ⟨rfl, by simp [WriterEnv.fails, halloc], nofun⟩
  refine triple_malloc (fun hbuffer => ?_) fun hbuffer buffer => ?_
  · apply (destroys_release _).then
    exact triple_pure ⟨rfl, by simp [WriterEnv.fails, hbuffer], nofun⟩
  · refine triple_pure ⟨by simp [Writer.own], by simp [WriterEnv.fails, halloc, hbuffer], ?_⟩
    rintro w ⟨⟩
    rfl

/-! ### Diffing -/

/-- Answers to `fsd_diff_files`. -/
structure DiffEnv where
  source : SourceEnv
  destination : ReaderEnv
  sourceData : ReaderEnv
  wholeBlocks : Bool
  controller : ControllerEnv
  run : RunEnv
  matchLog : Option (Option FsdError)
  temps : Streams Bool
  streams : Streams Bool
  unlinks : Streams Bool
  writers : Streams WriterEnv
  encoder : Bool
  partialRuns : List (Bool × Option FsdError)
  encode : Option FsdError
  flush : Option FsdError
  openOutput : Bool
  copy : Option FsdError

/-- What a run holds when it creates its temporary files. -/
structure Prepared where
  source : SourceReader
  destination : MmapReader
  controller : Controller

/-- `fsd_mmap_close(dest_reader); fsd_source_reader_close(src_reader);` -/
def closeInputs (source : SourceReader) (destination : MmapReader) : ResM Unit := do
  mmapClose destination
  sourceReaderClose source

/-- `fsd_write_match_log`, if the environment asks for one. -/
def writeMatchLog : Option (Option FsdError) → ResM Unit
  | none => pure ()
  | some fault => do
    match ← acquire .stream fault with
    | .error _ => pure ()
    | .ok log => release log

/-- `fsd_diff_files` from the creation of its controller up to that of its temporary files. -/
def prepareMatches (E : DiffEnv) (source : SourceReader) (destination : MmapReader) :
    ResM (Except FsdError Prepared) := do
  match ← stageControllerCreate E.controller with
  | .error e =>
    closeInputs source destination
    pure (.error e)
  | .ok controller =>
    let (res, controller) ← stageControllerRun E.run controller
    match res with
    | .error e =>
      stageControllerDestroy controller
      closeInputs source destination
      pure (.error e)
    | .ok _ => do
      writeMatchLog E.matchLog
      pure (.ok ⟨source, destination, controller⟩)

/-- `fsd_diff_files` up to the creation of its temporary files. -/
def prepare (E : DiffEnv) : ResM (Except FsdError Prepared) := do
  match ← sourceReaderOpen E.source with
  | .error e => pure (.error e)
  | .ok source =>
    match ← mmapOpen E.destination E.destination.alloc with
    | .error e =>
      sourceReaderClose source
      pure (.error e)
    | .ok destination =>
      let (res, source) ← sourceReaderData E.sourceData source
      match res with
      | .error e =>
        closeInputs source destination
        pure (.error e)
      | .ok _ =>
        if !E.wholeBlocks then do
          closeInputs source destination
          pure (.error .sizeMismatch)
        else prepareMatches E source destination

/-- The runs of partial matches in `fsd_op_encoder_encode`, each with its buffer. -/
def encodePartials : List (Bool × Option FsdError) → ResM (Except FsdError Unit)
  | [] => pure (.ok ())
  | (alloc, code) :: rest => do
    match ← malloc alloc with
    | .error e => pure (.error e)
    | .ok diffBuf =>
      release diffBuf
      match code with
      | some e => pure (.error e)
      | none => encodePartials rest

/-- `fsd_op_encoder_encode`; it takes no writer that is `NULL`. -/
def opEncoderEncode (E : DiffEnv) (writers : Bool) : ResM (Except FsdError Unit) :=
  if !writers then pure (.error .invalidArg)
  else do
    match ← encodePartials E.partialRuns with
    | .error e => pure (.error e)
    | .ok _ => pure (codeOf E.encode)

/-- From the creation of the encoder to `cleanup:`, with the encoder. -/
def writePatch (E : DiffEnv) (writers : Bool) : ResM (Except FsdError Unit × Option Res) := do
  match ← malloc E.encoder with
  | .error e => pure (.error e, none)
  | .ok encoder =>
    match ← opEncoderEncode E writers with
    | .error e => pure (.error e, some encoder)
    | .ok _ =>
      match E.flush with
      | some e => pure (.error e, some encoder)
      | none =>
        match ← acquire .stream (if E.openOutput then none else some FsdError.io) with
        | .error e => pure (.error e, some encoder)
        | .ok output =>
          release output
          pure (codeOf E.copy, some encoder)

/-- From the creation of the writers up to the `unlink` of their files. -/
def writeStreams (E : DiffEnv) (streams : Streams TempStream) : ResM (Except FsdError Unit) := do
  let opWriter ← writerCreateFromFile E.writers.op streams.op.file
  let diffWriter ← writerCreateFromFile E.writers.diff streams.diff.file
  let litWriter ← writerCreateFromFile E.writers.lit streams.lit.file
  let (res, encoder) ← writePatch E (opWriter.isSome && diffWriter.isSome && litWriter.isSome)
  whenSome release encoder
  whenSome writerClose opWriter
  whenSome writerClose diffWriter
  whenSome writerClose litWriter
  unlinkTemps E.unlinks ⟨streams.op.name, streams.diff.name, streams.lit.name⟩
  pure res

/-- What is done with temporary files. -/
def throughTemps (E : DiffEnv) : ResM (Except FsdError Unit) := do
  match ← createTemps E.temps E.unlinks with
  | none => pure (.error .io)
  | some temps =>
    match ← openStreams E.streams E.unlinks temps with
    | none => pure (.error .io)
    | some streams => writeStreams E streams

/-- `fsd_diff_files` from the creation of its temporary files on; all of its ways out end alike. -/
def finish (E : DiffEnv) (p : Prepared) : ResM (Except FsdError Unit) := do
  let res ← throughTemps E
  stageControllerDestroy p.controller
  closeInputs p.source p.destination
  pure res

/-- `fsd_diff_files` -/
def diffFiles (E : DiffEnv) : ResM (Except FsdError Unit) := do
  match ← prepare E with
  | .error e => pure (.error e)
  | .ok p => finish E p

def inputsOwn (source : SourceReader) (destination : MmapReader) : Handles Kind :=
  destination.own + source.own

def Prepared.own (p : Prepared) : Handles Kind := p.controller.own + inputsOwn p.source p.destination

theorem destroys_closeInputs (source : SourceReader) (destination : MmapReader) :
    Destroys (inputsOwn source destination) (closeInputs source destination) :=
  (destroys_mmapClose destination).then (destroys_sourceReaderClose source)

theorem destroys_writeMatchLog (log : Option (Option FsdError)) : Destroys 0 (writeMatchLog log) := by
  cases log with
  | none => exact destroys_pure
  | some fault =>
    refine (creates_acquire _ _).cases (fun e => triple_pure rfl) fun file => ?_
    exact Triple.of_eq (add_zero _) (destroys_release file)

section Prepare
variable (E : DiffEnv) (source : SourceReader) (destination : MmapReader)

theorem triple_prepareMatches :
    Triple (inputsOwn source destination) (prepareMatches E source destination)
      (fun r m => m = ofExcept Prepared.own r) := by
  have hclose : ∀ e : FsdError, Triple (inputsOwn source destination)
      (do closeInputs source destination; pure (.error e)) (fun r m => m = ofExcept Prepared.own r) := by
    intro e
    apply Triple.of_eq (add_zero _).symm
    exact (destroys_closeInputs source destination).then (triple_pure rfl)
  apply (triple_stageControllerCreate E.controller).framed _ (zero_add _).symm
  rintro r _ ⟨rfl, hfresh⟩
  cases r with
  | error e => exact Triple.of_eq (zero_add _) (hclose e)
  | ok controller =>
    apply (triple_stageControllerRun E.run (hfresh controller rfl)).framed _ rfl
    rintro ⟨res, controller'⟩ _ rfl
    cases res with
    | error e => exact (destroys_stageControllerDestroy controller').then (hclose e)
    | ok _ =>
      apply Triple.of_eq (zero_add _).symm
      exact (destroys_writeMatchLog E.matchLog).then (triple_pure rfl)

end Prepare

theorem creates_prepare (E : DiffEnv) : Creates (prepare E) (ofExcept Prepared.own) := by
  refine (creates_sourceReaderOpen E.source).cases (fun e => triple_pure rfl) fun source => ?_
  refine (creates_mmapOpen E.destination _).cases (fun e => ?_) fun destination => ?_
  · exact (destroys_sourceReaderClose source).then (triple_pure rfl)
  apply (triple_sourceReaderData E.sourceData source).framed destination.own (by abel)
  rintro ⟨res, source'⟩ _ rfl
  have hclose : ∀ e : FsdError, Triple (inputsOwn source' destination + 0)
      (do closeInputs source' destination; pure (.error e)) (fun r m => m = ofExcept Prepared.own r) :=
    fun e => (destroys_closeInputs source' destination).then (triple_pure rfl)
  rw [add_zero] at hclose
  apply Triple.of_eq (add_comm _ _)
  cases res with
  | error e => exact hclose e
  | ok _ => exact triple_ite (fun _ => hclose .sizeMismatch) fun _ => triple_prepareMatches E source' destination

theorem creates_encodePartials (runs : List (Bool × Option FsdError)) :
    Creates (encodePartials runs) (fun _ => 0) := by
  induction runs with
  | nil => exact triple_pure rfl
  | cons run rest ih =>
    obtain ⟨alloc, code⟩ := run
    refine (creates_malloc alloc).cases (fun e => triple_pure rfl) fun diffBuf => ?_
    apply (destroys_release diffBuf).then
    cases code with
    | some e => exact triple_pure rfl
    | none => exact ih

theorem triple_opEncoderEncode (E : DiffEnv) (writers : Bool) :
    Triple 0 (opEncoderEncode E writers) (fun r m => m = 0 ∧ (r = .ok () → writers = true)) := by
  refine triple_ite (fun _ => triple_pure ⟨rfl, nofun⟩) fun hwriters => ?_
  have htrue : writers = true := by simpa using hwriters
  apply (creates_encodePartials E.partialRuns).then
  intro r
  cases r with
  | error e => exact triple_pure ⟨rfl, nofun⟩
  | ok _ => exact triple_pure ⟨rfl, fun _ => htrue⟩

theorem triple_writePatch (E : DiffEnv) (writers : Bool) :
    Triple 0 (writePatch E writers)
      (fun p m => m = ofOption (fun h => {h}) p.2 ∧ (p.1 = .ok () → writers = true)) := by
  refine (creates_malloc E.encoder).cases (fun e => triple_pure ⟨rfl, nofun⟩) fun encoder => ?_
  apply (triple_opEncoderEncode E writers).framed {encoder} (by abel)
  rintro res _ ⟨rfl, hres⟩
  rw [zero_add]
  cases res with
  | error e => exact triple_pure ⟨rfl, nofun⟩
  | ok _ =>
    have hwriters : writers = true := hres rfl
    cases E.flush with
    | some e => exact triple_pure ⟨rfl, nofun⟩
    | none =>
      refine (creates_acquire _ _).cases (fun e => triple_pure ⟨rfl, nofun⟩) fun output => ?_
      exact (destroys_release output).then (triple_pure ⟨rfl, fun _ => hwriters⟩)

/-- The stream of a writer that is not there. -/
def lostFile (E : WriterEnv) (file : File) : Handles Kind := if E.fails then {file.handle} else 0

theorem leftover_lostFile (E : WriterEnv) (file : File) : Leftover E.fails.toNat 0 (lostFile E file) := by
  unfold lostFile
  split_ifs with hfails
  · rw [hfails]
    exact leftover_stream file
  · rw [Bool.not_eq_true] at hfails
    rw [hfails]
    exact leftover_zero

/-- With its stream, a writer is closed; without a writer, the stream stays. -/
theorem triple_closeWriter {E : WriterEnv} {file : File} {w : Option Writer} (hnone : w.isNone = E.fails)
    (hfile : ∀ v, w = some v → v.file = file) :
    Triple ({file.handle} + ofOption Writer.own w) (whenSome writerClose w) (fun _ m => m = lostFile E file) := by
  cases w with
  | none =>
    have hfails : E.fails = true := hnone.symm
    exact triple_pure (by simp [lostFile, hfails])
  | some w =>
    have hfails : E.fails = false := hnone.symm
    obtain rfl : w.file = file := hfile w rfl
    rw [lostFile, hfails]
    exact (destroys_release w.file.handle).then ((destroys_release w.buffer).then (destroys_release w.self))

/-- How many of the writers could not be allocated. -/
def DiffEnv.failedWriters (E : DiffEnv) : ℕ :=
  E.writers.op.fails.toNat + (E.writers.diff.fails.toNat + E.writers.lit.fails.toNat)

/-- The streams without a writer stay, and the run has failed; the files that cannot be unlinked stay. -/
theorem triple_writeStreams (E : DiffEnv) (streams : Streams TempStream) :
    Triple (streams.own TempStream.own) (writeStreams E streams)
      (fun r m => Leftover E.failedWriters (strayed ⟨true, true, true⟩ E.unlinks) m ∧
        (r = .ok () → E.failedWriters = 0)) := by
  obtain ⟨⟨opFile, opName⟩, ⟨diffFile, diffName⟩, ⟨litFile, litName⟩⟩ := streams
  apply (triple_writerCreateFromFile E.writers.op opFile).framed _ (zero_add _).symm
  rintro op _ ⟨rfl, hopNone, hopFile⟩
  apply (triple_writerCreateFromFile E.writers.diff diffFile).framed _ (zero_add _).symm
  rintro diff _ ⟨rfl, hdiffNone, hdiffFile⟩
  apply (triple_writerCreateFromFile E.writers.lit litFile).framed _ (zero_add _).symm
  rintro lit _ ⟨rfl, hlitNone, hlitFile⟩
  apply (triple_writePatch E _).framed _ (zero_add _).symm
  rintro ⟨res, encoder⟩ _ ⟨rfl, hres⟩
  apply (destroys_releaseSome encoder).then
  apply (triple_closeWriter hopNone hopFile).framed
    (({File.handle diffFile} + ofOption Writer.own diff) + (({File.handle litFile} + ofOption Writer.own lit) +
      Streams.own (fun name : TempName => {name.handle}) ⟨opName, diffName, litName⟩))
    (by simp only [Streams.own, TempStream.own]; abel)
  rintro _ _ rfl
  apply (triple_closeWriter hdiffNone hdiffFile).framed
    (lostFile E.writers.op opFile + (({File.handle litFile} + ofOption Writer.own lit) +
      Streams.own (fun name : TempName => {name.handle}) ⟨opName, diffName, litName⟩)) (by abel)
  rintro _ _ rfl
  apply (triple_closeWriter hlitNone hlitFile).framed
    (lostFile E.writers.op opFile + (lostFile E.writers.diff diffFile +
      Streams.own (fun name : TempName => {name.handle}) ⟨opName, diffName, litName⟩)) (by abel)
  rintro _ _ rfl
  apply (triple_unlinkTemps E.unlinks _).framed
    (lostFile E.writers.op opFile + (lostFile E.writers.diff diffFile + lostFile E.writers.lit litFile)) (by abel)
  intro _ m hm
  refine triple_pure ⟨?_, fun hok => ?_⟩
  · have hlost := (leftover_lostFile E.writers.op opFile).add
      ((leftover_lostFile E.writers.diff diffFile).add (leftover_lostFile E.writers.lit litFile))
    have hleft := hlost.add hm
    simp only [add_zero, zero_add] at hleft
    rw [add_comm m]
    exact hleft
  · have hsome : (op.isSome && diff.isSome && lit.isSome) = true := hres hok
    simp only [Bool.and_eq_true, ← Option.not_isNone, hopNone, hdiffNone, hlitNone, Bool.not_eq_true'] at hsome
    simp [DiffEnv.failedWriters, hsome]

/-- How many streams are lost from the creation of the temporary files on. -/
def DiffEnv.lostStreams (E : DiffEnv) : ℕ := if E.temps.all && E.streams.all then E.failedWriters else 0

theorem triple_throughTemps (E : DiffEnv) :
    Triple 0 (throughTemps E) (fun r m => Leftover E.lostStreams (strayed E.temps E.unlinks) m ∧
      (r = .ok () → E.lostStreams = 0)) := by
  apply (triple_createTemps E.temps E.unlinks).bind
  rintro temps m ⟨htemps, hm⟩
  unfold DiffEnv.lostStreams
  cases temps with
  | none =>
    rw [← htemps]
    exact triple_pure ⟨hm, nofun⟩
  | some temps =>
    rw [← htemps, Streams.eq_of_all htemps.symm, hm]
    apply (triple_openStreams E.streams E.unlinks temps).bind
    rintro streams m ⟨hstreams, hm⟩
    rw [← hstreams]
    cases streams with
    | none => exact triple_pure ⟨hm, nofun⟩
    | some streams =>
      rw [hm]
      exact triple_writeStreams E streams

theorem triple_finish (E : DiffEnv) (p : Prepared) :
    Triple p.own (finish E p) (fun r m => Leftover E.lostStreams (strayed E.temps E.unlinks) m ∧
      (r = .ok () → E.lostStreams = 0)) := by
  apply (triple_throughTemps E).framed p.own (zero_add _).symm
  rintro res m hm
  have hown : m + p.own = p.controller.own + (inputsOwn p.source p.destination + m) := by
    rw [Prepared.own]
    abel
  apply Triple.of_eq hown
  apply (destroys_stageControllerDestroy p.controller).then
  exact (destroys_closeInputs p.source p.destination).then (triple_pure hm)

/-! ### Patching -/

/-- Answers to `fsd_patch_apply`; `header` is the code of the checks before the output is opened. -/
structure PatchEnv where
  source : SourceEnv
  patch : ReaderEnv
  header : Option FsdError
  openOutput : Bool
  blockBuf : Bool
  operations : Option FsdError

/-- `fsd_patch_apply` -/
def patchApply (E : PatchEnv) : ResM (Except FsdError Unit) := do
  match ← sourceReaderOpen E.source with
  | .error e => pure (.error e)
  | .ok source =>
    match ← mmapOpen E.patch E.patch.alloc with
    | .error e =>
      sourceReaderClose source
      pure (.error e)
    | .ok patch =>
      match E.header with
      | some e =>
        closeInputs source patch
        pure (.error e)
      | none =>
        match ← acquire .stream (if E.openOutput then none else some FsdError.io) with
        | .error e =>
          closeInputs source patch
          pure (.error e)
        | .ok output =>
          match ← malloc E.blockBuf with
          | .error e =>
            release output
            closeInputs source patch
            pure (.error e)
          | .ok blockBuf =>
            release blockBuf
            release output
            closeInputs source patch
            pure (codeOf E.operations)

theorem creates_patchApply (E : PatchEnv) : Creates (patchApply E) (fun _ => 0) := by
  refine (creates_sourceReaderOpen E.source).cases (fun e => triple_pure rfl) fun source => ?_
  refine (creates_mmapOpen E.patch _).cases (fun e => ?_) fun patch => ?_
  · exact (destroys_sourceReaderClose source).then (triple_pure rfl)
  have hclose : ∀ r : Except FsdError Unit, Triple (patch.own + (source.own + 0))
      (do closeInputs source patch; pure r) (fun _ m => m = 0) := by
    intro r
    rw [← add_assoc]
    exact (destroys_closeInputs source patch).then (triple_pure rfl)
  cases E.header with
  | some e => exact hclose (.error e)
  | none =>
    refine (creates_acquire _ _).cases (fun e => hclose (.error e)) fun output => ?_
    refine (creates_malloc _).cases (fun e => ?_) fun blockBuf => ?_
    · exact (destroys_release output).then (hclose (.error e))
    · exact (destroys_release blockBuf).then ((destroys_release output).then (hclose _))

/-! ### Sessions -/

inductive Call where
  | diff (E : DiffEnv)
  | patch (E : PatchEnv)

def call : Call → ResM (Except FsdError Unit)
  | .diff E => diffFiles E
  | .patch E => patchApply E

def session : List Call → ResM (List (Except FsdError Unit))
  | [] => pure []
  | c :: rest => do
    let res ← call c
    let results ← session rest
    pure (res :: results)

/-- The run gets as far as its temporary files. -/
def DiffEnv.reaches (E : DiffEnv) (w : World Kind) : Bool :=
  match prepare E w with
  | .ok (.ok _) _ => true
  | _ => false

/-- How many streams a call loses: one for each failed writer, if it gets to them. -/
def lostStreams (w : World Kind) : Call → ℕ
  | .patch _ => 0
  | .diff E => if E.reaches w then E.lostStreams else 0

/-- How many temporary files a call leaves: one for each that it made and could not unlink. -/
def strayFiles (w : World Kind) : Call → ℕ
  | .patch _ => 0
  | .diff E => if E.reaches w then strayed E.temps E.unlinks else 0

/-- The sum over the calls of a session. -/
def total (count : World Kind → Call → ℕ) (w : World Kind) : List Call → ℕ
  | [] => 0
  | c :: rest =>
    count w c + match call c w with
      | .ok _ w' => total count w' rest
      | .error _ _ => 0

theorem total_cons {count : World Kind → Call → ℕ} {w w' : World Kind} {c : Call} {r : Except FsdError Unit}
    (h : call c w = .ok r w') (rest : List Call) :
    total count w (c :: rest) = count w c + total count w' rest := by
  rw [total, h]

theorem diffFiles_leaves (E : DiffEnv) (w : World Kind) :
    Ends (diffFiles E w) (fun r w' => ∃ left, w'.held = left + w.held ∧
      Leftover (lostStreams w (.diff E)) (strayFiles w (.diff E)) left ∧
      (r = .ok () → lostStreams w (.diff E) = 0)) (fun _ _ => False) := by
  have hprepare := creates_prepare E w w.held (zero_add _).symm
  unfold diffFiles
  cases hrun : prepare E w with
  | error e w' => exact absurd (hprepare.of_error hrun) id
  | ok r w' =>
    obtain ⟨own, hheld, rfl⟩ := hprepare.of_ok hrun
    rw [bind_of_ok hrun]
    cases r with
    | error e =>
      have hreaches : E.reaches w = false := by rw [DiffEnv.reaches, hrun]
      simp only [lostStreams, strayFiles, hreaches, Bool.false_eq_true, if_false]
      exact ⟨0, hheld, leftover_zero, fun _ => trivial⟩
    | ok p =>
      have hreaches : E.reaches w = true := by rw [DiffEnv.reaches, hrun]
      simp only [lostStreams, strayFiles, hreaches, if_true]
      exact triple_finish E p w' w.held hheld

theorem call_leaves (c : Call) (w : World Kind) :
    Ends (call c w) (fun r w' => ∃ left, w'.held = left + w.held ∧
      Leftover (lostStreams w c) (strayFiles w c) left ∧ (r = .ok () → lostStreams w c = 0)) (fun _ _ => False) := by
  cases c with
  | diff E => exact diffFiles_leaves E w
  | patch E =>
    apply (creates_patchApply E w w.held (zero_add _).symm).imp
    rintro r w' ⟨own, hheld, rfl⟩
    exact ⟨0, hheld, leftover_zero, fun _ => rfl⟩

/-- After any calls, whichever of them failed and where, what was held before is held and beside it
nothing but the streams lost and the files that could not be unlinked; calls that all succeed lose
no stream. -/
theorem session_leaves (calls : List Call) (w : World Kind) :
    ∃ results w' left, session calls w = .ok results w' ∧ w'.held = left + w.held ∧
      Leftover (total lostStreams w calls) (total strayFiles w calls) left ∧
      ((∀ r ∈ results, r = .ok ()) → total lostStreams w calls = 0) := by
  induction calls generalizing w with
  | nil => exact ⟨[], w, 0, rfl, (zero_add _).symm, leftover_zero, fun _ => rfl⟩
  | cons c rest ih =>
    obtain ⟨r, w₁, hcall, left₁, hheld₁, hleft₁, hok₁⟩ := (call_leaves c w).exists_ok
    obtain ⟨results, w₂, left₂, hrest, hheld₂, hleft₂, hok₂⟩ := ih w₁
    rw [total_cons hcall, total_cons hcall]
    refine ⟨r :: results, w₂, left₁ + left₂, ?_, ?_, hleft₁.add hleft₂, ?_⟩
    · rw [session, bind_of_ok hcall, bind_of_ok hrest]
      rfl
    · rw [hheld₂, hheld₁, ← add_assoc, add_comm left₂]
    · intro hall
      rw [hok₁ (hall r List.mem_cons_self), hok₂ fun r' hr' => hall r' (List.mem_cons_of_mem _ hr')]

end Fsdiff.Resources
