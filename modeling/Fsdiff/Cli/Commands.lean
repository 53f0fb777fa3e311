import Fsdiff.Cli.Create
import Fsdiff.Io.DiffFiles
import Fsdiff.Io.PatchFiles
import Fsdiff.Io.SourceReader

/-! `tools/fsdiff.c`: what a command line asks for, with the option parser of `getopt_compat.h`, and,
whichever parser has read it, what a command does to the files of a Unix system. Every run is a
process of its own, so that nothing but the files passes from one run to the next. -/
namespace Fsdiff.Cli
open Exec Stages

/-! ### The command line of `fsdiff patch` -/

/-- What `cmd_apply` collects. -/
structure ApplySettings where
  verifyOutput : Bool := false
  verbose : Bool := false
  sourceMode : SourceMode := .auto
deriving DecidableEq

/-- What goes to `fsd_patch_create` and `fsd_patch_apply`. -/
structure ApplyJob where
  settings : ApplySettings
  src : List Char
  patch : List Char
  output : List Char

/-- The body of the loop in `cmd_apply`. -/
def applyBody (opt : Char) (optarg : Option (List Char)) (t : ApplySettings) : Except Stop ApplySettings :=
  match opt with
  | 'V' => .ok { t with verifyOutput := true }
  | 'v' => .ok { t with verbose := true }
  | 'M' =>
    match optarg with
    | none => .error .nullPointer
    | some arg =>
      match parseSourceMode arg with
      | none => .error (.exit 1 "Error: --source-mode must be auto|mmap|direct\n")
      | some mode => .ok { t with sourceMode := mode }
  | 'h' => .error (.exit 0 "")
  | _ => .error (.exit 1 "")

/-- `cmd_apply` behind its loop. -/
def applyFinish (argv : List CString) (optind : ℕ) (t : ApplySettings) : Except Fault (Except Stop ApplyJob) :=
  if optind + 3 ≠ argv.length then
    .ok (.error (.exit 1 "Error: apply requires <source> <patch> <output>\n"))
  else do
    let src ← argAt argv optind
    let patch ← argAt argv (optind + 1)
    let output ← argAt argv (optind + 2)
    pure (.ok ⟨t, src.chars, patch.chars, output.chars⟩)

/-- A word that is seen to hold no `nul`. -/
def word (chars : List Char) (h : decide (nul ∉ chars) = true) : CString := ⟨chars, of_decide_eq_true h⟩

/-- `"vh"` -/
def applyLetters : CString := word ['v', 'h'] rfl

/-- `long_options` of `cmd_apply` -/
def applyLongs : List LongOption :=
  [⟨word ['v', 'e', 'r', 'i', 'f', 'y'] rfl, .noArgument, 'V'⟩,
   ⟨word ['v', 'e', 'r', 'b', 'o', 's', 'e'] rfl, .noArgument, 'v'⟩,
   ⟨word ['s', 'o', 'u', 'r', 'c', 'e', '-', 'm', 'o', 'd', 'e'] rfl, .requiredArgument, 'M'⟩,
   ⟨word ['h', 'e', 'l', 'p'] rfl, .noArgument, 'h'⟩]

/-- `cmd_apply` up to the calls of the library. -/
def cmdApply (argv : List CString) : Except Fault (Except Stop ApplyJob) := do
  let (res, s) ← optionLoop argv applyLetters applyLongs applyBody (remaining argv 1 1 + 1) {} {}
  match res with
  | .error stop => pure (.error stop)
  | .ok t => applyFinish argv s.optind t

/-! ### Commands -/

/-- What a command line asks for. -/
inductive Request where
  | delta (job : Job)
  | patch (job : ApplyJob)
  | info (path : List Char)
  | stop (s : Stop)

/-- `main` up to the calls of the library, in a build with `getopt_compat.h`. -/
def request (C : Conversions) : List CString → Except Fault Request
  | _ :: cmd :: args =>
    if cmd.chars = ['d', 'e', 'l', 't', 'a'] then do
      match ← cmdCreate C (cmd :: args) with
      | .error s => pure (.stop s)
      | .ok job => pure (.delta job)
    else if cmd.chars = ['p', 'a', 't', 'c', 'h'] then do
      match ← cmdApply (cmd :: args) with
      | .error s => pure (.stop s)
      | .ok job => pure (.patch job)
    else if cmd.chars = ['i', 'n', 'f', 'o'] then
      match args with
      | [] => pure (.stop (.exit 1 "Error: info requires <patch>\n"))
      | path :: _ => pure (.info path.chars)
    else if cmd.chars = ['-', '-', 'h', 'e', 'l', 'p'] ∨ cmd.chars = ['-', 'h'] then pure (.stop (.exit 0 ""))
    else if cmd.chars = ['-', '-', 'v', 'e', 'r', 's', 'i', 'o', 'n'] then pure (.stop (.exit 0 ""))
    else pure (.stop (.exit 1 ""))
  | _ => pure (.stop (.exit 1 ""))

/-! ### Files -/

/-- The files by their names, two names being two files. -/
abbrev Disk := List Char → Io.Path

/-- How a process ends, if it does. -/
inductive Ending where
  | exit (code : ℕ)
  | crash
  | unending
deriving DecidableEq

/-- What may happen around one run: a context or a file that cannot be had, whether the source is a
block device, what comes of an output that is truncated while it is read, all else that may fail in
the library, and what it uses to compare and to pass on the streams. -/
structure Occasion where
  openFault : Option FsdError
  blockDevice : Bool
  overwritten : Ending × Io.Path
  delta : Io.Surroundings
  patch : Io.PatchSurroundings
  kernels : Kernels
  index : Io.Index
  passing : Io.Passing

def endingOf {ε α : Type} : Except ε α → Ending
  | .ok _ => .exit 0
  | .error _ => .exit 1

/-- An access out of range need not come to an end that the program knows of. -/
def patchEnding : Except Patch.Stop Unit → Ending
  | .ok _ => .exit 0
  | .error (.fail _) => .exit 1
  | .error .outOfRange => .crash
  | .error .outOfFuel => .unending

section Perform
variable (O : Occasion) (d : Disk)

def readFault (name : List Char) : Option FsdError :=
  if (d name).kind = .missing then some .fileNotFound else O.openFault

/-- The backend that `fsd_source_reader_open` chooses is the one that maps the source. -/
def sourceMapped : SourceMode → Bool
  | .auto => !O.blockDevice
  | .mmap => true
  | .direct => false

/-- `src_data` -/
def sourceData (mode : SourceMode) (file : Bytes) : Option Bytes :=
  if sourceMapped O mode then Io.mmapData file else some file

/-- The images of `fsdiff delta`; a `NULL` is refused by `fsd_stage_controller_run`. -/
def imagesOn (job : Job) : Except FsdError (Bytes × Bytes) :=
  match readFault O d job.src with
  | some e => .error e
  | none =>
    match readFault O d job.dest with
    | some e => .error e
    | none =>
      match sourceData O job.settings.sourceMode (d job.src).contents, Io.mmapData (d job.dest).contents with
      | some src, some dest => .ok (src, dest)
      | _, _ => .error .invalidArg

def deltaOn (job : Job) : Io.Outcome :=
  Io.diffFiles { O.delta with images := imagesOn O d job } O.kernels job.settings.opts O.index O.passing
    (d job.patch)

/-- The files of `fsdiff patch`. -/
def applySurroundings (job : ApplyJob) : Io.PatchSurroundings :=
  { O.patch with
    sourceOpen := readFault O d job.src
    patchOpen := readFault O d job.patch
    machine := { O.patch.machine with src := (d job.src).contents } }

def applyOn (job : ApplyJob) : Io.PatchOutcome :=
  Io.patchApply (applySurroundings O d job) (d job.patch).contents (d job.output)

/-- The exit code of `cmd_info`. -/
def infoOn (path : List Char) : Ending :=
  match readFault O d path with
  | some _ => .exit 1
  | none => endingOf (headerRead (d path).contents)

/-- A command, and the files after it. -/
def perform : Request → Ending × Disk
  | .delta job =>
    let out := deltaOn O d job
    (endingOf out.result, Function.update d job.patch out.output)
  | .patch job =>
    -- `fopen` empties the output while both of these are mapped
    if job.output = job.src ∨ job.output = job.patch then
      (O.overwritten.1, Function.update d job.output O.overwritten.2)
    else
      let out := applyOn O d job
      (patchEnding out.result, Function.update d job.output out.output)
  | .info path => (infoOn O d path, d)
  | .stop (.exit code _) => (.exit code, d)
  | .stop .nullPointer => (.crash, d)

end Perform

/-- Run after run, each on the files that the one before has left. -/
def session : List (Occasion × Request) → Disk → Disk
  | [], d => d
  | (O, r) :: rest, d => session rest (perform O d r).2

def Request.target : Request → Option (List Char)
  | .delta job => some job.patch
  | .patch job => some job.output
  | _ => none

/-! ### Every command line -/

/-- The one argument that is read is there. -/
theorem applyBody_ne_null {c : Char} {optarg : Option (List Char)} (h : Returned applyLetters applyLongs c optarg)
    (t : ApplySettings) : applyBody c optarg t ≠ .error .nullPointer := by
  have harg : c = 'M' → optarg.isSome := by
    intro hc
    cases h with
    | unknown => exact absurd hc (by decide)
    | flag hflag =>
      obtain ⟨m, hm, -⟩ := hflag
      have hmark : markOf applyLetters 'M' = .ok none := rfl
      rw [hc, hmark] at hm
      cases hm
    | short => rfl
    | @longFlag opt hmem hno =>
      have hlongs : ∀ o ∈ applyLongs, o.val = 'M' → o.hasArg = .requiredArgument := by decide
      exact absurd (hlongs opt hmem hc) hno
    | long => rfl
  intro herror
  unfold applyBody at herror
  split at herror
  · cases herror
  · cases herror
  · obtain ⟨arg, rfl⟩ := Option.isSome_iff_exists.mp (harg rfl)
    dsimp only at herror
    split at herror
    · cases herror
    · cases herror
  · cases herror
  · cases herror

theorem applyFinish_ends {argv : List CString} {optind : ℕ} (t : ApplySettings) :
    ∃ out, applyFinish argv optind t = .ok out ∧ out ≠ .error .nullPointer := by
  unfold applyFinish
  by_cases hargs : optind + 3 = argv.length
  · have hget : ∀ k < 3, ∃ a, argAt argv (optind + k) = .ok a := fun k hk =>
      ⟨_, argAt_of_get (List.getElem?_eq_getElem (by omega))⟩
    obtain ⟨src, hsrc⟩ := hget 0 (by omega)
    obtain ⟨patch, hpatch⟩ := hget 1 (by omega)
    obtain ⟨output, houtput⟩ := hget 2 (by omega)
    rw [add_zero] at hsrc
    rw [if_neg (not_not.mpr hargs), hsrc, hpatch, houtput]
    refine ⟨_, rfl, fun h => ?_⟩
    cases h
  · rw [if_pos hargs]
    refine ⟨_, rfl, fun h => ?_⟩
    cases h

theorem cmdApply_outcome {argv : List CString} (hargv : argv ≠ []) :
    ∃ out, cmdApply argv = .ok out ∧ out ≠ .error .nullPointer := by
  obtain ⟨res, s, hloop, -, -, herror⟩ :
      ∃ res s', optionLoop argv applyLetters applyLongs applyBody (remaining argv 1 1 + 1) {} {} =
          .ok (res, s') ∧ s'.optind ≤ argv.length ∧ (∀ t, res = .ok t → True) ∧
        ∀ e, res = .error e → e ≠ .nullPointer := by
    apply optionLoop_ends _ (ready_start hargv) (Nat.lt_succ_self _) trivial
    intro c optarg t hreturned _
    refine ⟨fun _ _ => trivial, ?_⟩
    rintro e he rfl
    exact applyBody_ne_null hreturned t he
  simp only [cmdApply, hloop, bind, Except.bind]
  cases res with
  | error stop =>
    refine ⟨_, rfl, fun h => ?_⟩
    cases h
    exact herror .nullPointer rfl rfl
  | ok t => exact applyFinish_ends t

theorem asks {α : Type} {x : Except Fault (Except Stop α)} {g : Except Stop α → Except Fault Request}
    (hx : ∃ out, x = .ok out ∧ out ≠ .error .nullPointer) (hstop : ∀ s, g (.error s) = .ok (.stop s))
    (hjob : ∀ a, ∃ r, g (.ok a) = .ok r ∧ r ≠ .stop .nullPointer) :
    ∃ r, x >>= g = .ok r ∧ r ≠ .stop .nullPointer := by
  obtain ⟨out, rfl, hnull⟩ := hx
  cases out with
  | error s =>
    refine ⟨.stop s, hstop s, fun h => hnull ?_⟩
    rw [Request.stop.inj h]
  | ok a => exact hjob a

/-- Every command line asks for something, and no read leaves a string or the arguments. -/
theorem request_ends (C : Conversions) (argv : List CString) :
    ∃ r, request C argv = .ok r ∧ r ≠ .stop .nullPointer := by
  have hstop : ∀ code text, Request.stop (.exit code text) ≠ .stop .nullPointer := by
    intro code text h
    cases h
  unfold request
  split
  · rename_i cmd args
    split_ifs
    · obtain ⟨out, hrun, hnull, -⟩ := cmdCreate_outcome C (List.cons_ne_nil cmd args)
      exact asks ⟨out, hrun, hnull⟩ (fun _ => rfl) fun _ => ⟨_, rfl, nofun⟩
    · exact asks (cmdApply_outcome (List.cons_ne_nil cmd args)) (fun _ => rfl) fun _ => ⟨_, rfl, nofun⟩
    · split
      · exact ⟨_, rfl, hstop _ _⟩
      · exact ⟨_, rfl, nofun⟩
    · exact ⟨_, rfl, hstop _ _⟩
    · exact ⟨_, rfl, hstop _ _⟩
    · exact ⟨_, rfl, hstop _ _⟩
  · exact ⟨_, rfl, hstop _ _⟩

/-! ### There and back -/

section Runs
variable {O : Occasion} {d : Disk}

theorem perform_patch (O : Occasion) (d : Disk) {job : ApplyJob} (h : job.output ≠ job.src ∧ job.output ≠ job.patch) :
    perform O d (.patch job) =
      (patchEnding (applyOn O d job).result, Function.update d job.output (applyOn O d job).output) :=
  if_neg (not_or.mpr h)

theorem perform_frame (O : Occasion) (d : Disk) {r : Request} {name : List Char} (h : r.target ≠ some name) :
    (perform O d r).2 name = d name := by
  cases r with
  | delta job => exact Function.update_of_ne (fun hname => h (congrArg some hname.symm)) _ _
  | patch job =>
    have hne : name ≠ job.output := fun hname => h (congrArg some hname.symm)
    unfold perform
    dsimp only
    split_ifs
    · exact Function.update_of_ne hne _ _
    · exact Function.update_of_ne hne _ _
  | info path => rfl
  | stop s =>
    cases s with
    | exit code text => rfl
    | nullPointer => rfl

theorem session_frame {runs : List (Occasion × Request)} {name : List Char}
    (h : ∀ run ∈ runs, run.2.target ≠ some name) (d : Disk) : session runs d name = d name := by
  induction runs generalizing d with
  | nil => rfl
  | cons run rest ih =>
    rw [session, ih fun run hrun => h run (List.mem_cons_of_mem _ hrun)]
    exact perform_frame _ d (h run List.mem_cons_self)

theorem endingOf_eq_zero {ε α : Type} {x : Except ε α} (h : endingOf x = .exit 0) : ∃ a, x = .ok a := by
  cases x with
  | ok a => exact ⟨a, rfl⟩
  | error e => cases h

theorem patchEnding_eq_zero {x : Except Patch.Stop Unit} (h : patchEnding x = .exit 0) : x = .ok () := by
  cases x with
  | ok _ => rfl
  | error e => cases e <;> cases h

theorem mmapData_eq_some {file data : Bytes} (h : Io.mmapData file = some data) : data = file := by
  unfold Io.mmapData at h
  split_ifs at h
  exact (Option.some.inj h).symm

theorem imagesOn_ok {job : Job} {src dest : Bytes} (h : imagesOn O d job = .ok (src, dest)) :
    src = (d job.src).contents ∧ dest = (d job.dest).contents := by
  unfold imagesOn at h
  split at h
  · cases h
  · split at h
    · cases h
    · split at h
      · rename_i hsrc hdest
        cases h
        refine ⟨?_, mmapData_eq_some hdest⟩
        unfold sourceData at hsrc
        split_ifs at hsrc
        · exact mmapData_eq_some hsrc
        · exact (Option.some.inj hsrc).symm
      · cases h

/-- A delta that exits with 0 has written a patch of the two images. -/
theorem deltaOn_patch {job : Job} (h : endingOf (deltaOn O d job).result = .exit 0) :
    Fsdiff.diffFiles O.delta.stages ⟨O.delta.diffBufMemory, fun _ => none⟩ O.kernels job.settings.opts
        (d job.src).contents (d job.dest).contents (O.index (d job.src).contents (d job.dest).contents) =
      .ok (deltaOn O d job).output.contents := by
  obtain ⟨patchSize, hok⟩ := endingOf_eq_zero h
  have hcases := Io.diffFiles_cases { O.delta with images := imagesOn O d job } O.kernels job.settings.opts
    O.index O.passing (d job.patch)
  change _ = Except.ok (Io.diffFiles _ _ _ _ _ _).output.contents
  change (Io.diffFiles _ _ _ _ _ _).result = _ at hok
  rcases hcases with ⟨e, he⟩ | ⟨e, p, he, -⟩ | ⟨src, dest, t, s, hlog, himages, ht, hs, hout⟩
  · rw [he] at hok
    cases hok
  · rw [he] at hok
    cases hok
  · obtain ⟨rfl, rfl⟩ := imagesOn_ok himages
    rw [hout]
    exact Io.diffFiles_pure hlog ht hs

theorem closeOutput_front (S : Io.PatchSurroundings) (written : Bytes) : (Io.closeOutput S written).2 <+: written := by
  unfold Io.closeOutput Stdio.Stream.fclose Stdio.Stream.fflush
  dsimp only
  split_ifs
  · simp
  · dsimp only
    rw [← List.take_add]
    exact List.take_prefix _ _

/-- Whatever the patch holds, the command exits. -/
theorem applyOn_exits (O : Occasion) (d : Disk) (job : ApplyJob) :
    ∃ code, patchEnding (applyOn O d job).result = .exit code := by
  have hresult : (applyOn O d job).result = .ok () ∨ ∃ e, (applyOn O d job).result = .error (.fail e) := by
    unfold applyOn Io.patchApply
    split
    · exact .inr ⟨_, rfl⟩
    · split
      · exact .inr ⟨_, rfl⟩
      · split
        · exact .inr ⟨_, rfl⟩
        · rename_i L _
          unfold Io.applyToFile
          split_ifs
          · exact .inr ⟨_, rfl⟩
          · exact .inr ⟨_, rfl⟩
          · cases hrun : Patch.applyOps (applySurroundings O d job).machine L {} with
            | ok c o => exact .inl rfl
            | error e o =>
              obtain ⟨err, rfl⟩ := (Patch.applyOps_ends.of_error hrun).1
              exact .inr ⟨err, rfl⟩
  rcases hresult with h | ⟨e, h⟩
  · exact ⟨0, by rw [h]; rfl⟩
  · exact ⟨1, by rw [h]; rfl⟩

/-- A patch command that exits with 0 has run the decoder to its end. -/
theorem applyOn_written {job : ApplyJob} (h : patchEnding (applyOn O d job).result = .exit 0) :
    ∃ c o, Patch.patchApply (Patch.reliable (d job.src).contents) (d job.patch).contents = .ok c o ∧
      (applyOn O d job).output.contents = (Io.closeOutput O.patch o.written).2 := by
  obtain ⟨L, c, o, hL, hrun, hout⟩ := Io.patchApply_steps (patchEnding_eq_zero h)
  refine ⟨c, o, ?_, ?_⟩
  · apply Patch.patchApply_reliable (applySurroundings O d job).machine
    rw [Patch.patchApply, hL]
    exact hrun
  · rw [applyOn, hout, Io.Path.opened_contents]
    rfl

end Runs

/-- There and back through the files, with other runs of the tool in between: whatever fails, a patch
made by one process and applied by another one gives back the image, or that front part of it that
the last `fclose` has not lost. -/
theorem session_restores {O₁ O₃ : Occasion} {d₀ d₁ d₃ : Disk} {job : Job} {job' : ApplyJob} {e : Ending}
    (hdelta : perform O₁ d₀ (.delta job) = (.exit 0, d₁)) (hpatch : job.patch ≠ job.src)
    (hsrc : (d₀ job.src).contents.length < 2 ^ 63)
    (hcount : (d₀ job.dest).contents.length / job.settings.opts.blockSize < 2 ^ 32)
    {between : List (Occasion × Request)}
    (hkept : ∀ run ∈ between, run.2.target ≠ some job.src ∧ run.2.target ≠ some job.patch)
    (hsame : job'.src = job.src ∧ job'.patch = job.patch) (houtput : job'.output ≠ job.src ∧ job'.output ≠ job.patch)
    (happly : perform O₃ (session between d₁) (.patch job') = (e, d₃)) :
    (∃ code, e = .exit code) ∧ (e = .exit 0 →
      (d₃ job'.output).contents <+: (d₀ job.dest).contents ∧
        ((d₃ job'.output).contents = (d₀ job.dest).contents ↔ O₃.patch.close.ok = true ∨
          (d₀ job.dest).contents.length ≤ O₃.patch.drained + O₃.patch.close.moved)) := by
  have hsrc₂ : session between d₁ job.src = d₀ job.src := by
    rw [session_frame (fun run hrun => (hkept run hrun).1)]
    rw [← (Prod.mk.inj hdelta).2]
    exact Function.update_of_ne hpatch.symm _ _
  have hpatch₂ : session between d₁ job.patch = (deltaOn O₁ d₀ job).output := by
    rw [session_frame (fun run hrun => (hkept run hrun).2)]
    rw [← (Prod.mk.inj hdelta).2]
    exact Function.update_self _ _ _
  rw [perform_patch _ _ ⟨hsame.1 ▸ houtput.1, hsame.2 ▸ houtput.2⟩] at happly
  obtain ⟨rfl, rfl⟩ := Prod.mk.inj happly
  refine ⟨applyOn_exits _ _ _, fun hexit => ?_⟩
  obtain ⟨c, o, hrun, hcontents⟩ := applyOn_written hexit
  rw [hsame.1, hsame.2, hsrc₂, hpatch₂] at hrun
  obtain ⟨hlo, hhi, hdest, s, script, hfile, hop, hdiff, hcomp⟩ :=
    diffFiles_compiles hsrc hcount (deltaOn_patch (Prod.mk.inj hdelta).1)
  rw [hfile] at hrun
  have hwritten : o.written = (d₀ job.dest).contents :=
    ((Encoder.patchApply_compiled hlo hhi hcount hdest hop hdiff hcomp).of_ok hrun).1
  rw [Function.update_self, hcontents, hwritten]
  exact ⟨closeOutput_front _ _, Io.closeOutput_eq_iff _⟩

def patchworkDisk : Disk := fun name =>
  if name = ['o'] then ⟨.regular, patchworkSource⟩
  else if name = ['n'] then ⟨.regular, patchworkImage⟩
  else ⟨.missing, []⟩

def quietly : Occasion where
  openFault := none
  blockDevice := false
  overwritten := (.crash, ⟨.regular, []⟩)
  delta := Io.patchworkSurroundings ⟨true, 0⟩
  patch := Io.undrained ⟨true, 0⟩
  kernels := scalarKernels
  index := fun _ _ bs => .inactive bs _ _
  passing := .whole

/-- `fsdiff delta -b 5 -r 64 o n p` -/
def deltaJob : Job :=
  ⟨{ opts := { blockSizeLog2 := 5, searchRadius := 2 }, searchRadiusBytes := 64 }, ['o'], ['n'], ['p']⟩

theorem session_restores_patchwork :
    ∃ d₁ d₃, perform quietly patchworkDisk (.delta deltaJob) = (.exit 0, d₁) ∧
      perform quietly (session [(quietly, .info ['p'])] d₁) (.patch ⟨{}, ['o'], ['p'], ['c']⟩) = (.exit 0, d₃) ∧
      (d₃ ['c']).contents = patchworkImage := by
  have hexit : (perform quietly patchworkDisk (.delta deltaJob)).1 = .exit 0 := by decide +kernel
  obtain ⟨d₁, hdelta⟩ : ∃ d₁, perform quietly patchworkDisk (.delta deltaJob) = (.exit 0, d₁) :=
    ⟨_, Prod.fst_eq_iff.mp hexit⟩
  have hexit' : (perform quietly (session [(quietly, .info ['p'])] d₁) (.patch ⟨{}, ['o'], ['p'], ['c']⟩)).1 =
      .exit 0 := by
    rw [← (Prod.mk.inj hdelta).2]
    decide +kernel
  obtain ⟨d₃, happly⟩ : ∃ d₃, perform quietly (session [(quietly, .info ['p'])] d₁)
      (.patch ⟨{}, ['o'], ['p'], ['c']⟩) = (.exit 0, d₃) := ⟨_, Prod.fst_eq_iff.mp hexit'⟩
  have hkept : ∀ run ∈ [(quietly, Request.info ['p'])],
      run.2.target ≠ some deltaJob.src ∧ run.2.target ≠ some deltaJob.patch := by
    intro run hrun
    rw [List.mem_singleton.mp hrun]
    exact ⟨nofun, nofun⟩
  obtain ⟨-, hback⟩ := session_restores hdelta (by decide) (by decide +kernel) (by decide +kernel) hkept
    ⟨rfl, rfl⟩ (by decide) happly
  exact ⟨d₁, d₃, hdelta, happly, (hback rfl).2.mpr (.inl rfl)⟩

/-- An empty source that is mapped is refused; read directly, it is a source like any other. -/
example : (endingOf (imagesOn quietly (Function.update patchworkDisk ['o'] ⟨.regular, []⟩) deltaJob),
    endingOf (imagesOn { quietly with blockDevice := true }
      (Function.update patchworkDisk ['o'] ⟨.regular, []⟩) deltaJob)) = (.exit 1, .exit 0) := by decide +kernel

end Fsdiff.Cli
