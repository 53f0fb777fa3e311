import Fsdiff.Cli.Spelling
import Fsdiff.Stages.Controller

/-! `tools/fsdiff.c`: from the command line of `fsdiff delta` to the options of the library. -/
namespace Fsdiff.Cli
open Stages

/-! ### Numbers -/

def isSpace (c : Char) : Bool := [' ', '\t', '\n', '\r', Char.ofNat 11, Char.ofNat 12].contains c

def digitsValue (digits : List Char) : ℕ := digits.foldl (fun n d => 10 * n + (d.toNat - '0'.toNat)) 0

/-- An optional sign, and whether it is a minus. -/
def signOf : List Char → Bool × List Char
  | '-' :: rest => (true, rest)
  | '+' :: rest => (false, rest)
  | s => (false, s)

/-- `strtoull` in base 10: the value and what is behind it, or `none` when there is no number.
A minus negates in 64 bits; too large a number gives the largest value. -/
def strtoull (s : List Char) : Option (ℕ × List Char) :=
  let (negative, s) := signOf (s.dropWhile isSpace)
  let digits := s.takeWhile Char.isDigit
  if digits = [] then none
  else
    let n := digitsValue digits
    let v := if 2 ^ 64 ≤ n then 2 ^ 64 - 1 else if negative then (2 ^ 64 - n) % 2 ^ 64 else n
    some (v, s.dropWhile Char.isDigit)

/-- A suffix `k` multiplies by 1024. -/
def scaleSuffix : ℕ × List Char → Option (ℕ × List Char)
  | (v, c :: rest) =>
    if c = 'k' ∨ c = 'K' then if v > (2 ^ 64 - 1) / 1024 then none else some (v * 1024, rest)
    else some (v, c :: rest)
  | (v, []) => some (v, [])

/-- `parse_size_arg` -/
def parseSizeArg (s : List Char) : Option ℕ := do
  let (v, rest) ← scaleSuffix (← strtoull s)
  if rest ≠ [] ∨ v = 0 then none else some v

inductive SourceMode where
  | auto | mmap | direct
deriving DecidableEq, Repr

/-- `parse_source_mode` -/
def parseSourceMode (s : List Char) : Option SourceMode :=
  if s = ['a', 'u', 't', 'o'] then some .auto
  else if s = ['m', 'm', 'a', 'p'] then some .mmap
  else if s = ['d', 'i', 'r', 'e', 'c', 't'] then some .direct
  else none

/-! ### Options -/

/-- The conversions of the C library whose results are not fixed for every string. -/
structure Conversions where
  atoi : List Char → ℤ
  atof : List Char → ℚ

/-- What `cmd_create` collects. -/
structure Settings where
  opts : DiffOptions := {}
  forceScalar : Bool := false
  veryVerbose : Bool := false
  sourceMode : SourceMode := .auto
  verbose : Bool := false
  noIdentityRequested : Bool := false
  searchRadiusBytes : ℕ := 0

/-- How `cmd_create` stops before the library is called. -/
inductive Stop where
  | exit (code : ℕ) (text : String)
  | nullPointer
deriving DecidableEq

/-- `optarg`, which must not be `NULL`. -/
def withArg (optarg : Option (List Char)) (f : List Char → Except Stop Settings) : Except Stop Settings :=
  match optarg with
  | some arg => f arg
  | none => .error .nullPointer

/-- `opts.block_size_log2 = atoi(optarg);` in eight bits, and its check. -/
def setBlockSize (C : Conversions) (t : Settings) (arg : List Char) : Except Stop Settings :=
  let log2 := (C.atoi arg % 256).toNat
  if log2 < 5 ∨ log2 > 24 then .error (.exit 1 "Error: block-size must be between 5 and 24\n")
  else .ok { t with opts := { t.opts with blockSizeLog2 := log2 } }

/-- The body of the loop in `cmd_create`. -/
def createBody (C : Conversions) (opt : Char) (optarg : Option (List Char)) (t : Settings) :
    Except Stop Settings :=
  match opt with
  | 'b' => withArg optarg (setBlockSize C t)
  | 'r' => withArg optarg fun arg =>
    match parseSizeArg arg with
    | none => .error (.exit 1
        "Error: search-radius must be a positive byte count, optionally with a 'k' suffix\n")
    | some bytes => .ok { t with searchRadiusBytes := bytes }
  | 't' => withArg optarg fun arg => .ok { t with opts := { t.opts with partialThreshold := C.atof arg } }
  | 'I' => .ok { t with opts := { t.opts with enableIdentity := false }, noIdentityRequested := true }
  | 'R' => .ok { t with opts := { t.opts with enableRelocation := false } }
  | 'P' => .ok { t with opts := { t.opts with enablePartial := false } }
  | 'F' => .ok { t with opts := { t.opts with enableFsmap := false } }
  | 'S' => .ok { t with forceScalar := true }
  | 'v' => .ok { t with verbose := true }
  | 'V' => .ok { t with verbose := true, veryVerbose := true }
  | 'M' => withArg optarg fun arg =>
    match parseSourceMode arg with
    | none => .error (.exit 1 "Error: --source-mode must be auto|mmap|direct\n")
    | some mode => .ok { t with sourceMode := mode }
  | 'h' => .error (.exit 0 "")
  | _ => .error (.exit 1 "")

def implyIdentity (t : Settings) : Settings :=
  if t.opts.enableRelocation && !t.opts.enableIdentity then
    { t with opts := { t.opts with enableIdentity := true } }
  else t

/-- The search radius in blocks, in 64 bits. -/
def radiusBlocks (bytes blockSize : ℕ) : ℕ := (bytes + blockSize - 1) % 2 ^ 64 / blockSize

/-- The library takes the search radius in blocks. -/
def convertRadius (t : Settings) : Except Stop Settings :=
  if t.searchRadiusBytes > 0 then
    let blocks := radiusBlocks t.searchRadiusBytes t.opts.blockSize
    if blocks > 0x7fffffff then .error (.exit 1 "Error: search-radius too large\n")
    else .ok { t with opts := { t.opts with searchRadius := blocks } }
  else .ok t

/-- What goes to `fsd_diff_create` and `fsd_diff_files`. -/
structure Job where
  settings : Settings
  src : List Char
  dest : List Char
  patch : List Char

/-- `cmd_create` behind its loop. -/
def createFinish (argv : List CString) (optind : ℕ) (t : Settings) : Except Fault (Except Stop Job) :=
  match convertRadius (implyIdentity t) with
  | .error stop => .ok (.error stop)
  | .ok t =>
    if optind + 3 ≠ argv.length then
      .ok (.error (.exit 1 "Error: delta requires <source> <destination> <patch>\n"))
    else do
      let src ← argAt argv optind
      let dest ← argAt argv (optind + 1)
      let patch ← argAt argv (optind + 2)
      pure (.ok ⟨t, src.chars, dest.chars, patch.chars⟩)

/-- `"b:r:t:vVh"` -/
def createLetters : CString := ⟨['b', ':', 'r', ':', 't', ':', 'v', 'V', 'h'], by decide⟩

/-- `long_options` of `cmd_create` -/
def createLongs : List LongOption :=
  [⟨⟨['b', 'l', 'o', 'c', 'k', '-', 's', 'i', 'z', 'e'], by decide⟩, .requiredArgument, 'b'⟩,
   ⟨⟨['s', 'e', 'a', 'r', 'c', 'h', '-', 'r', 'a', 'd', 'i', 'u', 's'], by decide⟩, .requiredArgument, 'r'⟩,
   ⟨⟨['t', 'h', 'r', 'e', 's', 'h', 'o', 'l', 'd'], by decide⟩, .requiredArgument, 't'⟩,
   ⟨⟨['n', 'o', '-', 'i', 'd', 'e', 'n', 't', 'i', 't', 'y'], by decide⟩, .noArgument, 'I'⟩,
   ⟨⟨['n', 'o', '-', 'r', 'e', 'l', 'o', 'c', 'a', 't', 'i', 'o', 'n'], by decide⟩, .noArgument, 'R'⟩,
   ⟨⟨['n', 'o', '-', 'p', 'a', 'r', 't', 'i', 'a', 'l'], by decide⟩, .noArgument, 'P'⟩,
   ⟨⟨['n', 'o', '-', 'f', 's', 'm', 'a', 'p'], by decide⟩, .noArgument, 'F'⟩,
   ⟨⟨['s', 'c', 'a', 'l', 'a', 'r'], by decide⟩, .noArgument, 'S'⟩,
   ⟨⟨['v', 'e', 'r', 'b', 'o', 's', 'e'], by decide⟩, .noArgument, 'v'⟩,
   ⟨⟨['v', 'e', 'r', 'y', '-', 'v', 'e', 'r', 'b', 'o', 's', 'e'], by decide⟩, .noArgument, 'V'⟩,
   ⟨⟨['s', 'o', 'u', 'r', 'c', 'e', '-', 'm', 'o', 'd', 'e'], by decide⟩, .requiredArgument, 'M'⟩,
   ⟨⟨['h', 'e', 'l', 'p'], by decide⟩, .noArgument, 'h'⟩]

/-- `cmd_create` up to the calls of the library; `argv[0]` is the command. -/
def cmdCreate (C : Conversions) (argv : List CString) : Except Fault (Except Stop Job) := do
  let (res, s) ← optionLoop argv createLetters createLongs (createBody C) (remaining argv 1 1 + 1) {} {}
  match res with
  | .error stop => pure (.error stop)
  | .ok t => createFinish argv s.optind t

/-! ### Every command line -/

/-- What holds of the settings all along. -/
structure Settings.Sound (t : Settings) : Prop where
  five_le : 5 ≤ t.opts.blockSizeLog2
  le_24 : t.opts.blockSizeLog2 ≤ 24
  bytes_lt : t.searchRadiusBytes < 2 ^ 64
  radius_nonneg : 0 ≤ t.opts.searchRadius
  radius_lt : t.opts.searchRadius < 2 ^ 31

theorem strtoull_lt {s : List Char} {v : ℕ} {rest : List Char} (h : strtoull s = some (v, rest)) : v < 2 ^ 64 := by
  unfold strtoull at h
  dsimp only at h
  split_ifs at h <;> injection h with h <;> injection h <;> omega

theorem scaleSuffix_lt {p q : ℕ × List Char} (h : scaleSuffix p = some q) (hp : p.1 < 2 ^ 64) : q.1 < 2 ^ 64 := by
  obtain ⟨v, rest⟩ := p
  cases rest with
  | nil =>
    obtain rfl : (v, []) = q := Option.some.inj h
    exact hp
  | cons c rest =>
    simp only [scaleSuffix] at h
    split_ifs at h with hk hv
    · obtain rfl := Option.some.inj h
      dsimp only
      omega
    · obtain rfl := Option.some.inj h
      exact hp

theorem parseSizeArg_spec {s : List Char} {v : ℕ} (h : parseSizeArg s = some v) : 0 < v ∧ v < 2 ^ 64 := by
  unfold parseSizeArg at h
  obtain ⟨p, hp, h⟩ := Option.bind_eq_some_iff.mp h
  obtain ⟨q, hq, h⟩ := Option.bind_eq_some_iff.mp h
  dsimp only at h
  split_ifs at h with hrest
  obtain rfl := Option.some.inj h
  push Not at hrest
  exact ⟨Nat.pos_of_ne_zero hrest.2, scaleSuffix_lt hq (strtoull_lt hp)⟩

/-- The options whose argument is read. -/
def readsArgument : List Char := ['b', 'r', 't', 'M']

theorem not_isFlag_of_reads {c : Char} (hc : c ∈ readsArgument) : ¬ IsFlag createLetters c := by
  rintro ⟨m, hm, hne⟩
  have hmark : markOf createLetters c = .ok (some ':') ∨ markOf createLetters c = .ok none := by
    simp only [readsArgument, List.mem_cons, List.not_mem_nil, or_false] at hc
    rcases hc with rfl | rfl | rfl | rfl
    · exact .inl rfl
    · exact .inl rfl
    · exact .inl rfl
    · exact .inr rfl
  rcases hmark with h | h
  · rw [h] at hm
    injection hm with hm
    injection hm with hm
    exact hne hm.symm
  · rw [h] at hm
    injection hm with hm
    cases hm

theorem Returned.isSome {c : Char} {optarg : Option (List Char)}
    (h : Returned createLetters createLongs c optarg) (hc : c ∈ readsArgument) : optarg.isSome := by
  cases h with
  | unknown => exact absurd hc (by decide)
  | flag hflag => exact absurd hflag (not_isFlag_of_reads hc)
  | short => rfl
  | @longFlag opt hmem hno =>
    have hlongs : ∀ o ∈ createLongs, o.val ∈ readsArgument → o.hasArg = .requiredArgument := by decide
    exact absurd (hlongs opt hmem hc) hno
  | long => rfl

theorem withArg_sound {optarg : Option (List Char)} {f : List Char → Except Stop Settings}
    (harg : optarg.isSome) (hf : ∀ arg, (∀ t, f arg = .ok t → t.Sound) ∧ f arg ≠ .error .nullPointer) :
    (∀ t, withArg optarg f = .ok t → t.Sound) ∧ withArg optarg f ≠ .error .nullPointer := by
  obtain ⟨arg, rfl⟩ := Option.isSome_iff_exists.mp harg
  exact hf arg

theorem exit_sound (code : ℕ) (text : String) :
    (∀ t, (.error (.exit code text) : Except Stop Settings) = .ok t → t.Sound) ∧
      (.error (.exit code text) : Except Stop Settings) ≠ .error .nullPointer := by
  refine ⟨fun t h => ?_, fun h => ?_⟩
  · cases h
  · cases h

theorem ok_sound {t : Settings} (ht : t.Sound) :
    (∀ t', (.ok t : Except Stop Settings) = .ok t' → t'.Sound) ∧
      (.ok t : Except Stop Settings) ≠ .error .nullPointer := by
  refine ⟨fun t' h => ?_, fun h => ?_⟩
  · cases h
    exact ht
  · cases h

/-- The body keeps the settings sound and never reads a missing argument. -/
theorem createBody_sound (C : Conversions) {c : Char} {optarg : Option (List Char)} {t : Settings}
    (h : Returned createLetters createLongs c optarg) (ht : t.Sound) :
    (∀ t', createBody C c optarg t = .ok t' → t'.Sound) ∧ createBody C c optarg t ≠ .error .nullPointer := by
  unfold createBody
  split
  case h_1 =>
    refine withArg_sound (h.isSome (by decide)) fun arg => ?_
    unfold setBlockSize
    by_cases hrange : (C.atoi arg % 256).toNat < 5 ∨ (C.atoi arg % 256).toNat > 24
    · rw [if_pos hrange]
      exact exit_sound _ _
    · rw [if_neg hrange]
      push Not at hrange
      exact ok_sound ⟨hrange.1, hrange.2, ht.bytes_lt, ht.radius_nonneg, ht.radius_lt⟩
  case h_2 =>
    refine withArg_sound (h.isSome (by decide)) fun arg => ?_
    cases hparse : parseSizeArg arg with
    | none => exact exit_sound _ _
    | some bytes =>
      exact ok_sound ⟨ht.five_le, ht.le_24, (parseSizeArg_spec hparse).2, ht.radius_nonneg, ht.radius_lt⟩
  case h_3 =>
    refine withArg_sound (h.isSome (by decide)) fun arg => ?_
    exact ok_sound ⟨ht.five_le, ht.le_24, ht.bytes_lt, ht.radius_nonneg, ht.radius_lt⟩
  case h_11 =>
    refine withArg_sound (h.isSome (by decide)) fun arg => ?_
    cases parseSourceMode arg with
    | none => exact exit_sound _ _
    | some mode => exact ok_sound ⟨ht.five_le, ht.le_24, ht.bytes_lt, ht.radius_nonneg, ht.radius_lt⟩
  case h_12 => exact exit_sound _ _
  case h_13 => exact exit_sound _ _
  all_goals exact ok_sound ⟨ht.five_le, ht.le_24, ht.bytes_lt, ht.radius_nonneg, ht.radius_lt⟩

theorem implyIdentity_identity (t : Settings) (h : (implyIdentity t).opts.enableRelocation = true) :
    (implyIdentity t).opts.enableIdentity = true := by
  unfold implyIdentity at h ⊢
  split_ifs at h ⊢ with hboth
  · rfl
  · simpa [h] using hboth

theorem implyIdentity_sound {t : Settings} (ht : t.Sound) : (implyIdentity t).Sound := by
  unfold implyIdentity
  split_ifs
  · exact ⟨ht.five_le, ht.le_24, ht.bytes_lt, ht.radius_nonneg, ht.radius_lt⟩
  · exact ht

/-- What the library asks of its options, and the distance that `-r` asks for: it is covered unless
the sum that rounds it up exceeds 64 bits. -/
structure Settings.Accepted (t : Settings) : Prop where
  sound : t.Sound
  identity : t.opts.enableRelocation = true → t.opts.enableIdentity = true
  covers : 0 < t.searchRadiusBytes →
    (t.searchRadiusBytes ≤ searchRange t.opts.blockSize t.opts.searchRadius ↔
      t.searchRadiusBytes + t.opts.blockSize ≤ 2 ^ 64)

/-- The distance searched for a radius that was converted. -/
theorem searchRange_radiusBlocks {bytes bs : ℕ} (hbytes : bytes < 2 ^ 64) (hpos : 0 < bytes) (hbs : 0 < bs)
    (hbs' : bs ≤ 2 ^ 24) :
    bytes ≤ searchRange bs (radiusBlocks bytes bs : ℕ) ↔ bytes + bs ≤ 2 ^ 64 := by
  constructor
  · intro hcovers
    by_contra hwrap
    have hsum : (bytes + bs - 1) % 2 ^ 64 = bytes + bs - 1 - 2 ^ 64 := by
      rw [Nat.mod_eq_sub_mod (by omega), Nat.mod_eq_of_lt (by omega)]
    have hzero : radiusBlocks bytes bs = 0 := by
      rw [radiusBlocks, hsum]
      exact Nat.div_eq_of_lt (by omega)
    rw [hzero, searchRange, if_pos (by simp)] at hcovers
    unfold defaultSearchRadiusBlocks at hcovers
    omega
  · intro hfits
    have hsum : (bytes + bs - 1) % 2 ^ 64 = bytes + bs - 1 := Nat.mod_eq_of_lt (by omega)
    have hone : 0 < (bytes + bs - 1) / bs := Nat.div_pos (by omega) hbs
    rw [radiusBlocks, hsum, searchRange, if_neg (by push_cast; omega), Int.toNat_natCast]
    have hmod := Nat.div_add_mod (bytes + bs - 1) bs
    have hlt := Nat.mod_lt (bytes + bs - 1) hbs
    rw [mul_comm]
    omega

theorem DiffOptions.blockSize_le {opts : DiffOptions} (h : opts.blockSizeLog2 ≤ 24) : opts.blockSize ≤ 2 ^ 24 :=
  Nat.pow_le_pow_right two_pos h

theorem convertRadius_accepted {t t' : Settings} (ht : t.Sound)
    (hid : t.opts.enableRelocation = true → t.opts.enableIdentity = true) (h : convertRadius t = .ok t') :
    t'.Accepted := by
  unfold convertRadius at h
  dsimp only at h
  split_ifs at h with hpos hlarge
  · obtain rfl := Except.ok.inj h
    refine ⟨⟨ht.five_le, ht.le_24, ht.bytes_lt, Int.natCast_nonneg _, ?_⟩, hid, fun _ => ?_⟩
    · dsimp only
      omega
    · exact searchRange_radiusBlocks ht.bytes_lt hpos (Nat.two_pow_pos _) (DiffOptions.blockSize_le ht.le_24)
  · obtain rfl := Except.ok.inj h
    exact ⟨ht, hid, fun hpos' => absurd hpos' hpos⟩

def jobOf (t : Settings) (operands : List (List Char)) : Except Stop Job :=
  match convertRadius (implyIdentity t) with
  | .error stop => .error stop
  | .ok t =>
    match operands with
    | [src, dest, patch] => .ok ⟨t, src, dest, patch⟩
    | _ => .error (.exit 1 "Error: delta requires <source> <destination> <patch>\n")

theorem createFinish_eq {argv : List CString} {optind : ℕ} (h : optind ≤ argv.length) (t : Settings) :
    createFinish argv optind t = .ok (jobOf t (wordsFrom argv optind)) := by
  have hlength : (wordsFrom argv optind).length = argv.length - optind := by
    rw [wordsFrom, List.length_map, List.length_drop]
  unfold createFinish jobOf
  cases convertRadius (implyIdentity t) with
  | error stop => rfl
  | ok t' =>
    by_cases hargs : optind + 3 = argv.length
    · have hthree : (wordsFrom argv optind).length = 3 := by omega
      obtain ⟨src, dest, patch, hwords⟩ := List.length_eq_three.mp hthree
      obtain ⟨a₀, h₀, rfl, hrest₀⟩ := get_of_wordsFrom hwords
      obtain ⟨a₁, h₁, rfl, hrest₁⟩ := get_of_wordsFrom hrest₀
      obtain ⟨a₂, h₂, rfl, -⟩ := get_of_wordsFrom hrest₁
      dsimp only
      rw [if_neg (not_not.mpr hargs), argAt_of_get h₀, argAt_of_get h₁, argAt_of_get h₂, hwords]
      rfl
    · dsimp only
      rw [if_pos hargs]
      split
      · rename_i src dest patch hwords
        rw [hwords] at hlength
        simp only [List.length_cons, List.length_nil] at hlength
        omega
      · rfl

theorem convertRadius_ne_null (t : Settings) : convertRadius t ≠ .error .nullPointer := by
  intro h
  unfold convertRadius at h
  dsimp only at h
  split_ifs at h
  cases h

theorem jobOf_accepted {t : Settings} (ht : t.Sound) (operands : List (List Char)) :
    jobOf t operands ≠ .error .nullPointer ∧ ∀ job, jobOf t operands = .ok job → job.settings.Accepted := by
  unfold jobOf
  cases hconvert : convertRadius (implyIdentity t) with
  | error stop =>
    refine ⟨fun h => ?_, fun job h => ?_⟩
    · cases h
      exact convertRadius_ne_null _ hconvert
    · cases h
  | ok t' =>
    have haccepted := convertRadius_accepted (implyIdentity_sound ht) (implyIdentity_identity t) hconvert
    dsimp only
    split
    · refine ⟨fun h => ?_, fun job h => ?_⟩
      · cases h
      · cases h
        exact haccepted
    · refine ⟨fun h => ?_, fun job h => ?_⟩
      · cases h
      · cases h

theorem sound_default : ({} : Settings).Sound := by
  constructor <;> decide

theorem ready_start {argv : List CString} (hargv : argv ≠ []) : Ready argv 1 1 :=
  ⟨List.length_pos_iff.mpr hargv, .inl rfl⟩

theorem cmdCreate_outcome (C : Conversions) {argv : List CString} (hargv : argv ≠ []) :
    ∃ out, cmdCreate C argv = .ok out ∧ out ≠ .error .nullPointer ∧
      ∀ job, out = .ok job → job.settings.Accepted := by
  have hbody : ∀ c optarg t, Returned createLetters createLongs c optarg → t.Sound →
      (∀ t', createBody C c optarg t = .ok t' → t'.Sound) ∧
        ∀ e, createBody C c optarg t = .error e → e ≠ .nullPointer := by
    intro c optarg t hreturned ht
    obtain ⟨hsound, hnull⟩ := createBody_sound C hreturned ht
    refine ⟨hsound, ?_⟩
    rintro e he rfl
    exact hnull he
  obtain ⟨res, s, hloop, hle, hok, herror⟩ :
      ∃ res s', optionLoop argv createLetters createLongs (createBody C) (remaining argv 1 1 + 1) {} {} =
          .ok (res, s') ∧ s'.optind ≤ argv.length ∧ (∀ t, res = .ok t → t.Sound) ∧
        ∀ e, res = .error e → e ≠ .nullPointer :=
    optionLoop_ends _ (ready_start hargv) (Nat.lt_succ_self _) sound_default hbody
  simp only [cmdCreate, hloop, bind, Except.bind]
  cases res with
  | error stop =>
    refine ⟨_, rfl, fun h => ?_, fun job h => ?_⟩
    · cases h
      exact herror .nullPointer rfl rfl
    · cases h
  | ok t => exact ⟨_, createFinish_eq hle t, jobOf_accepted (hok t rfl) _⟩

theorem searchRange_of_controllerCreate {opts : DiffOptions} {srcBlocks destBlocks : ℕ} {ctrl : StageController}
    (h : controllerCreate opts srcBlocks destBlocks = .ok ctrl) :
    ctrl.searchRange = searchRange opts.blockSize opts.searchRadius := by
  unfold controllerCreate at h
  split_ifs at h
  cases htracker : Tracker.create destBlocks opts.blockSize with
  | error e =>
    rw [htracker] at h
    cases h
  | ok tracker =>
    rw [htracker] at h
    cases h
    rfl

/-- Every command line is dealt with: the loop over its options ends, no string is read outside of
its end, no missing argument is read, and options that are accepted are accepted by the library. -/
theorem cmdCreate_ends (C : Conversions) {argv : List CString} (hargv : argv ≠ []) :
    ∃ out, cmdCreate C argv = .ok out ∧ out ≠ .error .nullPointer ∧
      ∀ job, out = .ok job → 5 ≤ job.settings.opts.blockSizeLog2 ∧ job.settings.opts.blockSizeLog2 ≤ 24 ∧
        ∀ srcBlocks destBlocks, 0 < destBlocks →
          ∃ ctrl, controllerCreate job.settings.opts srcBlocks destBlocks = .ok ctrl := by
  obtain ⟨out, hrun, hnull, haccepted⟩ := cmdCreate_outcome C hargv
  refine ⟨out, hrun, hnull, fun job hjob => ?_⟩
  have ht := haccepted job hjob
  refine ⟨ht.sound.five_le, ht.sound.le_24, fun srcBlocks destBlocks hdest => ?_⟩
  exact exists_controllerCreate job.settings.opts ht.identity srcBlocks hdest

/-- Conversions for the examples: plain decimals, and the one fraction that occurs. -/
def sampleConversions : Conversions := ⟨fun s => digitsValue s, fun _ => 3 / 4⟩

/-- An option that is not there, behind a letter that is. -/
def strayLetters : List CString :=
  [⟨['d', 'e', 'l', 't', 'a'], by decide⟩, ⟨['-', 'v', 'x'], by decide⟩, ⟨['-', 'r'], by decide⟩]

theorem cmdCreate_ends_strayLetters :
    strayLetters ≠ [] ∧ ∃ out, cmdCreate sampleConversions strayLetters = .ok out ∧ out ≠ .error .nullPointer := by
  have hargv : strayLetters ≠ [] := by decide
  obtain ⟨out, hrun, hnull, -⟩ := cmdCreate_ends sampleConversions hargv
  exact ⟨hargv, out, hrun, hnull⟩

/-- The stages search as far as `-r` asks for, unless its sum with the block size exceeds 64 bits. -/
theorem cmdCreate_covers_iff (C : Conversions) {argv : List CString} {job : Job} (hargv : argv ≠ [])
    (h : cmdCreate C argv = .ok (.ok job)) (hradius : 0 < job.settings.searchRadiusBytes) {srcBlocks destBlocks : ℕ}
    {ctrl : StageController} (hctrl : controllerCreate job.settings.opts srcBlocks destBlocks = .ok ctrl) :
    job.settings.searchRadiusBytes ≤ ctrl.searchRange ↔
      job.settings.searchRadiusBytes + job.settings.opts.blockSize ≤ 2 ^ 64 := by
  obtain ⟨out, hrun, -, haccepted⟩ := cmdCreate_outcome C hargv
  obtain rfl : out = .ok job := Except.ok.inj (hrun.symm.trans h)
  have ht := haccepted job rfl
  rw [searchRange_of_controllerCreate hctrl]
  exact ht.covers hradius

/-- A negative radius is taken for one of almost 2 ^ 64 bytes. -/
def negativeRadius : List CString :=
  [⟨['d', 'e', 'l', 't', 'a'], by decide⟩, ⟨['-', 'r'], by decide⟩, ⟨['-', '5'], by decide⟩,
   ⟨['o', 'l', 'd'], by decide⟩, ⟨['n', 'e', 'w'], by decide⟩, ⟨['p'], by decide⟩]

def negativeJob : Job :=
  ⟨{ opts := { searchRadius := 0 }, searchRadiusBytes := 2 ^ 64 - 5 }, ['o', 'l', 'd'], ['n', 'e', 'w'], ['p']⟩

theorem cmdCreate_covers_iff_negativeRadius :
    cmdCreate sampleConversions negativeRadius = .ok (.ok negativeJob) ∧
      ∃ ctrl, controllerCreate negativeJob.settings.opts 4 4 = .ok ctrl ∧
        ¬ negativeJob.settings.searchRadiusBytes ≤ ctrl.searchRange := by
  have hrun : cmdCreate sampleConversions negativeRadius = .ok (.ok negativeJob) := rfl
  obtain ⟨ctrl, hctrl⟩ := exists_controllerCreate negativeJob.settings.opts (fun _ => rfl) 4 (show 0 < 4 by decide)
  refine ⟨hrun, ctrl, hctrl, fun hcovers => ?_⟩
  have hfits := (cmdCreate_covers_iff sampleConversions (by decide) hrun (by decide) hctrl).mp hcovers
  exact absurd hfits (by decide)

/-! ### Every spelling -/

theorem createBody_ignores (C : Conversions) {c : Char} (hc : c ∉ readsArgument) (optarg : Option (List Char))
    (t : Settings) : createBody C c optarg t = createBody C c none t := by
  unfold createBody
  split
  case h_1 => exact absurd hc (by decide)
  case h_2 => exact absurd hc (by decide)
  case h_3 => exact absurd hc (by decide)
  case h_11 => exact absurd hc (by decide)
  all_goals rfl

theorem Item.not_reads {item : Item} (hvalid : item.Valid createLetters createLongs) {c : Char}
    (h : (c, none) ∈ item.options) : c ∉ readsArgument := by
  have hflag : ∀ {cs : List Char}, (∀ x ∈ cs, IsFlag createLetters x) → c ∈ cs → c ∉ readsArgument :=
    fun hcs hc hreads => not_isFlag_of_reads hreads (hcs c hc)
  cases item with
  | flags cs d =>
    obtain ⟨hcs, hd, -⟩ := hvalid
    have hmem : c = d ∨ c ∈ cs := by simpa [Item.options, or_comm] using h
    rcases hmem with rfl | hmem
    · exact fun hreads => not_isFlag_of_reads hreads hd
    · exact hflag hcs hmem
  | attached cs d value => exact hflag hvalid.1 (by simpa [Item.options] using h)
  | detached cs d value => exact hflag hvalid.1 (by simpa [Item.options] using h)
  | long opt =>
    obtain ⟨hopt, hno, -⟩ := hvalid
    obtain rfl : c = opt.val := by simpa [Item.options] using h
    have hlongs : ∀ o ∈ createLongs, o.val ∈ readsArgument → o.hasArg = .requiredArgument := by decide
    exact fun hreads => hno (hlongs opt (List.mem_of_find?_eq_some hopt.1) hreads)
  | longAttached opt value => simp [Item.options] at h
  | longDetached opt value => simp [Item.options] at h

/-- The settings of some options. -/
def settingsOf (C : Conversions) (options : List (Char × Option (List Char))) : Except Stop Settings :=
  options.foldlM (fun t o => createBody C o.1 o.2 t) {}

/-- `cmd_create` depends on the options and the operands only, not on how they are spelled. -/
theorem cmdCreate_spelled (C : Conversions) {argv : List CString} {program : List Char} {items : List Item}
    {rest operands : List (List Char)}
    (hargv : argv.map CString.chars = program :: (items.flatMap Item.words ++ rest))
    (hvalid : ∀ item ∈ items, item.Valid createLetters createLongs) (hstops : Stops rest operands) :
    cmdCreate C argv = .ok (do
      let t ← settingsOf C (items.flatMap Item.options)
      jobOf t operands) := by
  obtain ⟨got, s₁, s₂, hcalls, hgives, hlast, hoperands, -⟩ := getoptLong_spelled hargv hvalid hstops
  have hne : argv ≠ [] := by
    rintro rfl
    cases hargv
  obtain ⟨hle, hready₁⟩ := hcalls.length_le (ready_start hne)
  have hlength : got.length < remaining argv 1 1 + 1 :=
    Nat.lt_succ_of_le ((Nat.le_add_right _ _).trans hle)
  have hready₂ : Ready argv s₂.optind s₂.sp := by
    obtain ⟨r, s', hcall, hready, -⟩ := getoptLong_answers createLetters createLongs hready₁
    obtain ⟨-, rfl⟩ := Prod.mk.inj (Except.ok.inj (hcall.symm.trans hlast))
    exact hready
  obtain ⟨s', hloop, hs'⟩ := optionLoop_calls hcalls hlast hlength (createBody C) {}
  have hsame : got.foldlM (fun t o => createBody C o.1 o.2 t) {} = settingsOf C (items.flatMap Item.options) := by
    apply foldlM_gives hgives
    intro c hmem optarg t
    obtain ⟨item, hitem, hmem⟩ := List.mem_flatMap.mp hmem
    exact createBody_ignores C (Item.not_reads (hvalid item hitem) hmem) optarg t
  rw [hsame] at hloop hs'
  simp only [cmdCreate, hloop, bind, Except.bind]
  cases hsettings : settingsOf C (items.flatMap Item.options) with
  | error stop => rfl
  | ok t =>
    obtain rfl := hs' t hsettings
    dsimp only
    rw [createFinish_eq hready₂.le, hoperands]

/-- `-vb13 --no-fsmap --source-mode=mmap -t 0.75` -/
def mixedItems : List Item :=
  [.attached ['v'] 'b' ['1', '3'],
   .long ⟨⟨['n', 'o', '-', 'f', 's', 'm', 'a', 'p'], by decide⟩, .noArgument, 'F'⟩,
   .longAttached ⟨⟨['s', 'o', 'u', 'r', 'c', 'e', '-', 'm', 'o', 'd', 'e'], by decide⟩, .requiredArgument, 'M'⟩
     ['m', 'm', 'a', 'p'],
   .detached [] 't' ['0', '.', '7', '5']]

/-- The items, and behind `--` an operand that looks like an option. -/
def mixedSpelling : List CString :=
  [⟨['d', 'e', 'l', 't', 'a'], by decide⟩, ⟨['-', 'v', 'b', '1', '3'], by decide⟩,
   ⟨['-', '-', 'n', 'o', '-', 'f', 's', 'm', 'a', 'p'], by decide⟩,
   ⟨['-', '-', 's', 'o', 'u', 'r', 'c', 'e', '-', 'm', 'o', 'd', 'e', '=', 'm', 'm', 'a', 'p'], by decide⟩,
   ⟨['-', 't'], by decide⟩, ⟨['0', '.', '7', '5'], by decide⟩, ⟨['-', '-'], by decide⟩,
   ⟨['-', 'o'], by decide⟩, ⟨['n', 'e', 'w'], by decide⟩, ⟨['p'], by decide⟩]

theorem cmdCreate_spelled_mixedSpelling :
    cmdCreate sampleConversions mixedSpelling = .ok (do
      let t ← settingsOf sampleConversions (mixedItems.flatMap Item.options)
      jobOf t [['-', 'o'], ['n', 'e', 'w'], ['p']]) := by
  have hargv : mixedSpelling.map CString.chars = ['d', 'e', 'l', 't', 'a'] :: (mixedItems.flatMap Item.words ++
      [['-', '-'], ['-', 'o'], ['n', 'e', 'w'], ['p']]) := by decide
  have hflag : IsFlag createLetters 'v' := ⟨'V', rfl, by decide⟩
  refine cmdCreate_spelled sampleConversions hargv ?_ (.inl rfl)
  intro item hitem
  simp only [mixedItems, List.mem_cons, List.not_mem_nil, or_false] at hitem
  rcases hitem with rfl | rfl | rfl | rfl
  · refine ⟨fun x hx => ?_, rfl, by decide, by decide⟩
    obtain rfl := List.mem_singleton.mp hx
    exact hflag
  · exact ⟨⟨rfl, by decide⟩, by decide, by decide⟩
  · exact ⟨⟨rfl, by decide⟩, rfl⟩
  · exact ⟨nofun, rfl, by decide⟩

end Fsdiff.Cli
