import Mathlib.Data.List.Basic
import Mathlib.Tactic.Linarith

/-! `getopt_compat.h`: the `getopt_long` that it defines under `_WIN32`, on strings whose every read
is checked. Other builds take the one of the C library. -/
namespace Fsdiff.Cli

def nul : Char := Char.ofNat 0

/-- A string in memory, without the byte that ends it. -/
structure CString where
  chars : List Char
  noNul : nul ∉ chars
deriving DecidableEq

inductive Fault where
  | outOfBounds
  | outOfFuel
deriving DecidableEq, Repr

/-- `s[i]` -/
def CString.get (s : CString) (i : ℕ) : Except Fault Char :=
  if i ≤ s.chars.length then .ok ((s.chars.drop i).headD nul) else .error .outOfBounds

/-- `strchr`, which finds the end of the string too. -/
def CString.strchr (s : CString) (c : Char) : Option ℕ :=
  if c = nul then some s.chars.length else s.chars.idxOf? c

/-- `argv[i]`, not the `NULL` behind the arguments. -/
def argAt (argv : List CString) (i : ℕ) : Except Fault CString :=
  match argv[i]? with
  | some arg => .ok arg
  | none => .error .outOfBounds

inductive HasArg where
  | noArgument | requiredArgument | optionalArgument
deriving DecidableEq, Repr

/-- `struct option`, whose `flag` is not read. -/
structure LongOption where
  name : CString
  hasArg : HasArg
  val : Char
deriving DecidableEq

inductive Message where
  | longRequires (name : List Char)
  | unknown (arg : List Char)
  | illegal (c : Char)
  | shortRequires (c : Char)
deriving DecidableEq, Repr

/-- What goes to `stderr`. -/
def Message.text : Message → String
  | .longRequires name => "Option --" ++ String.ofList name ++ " requires an argument\n"
  | .unknown arg => "Unknown option: " ++ String.ofList arg ++ "\n"
  | .illegal c => "Illegal option: -" ++ String.ofList [c] ++ "\n"
  | .shortRequires c => "Option -" ++ String.ofList [c] ++ " requires an argument\n"

/-- The variables of the parser; `opterr` is 1 throughout. -/
structure State where
  optarg : Option (List Char) := none
  optind : ℕ := 1
  optopt : Char := nul
  sp : ℕ := 1
  messages : List Message := []
deriving DecidableEq

def State.print (s : State) (m : Message) : State := { s with messages := s.messages ++ [m] }

/-- How many characters of `name` are compared: up to the first `=`. -/
def compareLength (name : List Char) : ℕ := (name.idxOf? '=').getD name.length

/-- `strncmp(name, opt->name, cmp_len) == 0 && name_len == cmp_len` -/
def matchesName (name : List Char) (opt : LongOption) : Bool :=
  name.take (compareLength name) = opt.name.chars.take (compareLength name) ∧
    opt.name.chars.length = compareLength name

/-- The value of `--name=value`, or the next argument. -/
def longArgument (argv : List CString) (name : List Char) (opt : LongOption) (s : State) :
    Except Fault (Option Char × State) :=
  match name.idxOf? '=' with
  | some i => .ok (some opt.val, { s with optarg := some (name.drop (i + 1)) })
  | none =>
    if s.optind < argv.length then do
      let value ← argAt argv s.optind
      pure (some opt.val, { s with optarg := some value.chars, optind := s.optind + 1 })
    else .ok (some '?', s.print (.longRequires opt.name.chars))

/-- `getopt_long` on an argument with two dashes. -/
def longOption (argv : List CString) (longopts : List LongOption) (arg : CString) (s : State) :
    Except Fault (Option Char × State) :=
  match longopts.find? (matchesName (arg.chars.drop 2)) with
  | some opt =>
    if opt.hasArg = .requiredArgument then
      longArgument argv (arg.chars.drop 2) opt { s with optind := s.optind + 1 }
    else .ok (some opt.val, { s with optind := s.optind + 1 })
  | none => .ok (some '?', { s.print (.unknown arg.chars) with optind := s.optind + 1 })

/-- `if (argv[optind][++sp] == '\0') { optind++; sp = 1; }` -/
def advance (arg : CString) (s : State) : Except Fault State := do
  let next ← arg.get (s.sp + 1)
  pure (if next = nul then { s with optind := s.optind + 1, sp := 1 } else { s with sp := s.sp + 1 })

def shortArgument (argv : List CString) (arg : CString) (c : Char) (s : State) :
    Except Fault (Option Char × State) := do
  let next ← arg.get (s.sp + 1)
  if next ≠ nul then
    pure (some c, { s with optarg := some (arg.chars.drop (s.sp + 1)), optind := s.optind + 1, sp := 1 })
  else if argv.length ≤ s.optind + 1 then
    pure (some '?', { s.print (.shortRequires c) with optind := s.optind + 1, sp := 1 })
  else do
    let value ← argAt argv (s.optind + 1)
    pure (some c, { s with optarg := some value.chars, optind := s.optind + 2, sp := 1 })

def shortFlag (arg : CString) (c : Char) (s : State) : Except Fault (Option Char × State) := do
  let s' ← advance arg s
  pure (some c, { s' with optarg := none })

def illegalLetter (arg : CString) (c : Char) (s : State) : Except Fault (Option Char × State) := do
  let s' ← advance arg (if c ≠ ':' then s.print (.illegal c) else s)
  pure (some '?', s')

/-- What `optstring` says of a letter: the character behind it, if it is an option. -/
def markOf (optstring : CString) (c : Char) : Except Fault (Option Char) :=
  match if c = ':' then none else optstring.strchr c with
  | none => .ok none
  | some i => do
    let mark ← optstring.get (i + 1)
    pure (some mark)

/-- `getopt_long` on a letter behind one dash. -/
def shortOption (argv : List CString) (optstring : CString) (s : State) :
    Except Fault (Option Char × State) := do
  let arg ← argAt argv s.optind
  let c ← arg.get s.sp
  let mark ← markOf optstring c
  match mark with
  | none => illegalLetter arg c { s with optopt := c }
  | some mark =>
    if mark = ':' then shortArgument argv arg c { s with optopt := c }
    else shortFlag arg c { s with optopt := c }

/-- `getopt_long`; `none` is the -1 at the end of the options. -/
def getoptLong (argv : List CString) (optstring : CString) (longopts : List LongOption) (s : State) :
    Except Fault (Option Char × State) :=
  if s.sp = 1 then
    if argv.length ≤ s.optind then .ok (none, s)
    else do
      let arg ← argAt argv s.optind
      let c₀ ← arg.get 0
      if c₀ ≠ '-' then pure (none, s)
      else do
        let c₁ ← arg.get 1
        if c₁ = nul then pure (none, s)
        else if arg.chars = ['-', '-'] then pure (none, { s with optind := s.optind + 1 })
        else if c₁ = '-' then longOption argv longopts arg s
        else shortOption argv optstring s
  else shortOption argv optstring s

/-- `while ((opt = getopt_long(..)) != -1) { .. }`, with a body that may return. -/
def optionLoop {σ ε : Type} (argv : List CString) (optstring : CString) (longopts : List LongOption)
    (body : Char → Option (List Char) → σ → Except ε σ) : ℕ → State → σ → Except Fault (Except ε σ × State)
  | 0, _, _ => .error .outOfFuel
  | fuel + 1, s, a => do
    let (opt, s') ← getoptLong argv optstring longopts s
    match opt with
    | none => pure (.ok a, s')
    | some c =>
      match body c s'.optarg a with
      | .error e => pure (.error e, s')
      | .ok a' => optionLoop argv optstring longopts body fuel s' a'

/-- A letter of `optstring` without an argument. -/
def IsFlag (optstring : CString) (c : Char) : Prop := ∃ m, markOf optstring c = .ok (some m) ∧ m ≠ ':'

/-- A letter of `optstring` with an argument. -/
def TakesArgument (optstring : CString) (c : Char) : Prop := markOf optstring c = .ok (some ':')

/-- What a call may return: an option of the tables, with an argument if it takes one. -/
inductive Returned (optstring : CString) (longopts : List LongOption) : Char → Option (List Char) → Prop
  | unknown (optarg : Option (List Char)) : Returned optstring longopts '?' optarg
  | flag {c : Char} (h : IsFlag optstring c) : Returned optstring longopts c none
  | short {c : Char} (h : TakesArgument optstring c) (arg : List Char) : Returned optstring longopts c (some arg)
  | longFlag {opt : LongOption} (h : opt ∈ longopts) (hno : opt.hasArg ≠ .requiredArgument)
      (optarg : Option (List Char)) : Returned optstring longopts opt.val optarg
  | long {opt : LongOption} (h : opt ∈ longopts) (hreq : opt.hasArg = .requiredArgument) (arg : List Char) :
      Returned optstring longopts opt.val (some arg)

/-! ### Every read is inside -/

namespace CString
variable {s : CString} {i : ℕ}

theorem get_of_le (h : i ≤ s.chars.length) : s.get i = .ok ((s.chars.drop i).headD nul) := if_pos h

theorem headD_drop_eq_nul : (s.chars.drop i).headD nul = nul ↔ s.chars.length ≤ i := by
  rw [← List.drop_eq_nil_iff]
  cases hdrop : s.chars.drop i with
  | nil => simp
  | cons c rest =>
    have hc : c ∈ s.chars := List.mem_of_mem_drop (hdrop ▸ List.mem_cons_self)
    simp only [List.headD_cons, reduceCtorEq, iff_false]
    rintro rfl
    exact s.noNul hc

theorem lt_of_strchr {c : Char} (hc : c ≠ nul) (h : s.strchr c = some i) : i < s.chars.length := by
  rw [strchr, if_neg hc] at h
  obtain ⟨hlt, -, -⟩ := List.idxOf?_eq_some_iff.mp h
  exact hlt

end CString

theorem argAt_of_get {argv : List CString} {i : ℕ} {arg : CString} (h : argv[i]? = some arg) :
    argAt argv i = .ok arg := by
  rw [argAt, h]

/-- What the arguments from `i` on weigh. -/
def weight (argv : List CString) (i : ℕ) : ℕ := ((argv.drop i).map fun arg => arg.chars.length + 1).sum

/-- What is left to read from letter `sp` of argument `i` on. -/
def remaining (argv : List CString) (i sp : ℕ) : ℕ := weight argv i - (sp - 1)

/-- `argv[i][sp]` is a letter of the argument. -/
structure Inside (argv : List CString) (i sp : ℕ) (arg : CString) : Prop where
  get : argv[i]? = some arg
  pos : 1 ≤ sp
  lt : sp < arg.chars.length

/-- The parser stands between two arguments, or inside of one. -/
structure Ready (argv : List CString) (i sp : ℕ) : Prop where
  le : i ≤ argv.length
  inside : sp = 1 ∨ ∃ arg, Inside argv i sp arg

/-- From one place to another with less to read. -/
structure Moves (argv : List CString) (i sp i' sp' : ℕ) : Prop where
  ready : Ready argv i' sp'
  less : remaining argv i' sp' < remaining argv i sp

/-- A call has moved on, and returned `c`. -/
structure Answers (argv : List CString) (optstring : CString) (longopts : List LongOption) (s : State)
    (c : Char) (s' : State) : Prop where
  moves : Moves argv s.optind s.sp s'.optind s'.sp
  returned : Returned optstring longopts c s'.optarg

section Steps
variable {argv : List CString} {optstring : CString} {longopts : List LongOption} {arg : CString} {i sp : ℕ}
  {s : State}

theorem lt_of_get (h : argv[i]? = some arg) : i < argv.length := (List.getElem?_eq_some_iff.mp h).1

theorem weight_succ (h : argv[i]? = some arg) : weight argv i = arg.chars.length + 1 + weight argv (i + 1) := by
  obtain ⟨hlt, rfl⟩ := List.getElem?_eq_some_iff.mp h
  rw [weight, List.drop_eq_getElem_cons hlt, List.map_cons, List.sum_cons]
  rfl

theorem weight_antitone (argv : List CString) : Antitone (weight argv) := by
  apply antitone_nat_of_succ_le
  intro i
  cases h : argv[i]? with
  | none =>
    rw [List.getElem?_eq_none_iff] at h
    rw [weight, List.drop_eq_nil_of_le (h.trans i.le_succ)]
    exact Nat.zero_le _
  | some arg =>
    rw [weight_succ h]
    exact Nat.le_add_left _ _

theorem Moves.toArgument (hget : argv[i]? = some arg) (hsp : sp ≤ arg.chars.length + 1) {i' sp' : ℕ}
    (hlt : i < i') (hi : i' ≤ argv.length) (hsp' : sp' = 1) : Moves argv i sp i' sp' := by
  refine ⟨⟨hi, .inl hsp'⟩, ?_⟩
  have hweight := weight_succ hget
  have hle : weight argv i' ≤ weight argv (i + 1) := weight_antitone argv hlt
  rw [remaining, remaining, hsp']
  omega

theorem Inside.toNext (h : Inside argv i sp arg) : Moves argv i sp (i + 1) 1 :=
  Moves.toArgument h.get (h.lt.le.trans (Nat.le_succ _)) (Nat.lt_succ_self _) (lt_of_get h.get) rfl

theorem advance_moves (h : Inside argv s.optind s.sp arg) :
    ∃ s', advance arg s = .ok s' ∧ Moves argv s.optind s.sp s'.optind s'.sp := by
  unfold advance
  rw [CString.get_of_le h.lt]
  refine ⟨_, rfl, ?_⟩
  by_cases hend : (arg.chars.drop (s.sp + 1)).headD nul = nul
  · rw [if_pos hend]
    exact h.toNext
  · rw [if_neg hend]
    rw [CString.headD_drop_eq_nul, not_le] at hend
    refine ⟨⟨(lt_of_get h.get).le, .inr ⟨arg, h.get, Nat.le_add_left 1 s.sp, hend⟩⟩, ?_⟩
    have hweight := weight_succ h.get
    have hpos := h.pos
    simp only [remaining]
    omega

theorem shortArgument_answers (h : Inside argv s.optind s.sp arg) {c : Char} (hc : TakesArgument optstring c) :
    ∃ r s', shortArgument argv arg c s = .ok (some r, s') ∧ Answers argv optstring longopts s r s' := by
  unfold shortArgument
  rw [CString.get_of_le h.lt]
  by_cases hend : (arg.chars.drop (s.sp + 1)).headD nul ≠ nul
  · exact ⟨c, _, if_pos hend, h.toNext, .short hc _⟩
  by_cases hlast : argv.length ≤ s.optind + 1
  · exact ⟨'?', _, (if_neg hend).trans (if_pos hlast), h.toNext, .unknown _⟩
  · have hnext : s.optind + 1 < argv.length := not_le.mp hlast
    have hvalue := argAt_of_get (List.getElem?_eq_getElem hnext)
    refine ⟨c, { s with optarg := some argv[s.optind + 1].chars, optind := s.optind + 2, sp := 1 }, ?_, ?_,
      .short hc _⟩
    · refine (if_neg hend).trans ((if_neg hlast).trans ?_)
      rw [hvalue]
      rfl
    · exact Moves.toArgument h.get (h.lt.le.trans (Nat.le_succ _)) (Nat.lt_add_of_pos_right two_pos) hnext
        rfl

theorem shortFlag_answers (h : Inside argv s.optind s.sp arg) {c : Char} (hc : IsFlag optstring c) :
    ∃ r s', shortFlag arg c s = .ok (some r, s') ∧ Answers argv optstring longopts s r s' := by
  obtain ⟨s', hadvance, hmoves⟩ := advance_moves h
  exact ⟨c, { s' with optarg := none }, by rw [shortFlag, hadvance]; rfl, hmoves, .flag hc⟩

theorem illegalLetter_answers (h : Inside argv s.optind s.sp arg) (c : Char) :
    ∃ r s', illegalLetter arg c s = .ok (some r, s') ∧ Answers argv optstring longopts s r s' := by
  by_cases hcolon : c ≠ ':'
  · obtain ⟨s', hadvance, hmoves⟩ := advance_moves (s := s.print (.illegal c)) h
    exact ⟨'?', s', by rw [illegalLetter, if_pos hcolon, hadvance]; rfl, hmoves, .unknown _⟩
  · obtain ⟨s', hadvance, hmoves⟩ := advance_moves h
    exact ⟨'?', s', by rw [illegalLetter, if_neg hcolon, hadvance]; rfl, hmoves, .unknown _⟩

theorem markOf_ok (optstring : CString) {c : Char} (hc : c ≠ nul) : ∃ m, markOf optstring c = .ok m := by
  unfold markOf
  cases hfind : (if c = ':' then none else optstring.strchr c) with
  | none => exact ⟨none, rfl⟩
  | some j =>
    have hstrchr : optstring.strchr c = some j := by
      split_ifs at hfind
      exact hfind
    have hle : j + 1 ≤ optstring.chars.length := CString.lt_of_strchr hc hstrchr
    exact ⟨some _, by simp only [CString.get_of_le hle]; rfl⟩

theorem Inside.get_ne_nul (h : Inside argv i sp arg) : ∃ c, arg.get sp = .ok c ∧ c ≠ nul := by
  refine ⟨_, CString.get_of_le h.lt.le, ?_⟩
  rw [Ne, CString.headD_drop_eq_nul, not_le]
  exact h.lt

theorem shortOption_answers (h : Inside argv s.optind s.sp arg) :
    ∃ r s', shortOption argv optstring s = .ok (some r, s') ∧ Answers argv optstring longopts s r s' := by
  obtain ⟨c, hc, hnul⟩ := h.get_ne_nul
  obtain ⟨m, hm⟩ := markOf_ok optstring hnul
  have hanswers : ∀ {r s'}, Answers argv optstring longopts { s with optopt := c } r s' →
      Answers argv optstring longopts s r s' := fun h' => ⟨h'.moves, h'.returned⟩
  simp only [shortOption, argAt_of_get h.get, hc, hm, bind, Except.bind]
  cases m with
  | none =>
    obtain ⟨r, s', hrun, h'⟩ := illegalLetter_answers (s := { s with optopt := c }) h c
    exact ⟨r, s', hrun, hanswers h'⟩
  | some mark =>
    by_cases hmark : mark = ':'
    · simp only [hmark, if_true]
      obtain ⟨r, s', hrun, h'⟩ := shortArgument_answers (s := { s with optopt := c }) h (hmark ▸ hm)
      exact ⟨r, s', hrun, hanswers h'⟩
    · simp only [hmark, if_false]
      obtain ⟨r, s', hrun, h'⟩ := shortFlag_answers (s := { s with optopt := c }) h ⟨mark, hm, hmark⟩
      exact ⟨r, s', hrun, hanswers h'⟩

theorem longOption_answers (hget : argv[s.optind]? = some arg) (hsp : s.sp = 1) :
    ∃ r s', longOption argv longopts arg s = .ok (some r, s') ∧ Answers argv optstring longopts s r s' := by
  have hlt := lt_of_get hget
  have hone : s.sp ≤ arg.chars.length + 1 := by omega
  have hnext : Moves argv s.optind s.sp (s.optind + 1) s.sp :=
    Moves.toArgument hget hone (Nat.lt_succ_self _) hlt hsp
  unfold longOption
  cases hfind : longopts.find? (matchesName (arg.chars.drop 2)) with
  | none => exact ⟨'?', _, rfl, hnext, .unknown _⟩
  | some opt =>
    have hmem := List.mem_of_find?_eq_some hfind
    by_cases hreq : opt.hasArg = .requiredArgument
    · simp only [hreq, if_true, longArgument]
      cases heq : (arg.chars.drop 2).idxOf? '=' with
      | some j => exact ⟨opt.val, _, rfl, hnext, .long hmem hreq _⟩
      | none =>
        by_cases hvalue : s.optind + 1 < argv.length
        · simp only [hvalue, if_true, argAt_of_get (List.getElem?_eq_getElem hvalue)]
          refine ⟨opt.val, _, rfl, ?_, .long hmem hreq _⟩
          exact Moves.toArgument hget hone (Nat.lt_add_of_pos_right two_pos) hvalue hsp
        · simp only [hvalue, if_false]
          exact ⟨'?', _, rfl, hnext, .unknown _⟩
    · simp only [hreq, if_false]
      exact ⟨opt.val, _, rfl, hnext, .longFlag hmem hreq _⟩

/-- One call, wherever the parser is. -/
theorem getoptLong_answers (optstring : CString) (longopts : List LongOption) (h : Ready argv s.optind s.sp) :
    ∃ r s', getoptLong argv optstring longopts s = .ok (r, s') ∧ Ready argv s'.optind s'.sp ∧
      ∀ c, r = some c → Answers argv optstring longopts s c s' := by
  have hsome : ∀ {c s'}, Answers argv optstring longopts s c s' → Ready argv s'.optind s'.sp ∧
      ∀ d, some c = some d → Answers argv optstring longopts s d s' := by
    intro c s' h'
    exact ⟨h'.moves.ready, by rintro d ⟨⟩; exact h'⟩
  have hshort : ∀ arg, Inside argv s.optind s.sp arg → ∃ r s', shortOption argv optstring s = .ok (r, s') ∧
      Ready argv s'.optind s'.sp ∧ ∀ c, r = some c → Answers argv optstring longopts s c s' := by
    intro arg hinside
    obtain ⟨r, s', hrun, hanswers⟩ := shortOption_answers hinside
    exact ⟨some r, s', hrun, hsome hanswers⟩
  unfold getoptLong
  by_cases hsp : s.sp = 1
  · rw [if_pos hsp]
    by_cases hend : argv.length ≤ s.optind
    · rw [if_pos hend]
      exact ⟨none, s, rfl, h, nofun⟩
    rw [if_neg hend]
    have hget := List.getElem?_eq_getElem (not_le.mp hend)
    generalize argv[s.optind] = arg at hget
    have hzero := CString.get_of_le (s := arg) (Nat.zero_le _)
    simp only [argAt_of_get hget, hzero, bind, Except.bind]
    by_cases hdash : (arg.chars.drop 0).headD nul ≠ '-'
    · rw [if_pos hdash]
      exact ⟨none, s, rfl, h, nofun⟩
    rw [if_neg hdash]
    have hlen : 1 ≤ arg.chars.length := by
      have hne : arg.chars.drop 0 ≠ [] := by
        rintro hnil
        rw [hnil] at hdash
        exact hdash (by decide)
      rw [List.drop_zero] at hne
      exact List.length_pos_iff.mpr hne
    simp only [CString.get_of_le hlen]
    by_cases hnul : (arg.chars.drop 1).headD nul = nul
    · rw [if_pos hnul]
      exact ⟨none, s, rfl, h, nofun⟩
    rw [if_neg hnul]
    by_cases hdashes : arg.chars = ['-', '-']
    · rw [if_pos hdashes]
      exact ⟨none, _, rfl, ⟨lt_of_get hget, .inl hsp⟩, nofun⟩
    rw [if_neg hdashes]
    by_cases hlong : (arg.chars.drop 1).headD nul = '-'
    · rw [if_pos hlong]
      obtain ⟨r, s', hrun, hanswers⟩ := longOption_answers hget hsp
      exact ⟨some r, s', hrun, hsome hanswers⟩
    · rw [if_neg hlong]
      rw [CString.headD_drop_eq_nul, not_le] at hnul
      exact hshort arg ⟨hget, hsp.ge, hsp ▸ hnul⟩
  · rw [if_neg hsp]
    obtain ⟨arg, hinside⟩ := h.inside.resolve_left hsp
    exact hshort arg hinside

end Steps

section Loop
variable {σ ε : Type} {argv : List CString} {optstring : CString} {longopts : List LongOption}
  {body : Char → Option (List Char) → σ → Except ε σ} {s s' : State} {c : Char} {a : σ}

theorem optionLoop_end (fuel : ℕ) (h : getoptLong argv optstring longopts s = .ok (none, s')) :
    optionLoop argv optstring longopts body (fuel + 1) s a = .ok (.ok a, s') := by
  simp only [optionLoop, h, bind, Except.bind]
  rfl

theorem optionLoop_error (fuel : ℕ) (h : getoptLong argv optstring longopts s = .ok (some c, s')) {e : ε}
    (hbody : body c s'.optarg a = .error e) :
    optionLoop argv optstring longopts body (fuel + 1) s a = .ok (.error e, s') := by
  simp only [optionLoop, h, hbody, bind, Except.bind]
  rfl

theorem optionLoop_next (fuel : ℕ) (h : getoptLong argv optstring longopts s = .ok (some c, s')) {a' : σ}
    (hbody : body c s'.optarg a = .ok a') :
    optionLoop argv optstring longopts body (fuel + 1) s a =
      optionLoop argv optstring longopts body fuel s' a' := by
  simp only [optionLoop, h, hbody, bind, Except.bind]

/-- The loop ends and reads inside of its strings, and what its body keeps for the options that it
may get holds at the end. -/
theorem optionLoop_ends {P : σ → Prop} {Q : ε → Prop} (fuel : ℕ) (h : Ready argv s.optind s.sp)
    (hfuel : remaining argv s.optind s.sp < fuel) (ha : P a)
    (hbody : ∀ c optarg a, Returned optstring longopts c optarg → P a →
      (∀ a', body c optarg a = .ok a' → P a') ∧ ∀ e, body c optarg a = .error e → Q e) :
    ∃ res s', optionLoop argv optstring longopts body fuel s a = .ok (res, s') ∧ s'.optind ≤ argv.length ∧
      (∀ a', res = .ok a' → P a') ∧ ∀ e, res = .error e → Q e := by
  induction fuel generalizing s a with
  | zero => exact absurd hfuel (Nat.not_lt_zero _)
  | succ fuel ih =>
    obtain ⟨opt, s', hcall, hready, hanswers⟩ := getoptLong_answers optstring longopts h
    cases opt with
    | none =>
      refine ⟨_, s', optionLoop_end fuel hcall, hready.le, ?_, nofun⟩
      rintro a' ⟨⟩
      exact ha
    | some c =>
      obtain ⟨hmoves, hreturned⟩ := hanswers c rfl
      obtain ⟨hok, herror⟩ := hbody c s'.optarg a hreturned ha
      cases hrun : body c s'.optarg a with
      | error e =>
        refine ⟨_, s', optionLoop_error fuel hcall hrun, hready.le, nofun, ?_⟩
        rintro e' ⟨⟩
        exact herror e hrun
      | ok a' =>
        rw [optionLoop_next fuel hcall hrun]
        have hless := hmoves.less
        exact ih hready (by omega) (hok a' hrun)

end Loop

end Fsdiff.Cli
