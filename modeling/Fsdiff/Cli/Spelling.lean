import Fsdiff.Cli.Getopt
import Mathlib.Data.List.Forall2

/-! All the ways to spell a list of options on a command line. -/
namespace Fsdiff.Cli

/-- One or two arguments of a command line; the letters `cs` take no arguments. -/
inductive Item where
  | flags (cs : List Char) (c : Char)
  | attached (cs : List Char) (c : Char) (value : List Char)
  | detached (cs : List Char) (c : Char) (value : List Char)
  | long (opt : LongOption)
  | longAttached (opt : LongOption) (value : List Char)
  | longDetached (opt : LongOption) (value : List Char)

/-- `-vx`, `-vb5`, `-vb 5`, `--name`, `--name=value`, `--name value` -/
def Item.words : Item → List (List Char)
  | .flags cs c => ['-' :: (cs ++ [c])]
  | .attached cs c value => ['-' :: (cs ++ c :: value)]
  | .detached cs c value => ['-' :: (cs ++ [c]), value]
  | .long opt => ['-' :: '-' :: opt.name.chars]
  | .longAttached opt value => ['-' :: '-' :: (opt.name.chars ++ '=' :: value)]
  | .longDetached opt value => ['-' :: '-' :: opt.name.chars, value]

/-- The options that an item gives, with their arguments. -/
def Item.options : Item → List (Char × Option (List Char))
  | .flags cs c => (cs ++ [c]).map (·, none)
  | .attached cs c value => cs.map (·, none) ++ [(c, some value)]
  | .detached cs c value => cs.map (·, none) ++ [(c, some value)]
  | .long opt => [(opt.val, none)]
  | .longAttached opt value => [(opt.val, some value)]
  | .longDetached opt value => [(opt.val, some value)]

/-- `opt` is the first option of its name. -/
def IsLong (longopts : List LongOption) (opt : LongOption) : Prop :=
  longopts.find? (fun o => o.name.chars = opt.name.chars) = some opt ∧ '=' ∉ opt.name.chars

/-- The options are those of the tables, and each has an argument where it takes one. -/
def Item.Valid (optstring : CString) (longopts : List LongOption) : Item → Prop
  | .flags cs c => (∀ x ∈ cs, IsFlag optstring x) ∧ IsFlag optstring c ∧ (cs ++ [c]).head? ≠ some '-'
  | .attached cs c value =>
    (∀ x ∈ cs, IsFlag optstring x) ∧ TakesArgument optstring c ∧ (cs ++ [c]).head? ≠ some '-' ∧ value ≠ []
  | .detached cs c _ =>
    (∀ x ∈ cs, IsFlag optstring x) ∧ TakesArgument optstring c ∧ (cs ++ [c]).head? ≠ some '-'
  | .long opt => IsLong longopts opt ∧ opt.hasArg ≠ .requiredArgument ∧ opt.name.chars ≠ []
  | .longAttached opt _ => IsLong longopts opt ∧ opt.hasArg = .requiredArgument
  | .longDetached opt _ => IsLong longopts opt ∧ opt.hasArg = .requiredArgument ∧ opt.name.chars ≠ []

/-- Several calls in a row, with what each returns. -/
inductive Calls (argv : List CString) (optstring : CString) (longopts : List LongOption) :
    State → List (Char × Option (List Char)) → State → Prop
  | nil (s : State) : Calls argv optstring longopts s [] s
  | cons {s s₁ s' : State} {c : Char} {got : List (Char × Option (List Char))}
      (call : getoptLong argv optstring longopts s = .ok (some c, s₁))
      (rest : Calls argv optstring longopts s₁ got s') :
      Calls argv optstring longopts s ((c, s₁.optarg) :: got) s'

/-- A call gives the option wanted, with its argument if it has one; `optarg` is stale otherwise. -/
def Gives (got want : Char × Option (List Char)) : Prop :=
  got.1 = want.1 ∧ ∀ value, want.2 = some value → got.2 = some value

section Steps
variable {argv : List CString} {optstring : CString} {longopts : List LongOption} {s : State} {arg : CString}

theorem Calls.append {s₁ s₂ : State} {got got' : List (Char × Option (List Char))}
    (h : Calls argv optstring longopts s got s₁) (h' : Calls argv optstring longopts s₁ got' s₂) :
    Calls argv optstring longopts s (got ++ got') s₂ := by
  induction h with
  | nil => exact h'
  | cons call _ ih => exact .cons call (ih h')

theorem Calls.one {s₁ : State} {c : Char} (h : getoptLong argv optstring longopts s = .ok (some c, s₁)) :
    Calls argv optstring longopts s [(c, s₁.optarg)] s₁ := .cons h (.nil s₁)

theorem get_of_append (pre : List Char) {post : List Char} {c : Char} (h : arg.chars = pre ++ c :: post) {i : ℕ}
    (hi : i = pre.length) : arg.get i = .ok c := by
  rw [CString.get_of_le (by rw [h, hi]; simp), h, hi, List.drop_left]
  rfl

theorem get_behind (pre : List Char) {post : List Char} {c : Char} (h : arg.chars = pre ++ c :: post) {i : ℕ}
    (hi : i = pre.length + 1) : arg.get i = .ok (post.headD nul) := by
  have hsplit : pre ++ c :: post = (pre ++ [c]) ++ post := by simp
  rw [CString.get_of_le (by rw [h, hi]; simp), h, hi, hsplit, List.drop_left' (by simp)]

theorem headD_eq_nul_iff (pre : List Char) {post : List Char} (h : arg.chars = pre ++ post) :
    post.headD nul = nul ↔ post = [] := by
  have hdrop : arg.chars.drop pre.length = post := by rw [h, List.drop_left]
  rw [← hdrop, CString.headD_drop_eq_nul, List.drop_eq_nil_iff]

theorem getoptLong_short {pre post : List Char} {c : Char} (hget : argv[s.optind]? = some arg)
    (hchars : arg.chars = '-' :: pre ++ c :: post) (hsp : s.sp = pre.length + 1)
    (hfirst : (pre ++ [c]).head? ≠ some '-') :
    getoptLong argv optstring longopts s = shortOption argv optstring s := by
  unfold getoptLong
  by_cases hone : s.sp = 1
  · have hpre : pre = [] := List.length_eq_zero_iff.mp (by omega)
    subst hpre
    have hc : c ≠ '-' := by simpa using hfirst
    have hnul : c ≠ nul := by
      rintro rfl
      exact arg.noNul (by rw [hchars]; simp)
    have hzero : arg.get 0 = .ok '-' := get_of_append [] (by simpa using hchars) rfl
    have hfst : arg.get 1 = .ok c := get_of_append _ hchars rfl
    have hdashes : arg.chars ≠ ['-', '-'] := by
      rw [hchars]
      simp [hc]
    rw [if_pos hone, if_neg (not_le.mpr (lt_of_get hget))]
    simp [argAt_of_get hget, hzero, hfst, hnul, hdashes, hc, bind, Except.bind]
  · rw [if_neg hone]

theorem shortOption_marked {pre post : List Char} {c m : Char} (hget : argv[s.optind]? = some arg)
    (hchars : arg.chars = '-' :: pre ++ c :: post) (hsp : s.sp = pre.length + 1)
    (hmark : markOf optstring c = .ok (some m)) :
    shortOption argv optstring s =
      if m = ':' then shortArgument argv arg c { s with optopt := c }
      else shortFlag arg c { s with optopt := c } := by
  have hc : arg.get s.sp = .ok c := get_of_append _ hchars (by simpa using hsp)
  simp only [shortOption, argAt_of_get hget, hc, hmark, bind, Except.bind]

theorem getoptLong_flag {pre post : List Char} {c : Char} (hget : argv[s.optind]? = some arg)
    (hchars : arg.chars = '-' :: pre ++ c :: post) (hsp : s.sp = pre.length + 1)
    (hfirst : (pre ++ [c]).head? ≠ some '-') (hflag : IsFlag optstring c) :
    getoptLong argv optstring longopts s = .ok (some c, { s with
      optarg := none
      optopt := c
      optind := if post = [] then s.optind + 1 else s.optind
      sp := if post = [] then 1 else s.sp + 1 }) := by
  obtain ⟨m, hm, hne⟩ := hflag
  have hnext : arg.get (s.sp + 1) = .ok (post.headD nul) := get_behind _ hchars (by simp [hsp])
  have hend : post.headD nul = nul ↔ post = [] :=
    headD_eq_nul_iff ('-' :: pre ++ [c]) (by simpa using hchars)
  rw [getoptLong_short hget hchars hsp hfirst, shortOption_marked hget hchars hsp hm, if_neg hne]
  simp only [shortFlag, advance, hnext, bind, Except.bind, hend]
  split_ifs <;> rfl

theorem calls_flags {pre cs post : List Char} (hget : argv[s.optind]? = some arg)
    (hchars : arg.chars = '-' :: pre ++ cs ++ post) (hpost : post ≠ []) (hsp : s.sp = pre.length + 1)
    (hfirst : (pre ++ cs ++ post).head? ≠ some '-') (hflags : ∀ x ∈ cs, IsFlag optstring x) :
    ∃ s', Calls argv optstring longopts s (cs.map (·, none)) s' ∧ s'.optind = s.optind ∧
      s'.sp = (pre ++ cs).length + 1 ∧ s'.messages = s.messages := by
  induction cs generalizing pre s with
  | nil => exact ⟨s, .nil s, rfl, by simpa using hsp, rfl⟩
  | cons c cs ih =>
    have hletter : arg.chars = '-' :: pre ++ c :: (cs ++ post) := by simpa using hchars
    have hmore : cs ++ post ≠ [] := by simp [hpost]
    have hcall : getoptLong argv optstring longopts s = .ok (some c, _) :=
      getoptLong_flag hget hletter hsp (by cases pre <;> simpa using hfirst) (hflags c List.mem_cons_self)
    rw [if_neg hmore, if_neg hmore] at hcall
    have hchars' : arg.chars = '-' :: (pre ++ [c]) ++ cs ++ post := by simpa using hchars
    obtain ⟨s', hcalls, hind, hsp', hmsg⟩ := ih (s := { s with optarg := none, optopt := c, sp := s.sp + 1 })
      hget hchars' (by simp [hsp]) (by simpa using hfirst) fun x hx => hflags x (List.mem_cons_of_mem _ hx)
    exact ⟨s', .cons hcall hcalls, hind, by simpa using hsp', hmsg⟩

theorem getoptLong_attached {pre value : List Char} {c : Char} (hget : argv[s.optind]? = some arg)
    (hchars : arg.chars = '-' :: pre ++ c :: value) (hsp : s.sp = pre.length + 1)
    (hfirst : (pre ++ [c]).head? ≠ some '-') (htakes : TakesArgument optstring c) (hvalue : value ≠ []) :
    getoptLong argv optstring longopts s = .ok (some c, { s with
      optarg := some value, optopt := c, optind := s.optind + 1, sp := 1 }) := by
  have hnext : arg.get (s.sp + 1) = .ok (value.headD nul) := get_behind _ hchars (by simp [hsp])
  have hend : value.headD nul ≠ nul := by
    rwa [Ne, headD_eq_nul_iff ('-' :: pre ++ [c]) (by simpa using hchars)]
  have hdrop : arg.chars.drop (s.sp + 1) = value := by
    rw [hchars, hsp]
    have hsplit : '-' :: pre ++ c :: value = ('-' :: pre ++ [c]) ++ value := by simp
    rw [hsplit, List.drop_left' (by simp)]
  rw [getoptLong_short hget hchars hsp hfirst, shortOption_marked hget hchars hsp htakes, if_pos rfl]
  simp only [shortArgument, hnext, hdrop, bind, Except.bind]
  exact if_pos hend

theorem getoptLong_detached {pre : List Char} {c : Char} {value : CString} (hget : argv[s.optind]? = some arg)
    (hchars : arg.chars = '-' :: pre ++ [c]) (hsp : s.sp = pre.length + 1)
    (hfirst : (pre ++ [c]).head? ≠ some '-') (htakes : TakesArgument optstring c)
    (hvalue : argv[s.optind + 1]? = some value) :
    getoptLong argv optstring longopts s = .ok (some c, { s with
      optarg := some value.chars, optopt := c, optind := s.optind + 2, sp := 1 }) := by
  have hnext : arg.get (s.sp + 1) = .ok nul := get_behind _ hchars (by simp [hsp])
  rw [getoptLong_short hget hchars hsp hfirst, shortOption_marked hget hchars hsp htakes, if_pos rfl]
  simp only [shortArgument, hnext, bind, Except.bind]
  rw [if_neg (not_not.mpr rfl), if_neg (not_le.mpr (lt_of_get hvalue)), argAt_of_get hvalue]
  rfl

/-! ### Long options -/

theorem getoptLong_long {name : List Char} (hget : argv[s.optind]? = some arg)
    (hchars : arg.chars = '-' :: '-' :: name) (hname : name ≠ []) (hsp : s.sp = 1) :
    getoptLong argv optstring longopts s = longOption argv longopts arg s := by
  have hzero : arg.get 0 = .ok '-' := get_of_append [] hchars rfl
  have hfst : arg.get 1 = .ok '-' := get_of_append ['-'] hchars rfl
  have hdashes : arg.chars ≠ ['-', '-'] := by
    rw [hchars]
    simpa using hname
  have hnul : '-' ≠ nul := by decide
  unfold getoptLong
  rw [if_pos hsp, if_neg (not_le.mpr (lt_of_get hget))]
  simp [argAt_of_get hget, hzero, hfst, hnul, hdashes, bind, Except.bind]

theorem idxOf?_eq_sign {name : List Char} (hname : '=' ∉ name) (value : List Char) :
    (name ++ '=' :: value).idxOf? '=' = some name.length := by
  rw [List.idxOf?_eq_some_iff]
  refine ⟨by simp, by simp, fun j hj heq => hname ?_⟩
  rw [List.getElem_append_left hj] at heq
  exact heq ▸ List.getElem_mem hj

theorem compareLength_append {name : List Char} (hname : '=' ∉ name) {rest : List Char}
    (hrest : rest = [] ∨ ∃ value, rest = '=' :: value) : compareLength (name ++ rest) = name.length := by
  unfold compareLength
  rcases hrest with rfl | ⟨value, rfl⟩
  · rw [List.append_nil, List.idxOf?_eq_none_iff.mpr hname]
    rfl
  · rw [idxOf?_eq_sign hname]
    rfl

theorem matchesName_append {name : List Char} (hname : '=' ∉ name) {rest : List Char}
    (hrest : rest = [] ∨ ∃ value, rest = '=' :: value) (opt : LongOption) :
    matchesName (name ++ rest) opt = decide (opt.name.chars = name) := by
  rw [matchesName, compareLength_append hname hrest, List.take_left, decide_eq_decide]
  constructor
  · rintro ⟨htake, hlen⟩
    rw [htake, ← hlen, List.take_length]
  · rintro rfl
    exact ⟨(List.take_length).symm, rfl⟩

theorem find?_long {opt : LongOption} (hopt : IsLong longopts opt) {rest : List Char}
    (hrest : rest = [] ∨ ∃ value, rest = '=' :: value) :
    longopts.find? (matchesName (opt.name.chars ++ rest)) = some opt := by
  rw [← hopt.1]
  congr 1
  funext o
  exact matchesName_append hopt.2 hrest o

theorem getoptLong_longFlag {opt : LongOption} (hget : argv[s.optind]? = some arg)
    (hchars : arg.chars = '-' :: '-' :: opt.name.chars) (hname : opt.name.chars ≠ []) (hsp : s.sp = 1)
    (hopt : IsLong longopts opt) (hno : opt.hasArg ≠ .requiredArgument) :
    getoptLong argv optstring longopts s = .ok (some opt.val, { s with optind := s.optind + 1 }) := by
  have hfind := find?_long hopt (.inl rfl)
  rw [List.append_nil] at hfind
  rw [getoptLong_long hget hchars hname hsp, longOption, hchars]
  simp only [List.drop_succ_cons, List.drop_zero, hfind, hno, if_false]

theorem getoptLong_longAttached {opt : LongOption} {value : List Char} (hget : argv[s.optind]? = some arg)
    (hchars : arg.chars = '-' :: '-' :: (opt.name.chars ++ '=' :: value)) (hsp : s.sp = 1)
    (hopt : IsLong longopts opt) (hreq : opt.hasArg = .requiredArgument) :
    getoptLong argv optstring longopts s =
      .ok (some opt.val, { s with optarg := some value, optind := s.optind + 1 }) := by
  have hfind := find?_long hopt (.inr ⟨value, rfl⟩)
  have hdrop : (opt.name.chars ++ '=' :: value).drop (opt.name.chars.length + 1) = value := by
    have hsplit : opt.name.chars ++ '=' :: value = (opt.name.chars ++ ['=']) ++ value := by simp
    rw [hsplit, List.drop_left' (by simp)]
  rw [getoptLong_long hget hchars (by simp) hsp, longOption, hchars]
  simp only [List.drop_succ_cons, List.drop_zero, hfind, hreq, if_true, longArgument,
    idxOf?_eq_sign hopt.2, hdrop]

theorem getoptLong_longDetached {opt : LongOption} {value : CString} (hget : argv[s.optind]? = some arg)
    (hchars : arg.chars = '-' :: '-' :: opt.name.chars) (hname : opt.name.chars ≠ []) (hsp : s.sp = 1)
    (hopt : IsLong longopts opt) (hreq : opt.hasArg = .requiredArgument)
    (hvalue : argv[s.optind + 1]? = some value) :
    getoptLong argv optstring longopts s =
      .ok (some opt.val, { s with optarg := some value.chars, optind := s.optind + 2 }) := by
  have hfind := find?_long hopt (.inl rfl)
  rw [List.append_nil] at hfind
  rw [getoptLong_long hget hchars hname hsp, longOption, hchars]
  simp only [List.drop_succ_cons, List.drop_zero, hfind, hreq, if_true, longArgument,
    List.idxOf?_eq_none_iff.mpr hopt.2, lt_of_get hvalue, argAt_of_get hvalue]
  rfl

/-! ### Whole command lines -/

/-- The arguments from `i` on. -/
def wordsFrom (argv : List CString) (i : ℕ) : List (List Char) := (argv.drop i).map CString.chars

theorem get_of_wordsFrom {i : ℕ} {word : List Char} {rest : List (List Char)}
    (h : wordsFrom argv i = word :: rest) :
    ∃ arg, argv[i]? = some arg ∧ arg.chars = word ∧ wordsFrom argv (i + 1) = rest := by
  obtain ⟨arg, tail, hdrop, rfl, rfl⟩ := List.map_eq_cons_iff.mp h
  refine ⟨arg, ?_, rfl, ?_⟩
  · rw [← List.head?_drop, hdrop]
    rfl
  · rw [wordsFrom, ← List.tail_drop, hdrop]
    rfl

theorem forall₂_flags (cs : List Char) :
    List.Forall₂ Gives (cs.map (·, (none : Option (List Char)))) (cs.map (·, none)) := by
  induction cs with
  | nil => exact .nil
  | cons c cs ih => exact .cons ⟨rfl, nofun⟩ ih

theorem gives_argument (c : Char) (value : List Char) :
    List.Forall₂ Gives [(c, some value)] [(c, some value)] := .cons ⟨rfl, fun _ h => h⟩ .nil

/-- `getopt_long` has read an item. -/
structure Reads (argv : List CString) (optstring : CString) (longopts : List LongOption) (s : State)
    (want : List (Char × Option (List Char))) (i : ℕ) (s' : State) : Prop where
  calls : ∃ got, Calls argv optstring longopts s got s' ∧ List.Forall₂ Gives got want
  optind : s'.optind = i
  sp : s'.sp = 1
  messages : s'.messages = s.messages

theorem reads_letters {cs : List Char} {c : Char} {post : List Char} {want : Option (List Char)} {i : ℕ}
    (hget : argv[s.optind]? = some arg) (hchars : arg.chars = '-' :: (cs ++ c :: post)) (hsp : s.sp = 1)
    (hfirst : (cs ++ [c]).head? ≠ some '-') (hflags : ∀ x ∈ cs, IsFlag optstring x)
    (hlast : ∀ s₁ : State, s₁.optind = s.optind → s₁.sp = cs.length + 1 → ∃ s',
      getoptLong argv optstring longopts s₁ = .ok (some c, s') ∧ (∀ v, want = some v → s'.optarg = some v) ∧
        s'.optind = i ∧ s'.sp = 1 ∧ s'.messages = s₁.messages) :
    ∃ s', Reads argv optstring longopts s (cs.map (·, none) ++ [(c, want)]) i s' := by
  have hchars' : arg.chars = '-' :: [] ++ cs ++ c :: post := by simpa using hchars
  obtain ⟨s₁, hcalls, hind, hsp₁, hmsg⟩ : ∃ s₁, Calls argv optstring longopts s (cs.map (·, none)) s₁ ∧ _ :=
    calls_flags hget hchars' (by simp) hsp (by cases cs <;> simpa using hfirst) hflags
  obtain ⟨s', hcall, hwant, hind', hsp', hmsg'⟩ := hlast s₁ hind (by simpa using hsp₁)
  refine ⟨s', ⟨_, hcalls.append (.one hcall), ?_⟩, hind', hsp', hmsg'.trans hmsg⟩
  exact List.rel_append (forall₂_flags cs) (.cons ⟨rfl, hwant⟩ .nil)

theorem reads_item {item : Item} (hvalid : item.Valid optstring longopts) {rest : List (List Char)}
    (hwords : wordsFrom argv s.optind = item.words ++ rest) (hsp : s.sp = 1) :
    ∃ s', Reads argv optstring longopts s item.options (s.optind + item.words.length) s' := by
  cases item with
  | flags cs c =>
    obtain ⟨arg, hget, hchars, -⟩ := get_of_wordsFrom hwords
    obtain ⟨hflags, hflag, hfirst⟩ := hvalid
    simp only [Item.options, List.map_append, List.map_cons, List.map_nil]
    refine reads_letters hget hchars hsp hfirst hflags fun s₁ hind hsp₁ => ?_
    have hcall : getoptLong argv optstring longopts s₁ = .ok (some c, _) :=
      getoptLong_flag (hind ▸ hget) hchars hsp₁ hfirst hflag
    exact ⟨_, hcall, nofun, by simp [hind, Item.words], by simp, rfl⟩
  | attached cs c value =>
    obtain ⟨arg, hget, hchars, -⟩ := get_of_wordsFrom hwords
    obtain ⟨hflags, htakes, hfirst, hvalue⟩ := hvalid
    refine reads_letters hget hchars hsp hfirst hflags fun s₁ hind hsp₁ => ?_
    have hcall : getoptLong argv optstring longopts s₁ = .ok (some c, _) :=
      getoptLong_attached (hind ▸ hget) hchars hsp₁ hfirst htakes hvalue
    exact ⟨_, hcall, fun _ h => h, by simp [hind, Item.words], rfl, rfl⟩
  | detached cs c value =>
    obtain ⟨arg, hget, hchars, hrest⟩ := get_of_wordsFrom hwords
    obtain ⟨next, hnext, rfl, -⟩ := get_of_wordsFrom hrest
    obtain ⟨hflags, htakes, hfirst⟩ := hvalid
    refine reads_letters hget hchars hsp hfirst hflags fun s₁ hind hsp₁ => ?_
    have hcall : getoptLong argv optstring longopts s₁ = .ok (some c, _) :=
      getoptLong_detached (hind ▸ hget) hchars hsp₁ hfirst htakes (hind ▸ hnext)
    exact ⟨_, hcall, fun _ h => h, by simp [hind, Item.words], rfl, rfl⟩
  | long opt =>
    obtain ⟨arg, hget, hchars, -⟩ := get_of_wordsFrom hwords
    obtain ⟨hopt, hno, hname⟩ := hvalid
    have hcall : getoptLong argv optstring longopts s = .ok (some opt.val, _) :=
      getoptLong_longFlag hget hchars hname hsp hopt hno
    exact ⟨_, ⟨_, .one hcall, .cons ⟨rfl, nofun⟩ .nil⟩, rfl, hsp, rfl⟩
  | longAttached opt value =>
    obtain ⟨arg, hget, hchars, -⟩ := get_of_wordsFrom hwords
    have hcall : getoptLong argv optstring longopts s = .ok (some opt.val, _) :=
      getoptLong_longAttached hget hchars hsp hvalid.1 hvalid.2
    exact ⟨_, ⟨_, .one hcall, gives_argument _ _⟩, rfl, hsp, rfl⟩
  | longDetached opt value =>
    obtain ⟨arg, hget, hchars, hrest⟩ := get_of_wordsFrom hwords
    obtain ⟨next, hnext, rfl, -⟩ := get_of_wordsFrom hrest
    obtain ⟨hopt, hreq, hname⟩ := hvalid
    have hcall : getoptLong argv optstring longopts s = .ok (some opt.val, _) :=
      getoptLong_longDetached hget hchars hname hsp hopt hreq hnext
    exact ⟨_, ⟨_, .one hcall, gives_argument _ _⟩, rfl, hsp, rfl⟩

theorem reads_items {items : List Item} (hvalid : ∀ item ∈ items, item.Valid optstring longopts)
    {rest : List (List Char)} (hwords : wordsFrom argv s.optind = items.flatMap Item.words ++ rest)
    (hsp : s.sp = 1) :
    ∃ s', Reads argv optstring longopts s (items.flatMap Item.options)
      (s.optind + (items.flatMap Item.words).length) s' := by
  induction items generalizing s with
  | nil => exact ⟨s, ⟨[], .nil s, .nil⟩, rfl, hsp, rfl⟩
  | cons item items ih =>
    rw [List.flatMap_cons, List.append_assoc] at hwords
    obtain ⟨s₁, ⟨got₁, hcalls₁, hgives₁⟩, hind₁, hsp₁, hmsg₁⟩ :=
      reads_item (hvalid item List.mem_cons_self) hwords hsp
    have hwords₁ : wordsFrom argv s₁.optind = items.flatMap Item.words ++ rest := by
      rw [hind₁, wordsFrom, ← List.drop_drop, List.map_drop]
      exact (congrArg (List.drop _) hwords).trans (List.drop_left' rfl)
    obtain ⟨s₂, ⟨got₂, hcalls₂, hgives₂⟩, hind₂, hsp₂, hmsg₂⟩ :=
      ih (fun i hi => hvalid i (List.mem_cons_of_mem _ hi)) hwords₁ hsp₁
    refine ⟨s₂, ⟨_, hcalls₁.append hcalls₂, List.rel_append hgives₁ hgives₂⟩, ?_, hsp₂, hmsg₂.trans hmsg₁⟩
    rw [hind₂, hind₁, List.flatMap_cons, List.length_append, add_assoc]

/-- The operands come behind `--`, or with one that is no option. -/
def Stops (rest operands : List (List Char)) : Prop :=
  rest = ['-', '-'] :: operands ∨
    rest = operands ∧ ∀ word, operands.head? = some word → word.head? ≠ some '-' ∨ word = ['-']

theorem getoptLong_stops {rest operands : List (List Char)} (hwords : wordsFrom argv s.optind = rest)
    (hstops : Stops rest operands) (hsp : s.sp = 1) :
    ∃ s', getoptLong argv optstring longopts s = .ok (none, s') ∧ wordsFrom argv s'.optind = operands ∧
      s'.messages = s.messages := by
  unfold getoptLong
  rw [if_pos hsp]
  rcases hstops with rfl | ⟨rfl, hoperand⟩
  · obtain ⟨arg, hget, hchars, hrest⟩ := get_of_wordsFrom hwords
    have hzero : arg.get 0 = .ok '-' := get_of_append [] hchars rfl
    have hfst : arg.get 1 = .ok '-' := get_of_append ['-'] hchars rfl
    have hnul : '-' ≠ nul := by decide
    refine ⟨{ s with optind := s.optind + 1 }, ?_, hrest, rfl⟩
    rw [if_neg (not_le.mpr (lt_of_get hget))]
    simp [argAt_of_get hget, hzero, hfst, hnul, hchars, bind, Except.bind, pure, Except.pure]
  · refine ⟨s, ?_, hwords, rfl⟩
    by_cases hend : argv.length ≤ s.optind
    · rw [if_pos hend]
    have hget := List.getElem?_eq_getElem (not_le.mp hend)
    generalize argv[s.optind] = arg at hget
    rw [if_neg hend]
    have hword : rest.head? = some arg.chars := by
      rw [← hwords, wordsFrom, List.head?_map, List.head?_drop, hget]
      rfl
    rcases hoperand arg.chars hword with hhead | hdash
    · have hzero : arg.get 0 = .ok ((arg.chars.drop 0).headD nul) := CString.get_of_le (Nat.zero_le _)
      have hne : (arg.chars.drop 0).headD nul ≠ '-' := by
        cases hchars : arg.chars with
        | nil => decide
        | cons c cs => simpa [hchars] using hhead
      simp only [argAt_of_get hget, hzero, bind, Except.bind]
      exact if_pos hne
    · have hzero : arg.get 0 = .ok '-' := get_of_append [] hdash rfl
      have hfst : arg.get 1 = .ok nul := get_behind [] hdash rfl
      simp [argAt_of_get hget, hzero, hfst, bind, Except.bind, pure, Except.pure]

/-- However a list of options is spelled, the calls give these options with their arguments, the
last call says that there are no more, and the operands are left. -/
theorem getoptLong_spelled {program : List Char} {items : List Item} {rest operands : List (List Char)}
    (hargv : argv.map CString.chars = program :: (items.flatMap Item.words ++ rest))
    (hvalid : ∀ item ∈ items, item.Valid optstring longopts) (hstops : Stops rest operands) :
    ∃ got s₁ s₂, Calls argv optstring longopts {} got s₁ ∧
      List.Forall₂ Gives got (items.flatMap Item.options) ∧
      getoptLong argv optstring longopts s₁ = .ok (none, s₂) ∧ wordsFrom argv s₂.optind = operands ∧
      s₂.messages = [] := by
  have hwords : wordsFrom argv 1 = items.flatMap Item.words ++ rest := by
    rw [wordsFrom, List.map_drop, hargv]
    rfl
  obtain ⟨s₁, ⟨got, hcalls, hgives⟩, hind, hsp, hmsg⟩ := reads_items (s := {}) hvalid hwords rfl
  have hrest : wordsFrom argv s₁.optind = rest := by
    rw [hind, wordsFrom, ← List.drop_drop, List.map_drop]
    exact (congrArg (List.drop _) hwords).trans (List.drop_left' rfl)
  obtain ⟨s₂, hlast, hoperands, hmsg₂⟩ := getoptLong_stops hrest hstops hsp
  exact ⟨got, s₁, s₂, hcalls, hgives, hlast, hoperands, hmsg₂.trans hmsg⟩

end Steps

/-! ### The loop -/

section Loop
variable {σ ε : Type} {argv : List CString} {optstring : CString} {longopts : List LongOption}
  {body : Char → Option (List Char) → σ → Except ε σ} {s s₁ s₂ : State} {a : σ}
  {got want : List (Char × Option (List Char))}

theorem Calls.length_le (h : Calls argv optstring longopts s got s₁) (hready : Ready argv s.optind s.sp) :
    got.length + remaining argv s₁.optind s₁.sp ≤ remaining argv s.optind s.sp ∧
      Ready argv s₁.optind s₁.sp := by
  induction h with
  | nil s => exact ⟨by simp, hready⟩
  | cons call rest ih =>
    obtain ⟨r, s', hcall, hready', hanswers⟩ := getoptLong_answers optstring longopts hready
    obtain ⟨rfl, rfl⟩ := Prod.mk.inj (Except.ok.inj (hcall.symm.trans call))
    obtain ⟨hle, hready₁⟩ := ih hready'
    have hless := (hanswers _ rfl).moves.less
    rw [List.length_cons]
    exact ⟨by omega, hready₁⟩

/-- The loop runs its body on what the calls give. -/
theorem optionLoop_calls {fuel : ℕ} (h : Calls argv optstring longopts s got s₁)
    (hlast : getoptLong argv optstring longopts s₁ = .ok (none, s₂)) (hfuel : got.length < fuel)
    (body : Char → Option (List Char) → σ → Except ε σ) (a : σ) :
    ∃ s', optionLoop argv optstring longopts body fuel s a =
        .ok (got.foldlM (fun a o => body o.1 o.2 a) a, s') ∧
      ∀ a', got.foldlM (fun a o => body o.1 o.2 a) a = .ok a' → s' = s₂ := by
  induction h generalizing fuel a with
  | nil s =>
    obtain ⟨fuel, rfl⟩ := Nat.exists_eq_add_one_of_ne_zero (by simpa using hfuel.ne')
    exact ⟨s₂, optionLoop_end fuel hlast, fun _ _ => rfl⟩
  | @cons s s₀ s' c got call rest ih =>
    obtain ⟨fuel, rfl⟩ := Nat.exists_eq_add_one_of_ne_zero (Nat.ne_zero_of_lt hfuel)
    rw [List.foldlM_cons]
    cases hbody : body c s₀.optarg a with
    | error e => exact ⟨s₀, optionLoop_error fuel call hbody, nofun⟩
    | ok a' =>
      rw [optionLoop_next fuel call hbody]
      exact ih hlast (by simpa using hfuel) a'

theorem foldlM_gives (h : List.Forall₂ Gives got want)
    (hbody : ∀ c, (c, none) ∈ want → ∀ optarg a, body c optarg a = body c none a) (a : σ) :
    got.foldlM (fun a o => body o.1 o.2 a) a = want.foldlM (fun a o => body o.1 o.2 a) a := by
  induction h generalizing a with
  | nil => rfl
  | @cons g w got want hgives rest ih =>
    have hhead : body g.1 g.2 a = body w.1 w.2 a := by
      obtain ⟨hopt, hvalue⟩ := hgives
      rw [hopt]
      obtain ⟨c, value⟩ := w
      cases value with
      | none => exact hbody c List.mem_cons_self g.2 a
      | some v => rw [hvalue v rfl]
    rw [List.foldlM_cons, List.foldlM_cons, hhead]
    congr 1
    funext a'
    exact ih (fun c hc => hbody c (List.mem_cons_of_mem _ hc)) a'

end Loop

end Fsdiff.Cli
