import Fsdiff.Data.Interleaving
import Fsdiff.Simd.Vectors
import Mathlib.Data.Fintype.Basic

/-! `fsd_init` and `fsd_cleanup` of `patch.c` with C11 atomics, and the dispatch table of
`simd_dispatch.c` that they guard. Threads interleave: a step of a thread is one access to
`g_init_state`, or one store into or one load from an entry of `g_fsd_simd`. -/
namespace Fsdiff.Process
open Interleaving

/-! ### The dispatch table -/

/-- `fsd_simd_caps_t` -/
def simdNone : ℕ := 0
def simdSse2 : ℕ := 1
def simdAvx : ℕ := 2
def simdAvx2 : ℕ := 4
def simdNeon : ℕ := 8

/-- The function pointers of `fsd_simd_dispatch_t`. -/
inductive Entry where
  | isZero | isOne | countMatches
  deriving DecidableEq, Repr

/-- `fsd_simd_dispatch_t`. A function pointer is null or points into one of the three files of
kernels. -/
structure Table where
  caps : ℕ
  name : Option String
  isZero : Option Backend
  isOne : Option Backend
  countMatches : Option Backend
  deriving DecidableEq, Repr

/-- The `{0}` of its definition. -/
def Table.null : Table := ⟨0, none, none, none, none⟩

def Table.entry (t : Table) : Entry → Option Backend
  | .isZero => t.isZero
  | .isOne => t.isOne
  | .countMatches => t.countMatches

/-- One assignment to a field of `g_fsd_simd`. -/
inductive Store where
  | caps (flags : ℕ)
  | name (text : String)
  | entry (e : Entry) (b : Backend)
  deriving DecidableEq, Repr

def Table.store (t : Table) : Store → Table
  | .caps flags => { t with caps := flags }
  | .name text => { t with name := some text }
  | .entry .isZero b => { t with isZero := some b }
  | .entry .isOne b => { t with isOne := some b }
  | .entry .countMatches b => { t with countMatches := some b }

/-- The assignments of `setup_scalar_dispatch`, `setup_avx2_dispatch` and `setup_neon_dispatch`. -/
def setupDispatch (flags : ℕ) (text : String) (b : Backend) : List Store :=
  [.caps flags, .name text, .entry .isZero b, .entry .isOne b, .entry .countMatches b]

def setupScalarDispatch : List Store := setupDispatch simdNone "scalar" .scalar
def setupAvx2Dispatch : List Store := setupDispatch simdAvx2 "AVX2" .avx2
def setupNeonDispatch : List Store := setupDispatch simdNeon "NEON" .neon

/-- What `cpuid` and `xgetbv` return. -/
structure X86 where
  leaf1Ecx : BitVec 32
  leaf1Edx : BitVec 32
  xcr0 : BitVec 64
  leaf0Eax : BitVec 32
  leaf7Ebx : BitVec 32
  deriving DecidableEq, Repr

/-- `detect_x86_caps` -/
def detectX86Caps (cpu : X86) : ℕ :=
  let osSavesYmm := cpu.leaf1Ecx.getLsbD 27 && cpu.xcr0 &&& 0x6 == 0x6
  simdNone
    ||| (if cpu.leaf1Edx.getLsbD 26 then simdSse2 else 0)
    ||| (if osSavesYmm && cpu.leaf1Ecx.getLsbD 28 then simdAvx else 0)
    -- `info[0]` is an `int`.
    ||| (if osSavesYmm && decide (7 ≤ cpu.leaf0Eax.toInt) && cpu.leaf7Ebx.getLsbD 5 then simdAvx2
      else 0)

/-- What the library is compiled for, and what it finds there. -/
inductive Platform where
  | x86 (hasAvx2 : Bool) (cpu : X86)
  | arm64 (hasNeon : Bool)
  | arm32 (hasNeon : Bool) (hwcapNeon : Bool)
  | other
  deriving DecidableEq, Repr

/-- `detect_arm_caps` -/
def detectArmCaps : Platform → ℕ
  | .arm64 _ | .arm32 _ true => simdNeon
  | _ => simdNone

/-- The assignments of `fsd_simd_init`. -/
def simdInit (P : Platform) : List Store :=
  setupScalarDispatch ++
    match P with
    | .x86 hasAvx2 cpu =>
      if hasAvx2 && detectX86Caps cpu &&& simdAvx2 != 0 then setupAvx2Dispatch else []
    | .arm64 hasNeon | .arm32 hasNeon _ =>
      if hasNeon && detectArmCaps P &&& simdNeon != 0 then setupNeonDispatch else []
    | .other => []

/-! ### Threads -/

/-- Where a thread is in its call. -/
inductive Pc where
  | idle
  | load                         -- `fsd_init`, before its first load
  | cas                          -- before the exchange
  | storing (rest : List Store)  -- in `fsd_simd_init`, and then before the store of 2
  | spin                         -- at the load of the loop
  | forcing (rest : List Store)  -- in `fsd_simd_force_scalar`
  | check (e : Entry)            -- `if (g_fsd_simd.is_zero)`
  | callThrough (e : Entry)      -- `return g_fsd_simd.is_zero(block, size)`
  deriving DecidableEq, Repr

/-- `g_init_state` and `g_fsd_simd` with the threads. `ready` and `inits` are not in the code:
the threads to which `fsd_init` has returned, and the calls of `fsd_simd_init`, both since the last
`fsd_cleanup`. -/
structure State (T : Type) where
  initState : ℕ
  table : Table
  pc : T → Pc
  ready : T → Bool
  inits : ℕ

inductive Call where
  | init
  | forceScalar
  | use (e : Entry)
  deriving DecidableEq, Repr

inductive Event (T : Type) where
  | call (t : T) (c : Call)
  | run (t : T)
  | cleanup
  deriving DecidableEq, Repr

def State.start (T : Type) : State T where
  initState := 0
  table := .null
  pc _ := .idle
  ready _ := false
  inits := 0

def Call.pc : Call → Pc
  | .init => .load
  | .forceScalar => .forcing setupScalarDispatch
  | .use e => .check e

section Step
variable {T : Type} [DecidableEq T] (P : Platform)

def State.goto (s : State T) (t : T) (pc : Pc) : State T :=
  { s with pc := Function.update s.pc t pc }

@[simp] theorem State.goto_pc (s : State T) (t u : T) (pc : Pc) :
    (s.goto t pc).pc u = if u = t then pc else s.pc u :=
  Function.update_apply ..

/-- `fsd_init` returns to `t`. -/
def State.return (s : State T) (t : T) : State T :=
  { s.goto t .idle with ready := Function.update s.ready t true }

@[simp] theorem State.return_pc (s : State T) (t u : T) :
    (s.return t).pc u = if u = t then .idle else s.pc u := by
  rw [State.return, State.goto_pc]

/-- The next access of `t`. -/
def State.run (s : State T) (t : T) : Option (State T) :=
  match s.pc t with
  | .idle => none
  | .load => some (if s.initState = 2 then s.return t else s.goto t .cas)
  | .cas =>
    some (if s.initState = 0 then
        { s.goto t (.storing (simdInit P)) with initState := 1, inits := s.inits + 1 }
      else s.goto t .spin)
  | .storing (w :: rest) => some { s.goto t (.storing rest) with table := s.table.store w }
  | .storing [] => some { s.return t with initState := 2 }
  | .spin => some (if s.initState = 2 then s.return t else s)
  | .forcing (w :: rest) => some { s.goto t (.forcing rest) with table := s.table.store w }
  | .forcing [] => some (s.goto t .idle)
  | .check e => some (if (s.table.entry e).isSome then s.goto t (.callThrough e) else s.goto t .idle)
  | .callThrough _ => some (s.goto t .idle)

/-- `fsd_cleanup` -/
def State.cleanup (s : State T) : State T :=
  { s with initState := 0, ready := fun _ => false, inits := 0 }

def State.next (s : State T) : Event T → Option (State T)
  | .call t c => if s.pc t = .idle then some (s.goto t c.pc) else none
  | .run t => s.run P t
  | .cleanup => some s.cleanup

end Step

section Takes
variable {T : Type} [DecidableEq T] {P : Platform} {s s' : State T} {e : Event T} {t : T}

/-- Everything that a step can do. -/
inductive Takes (P : Platform) (s : State T) : Event T → State T → Prop
  | call {t : T} {c : Call} : s.pc t = .idle → Takes P s (.call t c) (s.goto t c.pc)
  | cleanup : Takes P s .cleanup s.cleanup
  | enter {t : T} : s.pc t = .load → s.initState ≠ 2 → Takes P s (.run t) (s.goto t .cas)
  | saw {t : T} : s.pc t = .load ∨ s.pc t = .spin → s.initState = 2 → Takes P s (.run t) (s.return t)
  | win {t : T} : s.pc t = .cas → s.initState = 0 →
      Takes P s (.run t)
        { s.goto t (.storing (simdInit P)) with initState := 1, inits := s.inits + 1 }
  | lose {t : T} : s.pc t = .cas → s.initState ≠ 0 → Takes P s (.run t) (s.goto t .spin)
  | store {t : T} {w : Store} {rest : List Store} : s.pc t = .storing (w :: rest) →
      Takes P s (.run t) { s.goto t (.storing rest) with table := s.table.store w }
  | publish {t : T} : s.pc t = .storing [] →
      Takes P s (.run t) { s.return t with initState := 2 }
  | wait {t : T} : s.pc t = .spin → s.initState ≠ 2 → Takes P s (.run t) s
  | force {t : T} {w : Store} {rest : List Store} : s.pc t = .forcing (w :: rest) →
      Takes P s (.run t) { s.goto t (.forcing rest) with table := s.table.store w }
  | forced {t : T} : s.pc t = .forcing [] → Takes P s (.run t) (s.goto t .idle)
  | found {t : T} {e : Entry} : s.pc t = .check e → (s.table.entry e).isSome = true →
      Takes P s (.run t) (s.goto t (.callThrough e))
  | missing {t : T} {e : Entry} : s.pc t = .check e → s.table.entry e = none →
      Takes P s (.run t) (s.goto t .idle)
  | called {t : T} {e : Entry} : s.pc t = .callThrough e → Takes P s (.run t) (s.goto t .idle)

theorem takes_of_next (h : s.next P e = some s') : Takes P s e s' := by
  cases e with
  | call t c =>
    simp only [State.next] at h
    split_ifs at h with hidle
    obtain rfl := Option.some.inj h
    exact .call hidle
  | cleanup =>
    obtain rfl := Option.some.inj h
    exact .cleanup
  | run t =>
    simp only [State.next, State.run] at h
    cases hpc : s.pc t with
    | idle => simp [hpc] at h
    | load =>
      simp only [hpc, Option.some.injEq] at h
      split_ifs at h with h2
      · subst h
        exact .saw (.inl hpc) h2
      · subst h
        exact .enter hpc h2
    | cas =>
      simp only [hpc, Option.some.injEq] at h
      split_ifs at h with h0
      · subst h
        exact .win hpc h0
      · subst h
        exact .lose hpc h0
    | storing rest =>
      cases rest with
      | nil =>
        simp only [hpc, Option.some.injEq] at h
        subst h
        exact .publish hpc
      | cons w rest =>
        simp only [hpc, Option.some.injEq] at h
        subst h
        exact .store hpc
    | spin =>
      simp only [hpc, Option.some.injEq] at h
      split_ifs at h with h2
      · subst h
        exact .saw (.inr hpc) h2
      · subst h
        exact .wait hpc h2
    | forcing rest =>
      cases rest with
      | nil =>
        simp only [hpc, Option.some.injEq] at h
        subst h
        exact .forced hpc
      | cons w rest =>
        simp only [hpc, Option.some.injEq] at h
        subst h
        exact .force hpc
    | check e =>
      simp only [hpc, Option.some.injEq] at h
      split_ifs at h with hsome
      · subst h
        exact .found hpc hsome
      · subst h
        exact .missing hpc (Option.not_isSome_iff_eq_none.mp hsome)
    | callThrough e =>
      simp only [hpc, Option.some.injEq] at h
      subst h
      exact .called hpc

end Takes

/-! ### The state word -/

/-- In `fsd_init`. -/
def Pc.InInit : Pc → Prop
  | .load | .cas | .storing _ | .spin => True
  | _ => False

/-- `fsd_cleanup` is not called while some thread is in `fsd_init`. -/
def AtRest {T : Type} (s : State T) : Event T → Prop
  | .cleanup => ∀ t, ¬ (s.pc t).InInit
  | _ => True

/-- What `g_init_state` says about the threads: at 1 exactly one of them is in `fsd_simd_init`, and
one that waits will not wait in vain. -/
structure Guarded {T : Type} (s : State T) : Prop where
  le_two : s.initState ≤ 2
  inits : s.inits = if s.initState = 0 then 0 else 1
  state_of_storing : ∀ {t rest}, s.pc t = .storing rest → s.initState = 1
  storing_unique : ∀ {t u rest rest'}, s.pc t = .storing rest → s.pc u = .storing rest' → t = u
  exists_storing : s.initState = 1 → ∃ t rest, s.pc t = .storing rest
  state_of_spin : ∀ {t}, s.pc t = .spin → s.initState ≠ 0
  state_of_ready : ∀ {t}, s.ready t = true → s.initState = 2

section Guarded
variable {T : Type} [DecidableEq T] {P : Platform} {s s' : State T} {e : Event T}

theorem guarded_start (T : Type) : Guarded (State.start T) := by
  constructor <;> simp [State.start]

/-- A thread that is not in `fsd_simd_init` moves on within or outside `fsd_init`, not to it. -/
theorem Guarded.goto (h : Guarded s) {t : T} {pc : Pc} (ht : ∀ rest, s.pc t ≠ .storing rest)
    (hpc : ∀ rest, pc ≠ .storing rest) (hspin : pc = .spin → s.initState ≠ 0) :
    Guarded (s.goto t pc) := by
  have hframe : ∀ {u rest}, (s.goto t pc).pc u = .storing rest → s.pc u = .storing rest := by
    intro u rest hu
    rw [State.goto_pc] at hu
    split_ifs at hu with hut
    · exact absurd hu (hpc rest)
    · exact hu
  constructor
  · exact h.le_two
  · exact h.inits
  · exact fun hu => h.state_of_storing (hframe hu)
  · exact fun hu hv => h.storing_unique (hframe hu) (hframe hv)
  · intro h1
    obtain ⟨u, rest, hu⟩ := h.exists_storing h1
    have hut : u ≠ t := by
      rintro rfl
      exact ht rest hu
    exact ⟨u, rest, by rw [State.goto_pc, if_neg hut, hu]⟩
  · intro u hu
    rw [State.goto_pc] at hu
    split_ifs at hu with hut
    · exact hspin hu
    · exact h.state_of_spin hu
  · exact h.state_of_ready

omit [DecidableEq T] in
theorem Guarded.withTable (h : Guarded s) (table : Table) : Guarded { s with table := table } :=
  ⟨h.le_two, h.inits, h.state_of_storing, h.storing_unique, h.exists_storing, h.state_of_spin,
    h.state_of_ready⟩

theorem Guarded.return (h : Guarded s) {t : T} (ht : ∀ rest, s.pc t ≠ .storing rest)
    (h2 : s.initState = 2) : Guarded (s.return t) := by
  have hg : Guarded (s.goto t .idle) := h.goto ht (fun _ => Pc.noConfusion) Pc.noConfusion
  exact ⟨hg.le_two, hg.inits, hg.state_of_storing, hg.storing_unique, hg.exists_storing,
    hg.state_of_spin, fun _ => h2⟩

theorem Guarded.next (h : Guarded s) (hrest : AtRest s e) (hnext : s.next P e = some s') :
    Guarded s' := by
  cases takes_of_next hnext with
  | @call t c hidle =>
    apply h.goto
    · simp [hidle]
    · intro rest
      cases c <;> simp [Call.pc]
    · cases c <;> simp [Call.pc]
  | cleanup =>
    constructor
    · exact Nat.zero_le 2
    · rfl
    · intro t rest ht
      have := hrest t
      simp_all [State.cleanup, Pc.InInit]
    · exact fun ht hu => h.storing_unique ht hu
    · exact fun h1 => absurd h1 (by simp [State.cleanup])
    · intro t ht
      have := hrest t
      simp_all [State.cleanup, Pc.InInit]
    · exact fun ht => absurd ht (by simp [State.cleanup])
  | enter hpc _ => exact h.goto (by simp [hpc]) (by simp) (by simp)
  | saw hpc h2 =>
    refine h.return ?_ h2
    rcases hpc with hpc | hpc <;> simp [hpc]
  | @win t hpc h0 =>
    have hnone : ∀ u rest, s.pc u ≠ .storing rest := fun u rest hu => by
      have := h.state_of_storing hu
      omega
    have honly : ∀ {u rest}, (s.goto t (.storing (simdInit P))).pc u = .storing rest → u = t := by
      intro u rest hu
      by_contra hut
      rw [State.goto_pc, if_neg hut] at hu
      exact hnone u rest hu
    constructor
    · exact Nat.le_succ 1
    · have := h.inits
      simp_all
    · exact fun _ => rfl
    · exact fun hu hv => (honly hu).trans (honly hv).symm
    · exact fun _ => ⟨t, simdInit P, by rw [State.goto_pc, if_pos rfl]⟩
    · exact fun _ => Nat.one_ne_zero
    · intro u hu
      have := h.state_of_ready hu
      omega
  | lose hpc h0 => exact h.goto (by simp [hpc]) (by simp) (fun _ => h0)
  | @store t w rest hpc =>
    have hframe : ∀ {u r}, (s.goto t (.storing rest)).pc u = .storing r → ∃ r', s.pc u = .storing r' := by
      intro u r hu
      rw [State.goto_pc] at hu
      split_ifs at hu with hut
      · exact ⟨_, hut ▸ hpc⟩
      · exact ⟨_, hu⟩
    constructor
    · exact h.le_two
    · exact h.inits
    · intro u r hu
      obtain ⟨r', hu'⟩ := hframe hu
      exact h.state_of_storing hu'
    · intro u v r r' hu hv
      obtain ⟨_, hu'⟩ := hframe hu
      obtain ⟨_, hv'⟩ := hframe hv
      exact h.storing_unique hu' hv'
    · exact fun _ => ⟨t, rest, by rw [State.goto_pc, if_pos rfl]⟩
    · intro u hu
      rw [State.goto_pc] at hu
      split_ifs at hu
      exact h.state_of_spin hu
    · exact h.state_of_ready
  | @publish t hpc =>
    have h1 := h.state_of_storing hpc
    have hnone : ∀ {u rest}, (s.return t).pc u ≠ .storing rest := by
      intro u rest hu
      rw [State.return_pc] at hu
      split_ifs at hu with hut
      exact hut (h.storing_unique hu hpc)
    constructor
    · exact le_rfl
    · have := h.inits
      simp_all [State.return, State.goto]
    · exact fun hu => absurd hu hnone
    · exact fun hu => absurd hu hnone
    · exact fun h2 => absurd h2 (by simp)
    · exact fun _ => two_ne_zero
    · exact fun _ => rfl
  | wait _ _ => exact h
  | force hpc => exact (h.goto (by simp [hpc]) (by simp) (by simp)).withTable _
  | forced hpc => exact h.goto (by simp [hpc]) (by simp) (by simp)
  | found hpc _ => exact h.goto (by simp [hpc]) (by simp) (by simp)
  | missing hpc _ => exact h.goto (by simp [hpc]) (by simp) (by simp)
  | called hpc => exact h.goto (by simp [hpc]) (by simp) (by simp)

end Guarded

/-! ### Use of the table -/

/-- The table that `fsd_simd_init` leaves. -/
def simdTable (P : Platform) : Table := (simdInit P).foldl Table.store .null

def Pc.Loads : Pc → Prop
  | .check _ | .callThrough _ => True
  | _ => False

def Pc.Stores : Pc → Prop
  | .storing (_ :: _) | .forcing (_ :: _) => True
  | _ => False

/-- The use that `fsdiff.h` describes: a thread uses the library after its own call of `fsd_init`
has returned and no longer than to the next `fsd_cleanup`, which is called with no other call
under way; and no call asks for the scalar table. -/
def Documented {T : Type} (s : State T) : Event T → Prop
  | .call _ .init => True
  | .call t (.use _) => s.ready t = true
  | .call _ .forceScalar => False
  | .run _ => True
  | .cleanup => ∀ t, s.pc t = .idle

instance {T : Type} [Fintype T] (s : State T) (e : Event T) : Decidable (Documented s e) :=
  match e with
  | .call _ .init | .run _ => isTrue trivial
  | .call t (.use _) => inferInstanceAs (Decidable (s.ready t = true))
  | .call _ .forceScalar => isFalse id
  | .cleanup => inferInstanceAs (Decidable (∀ t, s.pc t = .idle))

/-- A thread in `fsd_simd_init` completes the table, and 2 says that it is complete. -/
structure Published {T : Type} (P : Platform) (s : State T) : Prop extends Guarded s where
  completes : ∀ {t rest}, s.pc t = .storing rest → rest.foldl Table.store s.table = simdTable P
  table_eq : s.initState = 2 → s.table = simdTable P
  state_of_loads : ∀ {t}, (s.pc t).Loads → s.initState = 2
  not_forcing : ∀ {t rest}, s.pc t ≠ .forcing rest

section Published
variable {T : Type} [DecidableEq T] {P : Platform} {s s' : State T} {e : Event T}

omit [DecidableEq T] in
theorem Documented.atRest (h : Documented s e) : AtRest s e := by
  cases e with
  | cleanup =>
    intro t
    rw [h t]
    exact id
  | call _ _ => trivial
  | run _ => trivial

/-- The scalar assignments come first and set every field, so what was there before is lost. -/
theorem simdInit_foldl (P : Platform) (table : Table) :
    (simdInit P).foldl Table.store table = simdTable P := by
  simp only [simdTable, simdInit, List.foldl_append]
  rfl

theorem published_start (P : Platform) (T : Type) : Published P (State.start T) := by
  refine ⟨guarded_start T, ?_, ?_, ?_, ?_⟩ <;> simp [State.start, Pc.Loads]

theorem Published.goto (h : Published P s) {t : T} {pc : Pc} (hg : Guarded (s.goto t pc))
    (hstoring : ∀ rest, pc ≠ .storing rest) (hforcing : ∀ rest, pc ≠ .forcing rest)
    (hloads : pc.Loads → s.initState = 2) : Published P (s.goto t pc) := by
  refine ⟨hg, ?_, h.table_eq, ?_, ?_⟩
  · intro u rest hu
    rw [State.goto_pc] at hu
    split_ifs at hu with hut
    · exact absurd hu (hstoring rest)
    · exact h.completes hu
  · intro u hu
    rw [State.goto_pc] at hu
    split_ifs at hu with hut
    · exact hloads hu
    · exact h.state_of_loads hu
  · intro u rest hu
    rw [State.goto_pc] at hu
    split_ifs at hu with hut
    · exact hforcing rest hu
    · exact h.not_forcing hu

theorem Published.next (h : Published P s) (hdoc : Documented s e) (hnext : s.next P e = some s') :
    Published P s' := by
  have hg : Guarded s' := h.toGuarded.next hdoc.atRest hnext
  cases takes_of_next hnext with
  | @call t c hidle =>
    cases c with
    | init => exact h.goto hg (by simp [Call.pc]) (by simp [Call.pc]) (by simp [Call.pc, Pc.Loads])
    | forceScalar => exact absurd hdoc id
    | use e =>
      exact h.goto hg (by simp [Call.pc]) (by simp [Call.pc]) fun _ => h.state_of_ready hdoc
  | cleanup =>
    refine ⟨hg, ?_, ?_, ?_, ?_⟩
    · intro t rest ht
      simp [State.cleanup, hdoc t] at ht
    · simp [State.cleanup]
    · intro t ht
      simp [State.cleanup, hdoc t, Pc.Loads] at ht
    · intro t rest ht
      simp [State.cleanup, hdoc t] at ht
  | enter hpc _ => exact h.goto hg (by simp) (by simp) (by simp [Pc.Loads])
  | @saw t _ h2 =>
    have hg' : Guarded (s.goto t .idle) := ⟨hg.le_two, hg.inits, hg.state_of_storing,
      hg.storing_unique, hg.exists_storing, hg.state_of_spin, h.state_of_ready⟩
    have hidle := h.goto hg' (by simp) (by simp) (by simp [Pc.Loads])
    exact ⟨hg, hidle.completes, hidle.table_eq, hidle.state_of_loads, hidle.not_forcing⟩
  | @win t hpc h0 =>
    refine ⟨hg, ?_, ?_, ?_, ?_⟩
    · intro u rest hu
      have hut : u = t := hg.storing_unique hu (by simp; rfl)
      simp only [State.goto_pc, if_pos hut, Pc.storing.injEq] at hu
      subst hu
      exact simdInit_foldl P s.table
    · simp
    · intro u hu
      simp only [State.goto_pc] at hu
      split_ifs at hu
      · exact absurd hu id
      · have := h.state_of_loads hu
        omega
    · intro u rest hu
      simp only [State.goto_pc] at hu
      split_ifs at hu
      exact h.not_forcing hu
  | lose _ h0 => exact h.goto hg (by simp) (by simp) (by simp [Pc.Loads])
  | @store t w rest hpc =>
    have h1 := h.state_of_storing hpc
    refine ⟨hg, ?_, ?_, ?_, ?_⟩
    · intro u r hu
      have hut : u = t := hg.storing_unique hu (by simp; rfl)
      simp only [State.goto_pc, if_pos hut, Pc.storing.injEq] at hu
      subst hu
      exact h.completes hpc
    · intro h2
      have : s.initState = 2 := h2
      omega
    · intro u hu
      simp only [State.goto_pc] at hu
      split_ifs at hu
      · exact absurd hu id
      · exact h.state_of_loads hu
    · intro u r hu
      simp only [State.goto_pc] at hu
      split_ifs at hu
      exact h.not_forcing hu
  | @publish t hpc =>
    refine ⟨hg, ?_, ?_, fun _ => rfl, ?_⟩
    · intro u rest hu
      exact absurd (hg.state_of_storing hu) (by simp)
    · exact fun _ => h.completes hpc
    · intro u rest hu
      simp only [State.return_pc] at hu
      split_ifs at hu
      exact h.not_forcing hu
  | wait _ _ => exact h
  | force hpc => exact absurd hpc h.not_forcing
  | forced hpc => exact absurd hpc h.not_forcing
  | found hpc _ =>
    exact h.goto hg (by simp) (by simp) fun _ => h.state_of_loads (by rw [hpc]; trivial)
  | missing hpc _ => exact h.goto hg (by simp) (by simp) (by simp [Pc.Loads])
  | called hpc => exact h.goto hg (by simp) (by simp) (by simp [Pc.Loads])

/-- However the threads interleave: while one of them is at a store into the table, no other is at
a store or a load, so the accesses need no order of their own; what a thread loads is the complete
table; and `fsd_simd_init` runs once. -/
theorem init_race_free (P : Platform) {es : List (Event T)}
    (h : Run (State.next P) Documented (State.start T) es s) :
    (∀ t u, t ≠ u → (s.pc t).Stores → ¬ (s.pc u).Stores ∧ ¬ (s.pc u).Loads) ∧
      (∀ t, (s.pc t).Loads ∨ s.ready t = true → s.table = simdTable P) ∧ s.inits ≤ 1 := by
  have hp : Published P s :=
    h.invariant (fun _ _ _ hI hok hnext => hI.next hok hnext) (published_start P T)
  have hstoring : ∀ {t}, (s.pc t).Stores → ∃ rest, s.pc t = .storing rest := by
    intro t ht
    cases hpc : s.pc t with
    | storing rest => exact ⟨rest, rfl⟩
    | forcing rest => exact absurd hpc hp.not_forcing
    | _ => simp [hpc, Pc.Stores] at ht
  refine ⟨?_, ?_, ?_⟩
  · intro t u htu ht
    obtain ⟨rest, hpc⟩ := hstoring ht
    have h1 := hp.state_of_storing hpc
    constructor
    · intro hu
      obtain ⟨rest', hpc'⟩ := hstoring hu
      exact htu (hp.storing_unique hpc hpc')
    · intro hu
      have := hp.state_of_loads hu
      omega
  · rintro t (hloads | hready)
    · exact hp.table_eq (hp.state_of_loads hloads)
    · exact hp.table_eq (hp.state_of_ready hready)
  · rw [hp.inits]
    split_ifs <;> omega

/-- Two threads call `fsd_init`; the second loses the exchange, waits, and uses the table. -/
def twoThreads : List (Event Bool) :=
  [.call true .init, .call false .init, .run true, .run false, .run true, .run false] ++
    [.run true, .run false, .run true, .run true, .run true, .run true, .run true, .run false] ++
      [.call false (.use .isZero), .run false]

theorem init_race_free_twoThreads :
    ∃ s, Run (State.next .other) Documented (State.start Bool) twoThreads s ∧
      s.pc false = .callThrough .isZero ∧ s.table = simdTable .other := by
  have hpc : (exec (State.next .other) Documented (State.start Bool) twoThreads).map
      (fun s => s.pc false) = some (.callThrough .isZero) := by decide
  obtain ⟨s, hs, hpc⟩ := Option.map_eq_some_iff.mp hpc
  have hrun := run_of_exec hs
  exact ⟨s, hrun, hpc, (init_race_free .other hrun).2.1 false (.inl (by rw [hpc]; trivial))⟩

end Published

end Fsdiff.Process
