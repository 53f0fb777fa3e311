import Fsdiff.Core.InitProgress

/-! The dispatch table in runs that do not keep to the documented use, and in those in which
`fsd_simd_force_scalar` is called. -/
namespace Fsdiff.Process
open Interleaving

/-! ### Any use at all -/

def Anyhow {T : Type} (_ : State T) (_ : Event T) : Prop := True

/-- Null pointers are gone or about to be written over. -/
structure NonNull {T : Type} (s : State T) : Prop where
  will : ∀ {t rest}, s.pc t = .storing rest →
    ∀ e, (s.table.entry e).isSome = true ∨ ∃ b, Store.entry e b ∈ rest
  published : s.initState = 2 → ∀ e, (s.table.entry e).isSome = true
  ready : ∀ {t}, s.ready t = true → ∀ e, (s.table.entry e).isSome = true
  checked : ∀ {t e}, s.pc t = .callThrough e → (s.table.entry e).isSome = true

section NonNull
variable {T : Type} [DecidableEq T] {P : Platform} {s s' : State T} {ev : Event T}

theorem entry_store_isSome (table : Table) (w : Store) (e : Entry)
    (h : (table.entry e).isSome = true ∨ ∃ b, w = .entry e b) :
    ((table.store w).entry e).isSome = true := by
  rcases h with h | ⟨b, rfl⟩
  · cases w with
    | entry e' b => cases e <;> cases e' <;> simp_all [Table.entry, Table.store]
    | _ => cases e <;> exact h
  · cases e <;> rfl

theorem simdInit_mem (P : Platform) (e : Entry) : ∃ b, Store.entry e b ∈ simdInit P := by
  refine ⟨.scalar, List.mem_append_left _ ?_⟩
  cases e <;> decide

theorem nonNull_start (T : Type) : NonNull (State.start T) := by
  constructor <;> simp [State.start]

theorem NonNull.goto (h : NonNull s) {t : T} {pc : Pc} {table : Table}
    (hkeep : ∀ e, (s.table.entry e).isSome = true → (table.entry e).isSome = true)
    (hwill : ∀ rest, pc = .storing rest →
      ∀ e, (table.entry e).isSome = true ∨ ∃ b, Store.entry e b ∈ rest)
    (hchecked : ∀ e, pc = .callThrough e → (table.entry e).isSome = true) :
    NonNull { s.goto t pc with table := table } := by
  constructor
  · intro u rest hu e
    simp only [State.goto_pc] at hu
    split_ifs at hu
    · exact hwill rest hu e
    · exact (h.will hu e).imp (hkeep e) id
  · exact fun h2 e => hkeep e (h.published h2 e)
  · exact fun hu e => hkeep e (h.ready hu e)
  · intro u e hu
    simp only [State.goto_pc] at hu
    split_ifs at hu
    · exact hchecked e hu
    · exact hkeep e (h.checked hu)

theorem NonNull.return (h : NonNull s) {t : T} (hall : ∀ e, (s.table.entry e).isSome = true)
    {state : ℕ} : NonNull { s.return t with initState := state } := by
  have hg : NonNull (s.goto t .idle) := h.goto (fun _ => id) (by simp) (by simp)
  exact ⟨hg.will, fun _ => hall, fun _ => hall, hg.checked⟩

theorem NonNull.next (h : NonNull s) (hnext : s.next P ev = some s') : NonNull s' := by
  cases takes_of_next hnext with
  | @call t c _ =>
    apply h.goto fun _ => id
    · cases c <;> simp [Call.pc]
    · cases c <;> simp [Call.pc]
  | cleanup => exact ⟨h.will, by simp [State.cleanup], by simp [State.cleanup], h.checked⟩
  | enter _ _ | lose _ _ => exact h.goto (fun _ => id) (by simp) (by simp)
  | forced _ | missing _ _ | called _ => exact h.goto (fun _ => id) (by simp) (by simp)
  | saw _ h2 => exact h.return (h.published h2)
  | @win t _ _ =>
    have hg : NonNull (s.goto t (.storing (simdInit P))) := by
      apply h.goto (fun _ => id) _ (by simp)
      rintro rest ⟨⟩ e
      exact .inr (simdInit_mem P e)
    exact ⟨hg.will, by simp, hg.ready, hg.checked⟩
  | @store t w rest hpc =>
    apply h.goto (fun e he => entry_store_isSome _ _ e (.inl he)) _ (by simp)
    rintro r ⟨⟩ e
    rcases h.will hpc e with he | ⟨b, hb⟩
    · exact .inl (entry_store_isSome _ _ e (.inl he))
    · rcases List.mem_cons.mp hb with rfl | hb
      · exact .inl (entry_store_isSome _ _ e (.inr ⟨b, rfl⟩))
      · exact .inr ⟨b, hb⟩
  | publish hpc =>
    refine h.return fun e => (h.will hpc e).resolve_right ?_
    rintro ⟨b, hb⟩
    cases hb
  | wait _ _ => exact h
  | force _ => exact h.goto (fun e he => entry_store_isSome _ _ e (.inl he)) (by simp) (by simp)
  | found _ hsome => exact h.goto (fun _ => id) (by simp) (by rintro e ⟨⟩; exact hsome)

/-- Even with `fsd_cleanup`, `fsd_simd_force_scalar` and uses without `fsd_init` at any time: the
pointer that a caller has found in the table is not null when it calls through it, and once
`fsd_init` has returned to some thread no pointer is null. -/
theorem callThrough_nonNull (P : Platform) {es : List (Event T)}
    (h : Run (State.next P) Anyhow (State.start T) es s) :
    (∀ t e, s.pc t = .callThrough e → (s.table.entry e).isSome = true) ∧
      ∀ t, s.ready t = true → ∀ e, (s.table.entry e).isSome = true := by
  have hn : NonNull s := h.invariant (fun _ _ _ hI _ hnext => hI.next hnext) (nonNull_start T)
  exact ⟨fun t e => hn.checked, fun t => hn.ready⟩

instance {T : Type} (s : State T) (e : Event T) : Decidable (Anyhow s e) := isTrue trivial

/-- A thread that never called `fsd_init` uses the table while another fills it, and the library
is cleaned up in between. -/
def careless : List (Event Bool) :=
  [.call true .init, .run true, .run true, .run true, .run true, .run true, .cleanup] ++
    [.call false (.use .isZero), .run false, .run true]

theorem callThrough_nonNull_careless :
    ∃ s, Run (State.next .other) Anyhow (State.start Bool) careless s ∧
      s.pc false = .callThrough .isZero ∧ (s.table.entry .isZero).isSome = true := by
  have hpc : (exec (State.next .other) Anyhow (State.start Bool) careless).map
      (fun s => s.pc false) = some (.callThrough .isZero) := by decide
  obtain ⟨s, hs, hpc⟩ := Option.map_eq_some_iff.mp hpc
  have hrun := run_of_exec hs
  exact ⟨s, hrun, hpc, (callThrough_nonNull .other hrun).1 false .isZero hpc⟩

end NonNull

/-! ### Asking for the scalar table -/

/-- No `fsd_cleanup`. -/
def NoCleanup {T : Type} (_ : State T) (e : Event T) : Prop := e ≠ .cleanup

instance {T : Type} [DecidableEq T] (s : State T) (e : Event T) : Decidable (NoCleanup s e) :=
  inferInstanceAs (Decidable (e ≠ .cleanup))

theorem NoCleanup.atRest {T : Type} {s : State T} {e : Event T} (h : NoCleanup s e) : AtRest s e := by
  cases e with
  | cleanup => exact absurd rfl h
  | call _ _ => trivial
  | run _ => trivial

def scalarTable : Table := setupScalarDispatch.foldl Table.store .null

/-- Who is in `fsd_simd_force_scalar` has scalar assignments left. -/
def Forces {T : Type} (s : State T) : Prop :=
  ∀ t rest, s.pc t = .forcing rest → rest ⊆ setupScalarDispatch

/-- `w` is in the table, or `t` has yet to store it. -/
def Owes {T : Type} (t : T) (s : State T) (w : Store) : Prop :=
  s.table.store w = s.table ∨ ∃ rest, s.pc t = .forcing rest ∧ w ∈ rest

section Forced
variable {T : Type} [DecidableEq T] {P : Platform} {s s' s'' : State T} {e : Event T} {t : T}

theorem store_store (table : Table) {w w' : Store} (hw : w ∈ setupScalarDispatch)
    (hw' : w' ∈ setupScalarDispatch) :
    (table.store w').store w = (table.store w).store w' := by
  simp only [setupScalarDispatch, setupDispatch, List.mem_cons, List.not_mem_nil, or_false] at hw hw'
  rcases hw with rfl | rfl | rfl | rfl | rfl <;> rcases hw' with rfl | rfl | rfl | rfl | rfl <;> rfl

theorem store_idem (table : Table) (w : Store) : (table.store w).store w = table.store w := by
  cases w with
  | entry e b => cases e <;> rfl
  | _ => rfl

theorem eq_scalarTable {table : Table}
    (h : ∀ w ∈ setupScalarDispatch, table.store w = table) : table = scalarTable := by
  have hfold : ∀ ws : List Store, (∀ w ∈ ws, table.store w = table) →
      ws.foldl Table.store table = table := by
    intro ws hws
    induction ws with
    | nil => rfl
    | cons w ws ih =>
      rw [List.foldl_cons, hws w List.mem_cons_self]
      exact ih fun w' hw' => hws w' (List.mem_cons_of_mem _ hw')
  rw [← hfold setupScalarDispatch h]
  rfl

theorem Forces.goto (h : Forces s) {u : T} {pc : Pc}
    (hpc : ∀ rest, pc = .forcing rest → rest ⊆ setupScalarDispatch) : Forces (s.goto u pc) := by
  intro v rest hv
  rw [State.goto_pc] at hv
  split_ifs at hv
  · exact hpc rest hv
  · exact h v rest hv

theorem Forces.next (h : Forces s) (hnext : s.next P e = some s') : Forces s' := by
  cases takes_of_next hnext with
  | @call u c _ =>
    apply h.goto
    cases c <;> simp [Call.pc]
  | cleanup => exact h
  | wait _ _ => exact h
  | @force u w rest hpc =>
    apply h.goto
    rintro r ⟨⟩
    exact fun w' hw' => h u _ hpc (List.mem_cons_of_mem w hw')
  | _ => exact h.goto (by simp)

/-- With 2 in `g_init_state` the only stores into the table are those that force the scalar one. -/
theorem table_next (hg : Guarded s) (h2 : s.initState = 2) (he : e ≠ .cleanup)
    (hnext : s.next P e = some s') :
    s'.initState = 2 ∧
      (s'.table = s.table ∧ (∀ rest, s.pc t = .forcing rest → rest ≠ [] → s'.pc t = .forcing rest) ∨
        ∃ u w rest, s.pc u = .forcing (w :: rest) ∧ s'.pc u = .forcing rest ∧
          (t ≠ u → s'.pc t = s.pc t) ∧ s'.table = s.table.store w) := by
  have hframe : s'.table = s.table → (e = .run t → ∀ rest, s.pc t = .forcing rest → rest = []) →
      s'.table = s.table ∧ ∀ rest, s.pc t = .forcing rest → rest ≠ [] → s'.pc t = .forcing rest := by
    refine fun htable hrun => ⟨htable, fun rest hpc hne => ?_⟩
    rw [pc_of_other hnext (by simp [hpc]) fun he => hne (hrun he rest hpc), hpc]
  cases htakes : takes_of_next hnext with
  | cleanup => exact absurd rfl he
  | win _ h0 => omega
  | store hpc =>
    have := hg.state_of_storing hpc
    omega
  | publish hpc =>
    have := hg.state_of_storing hpc
    omega
  | @force u w rest hpc =>
    refine ⟨h2, .inr ⟨u, w, rest, hpc, by simp, fun htu => ?_, rfl⟩⟩
    change (s.goto u _).pc t = _
    rw [State.goto_pc, if_neg htu]
  | call hpc =>
    refine ⟨h2, .inl (hframe rfl ?_)⟩
    simp
  | saw hpc _ =>
    refine ⟨h2, .inl (hframe rfl ?_)⟩
    rintro ⟨⟩ rest hpc'
    simp [hpc'] at hpc
  | enter hpc _ | lose hpc _ | wait hpc _ | forced hpc | found hpc _ | missing hpc _ | called hpc =>
    refine ⟨h2, .inl (hframe rfl ?_)⟩
    rintro ⟨⟩ rest hpc'
    simp_all

/-- Initialised, and whoever stores into the table stores scalar entries. -/
structure Initialised {T : Type} (s : State T) : Prop where
  guarded : Guarded s
  state_eq : s.initState = 2
  forces : Forces s

theorem Initialised.next (h : Initialised s) (he : NoCleanup s e) (hnext : s.next P e = some s') :
    Initialised s' := by
  cases e with
  | cleanup => exact absurd rfl he
  | call t _ | run t =>
    exact ⟨h.guarded.next he.atRest hnext, (table_next (t := t) h.guarded h.state_eq he hnext).1,
      h.forces.next hnext⟩

theorem Initialised.held {w : Store} (h : Initialised s) (he : NoCleanup s e)
    (hnext : s.next P e = some s') (t : T) (hw : w ∈ setupScalarDispatch)
    (hin : s.table.store w = s.table) : s'.table.store w = s'.table := by
  obtain ⟨-, ⟨htable, -⟩ | ⟨u, w', rest, hu, -, -, htable⟩⟩ :=
    table_next (t := t) h.guarded h.state_eq he hnext
  · rw [htable, hin]
  · rw [htable, store_store _ hw (h.forces u _ hu List.mem_cons_self), hin]

/-- What `t` still owes, it owes until it has stored it. -/
theorem Initialised.owes {w : Store} (h : Initialised s) (he : NoCleanup s e)
    (hnext : s.next P e = some s') (hw : w ∈ setupScalarDispatch) (howes : Owes t s w) :
    Owes t s' w := by
  rcases howes with hin | ⟨r, hr, hmem⟩
  · exact .inl (h.held he hnext t hw hin)
  · obtain ⟨-, ⟨-, hpc⟩ | ⟨u, w', rest, hu, hu', hother, htable⟩⟩ :=
      table_next (t := t) h.guarded h.state_eq he hnext
    · exact .inr ⟨r, hpc r hr (List.ne_nil_of_mem hmem), hmem⟩
    · by_cases htu : t = u
      · subst htu
        obtain rfl : r = w' :: rest := Pc.forcing.inj (hr.symm.trans hu)
        rcases List.mem_cons.mp hmem with rfl | hmem
        · exact .inl (by rw [htable, store_idem])
        · exact .inr ⟨rest, hu', hmem⟩
      · exact .inr ⟨r, (hother htu).trans hr, hmem⟩

/-- Once a call of `fsd_simd_force_scalar` by any thread is through, on an initialised library, the
table is the scalar one for good: no call of `fsd_init` brings the vector kernels back, only one
after `fsd_cleanup` can. -/
theorem forced_scalar_stays (P : Platform) {es es' es'' : List (Event T)}
    (h : Run (State.next P) AtRest (State.start T) es s) (h2 : s.initState = 2)
    (hcall : Run (State.next P) NoCleanup s (.call t .forceScalar :: es') s')
    (hdone : s'.pc t = .forcing []) (hlater : Run (State.next P) NoCleanup s' es'' s'') :
    s''.table = scalarTable := by
  have hforces : Forces s :=
    h.invariant (fun _ _ _ hI _ hnext => hI.next hnext) fun t rest hpc => by simp [State.start] at hpc
  have hguarded : Guarded s :=
    h.invariant (fun _ _ _ hI hrest hnext => hI.next hrest hnext) (guarded_start T)
  have hinit : Initialised s := ⟨hguarded, h2, hforces⟩
  cases hcall with
  | @cons _ s₁ _ _ _ he hnext hrun =>
    have hcalled : s₁.pc t = .forcing setupScalarDispatch := by
      cases takes_of_next hnext with
      | call hidle => simp [Call.pc]
    have hreturned : Initialised s' ∧ ∀ w ∈ setupScalarDispatch, Owes t s' w := by
      refine hrun.invariant (I := fun s => Initialised s ∧ ∀ w ∈ setupScalarDispatch, Owes t s w)
        (fun _ _ _ hI he hnext => ⟨hI.1.next he hnext, fun w hw => hI.1.owes he hnext hw (hI.2 w hw)⟩)
        ⟨hinit.next he hnext, fun w hw => .inr ⟨_, hcalled, hw⟩⟩
    have hin : ∀ w ∈ setupScalarDispatch, s'.table.store w = s'.table := by
      intro w hw
      refine (hreturned.2 w hw).resolve_right ?_
      rintro ⟨rest, hrest, hmem⟩
      obtain rfl := Pc.forcing.inj (hdone.symm.trans hrest)
      cases hmem
    have hlast : Initialised s'' ∧ ∀ w ∈ setupScalarDispatch, s''.table.store w = s''.table :=
      hlater.invariant
        (I := fun s => Initialised s ∧ ∀ w ∈ setupScalarDispatch, s.table.store w = s.table)
        (fun _ _ _ hI he hnext => ⟨hI.1.next he hnext, fun w hw => hI.1.held he hnext t hw (hI.2 w hw)⟩)
        ⟨hreturned.1, hin⟩
    exact eq_scalarTable hlast.2

/-- Every bit that `detect_x86_caps` looks at is set. -/
def avx2Platform : Platform := .x86 true ⟨.allOnes 32, .allOnes 32, 0x7, 0x10, .allOnes 32⟩

/-- A whole call of `fsd_init` on it, and one of `fsd_simd_force_scalar` up to its return. -/
def callInit : List (Event Unit) := .call () .init :: List.replicate 13 (.run ())
def callForce : List (Event Unit) := List.replicate 5 (.run ())

theorem forced_scalar_stays_avx2 :
    ∃ s s' s'', Run (State.next avx2Platform) AtRest (State.start Unit) callInit s ∧
      s.table = simdTable avx2Platform ∧
      Run (State.next avx2Platform) NoCleanup s (.call () .forceScalar :: callForce) s' ∧
      Run (State.next avx2Platform) NoCleanup s' [.run (), .call () .init, .run ()] s'' ∧
      s''.ready () = true ∧ s''.table = scalarTable := by
  have hall : (exec (State.next avx2Platform) NoCleanup (State.start Unit) callInit).bind
      (fun s => (exec (State.next avx2Platform) NoCleanup s (.call () .forceScalar :: callForce)).bind
        fun s' => (exec (State.next avx2Platform) NoCleanup s' [.run (), .call () .init, .run ()]).map
          fun s'' => (s.initState, s.table, s'.pc (), s''.ready ())) =
      some (2, simdTable avx2Platform, .forcing [], true) := by decide
  obtain ⟨s, hs, hall⟩ := Option.bind_eq_some_iff.mp hall
  obtain ⟨s', hs', hall⟩ := Option.bind_eq_some_iff.mp hall
  obtain ⟨s'', hs'', hall⟩ := Option.map_eq_some_iff.mp hall
  simp only [Prod.mk.injEq] at hall
  obtain ⟨h2, htable, hdone, hready⟩ := hall
  have hrun := (run_of_exec hs).mono fun _ _ => NoCleanup.atRest
  exact ⟨s, s', s'', hrun, htable, run_of_exec hs', run_of_exec hs'', hready,
    forced_scalar_stays avx2Platform hrun h2 (run_of_exec hs') hdone (run_of_exec hs'')⟩

end Forced

end Fsdiff.Process
