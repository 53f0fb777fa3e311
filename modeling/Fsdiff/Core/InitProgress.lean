import Fsdiff.Core.Init

/-! Every call of `fsd_init` returns: the thread in `fsd_simd_init` gets through, and those in the
loop see the 2 that it stores. -/
namespace Fsdiff.Process
open Interleaving

section Fair
variable {T : Type} [DecidableEq T] {P : Platform} {s s' : State T} {e : Event T} {t : T}

/-- A thread in a call takes a step sooner or later. -/
def Fair (p : Path (State.next (T := T) P) AtRest) : Prop :=
  ∀ t n, ∃ m, n ≤ m ∧ ((p.state m).pc t = .idle ∨ p.event m = .run t)

theorem pc_of_other (hnext : s.next P e = some s') (hidle : s.pc t ≠ .idle) (he : e ≠ .run t) :
    s'.pc t = s.pc t := by
  have hne : ∀ {u : T}, e = .run u → t ≠ u := by
    rintro u rfl rfl
    exact he rfl
  cases takes_of_next hnext with
  | @call u c hu =>
    have htu : t ≠ u := by
      rintro rfl
      exact hidle hu
    rw [State.goto_pc, if_neg htu]
  | cleanup => rfl
  | wait _ _ => rfl
  | saw _ _ => rw [State.return_pc, if_neg (hne rfl)]
  | publish _ =>
    change (s.return _).pc t = _
    rw [State.return_pc, if_neg (hne rfl)]
  | _ =>
    change (s.goto _ _).pc t = _
    rw [State.goto_pc, if_neg (hne rfl)]

/-- The steps left in `fsd_init` for a thread that does not wait. -/
def Pc.stepsLeft (P : Platform) : Pc → ℕ
  | .load => (simdInit P).length + 3
  | .cas => (simdInit P).length + 2
  | .storing rest => rest.length + 1
  | _ => 0

theorem stepsLeft_run (hnext : s.next P (.run t) = some s') (hinit : (s.pc t).InInit)
    (hspin : s.pc t ≠ .spin) :
    (s'.pc t = .idle ∨ s'.pc t = .spin) ∨
      ((s'.pc t).InInit ∧ s'.pc t ≠ .spin) ∧ (s'.pc t).stepsLeft P < (s.pc t).stepsLeft P := by
  cases takes_of_next hnext with
  | enter hpc _ => simp [hpc, Pc.InInit, Pc.stepsLeft]
  | saw _ _ => simp
  | win hpc _ => simp [hpc, Pc.InInit, Pc.stepsLeft]
  | lose _ _ => simp
  | store hpc => simp [hpc, Pc.InInit, Pc.stepsLeft]
  | publish _ => simp
  | wait hpc _ => exact absurd hpc hspin
  | force hpc | forced hpc | found hpc _ | missing hpc _ | called hpc =>
    simp [hpc, Pc.InInit] at hinit

theorem Pc.InInit.ne_idle {pc : Pc} (h : pc.InInit) : pc ≠ .idle := by
  rintro rfl
  exact h

/-- A call of `fsd_init` returns or comes to its loop. -/
theorem returns_or_spins {p : Path (State.next (T := T) P) AtRest} (hfair : Fair p) {n : ℕ}
    (hinit : ((p.state n).pc t).InInit) :
    ∃ m, n ≤ m ∧ ((p.state m).pc t = .idle ∨ (p.state m).pc t = .spin) := by
  by_cases hspin : (p.state n).pc t = .spin
  · exact ⟨n, le_rfl, .inr hspin⟩
  · refine p.leads (fun s => (s.pc t).InInit ∧ s.pc t ≠ .spin)
      (fun s => s.pc t = .idle ∨ s.pc t = .spin) (fun s => (s.pc t).stepsLeft P)
      (fun e => e = .run t) ?_ ?_ ?_ ⟨hinit, hspin⟩
    · rintro s e s' ⟨hin, hns⟩ _ hnext
      by_cases he : e = .run t
      · subst he
        exact (stepsLeft_run hnext hin hns).imp id fun h => ⟨h.1, h.2.le⟩
      · have hsame := pc_of_other hnext hin.ne_idle he
        rw [hsame]
        exact .inr ⟨⟨hin, hns⟩, le_rfl⟩
    · rintro s e s' ⟨hin, hns⟩ _ hnext rfl
      exact stepsLeft_run hnext hin hns
    · intro k
      obtain ⟨m, hkm, hm⟩ := hfair t k
      exact ⟨m, hkm, fun hP => hm.resolve_left hP.1.ne_idle⟩

theorem storing_run {rest : List Store} (hnext : s.next P (.run t) = some s')
    (hpc : s.pc t = .storing rest) :
    s'.initState = 2 ∨
      ∃ rest', s'.pc t = .storing rest' ∧ (s'.pc t).stepsLeft P < (s.pc t).stepsLeft P := by
  cases takes_of_next hnext with
  | store hpc' => exact .inr ⟨_, by simp; rfl, by simp [hpc', Pc.stepsLeft]⟩
  | publish _ => exact .inl rfl
  | saw hpc' _ => rcases hpc' with hpc' | hpc' <;> simp [hpc] at hpc'
  | enter hpc' _ | win hpc' _ | lose hpc' _ | wait hpc' _ | force hpc' | forced hpc' | found hpc' _
  | missing hpc' _ | called hpc' => simp [hpc] at hpc'

theorem spin_run (hnext : s.next P (.run t) = some s') (hpc : s.pc t = .spin)
    (h2 : s.initState = 2) : s'.pc t = .idle := by
  simp only [State.next, State.run, hpc, h2, if_true, Option.some.injEq] at hnext
  simp [← hnext]

theorem state_of_spins (hnext : s.next P e = some s') (hrest : AtRest s e) (ht : s.pc t = .spin)
    (h2 : s.initState = 2) : s'.initState = 2 := by
  cases takes_of_next hnext with
  | cleanup =>
    have := hrest t
    simp [ht, Pc.InInit] at this
  | win _ h0 => omega
  | publish _ => rfl
  | _ => exact h2

theorem spins_of_storing {w : T} {rest : List Store} (hnext : s.next P e = some s')
    (hg : Guarded s) (ht : s.pc t = .spin) (hw : s.pc w = .storing rest) : s'.pc t = .spin := by
  have h1 := hg.state_of_storing hw
  by_cases he : e = .run t
  · subst he
    simp only [State.next, State.run, ht, h1, Option.some.injEq] at hnext
    rw [← hnext]
    exact ht
  · exact (pc_of_other hnext (by simp [ht]) he).trans ht

/-- While a thread waits, the one in `fsd_simd_init` gets on, up to its store of 2. -/
theorem publishes {p : Path (State.next (T := T) P) AtRest} (hfair : Fair p) {n : ℕ}
    (hguarded : Guarded (p.state n)) (hspin : (p.state n).pc t = .spin) :
    ∃ m, n ≤ m ∧ (p.state m).initState = 2 ∧ (p.state m).pc t = .spin := by
  by_cases h2 : (p.state n).initState = 2
  · exact ⟨n, le_rfl, h2, hspin⟩
  · have h1 : (p.state n).initState = 1 := by
      have := hguarded.le_two
      have := hguarded.state_of_spin hspin
      omega
    obtain ⟨w, rest, hw⟩ := hguarded.exists_storing h1
    refine p.leads (fun s => (Guarded s ∧ s.pc t = .spin) ∧ ∃ rest, s.pc w = .storing rest)
      (fun s => s.initState = 2 ∧ s.pc t = .spin) (fun s => (s.pc w).stepsLeft P)
      (fun e => e = .run w) ?_ ?_ ?_ ⟨⟨hguarded, hspin⟩, rest, hw⟩
    · rintro s e s' ⟨⟨hg, ht⟩, rest, hw⟩ hrest hnext
      have hspins := spins_of_storing hnext hg ht hw
      by_cases he : e = .run w
      · subst he
        rcases storing_run hnext hw with h2 | ⟨rest', hw', hlt⟩
        · exact .inl ⟨h2, hspins⟩
        · exact .inr ⟨⟨⟨hg.next hrest hnext, hspins⟩, rest', hw'⟩, hlt.le⟩
      · have hsame := pc_of_other hnext (by simp [hw]) he
        exact .inr ⟨⟨⟨hg.next hrest hnext, hspins⟩, rest, hsame.trans hw⟩, by rw [hsame]⟩
    · rintro s e s' ⟨⟨hg, ht⟩, rest, hw⟩ hrest hnext rfl
      have hspins := spins_of_storing hnext hg ht hw
      rcases storing_run hnext hw with h2 | ⟨rest', hw', hlt⟩
      · exact .inl ⟨h2, hspins⟩
      · exact .inr ⟨⟨⟨hg.next hrest hnext, hspins⟩, rest', hw'⟩, hlt⟩
    · intro k
      obtain ⟨m, hkm, hm⟩ := hfair w k
      refine ⟨m, hkm, fun hP => hm.resolve_left ?_⟩
      obtain ⟨rest, hw⟩ := hP.2
      simp [hw]

/-- In an unending run in which no thread rests in a call for ever, and `fsd_cleanup` is not called
while a thread is in `fsd_init`, every call of `fsd_init` returns. -/
theorem init_returns (P : Platform) (p : Path (State.next (T := T) P) AtRest)
    (hstart : p.state 0 = State.start T) (hfair : Fair p) (t : T) (n : ℕ)
    (hinit : ((p.state n).pc t).InInit) : ∃ m, n ≤ m ∧ (p.state m).pc t = .idle := by
  obtain ⟨k, hnk, hidle | hspin⟩ := returns_or_spins hfair hinit
  · exact ⟨k, hnk, hidle⟩
  · have hguarded : Guarded (p.state k) :=
      p.invariant (fun _ _ _ hg hrest hnext => hg.next hrest hnext) (Nat.zero_le k)
        (hstart ▸ guarded_start T)
    obtain ⟨l, hkl, h2, hspin⟩ := publishes hfair hguarded hspin
    obtain ⟨m, hlm, hidle⟩ := p.leads (fun s => s.initState = 2 ∧ s.pc t = .spin)
      (fun s => s.pc t = .idle) (fun _ => 0) (fun e => e = .run t)
      (by
        rintro s e s' ⟨h2, ht⟩ hrest hnext
        by_cases he : e = .run t
        · subst he
          exact .inl (spin_run hnext ht h2)
        · exact .inr ⟨⟨state_of_spins hnext hrest ht h2,
            (pc_of_other hnext (by simp [ht]) he).trans ht⟩, le_rfl⟩)
      (by
        rintro s e s' ⟨h2, ht⟩ _ hnext rfl
        exact .inl (spin_run hnext ht h2))
      (fun k => by
        obtain ⟨m, hkm, hm⟩ := hfair t k
        exact ⟨m, hkm, fun hP => hm.resolve_left (by simp [hP.2])⟩)
      ⟨h2, hspin⟩
    exact ⟨m, by omega, hidle⟩

/-- Whose turn it is when two threads take turns. -/
def turn (n : ℕ) : Bool := n % 2 == 0

def turnEvent (s : State Bool) (n : ℕ) : Event Bool :=
  if s.pc (turn n) = .idle then .call (turn n) .init else .run (turn n)

/-- Both threads call `fsd_init` again and again. -/
def turns : ℕ → State Bool
  | 0 => State.start Bool
  | n + 1 => ((turns n).next .other (turnEvent (turns n) n)).getD (turns n)

theorem turn_next (s : State Bool) (n : ℕ) : (s.next .other (turnEvent s n)).isSome = true := by
  unfold turnEvent
  split_ifs with hidle
  · simp [State.next, hidle]
  · simp only [State.next, State.run]
    split <;> simp_all

def turnsPath : Path (State.next (T := Bool) .other) AtRest where
  state := turns
  event n := turnEvent (turns n) n
  allowed n := by
    unfold turnEvent
    split_ifs <;> trivial
  step n := by
    obtain ⟨s', hs'⟩ := Option.isSome_iff_exists.mp (turn_next (turns n) n)
    rw [turns, hs', Option.getD_some]

theorem exists_turn (t : Bool) (n : ℕ) : ∃ m, n ≤ m ∧ turn m = t := by
  by_cases ht : turn n = t
  · exact ⟨n, le_rfl, ht⟩
  · refine ⟨n + 1, by omega, ?_⟩
    cases t <;> simp only [turn, beq_eq_false_iff_ne, beq_iff_eq] at ht ⊢ <;> omega

theorem fair_turnsPath : Fair turnsPath := by
  intro t n
  obtain ⟨m, hnm, ht⟩ := exists_turn t n
  refine ⟨m, hnm, ?_⟩
  change (turns m).pc t = .idle ∨ turnEvent (turns m) m = .run t
  unfold turnEvent
  rw [ht]
  split_ifs with hidle
  · exact .inl hidle
  · exact .inr rfl

theorem init_returns_turns :
    (turnsPath.state 6).pc true = .storing setupScalarDispatch ∧
      (turnsPath.state 6).pc false = .spin ∧ ∃ m, 6 ≤ m ∧ (turnsPath.state m).pc false = .idle := by
  have hspin : (turnsPath.state 6).pc false = .spin := rfl
  have hinit : ((turnsPath.state 6).pc false).InInit := by
    rw [hspin]
    trivial
  exact ⟨rfl, hspin, init_returns .other turnsPath rfl fair_turnsPath false 6 hinit⟩

end Fair

end Fsdiff.Process
