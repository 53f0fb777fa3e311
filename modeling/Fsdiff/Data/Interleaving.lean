import Mathlib.Algebra.Order.Group.Nat

/-! Systems that take one event after the other: what every run keeps, and what an unending run in
which no helpful event is put off for ever comes to. -/
namespace Interleaving
variable {σ ε : Type}

section Runs
variable (next : σ → ε → Option σ) (ok : σ → ε → Prop)

/-- A run from one state to another, each event allowed where it happens. -/
inductive Run : σ → List ε → σ → Prop
  | nil (s : σ) : Run s [] s
  | cons {s s' s'' : σ} {e : ε} {es : List ε} :
      ok s e → next s e = some s' → Run s' es s'' → Run s (e :: es) s''

/-- The state that a list of events leads to, if each is allowed and possible. -/
def exec [∀ s e, Decidable (ok s e)] : σ → List ε → Option σ
  | s, [] => some s
  | s, e :: es => if ok s e then (next s e).bind fun s' => exec s' es else none

structure Path where
  state : ℕ → σ
  event : ℕ → ε
  allowed : ∀ n, ok (state n) (event n)
  step : ∀ n, next (state n) (event n) = some (state (n + 1))

end Runs

variable {next : σ → ε → Option σ} {ok : σ → ε → Prop}

/-- What every allowed event keeps, a run keeps. -/
theorem Run.invariant {I : σ → Prop}
    (hstep : ∀ s e s', I s → ok s e → next s e = some s' → I s')
    {s s' : σ} {es : List ε} (h : Run next ok s es s') (hs : I s) : I s' := by
  induction h with
  | nil => exact hs
  | cons hok hnext _ ih => exact ih (hstep _ _ _ hs hok hnext)

theorem run_of_exec [∀ s e, Decidable (ok s e)] {s s' : σ} {es : List ε}
    (h : exec next ok s es = some s') : Run next ok s es s' := by
  induction es generalizing s with
  | nil =>
    obtain rfl := Option.some.inj h
    exact .nil s
  | cons e es ih =>
    simp only [exec] at h
    split_ifs at h with hok
    obtain ⟨s₁, hnext, hrest⟩ := Option.bind_eq_some_iff.mp h
    exact .cons hok hnext (ih hrest)

theorem Run.mono {ok' : σ → ε → Prop} (hok : ∀ s e, ok s e → ok' s e) {s s' : σ} {es : List ε}
    (h : Run next ok s es s') : Run next ok' s es s' := by
  induction h with
  | nil s => exact .nil s
  | cons hs hnext _ ih => exact .cons (hok _ _ hs) hnext ih

section Paths
variable (p : Path next ok)

theorem Path.invariant {I : σ → Prop}
    (hstep : ∀ s e s', I s → ok s e → next s e = some s' → I s') {m n : ℕ} (hmn : m ≤ n)
    (hm : I (p.state m)) : I (p.state n) := by
  induction n, hmn using Nat.le_induction with
  | base => exact hm
  | succ n _ ih => exact hstep _ _ _ ih (p.allowed n) (p.step n)

/-- Each event keeps `P` without raising the rank, or brings `Q` about. A helpful event lowers the
rank, or brings `Q` about; and one comes up again and again while `P` lasts. -/
theorem Path.leads (P Q : σ → Prop) (rank : σ → ℕ) (helpful : ε → Prop)
    (hkeep : ∀ s e s', P s → ok s e → next s e = some s' → Q s' ∨ P s' ∧ rank s' ≤ rank s)
    (hhelp : ∀ s e s', P s → ok s e → next s e = some s' → helpful e →
      Q s' ∨ P s' ∧ rank s' < rank s)
    (hfair : ∀ n, ∃ m, n ≤ m ∧ (P (p.state m) → helpful (p.event m)))
    {n : ℕ} (hn : P (p.state n)) : ∃ m, n ≤ m ∧ Q (p.state m) := by
  -- Until `Q` holds, `P` does, and the rank has not grown.
  have hlast : ∀ {n m : ℕ}, P (p.state n) → n ≤ m →
      (∃ k, n ≤ k ∧ Q (p.state k)) ∨ P (p.state m) ∧ rank (p.state m) ≤ rank (p.state n) := by
    intro n m hn hnm
    induction m, hnm using Nat.le_induction with
    | base => exact .inr ⟨hn, le_rfl⟩
    | succ m hnm ih =>
      rcases ih with hq | ⟨hm, hrank⟩
      · exact .inl hq
      · rcases hkeep _ _ _ hm (p.allowed m) (p.step m) with hq | ⟨hm', hle⟩
        · exact .inl ⟨m + 1, by omega, hq⟩
        · exact .inr ⟨hm', hle.trans hrank⟩
  induction hr : rank (p.state n) using Nat.strong_induction_on generalizing n with
  | _ r ih =>
    obtain ⟨m, hnm, hm⟩ := hfair n
    rcases hlast hn hnm with hq | ⟨hPm, hrank⟩
    · exact hq
    · rcases hhelp _ _ _ hPm (p.allowed m) (p.step m) (hm hPm) with hq | ⟨hP, hlt⟩
      · exact ⟨m + 1, by omega, hq⟩
      · obtain ⟨k, hk, hq⟩ := ih _ (by omega) hP rfl
        exact ⟨k, by omega, hq⟩

end Paths

end Interleaving
