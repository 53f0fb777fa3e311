import Fsdiff.Data.Exec

/-! Computations that look at a flag again and again, and stop at the first look that finds it
set. The state counts the looks, and each computation is compared with the one that finds the
flag clear every time. -/
namespace Exec
variable {ε σ α β : Type}

def endState : EStateM.Result ε σ α → σ
  | .ok _ s => s
  | .error _ s => s

/-- The looks from the `m`-th on and before the `n`-th find the flag clear. -/
def ClearBetween (seen : ℕ → Bool) (m n : ℕ) : Prop := ∀ k, m ≤ k → k < n → seen k = false

/-- From `s` on, `x` does what `x₀` does, which stops only with an error of `E`; but at the first
look that finds the flag set, `x` stops. -/
structure PolledAt (looks : σ → ℕ) (stop : ε) (E : ε → Prop) (seen : ℕ → Bool)
    (x₀ x : EStateM ε σ α) (s : σ) : Prop where
  ends : Ends (x₀ s) (fun _ s' => looks s ≤ looks s') (fun e s' => looks s ≤ looks s' ∧ E e)
  same : ClearBetween seen (looks s) (looks (endState (x₀ s))) → x s = x₀ s
  stopped : ∀ k, looks s ≤ k → k < looks (endState (x₀ s)) → ClearBetween seen (looks s) k →
    seen k = true → ∃ s', x s = .error stop s' ∧ looks s' = k + 1

/-- `x` is `x₀` with looks at the flag. -/
def Polled (looks : σ → ℕ) (stop : ε) (E : ε → Prop) (seen : ℕ → Bool) (x₀ x : EStateM ε σ α) :
    Prop :=
  ∀ s, PolledAt looks stop E seen x₀ x s

section Rules
variable {looks : σ → ℕ} {stop : ε} {E : ε → Prop} {seen : ℕ → Bool}

theorem ClearBetween.mono {m n m' n' : ℕ} (h : ClearBetween seen m n) (hm : m ≤ m') (hn : n' ≤ n) :
    ClearBetween seen m' n' :=
  fun k hk hkn => h k (hm.trans hk) (hkn.trans_le hn)

theorem clearBetween_or_first (seen : ℕ → Bool) (m n : ℕ) :
    ClearBetween seen m n ∨ ∃ k, m ≤ k ∧ k < n ∧ ClearBetween seen m k ∧ seen k = true := by
  induction n with
  | zero => exact .inl fun k _ hk => absurd hk (Nat.not_lt_zero k)
  | succ n ih =>
    rcases ih with hclear | ⟨k, hmk, hkn, hclear, hk⟩
    · by_cases hn : m ≤ n ∧ seen n = true
      · exact .inr ⟨n, hn.1, Nat.lt_succ_self n, hclear, hn.2⟩
      · left
        intro k hmk hkn
        rcases Nat.lt_succ_iff_lt_or_eq.mp hkn with hlt | rfl
        · exact hclear k hmk hlt
        · exact Bool.eq_false_iff.mpr fun hset => hn ⟨hmk, hset⟩
    · exact .inr ⟨k, hmk, hkn.trans (Nat.lt_succ_self n), hclear, hk⟩

/-- The errors are those without the flag, and that of a look that finds it set. -/
theorem Polled.stops {x₀ x : EStateM ε σ α} (h : Polled looks stop E seen x₀ x) :
    Stops (fun e => E e ∨ e = stop ∧ ∃ k, seen k = true) x := by
  intro s
  rcases clearBetween_or_first seen (looks s) (looks (endState (x₀ s))) with
    hclear | ⟨k, hk, hlt, hclear, hset⟩
  · rw [(h s).same hclear]
    exact (h s).ends.mono (fun _ _ _ => trivial) fun _ _ he => .inl he.2
  · obtain ⟨s', hs', _⟩ := (h s).stopped k hk hlt hclear hset
    rw [hs']
    exact .inr ⟨rfl, k, hset⟩

theorem polled_of_quiet {x : EStateM ε σ α}
    (h : ∀ s, Ends (x s) (fun _ s' => looks s' = looks s) (fun e s' => looks s' = looks s ∧ E e)) :
    Polled looks stop E seen x x := by
  intro s
  have hs := h s
  have hlooks : looks (endState (x s)) = looks s := by
    cases hr : x s with
    | ok a s' => exact hs.of_ok hr
    | error e s' => exact (hs.of_error hr).1
  constructor
  · exact hs.mono (fun _ _ h' => h'.ge) fun _ _ h' => ⟨h'.1.ge, h'.2⟩
  · exact fun _ => rfl
  · intro k hk hlt
    omega

theorem polled_pure (a : α) : Polled looks stop E seen (pure a) (pure a) :=
  polled_of_quiet fun _ => rfl

theorem polled_get : Polled looks stop E seen (get : EStateM ε σ σ) get :=
  polled_of_quiet fun _ => rfl

theorem polled_modify {g : σ → σ} (h : ∀ s, looks (g s) = looks s) :
    Polled looks stop E seen (modify g : EStateM ε σ PUnit) (modify g) :=
  polled_of_quiet h

theorem polled_throw {e : ε} (h : E e) :
    Polled looks stop E seen (throw e : EStateM ε σ α) (throw e) :=
  polled_of_quiet fun _ => ⟨rfl, h⟩

theorem polled_look {g : σ → σ} (h : ∀ s, looks (g s) = looks s + 1) {x₀ x : EStateM ε σ Unit}
    (h₀ : ∀ s, x₀ s = .ok () (g s))
    (hx : ∀ s, x s = if seen (looks s) = true then .error stop (g s) else .ok () (g s)) :
    Polled looks stop E seen x₀ x := by
  intro s
  have hend : looks (endState (x₀ s)) = looks s + 1 := by
    rw [h₀]
    exact h s
  constructor
  · rw [h₀]
    exact (h s).ge.trans' (Nat.le_succ _)
  · intro hclear
    rw [hx, h₀, if_neg]
    rw [hclear (looks s) le_rfl (by omega)]
    exact Bool.false_ne_true
  · intro k hk hlt _ hset
    obtain rfl : k = looks s := by omega
    exact ⟨g s, by rw [hx, if_pos hset], h s⟩

/-- A sequence stops where its first part stops, and else goes on with the looks of the second. -/
theorem Polled.bind {x₀ x : EStateM ε σ α} {f₀ f : α → EStateM ε σ β}
    (hx : Polled looks stop E seen x₀ x) (hf : ∀ a, Polled looks stop E seen (f₀ a) (f a)) :
    Polled looks stop E seen (x₀ >>= f₀) (x >>= f) := by
  intro s
  have h₁ := hx s
  cases hr : x₀ s with
  | error e s₁ =>
    have hbind : (x₀ >>= f₀) s = .error e s₁ := bind_of_error hr
    constructor
    · rw [hbind]
      exact h₁.ends.of_error hr
    · rw [hbind]
      intro hclear
      apply bind_of_error
      rw [h₁.same (by rw [hr]; exact hclear), hr]
    · rw [hbind]
      intro k hk hlt hclear hset
      obtain ⟨s', hs', hlooks⟩ := h₁.stopped k hk (by rw [hr]; exact hlt) hclear hset
      exact ⟨s', bind_of_error hs', hlooks⟩
  | ok a s₁ =>
    have h₂ := hf a s₁
    have hle : looks s ≤ looks s₁ := h₁.ends.of_ok hr
    have hbind : (x₀ >>= f₀) s = f₀ a s₁ := bind_of_ok hr
    have hfirst : ClearBetween seen (looks s) (looks s₁) → (x >>= f) s = f a s₁ := by
      intro hclear
      apply bind_of_ok
      rw [h₁.same (by rw [hr]; exact hclear), hr]
    constructor
    · rw [hbind]
      exact h₂.ends.mono (fun _ _ h => hle.trans h) fun _ _ h => ⟨hle.trans h.1, h.2⟩
    · rw [hbind]
      intro hclear
      have hend : looks s₁ ≤ looks (endState (f₀ a s₁)) := by
        cases hr₂ : f₀ a s₁ with
        | ok b s₂ => exact h₂.ends.of_ok hr₂
        | error e s₂ => exact (h₂.ends.of_error hr₂).1
      rw [hfirst (hclear.mono le_rfl hend), h₂.same (hclear.mono hle le_rfl)]
    · rw [hbind]
      intro k hk hlt hclear hset
      by_cases hk₁ : k < looks s₁
      · obtain ⟨s', hs', hlooks⟩ := h₁.stopped k hk (by rw [hr]; exact hk₁) hclear hset
        exact ⟨s', bind_of_error hs', hlooks⟩
      · rw [hfirst (hclear.mono le_rfl (not_lt.mp hk₁))]
        exact h₂.stopped k (not_lt.mp hk₁) hlt (hclear.mono hle le_rfl) hset

theorem Polled.ite {p : Prop} {_ : Decidable p} {x₀ y₀ x y : EStateM ε σ α}
    (hx : p → Polled looks stop E seen x₀ x) (hy : ¬ p → Polled looks stop E seen y₀ y) :
    Polled looks stop E seen (if p then x₀ else y₀) (if p then x else y) := by
  split_ifs with hp
  · exact hx hp
  · exact hy hp

theorem Polled.iterM {body₀ body : ℕ → β → EStateM ε σ β}
    (h : ∀ i b, Polled looks stop E seen (body₀ i b) (body i b)) (n first : ℕ) (b : β) :
    Polled looks stop E seen (Exec.iterM body₀ n first b) (Exec.iterM body n first b) := by
  induction n generalizing first b with
  | zero => exact polled_pure b
  | succ n ih => exact (h first b).bind fun b' => ih (first + 1) b'

end Rules

end Exec
