import Mathlib.Order.Basic
import Mathlib.Algebra.Order.Group.Nat

/-! Computations over a state that may stop early, as `EStateM` has them: a
postcondition for each of the two ways to end, its rules for sequencing, and a
counted loop with its invariant rule. -/
namespace Exec
variable {ε σ α β : Type}

/-- The run `r` returned with `Q`, or stopped with `E`. -/
def Ends (r : EStateM.Result ε σ α) (Q : α → σ → Prop) (E : ε → σ → Prop) : Prop :=
  match r with
  | .ok a s => Q a s
  | .error e s => E e s

@[simp] theorem ends_ok {Q : α → σ → Prop} {E : ε → σ → Prop} {a : α} {s : σ} :
    Ends (.ok a s) Q E ↔ Q a s := Iff.rfl

theorem Ends.mono {r : EStateM.Result ε σ α} {Q Q' : α → σ → Prop} {E E' : ε → σ → Prop}
    (h : Ends r Q E) (hQ : ∀ a s, Q a s → Q' a s) (hE : ∀ e s, E e s → E' e s) :
    Ends r Q' E' := by
  cases r with
  | ok a s => exact hQ a s h
  | error e s => exact hE e s h

theorem Ends.weaken {r : EStateM.Result ε σ α} {Q : α → σ → Prop} {E E' : ε → σ → Prop}
    (h : Ends r Q E) (hE : ∀ e s, E e s → E' e s) : Ends r Q E' :=
  h.mono (fun _ _ h => h) hE

theorem Ends.imp {r : EStateM.Result ε σ α} {Q Q' : α → σ → Prop} {E : ε → σ → Prop}
    (h : Ends r Q E) (hQ : ∀ a s, Q a s → Q' a s) : Ends r Q' E :=
  h.mono hQ (fun _ _ h => h)

theorem Ends.of_total {r : EStateM.Result ε σ α} {Q : α → σ → Prop} {E : ε → σ → Prop}
    (h : Ends r Q (fun _ _ => False)) : Ends r Q E :=
  h.weaken (fun _ _ h => h.elim)

theorem Ends.and {r : EStateM.Result ε σ α} {Q Q' : α → σ → Prop} {E E' : ε → σ → Prop}
    (h : Ends r Q E) (h' : Ends r Q' E') :
    Ends r (fun a s => Q a s ∧ Q' a s) (fun e s => E e s ∧ E' e s) := by
  cases r with
  | ok a s => exact ⟨h, h'⟩
  | error e s => exact ⟨h, h'⟩

theorem Ends.of_ok {r : EStateM.Result ε σ α} {Q : α → σ → Prop} {E : ε → σ → Prop}
    (h : Ends r Q E) {a : α} {s : σ} (hr : r = .ok a s) : Q a s := by
  subst hr
  exact h

theorem Ends.of_error {r : EStateM.Result ε σ α} {Q : α → σ → Prop} {E : ε → σ → Prop}
    (h : Ends r Q E) {e : ε} {s : σ} (hr : r = .error e s) : E e s := by
  subst hr
  exact h

theorem Ends.exists_ok {r : EStateM.Result ε σ α} {Q : α → σ → Prop}
    (h : Ends r Q (fun _ _ => False)) : ∃ a s, r = .ok a s ∧ Q a s := by
  cases r with
  | ok a s => exact ⟨a, s, rfl, h⟩
  | error e s => exact h.elim

theorem Ends.exists_error {r : EStateM.Result ε σ α} {E : ε → σ → Prop}
    (h : Ends r (fun _ _ => False) E) : ∃ e s, r = .error e s ∧ E e s := by
  cases r with
  | ok a s => exact h.elim
  | error e s => exact ⟨e, s, rfl, h⟩

def stateOf : EStateM.Result ε σ Unit → Option σ
  | .ok _ s => some s
  | .error _ _ => none

theorem eq_ok_of_stateOf {r : EStateM.Result ε σ Unit} {s : σ} (h : stateOf r = some s) :
    r = .ok () s := by
  cases r with
  | ok a s' =>
    cases h
    rfl
  | error e s' => cases h

/-- How a run ended, and in which state. -/
def ending : EStateM.Result ε σ α → Except ε α × σ
  | .ok a s => (.ok a, s)
  | .error e s => (.error e, s)

theorem eq_ok_of_ending {r : EStateM.Result ε σ α} {a : α} (h : (ending r).1 = .ok a) :
    r = .ok a (ending r).2 := by
  cases r with
  | ok a' s =>
    cases h
    rfl
  | error e s => cases h

theorem eq_error_of_ending {r : EStateM.Result ε σ α} {e : ε} (h : (ending r).1 = .error e) :
    r = .error e (ending r).2 := by
  cases r with
  | ok a s => cases h
  | error e' s =>
    cases h
    rfl

/-- What is evaluated of a result that is there. -/
theorem exists_ok_of_any {x : Except ε α} (p : α → Bool) (h : x.toOption.any p = true) :
    ∃ a, x = .ok a ∧ p a = true := by
  cases x with
  | error e => cases h
  | ok a => exact ⟨a, rfl, h⟩

theorem ends_pure {Q : α → σ → Prop} {E : ε → σ → Prop} {a : α} {s : σ} :
    Ends ((pure a : EStateM ε σ α) s) Q E ↔ Q a s := Iff.rfl

theorem bind_of_ok {x : EStateM ε σ α} {f : α → EStateM ε σ β} {s s' : σ} {a : α}
    (h : x s = .ok a s') : (x >>= f) s = f a s' := by
  change EStateM.bind x f s = _
  rw [EStateM.bind, h]

theorem bind_of_error {x : EStateM ε σ α} {f : α → EStateM ε σ β} {s s' : σ} {e : ε}
    (h : x s = .error e s') : (x >>= f) s = .error e s' := by
  change EStateM.bind x f s = _
  rw [EStateM.bind, h]

theorem get_bind {f : σ → EStateM ε σ β} {s : σ} : ((get : EStateM ε σ σ) >>= f) s = f s s :=
  bind_of_ok rfl

theorem set_bind {f : PUnit → EStateM ε σ β} {s s' : σ} :
    ((set s' : EStateM ε σ PUnit) >>= f) s = f () s' :=
  bind_of_ok rfl

theorem modify_bind {g : σ → σ} {f : PUnit → EStateM ε σ β} {s : σ} :
    ((modify g : EStateM ε σ PUnit) >>= f) s = f () (g s) :=
  bind_of_ok rfl

theorem Ends.bind {x : EStateM ε σ α} {f : α → EStateM ε σ β} {s : σ}
    {Q : α → σ → Prop} {R : β → σ → Prop} {E : ε → σ → Prop}
    (hx : Ends (x s) Q E) (hf : ∀ a s', Q a s' → Ends (f a s') R E) :
    Ends ((x >>= f) s) R E := by
  change Ends (EStateM.bind x f s) R E
  unfold EStateM.bind
  cases hr : x s with
  | ok a s' => exact hf a s' (hx.of_ok hr)
  | error e s' => exact hx.of_error hr

theorem ends_ite {p : Prop} {_ : Decidable p} {x y : EStateM ε σ α} {s : σ}
    {Q : α → σ → Prop} {E : ε → σ → Prop}
    (hx : p → Ends (x s) Q E) (hy : ¬ p → Ends (y s) Q E) :
    Ends ((if p then x else y) s) Q E := by
  split_ifs with hp
  · exact hx hp
  · exact hy hp

/-- `for (i = first; i < first + n; i++)` around a body that updates `b`. -/
def iterM {m : Type → Type} [Monad m] (body : ℕ → β → m β) : ℕ → ℕ → β → m β
  | 0, _, b => pure b
  | n + 1, i, b => do
    let b' ← body i b
    iterM body n (i + 1) b'

theorem iterM_congr {m : Type → Type} [Monad m] {body body' : ℕ → β → m β} {n first : ℕ} {b : β}
    (h : ∀ i b, first ≤ i → i < first + n → body i b = body' i b) :
    iterM body n first b = iterM body' n first b := by
  induction n generalizing first b with
  | zero => rfl
  | succ n ih =>
    rw [iterM, iterM, h first b le_rfl (by omega)]
    congr 1
    funext b'
    exact ih fun i b hle hlt => h i b (by omega) (by omega)

/-- The invariant rule of the counted loop. -/
theorem Ends.iterM {body : ℕ → β → EStateM ε σ β} {E : ε → σ → Prop} (I : ℕ → β → σ → Prop)
    (n first : ℕ) (b : β) (s : σ)
    (hbody : ∀ i b s, first ≤ i → i < first + n → I i b s → Ends (body i b s) (I (i + 1)) E)
    (h : I first b s) : Ends (iterM body n first b s) (I (first + n)) E := by
  induction n generalizing first b s with
  | zero => exact h
  | succ n ih =>
    refine (hbody first b s le_rfl (by omega) h).bind fun b' s' hb' => ?_
    rw [show first + (n + 1) = (first + 1) + n by omega]
    exact ih (first + 1) b' s' (fun i b s hi hn => hbody i b s (by omega) (by omega)) hb'

theorem Ends.iterM_zero {body : ℕ → β → EStateM ε σ β} {E : ε → σ → Prop}
    (I : ℕ → β → σ → Prop) (n : ℕ) (b : β) (s : σ)
    (hbody : ∀ i b s, i < n → I i b s → Ends (body i b s) (I (i + 1)) E)
    (h : I 0 b s) : Ends (Exec.iterM body n 0 b s) (I n) E := by
  have hn := Ends.iterM I n 0 b s (fun i b s _ hi => hbody i b s (by omega)) h
  rwa [zero_add] at hn

/-! ### Errors -/

/-- Whatever state `x` starts in, it stops only with an error of `E`. -/
def Stops (E : ε → Prop) (x : EStateM ε σ α) : Prop :=
  ∀ s, Ends (x s) (fun _ _ => True) (fun e _ => E e)

section Stops
variable {E : ε → Prop} {x y : EStateM ε σ α}

theorem stops_pure (a : α) : Stops E (pure a : EStateM ε σ α) := fun _ => trivial

theorem stops_get : Stops E (get : EStateM ε σ σ) := fun _ => trivial

theorem stops_set (s : σ) : Stops E (set s : EStateM ε σ PUnit) := fun _ => trivial

theorem stops_modify (g : σ → σ) : Stops E (modify g : EStateM ε σ PUnit) := fun _ => trivial

theorem stops_throw {e : ε} (h : E e) : Stops E (throw e : EStateM ε σ α) := fun _ => h

theorem Stops.bind {f : α → EStateM ε σ β} (hx : Stops E x) (hf : ∀ a, Stops E (f a)) :
    Stops E (x >>= f) :=
  fun s => (hx s).bind fun a s' _ => hf a s'

theorem Stops.ite {p : Prop} {_ : Decidable p} (hx : p → Stops E x) (hy : ¬ p → Stops E y) :
    Stops E (if p then x else y) := by
  split_ifs with hp
  · exact hx hp
  · exact hy hp

end Stops

/-! ### Computations without a state -/

/-- `x` meets no fault, and what it returns, if it does, satisfies `Q`. -/
def Safe (x : OptionT (Except ε) α) (Q : α → Prop) : Prop :=
  ∃ r, x.run = .ok r ∧ ∀ a, r = some a → Q a

section Safe
variable {Q Q' : α → Prop} {R : β → Prop} {x y : OptionT (Except ε) α}

theorem safe_pure {a : α} (h : Q a) : Safe (pure a : OptionT (Except ε) α) Q := by
  refine ⟨some a, rfl, ?_⟩
  intro b hb
  cases hb
  exact h

theorem safe_failure : Safe (failure : OptionT (Except ε) α) Q := by
  refine ⟨none, rfl, ?_⟩
  intro b hb
  cases hb

theorem safe_option {r : Option α} (h : ∀ a, r = some a → Q a) :
    Safe (OptionT.mk (pure r) : OptionT (Except ε) α) Q := ⟨r, rfl, h⟩

theorem Safe.imp (h : Safe x Q) (hQ : ∀ a, Q a → Q' a) : Safe x Q' := by
  obtain ⟨r, hr, hq⟩ := h
  exact ⟨r, hr, fun a ha => hQ a (hq a ha)⟩

theorem Safe.returns (h : Safe x Q) {a : α} (hrun : x.run = .ok (some a)) : Q a := by
  obtain ⟨r, hr, hq⟩ := h
  exact hq a (Except.ok.inj (hr.symm.trans hrun))

theorem Safe.bind {f : α → OptionT (Except ε) β} (hx : Safe x Q) (hf : ∀ a, Q a → Safe (f a) R) :
    Safe (x >>= f) R := by
  obtain ⟨r, hr, hq⟩ := hx
  cases r with
  | none =>
    refine ⟨none, ?_, ?_⟩
    · rw [OptionT.run_bind, hr]
      rfl
    · intro b hb
      cases hb
  | some a =>
    obtain ⟨r', hr', hq'⟩ := hf a (hq a rfl)
    refine ⟨r', ?_, hq'⟩
    rw [OptionT.run_bind, hr, ← hr']
    rfl

/-- A sequence that returns has returned at both steps. -/
theorem exists_of_run_bind {f : α → OptionT (Except ε) β} {b : β}
    (h : (x >>= f).run = .ok (some b)) : ∃ a, x.run = .ok (some a) ∧ (f a).run = .ok (some b) := by
  rw [OptionT.run_bind] at h
  cases hx : x.run with
  | error e =>
    rw [hx] at h
    cases h
  | ok o =>
    rw [hx] at h
    cases o with
    | none => cases h
    | some a => exact ⟨a, rfl, h⟩

theorem safe_ite {p : Prop} {_ : Decidable p} (hx : p → Safe x Q) (hy : ¬ p → Safe y Q) :
    Safe (if p then x else y) Q := by
  split_ifs with hp
  · exact hx hp
  · exact hy hp

theorem Safe.orElse (hx : Safe x Q) (hy : Safe y Q) : Safe (x <|> y) Q := by
  obtain ⟨r, hr, hq⟩ := hx
  cases r with
  | none =>
    obtain ⟨r', hr', hq'⟩ := hy
    refine ⟨r', ?_, hq'⟩
    rw [OptionT.run_orElse, hr, ← hr']
    rfl
  | some a =>
    refine ⟨some a, ?_, hq⟩
    rw [OptionT.run_orElse, hr]
    rfl

theorem Safe.iterM {body : ℕ → β → OptionT (Except ε) β} (I : β → Prop) (n first : ℕ) (b : β)
    (hbody : ∀ i b, first ≤ i → i < first + n → I b → Safe (body i b) I) (h : I b) :
    Safe (Exec.iterM body n first b) I := by
  induction n generalizing first b with
  | zero => exact safe_pure h
  | succ n ih =>
    apply (hbody first b le_rfl (by omega) h).bind
    intro b' hb'
    exact ih (first + 1) b' (fun i b hi hn => hbody i b (by omega) (by omega)) hb'

/-- `x` meets no fault; what it returns satisfies `Q`, and it gives up only if `E`. -/
def Yields (x : OptionT (Except ε) α) (Q : α → Prop) (E : Prop) : Prop :=
  ∃ r, x.run = .ok r ∧ (∀ a, r = some a → Q a) ∧ (r = none → E)

section Yields
variable {E E' : Prop}

theorem yields_pure {a : α} (h : Q a) : Yields (pure a : OptionT (Except ε) α) Q E := by
  refine ⟨some a, rfl, ?_, nofun⟩
  intro b hb
  cases hb
  exact h

theorem yields_failure (h : E) : Yields (failure : OptionT (Except ε) α) Q E :=
  ⟨none, rfl, nofun, fun _ => h⟩

theorem yields_option {r : Option α} (h : ∀ a, r = some a → Q a) (hn : r = none → E) :
    Yields (OptionT.mk (pure r) : OptionT (Except ε) α) Q E := ⟨r, rfl, h, hn⟩

theorem Yields.imp (h : Yields x Q E) (hQ : ∀ a, Q a → Q' a) (hE : E → E') : Yields x Q' E' := by
  obtain ⟨r, hr, hq, he⟩ := h
  exact ⟨r, hr, fun a ha => hQ a (hq a ha), fun hn => hE (he hn)⟩

theorem Yields.safe (h : Yields x Q E) : Safe x Q := by
  obtain ⟨r, hr, hq, -⟩ := h
  exact ⟨r, hr, hq⟩

theorem Safe.yields (h : Safe x Q) : Yields x Q True := by
  obtain ⟨r, hr, hq⟩ := h
  exact ⟨r, hr, hq, fun _ => trivial⟩

theorem Yields.bind {f : α → OptionT (Except ε) β} (hx : Yields x Q E)
    (hf : ∀ a, Q a → Yields (f a) R E) : Yields (x >>= f) R E := by
  obtain ⟨r, hr, hq, he⟩ := hx
  cases r with
  | none =>
    refine ⟨none, ?_, nofun, fun _ => he rfl⟩
    rw [OptionT.run_bind, hr]
    rfl
  | some a =>
    obtain ⟨r', hr', hq', he'⟩ := hf a (hq a rfl)
    refine ⟨r', ?_, hq', he'⟩
    rw [OptionT.run_bind, hr, ← hr']
    rfl

theorem yields_ite {p : Prop} {_ : Decidable p} (hx : p → Yields x Q E) (hy : ¬ p → Yields y Q E) :
    Yields (if p then x else y) Q E := by
  split_ifs with hp
  · exact hx hp
  · exact hy hp

theorem Yields.iterM {body : ℕ → β → OptionT (Except ε) β} (I : ℕ → β → Prop) (n first : ℕ) (b : β)
    (hbody : ∀ i b, first ≤ i → i < first + n → I i b → Yields (body i b) (I (i + 1)) E)
    (h : I first b) : Yields (Exec.iterM body n first b) (I (first + n)) E := by
  induction n generalizing first b with
  | zero => exact yields_pure h
  | succ n ih =>
    apply (hbody first b le_rfl (by omega) h).bind
    intro b' hb'
    rw [show first + (n + 1) = (first + 1) + n by omega]
    exact ih (first + 1) b' (fun i b hi hn => hbody i b (by omega) (by omega)) hb'

theorem Yields.iterM_zero {body : ℕ → β → OptionT (Except ε) β} (I : ℕ → β → Prop) (n : ℕ) (b : β)
    (hbody : ∀ i b, i < n → I i b → Yields (body i b) (I (i + 1)) E) (h : I 0 b) :
    Yields (Exec.iterM body n 0 b) (I n) E := by
  have hn := Yields.iterM I n 0 b (fun i b _ hi => hbody i b (by omega)) h
  rwa [zero_add] at hn

end Yields

/-- Whatever `x` returns, `y` returns too. -/
def Within (x y : OptionT (Except ε) α) : Prop :=
  ∀ a, x.run = .ok (some a) → y.run = .ok (some a)

theorem Within.refl (x : OptionT (Except ε) α) : Within x x := fun _ h => h

theorem Within.bind {f g : α → OptionT (Except ε) β} (h : Within x y)
    (hf : ∀ a, Within (f a) (g a)) : Within (x >>= f) (y >>= g) := by
  intro b hb
  obtain ⟨a, ha, hb⟩ := exists_of_run_bind hb
  rw [OptionT.run_bind, h a ha]
  exact hf a b hb

theorem Within.ite {p : Prop} {_ : Decidable p} {x' y' : OptionT (Except ε) α} (hx : Within x x')
    (hy : Within y y') : Within (if p then x else y) (if p then x' else y') := by
  split_ifs
  · exact hx
  · exact hy

theorem Within.iterM {body body' : ℕ → β → OptionT (Except ε) β}
    (h : ∀ i b, Within (body i b) (body' i b)) (n first : ℕ) (b : β) :
    Within (Exec.iterM body n first b) (Exec.iterM body' n first b) := by
  induction n generalizing first b with
  | zero => exact .refl _
  | succ n ih => exact (h first b).bind fun b' => ih (first + 1) b'

end Safe

/-! ### Refinement -/

/-- Whatever `x` returns, `y` returns too; only stopping is up to `x`. -/
def Refines (x y : EStateM ε σ α) : Prop := ∀ s a s', x s = .ok a s' → y s = .ok a s'

theorem Refines.refl (x : EStateM ε σ α) : Refines x x := fun _ _ _ h => h

theorem refines_throw (e : ε) (y : EStateM ε σ α) : Refines (throw e) y := by
  intro _ _ _ h
  cases h

theorem Refines.bind {x y : EStateM ε σ α} {f g : α → EStateM ε σ β} (hx : Refines x y)
    (hf : ∀ a, Refines (f a) (g a)) : Refines (x >>= f) (y >>= g) := by
  intro s b s' h
  change EStateM.bind x f s = _ at h
  change EStateM.bind y g s = _
  unfold EStateM.bind at h ⊢
  cases hr : x s with
  | error e s₁ =>
    rw [hr] at h
    cases h
  | ok a s₁ =>
    rw [hr] at h
    rw [hx s a s₁ hr]
    exact hf a s₁ b s' h

theorem Refines.ite {p : Prop} {_ : Decidable p} {x y x' y' : EStateM ε σ α} (hx : Refines x x')
    (hy : Refines y y') : Refines (if p then x else y) (if p then x' else y') := by
  split_ifs
  · exact hx
  · exact hy

theorem Refines.iterM {body body' : ℕ → β → EStateM ε σ β}
    (h : ∀ i b, Refines (body i b) (body' i b)) (n first : ℕ) (b : β) :
    Refines (Exec.iterM body n first b) (Exec.iterM body' n first b) := by
  induction n generalizing first b with
  | zero => exact .refl _
  | succ n ih => exact (h first b).bind fun b' => ih (first + 1) b'

end Exec
