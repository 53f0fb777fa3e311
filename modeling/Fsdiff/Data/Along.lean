import Fsdiff.Data.Exec
import Mathlib.Order.Defs.Unbundled

/-! Computations that change their state along a relation only, whether they return or stop. -/
namespace Exec
variable {ε σ α β : Type}

/-- Every run of `x` ends in a state that `R` leads to. -/
def Along (R : σ → σ → Prop) (x : EStateM ε σ α) : Prop :=
  ∀ s, Ends (x s) (fun _ s' => R s s') (fun _ s' => R s s')

section Rules
variable {R : σ → σ → Prop}

theorem along_modify {g : σ → σ} (h : ∀ s, R s (g s)) : Along R (modify g : EStateM ε σ PUnit) := h

theorem Along.ite {p : Prop} {_ : Decidable p} {x y : EStateM ε σ α} (hx : p → Along R x)
    (hy : ¬ p → Along R y) : Along R (if p then x else y) := by
  split_ifs with hp
  · exact hx hp
  · exact hy hp

section Refl
variable [Std.Refl R]

theorem along_pure (a : α) : Along R (pure a : EStateM ε σ α) := fun s => Std.Refl.refl s

theorem along_throw (e : ε) : Along R (throw e : EStateM ε σ α) := fun s => Std.Refl.refl s

theorem along_get : Along R (get : EStateM ε σ σ) := fun s => Std.Refl.refl s

end Refl

section Trans
variable [IsTrans σ R]

theorem Along.bind {x : EStateM ε σ α} {f : α → EStateM ε σ β} (hx : Along R x) (hf : ∀ a, Along R (f a)) :
    Along R (x >>= f) := by
  intro s
  apply (hx s).bind
  intro a s' hs'
  have htrans : ∀ s'', R s' s'' → R s s'' := fun s'' => IsTrans.trans s s' s'' hs'
  exact (hf a s').mono (fun _ => htrans) fun _ => htrans

theorem Along.iterM [Std.Refl R] {body : ℕ → β → EStateM ε σ β} (hbody : ∀ i b, Along R (body i b)) (n first : ℕ) (b : β) :
    Along R (Exec.iterM body n first b) := by
  induction n generalizing first b with
  | zero => exact along_pure b
  | succ n ih => exact (hbody first b).bind fun b' => ih (first + 1) b'

end Trans

end Rules

end Exec
