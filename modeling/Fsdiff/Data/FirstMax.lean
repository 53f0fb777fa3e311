import Mathlib.Order.Lattice

/-! Running maxima: a loop that keeps the best entry so far, and only gives it up for a
better one, ends with the first of the best. -/
namespace FirstMax
variable {α β : Type} [LinearOrder α] [LinearOrder β]

/-- The entry and value `best` against those of a `seed`: the seed itself if no entry in `P`
has a larger value, and else the first entry with the largest. -/
def BestOf (P : α → Prop) (value : α → β) (seed best : α × β) : Prop :=
  ((∀ a, P a → value a ≤ seed.2) ∧ best = seed) ∨
    (seed.2 < best.2 ∧ P best.1 ∧ best.2 = value best.1 ∧
      ∀ a, P a → value a ≤ best.2 ∧ (value a = best.2 → best.1 ≤ a))

variable {P Q : α → Prop} {value : α → β} {seed best : α × β} {a : α}

theorem BestOf.skip (hQP : ∀ x, Q x → P x) (hPQ : ∀ x, P x → Q x ∨ value x ≤ seed.2)
    (h : BestOf Q value seed best) : BestOf P value seed best := by
  rcases h with ⟨hle, rfl⟩ | ⟨hlt, hmem, hvalue, hmax⟩
  · left
    refine ⟨?_, rfl⟩
    intro x hx
    rcases hPQ x hx with hq | hv
    · exact hle x hq
    · exact hv
  · right
    refine ⟨hlt, hQP _ hmem, hvalue, ?_⟩
    intro x hx
    rcases hPQ x hx with hq | hv
    · exact hmax x hq
    · have hbelow := hv.trans_lt hlt
      exact ⟨hbelow.le, fun heq => absurd heq hbelow.ne⟩

theorem BestOf.take (ha : P a) (hlt : seed.2 < value a) (hfirst : ∀ x, P x → a ≤ x)
    (hQP : ∀ x, Q x → P x) (hPQ : ∀ x, P x → x = a ∨ Q x)
    (h : BestOf Q value (a, value a) best) : BestOf P value seed best := by
  right
  rcases h with ⟨hle, rfl⟩ | ⟨hgt, hmem, hvalue, hmax⟩
  · refine ⟨hlt, ha, rfl, ?_⟩
    intro x hx
    refine ⟨?_, fun _ => hfirst x hx⟩
    rcases hPQ x hx with rfl | hq
    · exact le_rfl
    · exact hle x hq
  · refine ⟨hlt.trans hgt, hQP _ hmem, hvalue, ?_⟩
    intro x hx
    rcases hPQ x hx with rfl | hq
    · exact ⟨hgt.le, fun heq => absurd heq hgt.ne⟩
    · exact hmax x hq

theorem BestOf.stop (ha : P a) (hlt : seed.2 < value a) (hfirst : ∀ x, P x → a ≤ x)
    (hmax : ∀ x, P x → value x ≤ value a) : BestOf P value seed (a, value a) :=
  .inr ⟨hlt, ha, rfl, fun x hx => ⟨hmax x hx, fun _ => hfirst x hx⟩⟩

end FirstMax
