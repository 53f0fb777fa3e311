import Mathlib.Algebra.GroupWithZero.Nat
import Mathlib.Data.Finset.Card
import Mathlib.Order.Interval.Finset.Nat

/-! Regions of an address space of 64 bits, and allocators that hand them out. An allocator may
refuse at any time; what it returns is apart from everything that is held. -/

/-- The bytes at `addr` up to `addr + size`. -/
structure Region where
  addr : ℕ
  size : ℕ
  deriving DecidableEq, Repr

namespace Region

/-- No byte in common. -/
def Apart (r s : Region) : Prop := r.addr + r.size ≤ s.addr ∨ s.addr + s.size ≤ r.addr

/-- `r` lies in `s`. -/
def Within (r s : Region) : Prop := s.addr ≤ r.addr ∧ r.addr + r.size ≤ s.addr + s.size

instance (r s : Region) : Decidable (r.Apart s) := inferInstanceAs (Decidable (_ ∨ _))

section Apart
variable {r s t u : Region}

theorem Apart.symm (h : r.Apart s) : s.Apart r := Or.symm h

theorem Apart.within (h : s.Apart u) (hr : r.Within s) (ht : t.Within u) : r.Apart t := by
  unfold Apart Within at *
  omega

theorem Apart.addr_ne (h : r.Apart s) (hr : 0 < r.size) (hs : 0 < s.size) : r.addr ≠ s.addr := by
  unfold Apart at h
  omega

end Apart

def bytes (r : Region) : Finset ℕ := Finset.Ico r.addr (r.addr + r.size)

theorem Apart.disjoint {r s : Region} (h : r.Apart s) : Disjoint r.bytes s.bytes := by
  rw [Finset.disjoint_left]
  intro x hr hs
  unfold bytes at hr hs
  rw [Finset.mem_Ico] at hr hs
  unfold Apart at h
  omega

/-- Regions that are pairwise apart fit side by side into what contains them. -/
theorem sum_size_le {lo hi : ℕ} {list : List Region} (happart : list.Pairwise Apart)
    (hin : ∀ r ∈ list, lo ≤ r.addr ∧ r.addr + r.size ≤ hi) : (list.map size).sum ≤ hi - lo := by
  have hcover : ∃ cover : Finset ℕ, cover.card = (list.map size).sum ∧
      ∀ x, x ∈ cover ↔ ∃ r ∈ list, x ∈ r.bytes := by
    clear hin
    induction list with
    | nil => exact ⟨∅, rfl, by simp⟩
    | cons r list ih =>
      obtain ⟨hr, hlist⟩ := List.pairwise_cons.mp happart
      obtain ⟨cover, hcard, hmem⟩ := ih hlist
      refine ⟨r.bytes ∪ cover, ?_, ?_⟩
      · rw [Finset.card_union_of_disjoint]
        · simp [bytes, hcard]
        · rw [Finset.disjoint_left]
          intro x hx hcov
          obtain ⟨s, hs, hxs⟩ := (hmem x).mp hcov
          exact Finset.disjoint_left.mp (hr s hs).disjoint hx hxs
      · intro x
        simp [hmem]
  obtain ⟨cover, hcard, hmem⟩ := hcover
  have hsub : cover ⊆ Finset.Ico lo hi := by
    intro x hx
    obtain ⟨r, hr, hxr⟩ := (hmem x).mp hx
    have hbounds := hin r hr
    unfold bytes at hxr
    rw [Finset.mem_Ico] at hxr ⊢
    omega
  have hle := Finset.card_le_card hsub
  rwa [hcard, Nat.card_Ico] at hle

end Region

/-- The answers of an allocator: the address that call `n` gets for `size` bytes while the
regions `held` are handed out, or none. -/
structure Allocator where
  malloc : ℕ → List Region → ℕ → Option ℕ
  addr_pos : ∀ {n held size a}, malloc n held size = some a → 0 < a
  addr_aligned : ∀ {n held size a}, malloc n held size = some a → 8 ∣ a
  end_le : ∀ {n held size a}, malloc n held size = some a → a + size ≤ 2 ^ 64
  apart : ∀ {n held size a}, malloc n held size = some a → ∀ r ∈ held, r.Apart ⟨a, size⟩

namespace Allocator

def top (held : List Region) : ℕ := held.foldr (fun r n => max (r.addr + r.size) n) 8

theorem le_top {held : List Region} : ∀ r ∈ held, r.addr + r.size ≤ top held := by
  induction held with
  | nil => simp
  | cons s held ih =>
    intro r hr
    rcases List.mem_cons.mp hr with rfl | hr
    · exact Nat.le_max_left _ _
    · exact (ih r hr).trans (Nat.le_max_right _ _)

theorem eight_le_top (held : List Region) : 8 ≤ top held := by
  induction held with
  | nil => exact le_rfl
  | cons s held ih => exact ih.trans (Nat.le_max_right _ _)

/-- The allocator that returns the next multiple of 8 above what is held. -/
def bump : Allocator where
  malloc _ held size :=
    let a := (top held + 7) / 8 * 8
    if a + size ≤ 2 ^ 64 then some a else none
  addr_pos := by
    intro n held size a h
    have htop := eight_le_top held
    simp only [Option.ite_none_right_eq_some, Option.some.injEq] at h
    omega
  addr_aligned := by
    intro n held size a h
    simp only [Option.ite_none_right_eq_some, Option.some.injEq] at h
    omega
  end_le := by
    intro n held size a h
    simp only [Option.ite_none_right_eq_some, Option.some.injEq] at h
    omega
  apart := by
    intro n held size a h r hr
    have htop := le_top r hr
    simp only [Option.ite_none_right_eq_some, Option.some.injEq] at h
    left
    change r.addr + r.size ≤ a
    omega

end Allocator
