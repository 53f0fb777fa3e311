import Mathlib.Algebra.BigOperators.Group.List.Basic
import Mathlib.Tactic.Linarith

/-! Vector instructions on bytes, lane by lane. A register is the list of its lanes, lane 0 first;
masks and wider lanes are natural numbers. -/
namespace Lanes

/-- All ones where two lanes are equal, and zero elsewhere. -/
def cmpeq (a b : List UInt8) : List UInt8 := List.zipWith (fun x y => if x = y then 0xFF else 0x00) a b

/-- The top bit of every lane, that of lane 0 lowest. -/
def movemask : List UInt8 → ℕ
  | [] => 0
  | x :: v => x.toNat / 128 + 2 * movemask v

/-- Ones among the lowest `w` bits. -/
def popcount : ℕ → ℕ → ℕ
  | 0, _ => 0
  | w + 1, mask => mask % 2 + popcount w (mask / 2)

/-- Every lane shifted down by `n` bits. -/
def shiftDown (n : UInt8) (v : List UInt8) : List UInt8 := v.map fun x => x >>> n

/-- Sums of neighbouring lanes, in lanes twice as wide. -/
def paddl : List ℕ → List ℕ
  | [] => []
  | [_] => []
  | x :: y :: v => (x + y) :: paddl v

section Lanes
variable {a b v : List UInt8}

@[simp] theorem length_cmpeq : (cmpeq a b).length = min a.length b.length := List.length_zipWith

theorem cmpeq_cons (x y : UInt8) :
    cmpeq (x :: a) (y :: b) = (if x = y then 0xFF else 0x00) :: cmpeq a b := rfl

theorem cmpeq_replicate {x : UInt8} : (∀ y ∈ cmpeq v (List.replicate v.length x), y = 0xFF) ↔ ∀ y ∈ v, y = x := by
  induction v with
  | nil => simp [cmpeq]
  | cons y v ih =>
    have hne : (if y = x then 0xFF else 0x00 : UInt8) = 0xFF ↔ y = x := by
      split_ifs with h
      · simp [h]
      · simp [h]
    rw [List.length_cons, List.replicate_succ, cmpeq_cons, List.forall_mem_cons, List.forall_mem_cons, ih,
      hne]

theorem movemask_lt (v : List UInt8) : movemask v < 2 ^ v.length := by
  induction v with
  | nil => exact Nat.zero_lt_one
  | cons x v ih =>
    have := x.toNat_lt
    rw [List.length_cons, pow_succ, movemask]
    omega

theorem movemask_eq_iff : movemask v = 2 ^ v.length - 1 ↔ ∀ x ∈ v, 128 ≤ x.toNat := by
  induction v with
  | nil => simp [movemask]
  | cons x v ih =>
    have hx := x.toNat_lt
    have hlt := movemask_lt v
    rw [List.forall_mem_cons, ← ih, List.length_cons, pow_succ, movemask]
    omega

theorem mem_cmpeq {y : UInt8} (h : y ∈ cmpeq a b) : y = 0xFF ∨ y = 0x00 := by
  unfold cmpeq at h
  obtain ⟨i, hi, rfl⟩ := List.getElem_of_mem h
  rw [List.getElem_zipWith]
  split_ifs
  · exact .inl rfl
  · exact .inr rfl

theorem movemask_cmpeq_iff (h : a.length = b.length) :
    movemask (cmpeq a b) = 2 ^ a.length - 1 ↔ ∀ y ∈ cmpeq a b, y = 0xFF := by
  have hlen : a.length = (cmpeq a b).length := by rw [length_cmpeq, h, min_self]
  rw [hlen, movemask_eq_iff]
  refine forall₂_congr fun y hy => ?_
  rcases mem_cmpeq hy with rfl | rfl
  · decide
  · decide

theorem popcount_cmpeq (h : a.length = b.length) :
    popcount a.length (movemask (cmpeq a b)) = (a.zip b).countP fun p => p.1 == p.2 := by
  induction a generalizing b with
  | nil => rfl
  | cons x a ih =>
    cases b with
    | nil => cases h
    | cons y b =>
      have htop : (if x = y then 0xFF else 0x00 : UInt8).toNat / 128 = if x = y then 1 else 0 := by
        split_ifs <;> rfl
      have hlow : ∀ bit m : ℕ, bit < 2 → (bit + 2 * m) % 2 = bit ∧ (bit + 2 * m) / 2 = m := by
        intro bit m hbit
        omega
      have hbit : (if x = y then 1 else 0) < 2 := by split_ifs <;> decide
      obtain ⟨hmod, hdiv⟩ := hlow _ (movemask (cmpeq a b)) hbit
      rw [cmpeq_cons, List.length_cons, popcount, movemask, htop, hmod, hdiv, ih (Nat.succ.inj h),
        List.zip_cons_cons, List.countP_cons, add_comm]
      simp only [beq_iff_eq]

theorem sum_cmpeq_shift (a b : List UInt8) :
    ((shiftDown 7 (cmpeq a b)).map UInt8.toNat).sum = (a.zip b).countP fun p => p.1 == p.2 := by
  induction a generalizing b with
  | nil => rfl
  | cons x a ih =>
    cases b with
    | nil => rfl
    | cons y b =>
      have hbit : ((if x = y then 0xFF else 0x00 : UInt8) >>> 7).toNat = if x = y then 1 else 0 := by
        split_ifs <;> rfl
      rw [cmpeq_cons, shiftDown, List.map_cons, List.map_cons, List.sum_cons, hbit, ← shiftDown, ih,
        List.zip_cons_cons, List.countP_cons, add_comm]
      simp only [beq_iff_eq]

end Lanes

section Sums

theorem length_paddl (v : List ℕ) : (paddl v).length = v.length / 2 := by
  induction v using paddl.induct with
  | case1 => rfl
  | case2 x => simp [paddl]
  | case3 x y v ih =>
    rw [paddl, List.length_cons, ih]
    simp only [List.length_cons]
    omega

/-- Adding neighbours keeps the sum. -/
theorem sum_paddl {v : List ℕ} (h : v.length % 2 = 0) : (paddl v).sum = v.sum := by
  induction v using paddl.induct with
  | case1 => rfl
  | case2 x => cases h
  | case3 x y v ih =>
    simp only [List.length_cons] at h
    rw [paddl, List.sum_cons, ih (by omega), List.sum_cons, List.sum_cons, add_assoc]

end Sums

end Lanes
