import Fsdiff.Data.Bytes
import Mathlib.Algebra.BigOperators.Group.List.Basic

/-! Lists that are read `k` elements at a time, and their rest one by one. -/
namespace Chunks
open ByteString

section Defs
variable {α β : Type*}

/-- Every whole chunk passes `p`, and every element behind them passes `q`. -/
def allChunks (k : ℕ) (p : List α → Bool) (q : α → Bool) (s : List α) : Bool :=
  (List.range (s.length / k)).all (fun i => p (window s (i * k) k)) &&
    (s.drop (s.length / k * k)).all q

/-- `f` on the chunks of two lists of one length, and `μ` on what is behind them. -/
def sumChunks (k : ℕ) (f μ : List α → List β → ℕ) (a : List α) (b : List β) : ℕ :=
  ((List.range (a.length / k)).map fun i => f (window a (i * k) k) (window b (i * k) k)).sum +
    μ (a.drop (a.length / k * k)) (b.drop (a.length / k * k))

end Defs

section All
variable {α : Type*} {s : List α} {k : ℕ}

theorem chunk_le {i : ℕ} (hi : i < s.length / k) : i * k + k ≤ s.length := by
  have hmul := Nat.mul_le_mul_right k (show i + 1 ≤ s.length / k from hi)
  have hle := Nat.div_mul_le_self s.length k
  rw [add_mul, one_mul] at hmul
  omega

/-- An element is in a chunk or behind all of them. -/
theorem forall_mem_chunks {P : α → Prop} :
    (∀ x ∈ s, P x) ↔ (∀ i < s.length / k, ∀ x ∈ window s (i * k) k, P x) ∧
      ∀ x ∈ s.drop (s.length / k * k), P x := by
  constructor
  · intro h
    exact ⟨fun i _ x hx => h x (List.mem_of_mem_drop (List.mem_of_mem_take hx)),
      fun x hx => h x (List.mem_of_mem_drop hx)⟩
  · rintro ⟨hchunks, hrest⟩ x hx
    obtain ⟨j, hj, rfl⟩ := List.getElem_of_mem hx
    rcases Nat.lt_or_ge j (s.length / k * k) with hlt | hge
    · have hk : 0 < k := by
        rcases Nat.eq_zero_or_pos k with rfl | hk
        · omega
        · exact hk
      have hi : j / k < s.length / k := Nat.div_lt_of_lt_mul (by rwa [mul_comm])
      have hend := chunk_le hi
      have hdiv := Nat.div_add_mod j k
      have hmod := Nat.mod_lt j hk
      rw [mul_comm] at hdiv
      apply hchunks (j / k) hi
      rw [List.mem_iff_getElem]
      refine ⟨j % k, by rwa [length_window hend], ?_⟩
      simp [window, hdiv]
    · apply hrest
      rw [List.mem_iff_getElem]
      refine ⟨j - s.length / k * k, by rw [List.length_drop]; omega, ?_⟩
      simp [Nat.add_sub_cancel' hge]

theorem allChunks_iff {p : List α → Bool} {q : α → Bool} (s : List α)
    (hp : ∀ c, c.length = k → (p c = true ↔ ∀ x ∈ c, q x = true)) :
    allChunks k p q s = true ↔ ∀ x ∈ s, q x = true := by
  rw [allChunks, Bool.and_eq_true, List.all_eq_true, List.all_eq_true,
    forall_mem_chunks (s := s) (k := k)]
  refine and_congr_left fun _ => ?_
  constructor
  · intro h i hi
    exact (hp _ (length_window (chunk_le hi))).mp (h i (List.mem_range.mpr hi))
  · intro h i hi
    have hi := List.mem_range.mp hi
    exact (hp _ (length_window (chunk_le hi))).mpr (h i hi)

end All

section Sum
variable {α β : Type*} {f μ : List α → List β → ℕ} {a : List α} {b : List β} {k : ℕ}

theorem sum_chunks (hzero : μ [] [] = 0)
    (hadd : ∀ a b c d, a.length = b.length → μ (a ++ c) (b ++ d) = μ a b + μ c d)
    (hf : ∀ c d, c.length = k → d.length = k → f c d = μ c d) (n : ℕ) (ha : n * k ≤ a.length)
    (hb : n * k ≤ b.length) :
    ((List.range n).map fun i => f (window a (i * k) k) (window b (i * k) k)).sum =
      μ (a.take (n * k)) (b.take (n * k)) := by
  induction n with
  | zero => simp [hzero]
  | succ n ih =>
    rw [add_mul, one_mul] at ha hb ⊢
    have hla : (window a (n * k) k).length = k := length_window (by omega)
    have hlb : (window b (n * k) k).length = k := length_window (by omega)
    rw [List.range_succ, List.map_append, List.sum_append, ih (by omega) (by omega), List.take_add,
      List.take_add, hadd _ _ _ _ (by rw [List.length_take, List.length_take]; omega)]
    change _ = _ + μ (window a (n * k) k) (window b (n * k) k)
    rw [← hf _ _ hla hlb, List.map_singleton, List.sum_singleton]

/-- What is additive may be computed chunk by chunk. -/
theorem sumChunks_eq (hzero : μ [] [] = 0)
    (hadd : ∀ a b c d, a.length = b.length → μ (a ++ c) (b ++ d) = μ a b + μ c d)
    (hf : ∀ c d, c.length = k → d.length = k → f c d = μ c d) (h : a.length = b.length) :
    sumChunks k f μ a b = μ a b := by
  have hle : a.length / k * k ≤ a.length := Nat.div_mul_le_self _ _
  rw [sumChunks, sum_chunks hzero hadd hf _ hle (h ▸ hle),
    ← hadd _ _ _ _ (by rw [List.length_take, List.length_take]; omega), List.take_append_drop,
    List.take_append_drop]

end Sum

end Chunks
