import Mathlib.Data.List.Basic
import Mathlib.Tactic.Ring
import Mathlib.Algebra.Order.Group.Nat

/-! Strings seen through positions: windows, occurrences at a position, and
fixed-width little-endian fields. Nothing here is specific to one format. -/
namespace ByteString

/-- The `n` entries of `s` that start at `p`; shorter when `s` ends first. -/
def window {α : Type*} (s : List α) (p n : ℕ) : List α := (s.drop p).take n

/-- `t` is what `s` holds at position `p`. -/
def OccursAt {α : Type*} (s : List α) (p : ℕ) (t : List α) : Prop := t <+: s.drop p

section Windows
variable {α : Type*} {s t u : List α} {p n m : ℕ}

@[simp] theorem window_zero : window s p 0 = [] := by simp [window]

theorem length_window (h : p + n ≤ s.length) : (window s p n).length = n := by
  simp only [window, List.length_take, List.length_drop]
  omega

theorem length_window_le : (window s p n).length ≤ n := by
  simp [window]

theorem window_append : window s p n ++ window s (p + n) m = window s p (n + m) := by
  rw [window, window, window, ← List.drop_drop, ← List.take_add]

theorem window_append_drop {q : ℕ} (h : p ≤ q) : window s p (q - p) ++ s.drop q = s.drop p := by
  have hq : s.drop q = (s.drop p).drop (q - p) := by
    rw [List.drop_drop, Nat.add_sub_cancel' h]
  rw [hq]
  exact List.take_append_drop _ _

theorem window_succ (h : p < s.length) :
    window s p (n + 1) = s.get ⟨p, h⟩ :: window s (p + 1) n := by
  rw [window, List.drop_eq_getElem_cons h, List.take_succ_cons]
  rfl

theorem getElem?_window {k : ℕ} (hk : k < n) : (window s p n)[k]? = s[p + k]? := by
  simp [window, hk]

theorem window_ext {q : ℕ} (h : ∀ k < n, s[p + k]? = t[q + k]?) : window s p n = window t q n := by
  apply List.ext_getElem?
  intro k
  by_cases hk : k < n
  · rw [getElem?_window hk, getElem?_window hk, h k hk]
  · have hs := length_window_le (s := s) (p := p) (n := n)
    have ht := length_window_le (s := t) (p := q) (n := n)
    rw [List.getElem?_eq_none (by omega), List.getElem?_eq_none (by omega)]

theorem window_eq_of_blocks {q bs : ℕ}
    (h : ∀ k < n, window s (p + k * bs) bs = window t (q + k * bs) bs) :
    window s p (n * bs) = window t q (n * bs) := by
  induction n with
  | zero => rw [Nat.zero_mul, window_zero, window_zero]
  | succ n ih =>
    rw [add_mul, one_mul, ← window_append, ← window_append,
      ih fun k hk => h k (by omega), h n (by omega)]

theorem window_eq_replicate_of_blocks {a : α} {bs : ℕ}
    (h : ∀ k < n, window s (p + k * bs) bs = List.replicate bs a) :
    window s p (n * bs) = List.replicate (n * bs) a := by
  induction n with
  | zero => rw [Nat.zero_mul, window_zero, List.replicate_zero]
  | succ n ih =>
    rw [add_mul, one_mul, ← window_append, ih fun k hk => h k (by omega), h n (by omega),
      ← List.replicate_add]

theorem window_all : window s 0 s.length = s := by simp [window]

theorem window_eq_replicate {a : α} (h : ∀ k < n, s[p + k]? = some a) :
    window s p n = List.replicate n a := by
  have hr : window (List.replicate n a) 0 n = List.replicate n a := by simp [window]
  rw [← hr]
  apply window_ext
  intro k hk
  rw [h k hk, zero_add, List.getElem?_replicate_of_lt hk]

theorem window_window {k : ℕ} (h : k + m ≤ n) : window (window s p n) k m = window s (p + k) m := by
  simp only [window, List.drop_take, List.take_take, List.drop_drop]
  rw [min_eq_left (by omega)]

theorem occursAt_append :
    OccursAt s p (t ++ u) ↔ OccursAt s p t ∧ OccursAt s (p + t.length) u := by
  simp only [OccursAt]
  constructor
  · rintro ⟨r, hr⟩
    refine ⟨⟨u ++ r, by rw [← hr, List.append_assoc]⟩, ⟨r, ?_⟩⟩
    rw [← List.drop_drop, ← hr, List.append_assoc, List.drop_left]
  · rintro ⟨⟨r, hr⟩, ⟨q, hq⟩⟩
    rw [← List.drop_drop, ← hr, List.drop_left] at hq
    exact ⟨q, by rw [← hr, ← hq, List.append_assoc]⟩

theorem occursAt_cons {a : α} :
    OccursAt s p (a :: t) ↔ s[p]? = some a ∧ OccursAt s (p + 1) t := by
  rw [← List.singleton_append, occursAt_append, List.length_singleton]
  refine and_congr_left fun _ => ?_
  constructor
  · rintro ⟨r, hr⟩
    have := congrArg (·[0]?) hr
    simpa using this.symm
  · intro h
    obtain ⟨hp, rfl⟩ := List.getElem?_eq_some_iff.mp h
    exact ⟨s.drop (p + 1), by rw [List.drop_eq_getElem_cons hp]; rfl⟩

theorem OccursAt.window_eq (h : OccursAt s p t) : window s p t.length = t := by
  obtain ⟨r, hr⟩ := h
  simp [window, ← hr]

/-- The middle of a concatenation occurs right after what precedes it. -/
theorem occursAt_middle (a b c : List α) : OccursAt (a ++ (b ++ c)) a.length b := by
  simp [OccursAt]

end Windows

/-- The `k` low-order bytes of `n`, least significant first. -/
def leBytes : ℕ → ℕ → List UInt8
  | 0, _ => []
  | k + 1, n => UInt8.ofNat n :: leBytes k (n / 256)

def leNat : List UInt8 → ℕ
  | [] => 0
  | b :: bs => b.toNat + 256 * leNat bs

@[simp] theorem length_leBytes (k n : ℕ) : (leBytes k n).length = k := by
  induction k generalizing n with
  | zero => rfl
  | succ k ih => simp [leBytes, ih]

theorem leBytes_mod (k n : ℕ) : leBytes k (n % 256 ^ k) = leBytes k n := by
  induction k generalizing n with
  | zero => rfl
  | succ k ih =>
    have hb : UInt8.ofNat (n % 256 ^ (k + 1)) = UInt8.ofNat n := by
      apply UInt8.toNat_inj.mp
      rw [UInt8.toNat_ofNat', UInt8.toNat_ofNat', pow_succ', Nat.mod_mul_right_mod]
    rw [leBytes, leBytes, hb, pow_succ', Nat.mod_mul_right_div_self, ih]

theorem leNat_leBytes (k n : ℕ) : leNat (leBytes k n) = n % 256 ^ k := by
  induction k generalizing n with
  | zero => simp [leBytes, leNat, Nat.mod_one]
  | succ k ih =>
    rw [leBytes, leNat, ih, UInt8.toNat_ofNat', show 2 ^ 8 = 256 from rfl, pow_succ', Nat.mod_mul]

theorem leNat_leBytes_of_lt {k n : ℕ} (h : n < 256 ^ k) : leNat (leBytes k n) = n := by
  rw [leNat_leBytes, Nat.mod_eq_of_lt h]

theorem leNat_lt (bs : List UInt8) : leNat bs < 256 ^ bs.length := by
  induction bs with
  | nil => simp [leNat]
  | cons b bs ih =>
    have hb := b.toNat_lt
    simp only [leNat, List.length_cons, pow_succ']
    omega

end ByteString
