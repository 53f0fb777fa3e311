import Fsdiff.Data.Bytes

/-! Base-128 numbers: seven bits a byte, least significant group first, bit 7 set
on every byte but the last. -/
namespace ByteString

def varintGroups : ℕ → ℕ → List UInt8
  | 0, n => [UInt8.ofNat n]
  | fuel + 1, n =>
    if n < 128 then [UInt8.ofNat n]
    else UInt8.ofNat (n % 128 + 128) :: varintGroups fuel (n / 128)

/-- The shortest spelling of `n`. -/
def varint (n : ℕ) : List UInt8 := varintGroups n n

private theorem varintGroups_eq {f g n : ℕ} (hf : n ≤ f) (hg : n ≤ g) :
    varintGroups f n = varintGroups g n := by
  induction f generalizing g n with
  | zero =>
    obtain rfl : n = 0 := by omega
    cases g <;> rfl
  | succ f ih =>
    cases g with
    | zero =>
      obtain rfl : n = 0 := by omega
      rfl
    | succ g =>
      simp only [varintGroups]
      split_ifs with h
      · rfl
      · rw [ih (g := g) (by omega) (by omega)]

theorem varint_of_lt {n : ℕ} (h : n < 128) : varint n = [UInt8.ofNat n] := by
  cases n with
  | zero => rfl
  | succ n => rw [varint, varintGroups, if_pos h]

theorem varint_of_ge {n : ℕ} (h : 128 ≤ n) :
    varint n = UInt8.ofNat (n % 128 + 128) :: varint (n / 128) := by
  obtain ⟨k, rfl⟩ : ∃ k, n = k + 1 := ⟨n - 1, by omega⟩
  rw [varint, varintGroups, if_neg (by omega), varint, varintGroups_eq (by omega) le_rfl]

theorem length_varint_le {n : ℕ} (h : 0 < n) : (varint n).length ≤ n := by
  induction n using Nat.strong_induction_on with
  | _ n ih =>
    by_cases hn : n < 128
    · rw [varint_of_lt hn]
      exact h
    · rw [varint_of_ge (not_lt.mp hn), List.length_cons]
      have := ih (n / 128) (by omega) (by omega)
      omega

/-! ### Spellings -/

/-- A base-128 string: it ends with its first byte below 128. -/
def IsVarint : List UInt8 → Prop
  | [] => False
  | b :: s => if b.toNat < 128 then s = [] else IsVarint s

instance decidableIsVarint : (s : List UInt8) → Decidable (IsVarint s)
  | [] => inferInstanceAs (Decidable False)
  | b :: s =>
    haveI := decidableIsVarint s
    inferInstanceAs (Decidable (if b.toNat < 128 then s = [] else IsVarint s))

/-- The number that a base-128 string spells. -/
def varintValue : List UInt8 → ℕ
  | [] => 0
  | b :: s => b.toNat % 128 + 128 * varintValue s

/-- Every byte asks for another one. -/
def Continues (s : List UInt8) : Prop := ∀ b ∈ s, 128 ≤ b.toNat

instance (s : List UInt8) : Decidable (Continues s) := List.decidableBAll _ s

section Spellings
variable {s t : List UInt8} {b : UInt8}

theorem isVarint_cons_of_lt (h : b.toNat < 128) : IsVarint (b :: s) ↔ s = [] := by
  rw [IsVarint, if_pos h]

theorem isVarint_cons_of_ge (h : 128 ≤ b.toNat) : IsVarint (b :: s) ↔ IsVarint s := by
  rw [IsVarint, if_neg (not_lt.mpr h)]

theorem varintValue_lt (s : List UInt8) : varintValue s < 128 ^ s.length := by
  induction s with
  | nil => exact Nat.one_pos
  | cons b s ih =>
    rw [varintValue, List.length_cons, pow_succ]
    omega

theorem IsVarint.exists_last (h : IsVarint s) :
    ∃ init last, s = init ++ [last] ∧ Continues init ∧ last.toNat < 128 := by
  induction s with
  | nil => exact h.elim
  | cons b s ih =>
    by_cases hb : b.toNat < 128
    · obtain rfl := (isVarint_cons_of_lt hb).mp h
      exact ⟨[], b, rfl, by simp [Continues], hb⟩
    · obtain ⟨init, last, rfl, hinit, hlast⟩ := ih ((isVarint_cons_of_ge (not_lt.mp hb)).mp h)
      refine ⟨b :: init, last, rfl, ?_, hlast⟩
      intro x hx
      rcases List.mem_cons.mp hx with rfl | hx
      · exact not_lt.mp hb
      · exact hinit x hx

theorem isVarint_append_last {init : List UInt8} {last : UInt8} (hinit : Continues init)
    (hlast : last.toNat < 128) : IsVarint (init ++ [last]) := by
  induction init with
  | nil => exact (isVarint_cons_of_lt hlast).mpr rfl
  | cons b init ih =>
    rw [List.cons_append, isVarint_cons_of_ge (hinit b List.mem_cons_self)]
    exact ih fun x hx => hinit x (List.mem_cons_of_mem _ hx)

theorem varintValue_append (s t : List UInt8) :
    varintValue (s ++ t) = varintValue s + 128 ^ s.length * varintValue t := by
  induction s with
  | nil => simp [varintValue]
  | cons b s ih =>
    rw [List.cons_append, varintValue, varintValue, ih, List.length_cons, pow_succ]
    ring

theorem not_continues_of_isVarint (h : IsVarint s) : ¬ Continues s := by
  obtain ⟨init, last, rfl, -, hlast⟩ := h.exists_last
  intro hc
  have := hc last (by simp)
  omega

/-- One string has at most one base-128 number at its front. -/
theorem IsVarint.eq_of_prefix {p q : List UInt8} (hp : IsVarint p) (hq : IsVarint q) (hps : p <+: s)
    (hqs : q <+: s) : p = q := by
  induction p generalizing q s with
  | nil => exact hp.elim
  | cons b p ih =>
    cases q with
    | nil => exact hq.elim
    | cons c q =>
      cases s with
      | nil => exact absurd (List.prefix_nil.mp hps) (by simp)
      | cons d s =>
        obtain ⟨rfl, hps'⟩ := List.cons_prefix_cons.mp hps
        obtain ⟨rfl, hqs'⟩ := List.cons_prefix_cons.mp hqs
        by_cases hb : c.toNat < 128
        · rw [(isVarint_cons_of_lt hb).mp hp, (isVarint_cons_of_lt hb).mp hq]
        · rw [isVarint_cons_of_ge (not_lt.mp hb)] at hp hq
          rw [ih hp hq hps' hqs']

/-- What stands at the front of a string: a number of at most `k` bytes, or `k` bytes that
continue, or nothing but fewer of those. -/
theorem varint_cases (k : ℕ) (s : List UInt8) :
    (∃ p, p <+: s ∧ IsVarint p ∧ p.length ≤ k) ∨
      (∃ p, p <+: s ∧ Continues p ∧ p.length = k) ∨ (Continues s ∧ s.length < k) := by
  induction k generalizing s with
  | zero => exact .inr (.inl ⟨[], List.nil_prefix, by simp [Continues], rfl⟩)
  | succ k ih =>
    cases s with
    | nil => exact .inr (.inr ⟨by simp [Continues], Nat.succ_pos k⟩)
    | cons b s =>
      by_cases hb : b.toNat < 128
      · left
        refine ⟨[b], ?_, (isVarint_cons_of_lt hb).mpr rfl, Nat.succ_le_succ (Nat.zero_le k)⟩
        exact List.cons_prefix_cons.mpr ⟨rfl, List.nil_prefix⟩
      have hcons : ∀ t, Continues t → Continues (b :: t) := by
        intro t ht x hx
        rcases List.mem_cons.mp hx with rfl | hx
        · exact not_lt.mp hb
        · exact ht x hx
      rcases ih s with ⟨p, hps, hp, hlen⟩ | ⟨p, hps, hp, hlen⟩ | ⟨hs, hlen⟩
      · left
        exact ⟨b :: p, List.cons_prefix_cons.mpr ⟨rfl, hps⟩,
          (isVarint_cons_of_ge (not_lt.mp hb)).mpr hp, Nat.succ_le_succ hlen⟩
      · right
        left
        exact ⟨b :: p, List.cons_prefix_cons.mpr ⟨rfl, hps⟩, hcons p hp, congrArg Nat.succ hlen⟩
      · right
        right
        exact ⟨hcons s hs, Nat.succ_lt_succ hlen⟩

theorem isVarint_varint (n : ℕ) : IsVarint (varint n) ∧ varintValue (varint n) = n := by
  induction n using Nat.strong_induction_on with
  | _ n ih =>
    by_cases h : n < 128
    · have hn : (UInt8.ofNat n).toNat = n := by
        rw [UInt8.toNat_ofNat']
        omega
      rw [varint_of_lt h, isVarint_cons_of_lt (by omega), varintValue, varintValue, hn]
      exact ⟨rfl, by omega⟩
    · have hn : (UInt8.ofNat (n % 128 + 128)).toNat = n % 128 + 128 := by
        rw [UInt8.toNat_ofNat']
        omega
      obtain ⟨hrest, hvalue⟩ := ih (n / 128) (by omega)
      rw [varint_of_ge (not_lt.mp h), isVarint_cons_of_ge (by omega), varintValue, hvalue, hn]
      exact ⟨hrest, by omega⟩

theorem length_varint_le_of_lt {n k : ℕ} (h : n < 128 ^ (k + 1)) : (varint n).length ≤ k + 1 := by
  induction k generalizing n with
  | zero => rw [varint_of_lt (by omega), List.length_singleton]
  | succ k ih =>
    by_cases hn : n < 128
    · rw [varint_of_lt hn, List.length_singleton]
      omega
    · rw [varint_of_ge (not_lt.mp hn), List.length_cons]
      have hdiv : n / 128 < 128 ^ (k + 1) := by
        rw [pow_succ] at h
        exact Nat.div_lt_of_lt_mul (by omega)
      have := ih hdiv
      omega

end Spellings

end ByteString
