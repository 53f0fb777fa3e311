import Fsdiff.Encoding.DiffData
import Fsdiff.Patch.Fields

/-! `read_varint` on arbitrary bytes. The loop gives up by the shift alone, so that the tenth
byte is let through whatever it holds, and what it holds above bit 63 is lost. -/
namespace Fsdiff.Patch
open ByteString Exec

/-- The bytes from `ptr` to the end of a region. -/
def Region.rest (r : Region) (patch : Bytes) (ptr : ℕ) : Bytes := window patch ptr (r.hi - ptr)

/-- What is asked of a reader of base-128 numbers that finds the bytes `rest` at `ptr`. -/
structure VarintExact (rest : Bytes) (ptr : ℕ) (run : EStateM.Result Stop Output (ℕ × ℕ)) : Prop where
  value : ∀ v next s, run = .ok (v, next) s →
    ∃ p, p <+: rest ∧ IsVarint p ∧ next = ptr + p.length ∧ varintValue p = v ∧ v < 2 ^ 64
  tooLarge : ∀ p, p <+: rest → IsVarint p → 2 ^ 64 ≤ varintValue p →
    ∃ s, run = .error (.fail .corruptData) s
  unterminated : Continues rest →
    ∃ s, run = .error (.fail (if rest.length < 10 then .truncated else .corruptData)) s

/-- A number of ten bytes, with more than one bit in the last of them. -/
def TenthOverflows (rest : Bytes) : Prop :=
  ∃ init last, init ++ [last] <+: rest ∧ init.length = 9 ∧ Continues init ∧
    2 ≤ last.toNat ∧ last.toNat < 128

section Outcomes
variable {patch : Bytes} {L : Layout patch} {r : Region} {ptr : ℕ} {s : Output}

theorem length_rest (hr : r.Inside L) (hhi : ptr ≤ r.hi) : (r.rest patch ptr).length = r.hi - ptr := by
  have hend := hr.2.trans (L.hi_le r.stream)
  exact length_window (by omega)

theorem occursAt_of_prefix_rest {p : Bytes} (h : p <+: r.rest patch ptr) : OccursAt patch ptr p :=
  h.trans (List.take_prefix _ _)

/-- The three ways for a read to end. -/
theorem readVarint_cases (hr : r.Inside L) (hlo : r.lo ≤ ptr) (hhi : ptr ≤ r.hi) (s : Output) :
    (∃ p, p <+: r.rest patch ptr ∧ IsVarint p ∧ p.length ≤ 10 ∧
      ∃ s', readVarint L r ptr s = .ok (u64 (varintValue p), ptr + p.length) s') ∨
    (∃ p, p <+: r.rest patch ptr ∧ Continues p ∧ p.length = 10 ∧
      ∃ s', readVarint L r ptr s = .error (.fail .corruptData) s') ∨
    (Continues (r.rest patch ptr) ∧ (r.rest patch ptr).length < 10 ∧
      ∃ s', readVarint L r ptr s = .error (.fail .truncated) s') := by
  have hlen := length_rest hr hhi
  have hinside : ∀ p, p <+: r.rest patch ptr → ptr + p.length ≤ r.hi := by
    intro p hp
    have := hp.length_le
    omega
  rcases varint_cases 10 (r.rest patch ptr) with ⟨p, hp, hvar, h10⟩ | ⟨p, hp, hcont, h10⟩ | ⟨hcont, h10⟩
  · left
    have hloop := readVarintLoop_isVarint (s := s) hr hvar hlo (Nat.add_sub_cancel' hhi) (hinside p hp)
      (occursAt_of_prefix_rest hp) (show 0 < 2 ^ 0 by decide) (by omega)
    rw [pow_zero, mul_one, zero_add] at hloop
    obtain ⟨v, s', hrun, rfl, -⟩ := hloop.exists_ok
    exact ⟨p, hp, hvar, h10, s', hrun⟩
  · right
    left
    have hloop := readVarintLoop_tooLong (s := s) hr hcont hlo (Nat.add_sub_cancel' hhi) (hinside p hp)
      (occursAt_of_prefix_rest hp) (show 0 < 2 ^ 0 by decide) (by decide) (by omega)
    obtain ⟨e, s', hrun, rfl⟩ := hloop.exists_error
    exact ⟨p, hp, hcont, h10, s', hrun⟩
  · right
    right
    have hloop := readVarintLoop_unterminated (s := s) hr hcont hlo (by omega)
      (occursAt_of_prefix_rest (List.prefix_refl _)) (show 0 < 2 ^ 0 by decide) (by omega)
    rw [hlen] at hloop
    obtain ⟨e, s', hrun, rfl⟩ := hloop.exists_error
    exact ⟨hcont, h10, s', hrun⟩

/-- The value of ten bytes exceeds a word exactly by the bits of the tenth. -/
theorem varintValue_lt_iff {init : Bytes} {last : UInt8} (hlen : init.length ≤ 9)
    (hlast : last.toNat < 128) :
    varintValue (init ++ [last]) < 2 ^ 64 ↔ ¬ (init.length = 9 ∧ 2 ≤ last.toNat) := by
  have hinit := varintValue_lt init
  have hvalue : varintValue (init ++ [last]) = varintValue init + 128 ^ init.length * last.toNat := by
    rw [varintValue_append]
    simp [varintValue, Nat.mod_eq_of_lt hlast]
  rw [hvalue]
  by_cases h9 : init.length = 9
  · rw [h9] at hinit ⊢
    omega
  · have hpow : 128 ^ init.length ≤ 128 ^ 8 := Nat.pow_le_pow_right (by decide) (by omega)
    have hmul : 128 ^ init.length * last.toNat ≤ 128 ^ 8 * 127 := Nat.mul_le_mul hpow (by omega)
    omega

theorem exists_tooLarge {rest : Bytes} (h : TenthOverflows rest) :
    ∃ p, p <+: rest ∧ IsVarint p ∧ p.length = 10 ∧ 2 ^ 64 ≤ varintValue p := by
  obtain ⟨init, last, hp, hlen, hcont, h2, hlast⟩ := h
  refine ⟨init ++ [last], hp, isVarint_append_last hcont hlast, by simp [hlen], ?_⟩
  by_contra hlt
  exact (varintValue_lt_iff hlen.le hlast).mp (not_le.mp hlt) ⟨hlen, h2⟩

theorem varintValue_lt_of_fits {rest p : Bytes} (h : ¬ TenthOverflows rest) (hp : p <+: rest)
    (hvar : IsVarint p) (h10 : p.length ≤ 10) : varintValue p < 2 ^ 64 := by
  obtain ⟨init, last, rfl, hcont, hlast⟩ := hvar.exists_last
  rw [List.length_append, List.length_singleton] at h10
  rw [varintValue_lt_iff (by omega) hlast]
  rintro ⟨h9, h2⟩
  exact h ⟨init, last, hp, h9, hcont, h2, hlast⟩

theorem readVarint_tenthOverflows (hr : r.Inside L) (hlo : r.lo ≤ ptr) (hhi : ptr ≤ r.hi)
    (h : TenthOverflows (r.rest patch ptr)) : ¬ VarintExact (r.rest patch ptr) ptr (readVarint L r ptr s) := by
  intro hexact
  obtain ⟨p, hp, hvar, h10, hlarge⟩ := exists_tooLarge h
  obtain ⟨s', hrun⟩ := hexact.tooLarge p hp hvar hlarge
  rcases readVarint_cases hr hlo hhi s with ⟨_, -, -, -, s₁, hok⟩ | ⟨q, hq, hcont, hq10, -⟩ | ⟨-, hshort, -⟩
  · rw [hrun] at hok
    cases hok
  · have heq : p = q := List.prefix_of_prefix_length_le hp hq (by omega) |>.eq_of_length (by omega)
    exact not_continues_of_isVarint hvar (heq ▸ hcont)
  · have := hp.length_le
    omega

theorem readVarint_exact (hr : r.Inside L) (hlo : r.lo ≤ ptr) (hhi : ptr ≤ r.hi)
    (h : ¬ TenthOverflows (r.rest patch ptr)) : VarintExact (r.rest patch ptr) ptr (readVarint L r ptr s) := by
  rcases readVarint_cases hr hlo hhi s with ⟨p, hp, hvar, h10, s', hrun⟩ | ⟨p, hp, hcont, h10, s', hrun⟩ |
    ⟨hcont, h10, s', hrun⟩
  · have hlt := varintValue_lt_of_fits h hp hvar h10
    rw [u64_of_lt hlt] at hrun
    constructor
    · intro v next s₁ hok
      rw [hrun] at hok
      cases hok
      exact ⟨p, hp, hvar, rfl, rfl, hlt⟩
    · intro q hq hqvar hlarge
      rw [hqvar.eq_of_prefix hvar hq hp] at hlarge
      omega
    · intro hcont
      exact absurd (fun b hb => hcont b (hp.subset hb)) (not_continues_of_isVarint hvar)
  · constructor
    · intro v next s₁ hok
      rw [hrun] at hok
      cases hok
    · exact fun _ _ _ _ => ⟨s', hrun⟩
    · intro _
      have := hp.length_le
      rw [if_neg (by omega)]
      exact ⟨s', hrun⟩
  · constructor
    · intro v next s₁ hok
      rw [hrun] at hok
      cases hok
    · intro p hp hvar _
      exact absurd (fun b hb => hcont b (hp.subset hb)) (not_continues_of_isVarint hvar)
    · intro _
      rw [if_pos h10]
      exact ⟨s', hrun⟩

end Outcomes

/-- Reading is exact unless the number takes ten bytes and the tenth holds more than one bit;
and what the encoder writes is always read back, up to its last byte. -/
theorem readVarint_exact_iff {patch : Bytes} (L : Layout patch) {r : Region} (hr : r.Inside L) {ptr : ℕ}
    (hlo : r.lo ≤ ptr) (hhi : ptr ≤ r.hi) (s : Output) :
    (VarintExact (r.rest patch ptr) ptr (readVarint L r ptr s) ↔ ¬ TenthOverflows (r.rest patch ptr)) ∧
      ∀ v < 2 ^ 64, ∀ suffix, r.rest patch ptr = Encoder.encodeVarint v ++ suffix →
        ∃ s', readVarint L r ptr s = .ok (v, ptr + (Encoder.encodeVarint v).length) s' := by
  refine ⟨⟨fun hexact hover => readVarint_tenthOverflows hr hlo hhi hover hexact,
    readVarint_exact hr hlo hhi⟩, ?_⟩
  intro v hv suffix hrest
  rw [Encoder.encodeVarint_eq hv] at hrest ⊢
  have hprefix : varint v <+: r.rest patch ptr := hrest ▸ List.prefix_append _ _
  have hend : ptr + (varint v).length ≤ r.hi := by
    have hle := hprefix.length_le
    rw [length_rest hr hhi] at hle
    omega
  obtain ⟨_, s', hrun, rfl, -⟩ :=
    (readVarint_varint hr hlo hend (occursAt_of_prefix_rest hprefix) hv s).exists_ok
  exact ⟨s', hrun⟩

/-- A patch of literals only, in front of a string. -/
def literalsPatch (bytes : Bytes) : Bytes := headerWrite 0 5 0 0 ++ bytes

theorem length_literalsPatch (bytes : Bytes) : headerSize + 0 + 0 ≤ (literalsPatch bytes).length := by
  rw [literalsPatch, List.length_append, length_headerWrite]
  exact Nat.le_add_right _ _

def literalsLayout (bytes : Bytes) : Layout (literalsPatch bytes) :=
  ⟨smallHeader 0 0 0, Nat.zero_le _, length_literalsPatch bytes⟩

/-- Ten bytes that spell `2^64` are read as 0. -/
theorem readVarint_drops_tenth :
    let bytes : Bytes := List.replicate 9 0x80 ++ [0x02]
    let L := literalsLayout bytes
    L.litRegion.Inside L ∧ L.litRegion.rest (literalsPatch bytes) 32 = bytes ∧
      IsVarint bytes ∧ varintValue bytes = 2 ^ 64 ∧
      (∃ s, readVarint L L.litRegion 32 {} = .ok (0, 42) s) ∧
      ¬ VarintExact (L.litRegion.rest (literalsPatch bytes) 32) 32 (readVarint L L.litRegion 32 {}) := by
  intro bytes L
  have hrest : L.litRegion.rest (literalsPatch bytes) 32 = bytes := by decide +kernel
  have hvar : IsVarint bytes := by decide +kernel
  have hvalue : varintValue bytes = 2 ^ 64 := by decide +kernel
  obtain ⟨s, hrun⟩ : ∃ s, readVarint L L.litRegion 32 {} = .ok (0, 42) s := ⟨_, rfl⟩
  refine ⟨litRegion_inside, hrest, hvar, hvalue, ⟨s, hrun⟩, ?_⟩
  rw [hrest]
  intro hexact
  obtain ⟨s', hfail⟩ := hexact.tooLarge bytes (List.prefix_refl _) hvar hvalue.ge
  rw [hrun] at hfail
  cases hfail

/-- Ten bytes that spell `2^63`. -/
theorem readVarint_exact_iff_topBit :
    let bytes : Bytes := List.replicate 9 0x80 ++ [0x01, 0x07]
    let L := literalsLayout bytes
    ¬ TenthOverflows bytes ∧ VarintExact bytes 32 (readVarint L L.litRegion 32 {}) ∧
      ∃ s, readVarint L L.litRegion 32 {} = .ok (2 ^ 63, 42) s := by
  intro bytes L
  have hrest : L.litRegion.rest (literalsPatch bytes) 32 = bytes := by decide +kernel
  obtain ⟨hiff, hread⟩ := readVarint_exact_iff L litRegion_inside
    (show L.litRegion.lo ≤ 32 by decide +kernel) (by decide +kernel) {}
  rw [hrest] at hiff hread
  have hfits : ¬ TenthOverflows bytes := by
    rintro ⟨init, last, hp, hlen, -, h2, -⟩
    have heq := List.prefix_iff_eq_take.mp hp
    have hlast : (init ++ [last])[9]? = some last := by
      rw [List.getElem?_append_right hlen.le, hlen]
      rfl
    rw [heq, List.length_append, hlen] at hlast
    have h1 : last = 0x01 := by
      have hten : (bytes.take (9 + [last].length))[9]? = some 0x01 := by rfl
      exact Option.some.inj (hlast.symm.trans hten)
    rw [h1] at h2
    exact absurd h2 (by decide)
  obtain ⟨s, hrun⟩ := hread (2 ^ 63) (by decide) [0x07] (by decide +kernel)
  exact ⟨hfits, hiff.mpr hfits, s, hrun⟩

end Fsdiff.Patch
