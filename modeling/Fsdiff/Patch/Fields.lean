import Fsdiff.Format.Operation
import Fsdiff.Patch.Safety
import Mathlib.Data.Nat.Bitwise

/-! The decoder's readers on well-formed bytes: each field, varint and diff block
that the format spells is read back, byte after byte. -/
namespace Fsdiff.Patch
open ByteString Exec Format

/-! ### First bytes -/

theorem opTypeOf_eq (b : UInt8) : opTypeOf b = b.toNat / 32 := by
  have h := b.toNat_lt
  change b.toNat >>> 5 &&& (2 ^ 3 - 1) = _
  rw [Nat.and_two_pow_sub_one_eq_mod, Nat.shiftRight_eq_div_pow]
  omega

theorem countEncOf_eq (b : UInt8) : countEncOf b = b.toNat / 8 % 4 := by
  change b.toNat >>> 3 &&& (2 ^ 2 - 1) = _
  rw [Nat.and_two_pow_sub_one_eq_mod, Nat.shiftRight_eq_div_pow]

theorem offsetEncOf_eq (b : UInt8) : offsetEncOf b = b.toNat / 2 % 4 := by
  change b.toNat >>> 1 &&& (2 ^ 2 - 1) = _
  rw [Nat.and_two_pow_sub_one_eq_mod, Nat.shiftRight_eq_div_pow, pow_one]

theorem lowBitOf_eq (b : UInt8) : lowBitOf b = b.toNat % 2 := by
  change b.toNat &&& (2 ^ 1 - 1) = _
  rw [Nat.and_two_pow_sub_one_eq_mod, pow_one]

theorem inlineCount_eq (b : UInt8) : b.toNat &&& 0x7 = b.toNat % 8 := by
  change b.toNat &&& (2 ^ 3 - 1) = _
  rw [Nat.and_two_pow_sub_one_eq_mod]

theorem type_lt (op : Op) : op.type < 6 := by
  cases op <;>
    simp [Op.type, opCopyIdentity, opCopyRelocate, opZero, opOne, opCopyAdd, opLiteral]

theorem count_code_lt (e : CountEnc) : e.code < 4 := by
  cases e <;> decide

theorem offset_code_lt (e : OffsetEnc) : e.code < 3 := by
  cases e <;> decide

theorem flags_lt {bs : ℕ} {e : Enc} {op : Op} (h : Legal bs e op) : op.flags e < 8 := by
  obtain ⟨h1, hmax, -⟩ := h
  have ho := offset_code_lt e.offset
  have hinline : ∀ n, n ≤ e.count.max → (if e.count = .inline then n - 1 else 0) < 8 := by
    intro n hn
    split_ifs with hi
    · rw [hi] at hn
      change n ≤ 8 at hn
      omega
    · decide
  cases op with
  | copyRelocate n negative distance =>
    have := Bool.toNat_lt negative
    simp only [Op.flags]
    omega
  | copyAdd n byteOffset diff =>
    have : diff.fmt ≤ 1 := by cases diff <;> simp [Diff.fmt]
    simp only [Op.flags]
    omega
  | copyIdentity n => exact hinline n hmax
  | zero n => exact hinline n hmax
  | one n => exact hinline n hmax
  | literal n => exact hinline n hmax

theorem firstByte_toNat {bs : ℕ} {e : Enc} {op : Op} (h : Legal bs e op) :
    (op.firstByte e).toNat = op.type * 32 + e.count.code * 8 + op.flags e := by
  have := flags_lt h
  have := type_lt op
  have := count_code_lt e.count
  rw [Op.firstByte, UInt8.toNat_ofNat']
  omega

theorem firstByte_fields {bs : ℕ} {e : Enc} {op : Op} (h : Legal bs e op) :
    opTypeOf (op.firstByte e) = op.type ∧ countEncOf (op.firstByte e) = e.count.code ∧
      offsetEncOf (op.firstByte e) = op.flags e / 2 ∧ lowBitOf (op.firstByte e) = op.flags e % 2 ∧
      (op.firstByte e).toNat &&& 0x7 = op.flags e := by
  have hf := flags_lt h
  have ht := type_lt op
  have hc := count_code_lt e.count
  rw [opTypeOf_eq, countEncOf_eq, offsetEncOf_eq, lowBitOf_eq, inlineCount_eq, firstByte_toNat h]
  omega

/-! ### Fields of the operation stream -/

section Fields
variable {patch : Bytes} {L : Layout patch} {ptr : ℕ}

/-- `x` reads the bytes `t` at `ptr`, all of them and once, and returns `a`. -/
def Parses {α : Type} (st : Stream) (ptr : ℕ) (t : Bytes) (a : α) (x : Dec (α × ℕ)) : Prop :=
  ∀ s, Ends (x s)
    (fun v s' => v = (a, ptr + t.length) ∧ s' = s.logReads (List.range' ptr t.length) st)
    (fun _ _ => False)

theorem Parses.map {α β : Type} {st : Stream} {t : Bytes} {a : α} {x : Dec (α × ℕ)} (f : α → β)
    (h : Parses st ptr t a x) : Parses st ptr t (f a) (x >>= fun v => pure (f v.1, v.2)) := by
  intro s
  apply (h s).bind
  intro v s' hpost
  obtain ⟨rfl, rfl⟩ := hpost
  exact ⟨rfl, rfl⟩

theorem Parses.of_eq {α : Type} {st : Stream} {t : Bytes} {a a' : α} {x : Dec (α × ℕ)}
    (h : Parses st ptr t a x) (ha : a = a') : Parses st ptr t a' x := ha ▸ h

theorem parses_nil {α : Type} (st : Stream) (a : α) : Parses st ptr [] a (pure (a, ptr)) := by
  intro s
  refine ⟨rfl, ?_⟩
  simp

theorem readLe_parses {k n : ℕ} (hn : n < 256 ^ k) (hp : headerSize ≤ ptr)
    (hend : ptr + k ≤ L.opEnd) (h : OccursAt patch ptr (leBytes k n)) :
    Parses .op ptr (leBytes k n) n (readLe L k ptr) := by
  intro s
  have hw : window patch ptr k = leBytes k n := by
    have := h.window_eq
    rwa [length_leBytes] at this
  rw [length_leBytes]
  refine (readLe_ends k hp).mono ?_ ?_
  · intro v s' hpost
    obtain ⟨rfl, -, rfl⟩ := hpost
    rw [hw, leNat_leBytes_of_lt hn]
    exact ⟨rfl, rfl⟩
  · intro e s' hpost
    obtain ⟨-, hlt, -⟩ := hpost
    omega

private theorem readLe_succ_parses {k n : ℕ} (h1 : 1 ≤ n) (hn : n ≤ 256 ^ k) (hp : headerSize ≤ ptr)
    (hend : ptr + k ≤ L.opEnd) (h : OccursAt patch ptr (leBytes k (n - 1))) :
    Parses .op ptr (leBytes k (n - 1)) n
      (readLe L k ptr >>= fun v => pure (v.1 + 1, v.2)) := by
  exact ((readLe_parses (by omega) hp hend h).map (· + 1)).of_eq (Nat.sub_add_cancel h1)

theorem readCount_parses {e : CountEnc} {n : ℕ} {b : UInt8} (hb : countEncOf b = e.code)
    (hlow : e = .inline → b.toNat &&& 0x7 = n - 1) (h1 : 1 ≤ n) (hn : n ≤ e.max)
    (hp : headerSize ≤ ptr) (hend : ptr + (e.bytes n).length ≤ L.opEnd)
    (h : OccursAt patch ptr (e.bytes n)) :
    Parses .op ptr (e.bytes n) n (readCount L b ptr) := by
  rw [readCount, hb]
  cases e with
  | one => exact readLe_succ_parses h1 hn hp (by simpa [CountEnc.bytes] using hend) h
  | two => exact readLe_succ_parses h1 hn hp (by simpa [CountEnc.bytes] using hend) h
  | four =>
    exact readLe_parses (lt_of_le_of_lt hn (by decide)) hp (by simpa [CountEnc.bytes] using hend) h
  | inline =>
    have hc : (b.toNat &&& 0x7) + 1 = n := by
      rw [hlow rfl]
      omega
    exact (parses_nil .op ((b.toNat &&& 0x7) + 1)).of_eq hc

theorem readCopyAddCount_parses (ptr : ℕ) {e : CountEnc} {n : ℕ} {b : UInt8} (hb : countEncOf b = e.code)
    (he : e ≠ .inline) (h1 : 1 ≤ n) (hn : n ≤ e.max) (hp : headerSize ≤ ptr)
    (hend : ptr + (e.bytes n).length ≤ L.opEnd) (h : OccursAt patch ptr (e.bytes n)) :
    Parses .op ptr (e.bytes n) n (readCopyAddCount L b ptr) := by
  rw [readCopyAddCount, hb]
  cases e with
  | one => exact readLe_succ_parses h1 hn hp (by simpa [CountEnc.bytes] using hend) h
  | two => exact readLe_succ_parses h1 hn hp (by simpa [CountEnc.bytes] using hend) h
  | four =>
    exact readLe_parses (lt_of_le_of_lt hn (by decide)) hp (by simpa [CountEnc.bytes] using hend) h
  | inline => exact absurd rfl he

theorem readRelocateOffset_parses (negative : Bool) {e : OffsetEnc} {distance : ℕ} {b : UInt8}
    (hb : offsetEncOf b = e.code) (hlow : lowBitOf b = negative.toNat)
    (hd : distance < 256 ^ e.relocateWidth) (hp : headerSize ≤ ptr)
    (hend : ptr + e.relocateWidth ≤ L.opEnd)
    (h : OccursAt patch ptr (leBytes e.relocateWidth distance)) :
    Parses .op ptr (leBytes e.relocateWidth distance) (signedOffset negative distance)
      (readRelocateOffset L b ptr) := by
  have hread : readRelocateDistance L b ptr = readLe L e.relocateWidth ptr := by
    rw [readRelocateDistance, hb]
    cases e <;> rfl
  have hsign : (if lowBitOf b = 0 then (distance : ℤ) else -distance) =
      signedOffset negative distance := by
    rw [hlow]
    cases negative <;> rfl
  rw [readRelocateOffset, hread]
  exact ((readLe_parses hd hp hend h).map
    fun d : ℕ => if lowBitOf b = 0 then (d : ℤ) else -d).of_eq hsign

theorem signed_twosComplement {w : ℕ} (hw : 1 ≤ w) {x : ℤ} (hl : -2 ^ (8 * w - 1) ≤ x)
    (hu : x < 2 ^ (8 * w - 1)) : signed (8 * w) (twosComplement w x) = x := by
  have hpow : (256 : ℤ) ^ w = ((2 ^ (8 * w) : ℕ) : ℤ) := by
    rw [pow_mul]
    norm_num
  have hnn : 0 ≤ x % 256 ^ w := Int.emod_nonneg _ (by positivity)
  rw [twosComplement, Int.toNat_of_nonneg hnn, hpow]
  have hm : signed (8 * w) (x % ((2 ^ (8 * w) : ℕ) : ℤ)) = signed (8 * w) x := by
    rw [signed, signed]
    exact Int.emod_bmod x (2 ^ (8 * w))
  rw [hm, signed_of_range (by omega) hl hu]

theorem twosComplement_lt (w : ℕ) (x : ℤ) : twosComplement w x < 256 ^ w := by
  have h := Int.emod_lt_of_pos x (b := 256 ^ w) (by positivity)
  have hnn := Int.emod_nonneg x (b := 256 ^ w) (by positivity)
  rw [twosComplement]
  zify
  rw [Int.toNat_of_nonneg hnn]
  exact h

theorem and_two_pow_eq_zero_iff {x i : ℕ} (h : x < 2 ^ (i + 1)) : x &&& 2 ^ i = 0 ↔ x < 2 ^ i := by
  rw [Nat.and_two_pow]
  constructor
  · intro h0
    by_contra hge
    have hb : x.testBit i = true :=
      Nat.testBit_of_two_pow_le_and_two_pow_add_one_gt (not_lt.mp hge) h
    simp [hb] at h0
  · intro hlt
    simp [Nat.testBit_lt_two_pow hlt]

/-- The sign extension of a three-byte field, written with masks in the source. -/
theorem signExtend24 {raw : ℕ} (h : raw < 256 ^ 3) :
    (if raw &&& 0x800000 = 0 then (raw : ℤ) else int64 (raw ||| 0xFFFFFFFFFF000000 : ℕ)) =
      signed (8 * 3) raw := by
  have htest : raw &&& 0x800000 = 0 ↔ raw < 2 ^ 23 := and_two_pow_eq_zero_iff (i := 23) h
  rw [int64_or_mask24 h]
  split_ifs with h0
  · have := htest.mp h0
    rw [signed_of_range (by decide) (by omega) (by norm_num; omega)]
  · have hge := not_lt.mp (mt htest.mpr h0)
    rw [signed, ← Int.sub_bmod_right, ← signed, signed_of_range (by decide)]
    all_goals norm_num
    all_goals omega

theorem readByteOffset_parses {e : OffsetEnc} {byteOffset : ℤ} {b : UInt8}
    (hb : offsetEncOf b = e.code) (hl : -2 ^ (8 * e.byteOffsetWidth - 1) ≤ byteOffset)
    (hu : byteOffset < 2 ^ (8 * e.byteOffsetWidth - 1)) (hp : headerSize ≤ ptr)
    (hend : ptr + e.byteOffsetWidth ≤ L.opEnd)
    (h : OccursAt patch ptr
      (leBytes e.byteOffsetWidth (twosComplement e.byteOffsetWidth byteOffset))) :
    Parses .op ptr (leBytes e.byteOffsetWidth (twosComplement e.byteOffsetWidth byteOffset))
      byteOffset (readByteOffset L b ptr) := by
  have hr := readLe_parses (L := L) (twosComplement_lt _ _) hp hend h
  rw [readByteOffset, hb]
  cases e with
  | short =>
    exact (hr.map fun raw : ℕ => signed 16 raw).of_eq
      (signed_twosComplement (w := 2) (by decide) hl hu)
  | middle =>
    exact (hr.map fun raw : ℕ => if raw &&& 0x800000 = 0 then (raw : ℤ)
      else int64 (raw ||| 0xFFFFFFFFFF000000 : ℕ)).of_eq
      ((signExtend24 (twosComplement_lt 3 byteOffset)).trans
        (signed_twosComplement (w := 3) (by decide) hl hu))
  | long =>
    exact (hr.map fun raw : ℕ => signed 32 raw).of_eq
      (signed_twosComplement (w := 4) (by decide) hl hu)

end Fields

/-! ### Varints -/

section Varints
variable {patch : Bytes} {L : Layout patch} {r : Region} {s : Output}

theorem and_0x7F_eq (n : ℕ) : n &&& 0x7F = n % 128 := by
  change n &&& (2 ^ 7 - 1) = _
  rw [Nat.and_two_pow_sub_one_eq_mod]

theorem and_0x80_eq_zero_iff (b : UInt8) : b.toNat &&& 0x80 = 0 ↔ b.toNat < 128 :=
  and_two_pow_eq_zero_iff (i := 7) b.toNat_lt

/-- The next group goes above the bits read so far; what does not fit in a word is cut off. -/
theorem or_shiftLeft_eq {value group shift : ℕ} (hv : value < 2 ^ shift) (hs : shift ≤ 64) :
    value ||| u64 (group <<< shift) = u64 (value + group * 2 ^ shift) := by
  have hword : 2 ^ 64 = 2 ^ (64 - shift) * 2 ^ shift := by
    rw [← pow_add, Nat.sub_add_cancel hs]
  have hlow : u64 (group * 2 ^ shift) = group % 2 ^ (64 - shift) * 2 ^ shift := by
    rw [u64, hword, Nat.mul_mod_mul_right]
  have hsum : value + group % 2 ^ (64 - shift) * 2 ^ shift < 2 ^ 64 := by
    have hlt : group % 2 ^ (64 - shift) < 2 ^ (64 - shift) := Nat.mod_lt _ (by positivity)
    calc value + group % 2 ^ (64 - shift) * 2 ^ shift
        < (group % 2 ^ (64 - shift) + 1) * 2 ^ shift := by rw [add_mul, one_mul]; omega
      _ ≤ 2 ^ (64 - shift) * 2 ^ shift := Nat.mul_le_mul_right _ hlt
      _ = 2 ^ 64 := hword.symm
  rw [Nat.shiftLeft_eq, hlow, Nat.or_comm, Nat.mul_comm _ (2 ^ shift),
    ← Nat.two_pow_add_eq_or_of_lt hv, Nat.add_comm, Nat.mul_comm (2 ^ shift)]
  rw [u64, Nat.add_mod, ← show u64 (group * 2 ^ shift) = group * 2 ^ shift % 2 ^ 64 from rfl, hlow,
    Nat.mod_eq_of_lt (show value < 2 ^ 64 by omega), Nat.mod_eq_of_lt hsum]

/-- A byte that continues, with its group and another one below bit 64. -/
theorem readVarintLoop_continues (hr : r.Inside L) {b : UInt8} {left ptr value shift : ℕ}
    (hlo : r.lo ≤ ptr) (hleft : ptr + (left + 1) = r.hi) (hb : patch[ptr]? = some b)
    (hge : 128 ≤ b.toNat) (hv : value < 2 ^ shift) (hs : shift + 7 < 64)
    {Q : ℕ × ℕ → Output → Prop} {E : Stop → Output → Prop}
    (h : value + b.toNat % 128 * 2 ^ shift < 2 ^ (shift + 7) →
      Ends (readVarintLoop L r left (ptr + 1) (value + b.toNat % 128 * 2 ^ shift) (shift + 7)
        (s.logReads [ptr] r.stream)) Q E) :
    Ends (readVarintLoop L r (left + 1) ptr value shift s) Q E := by
  have hsum : value + b.toNat % 128 * 2 ^ shift < 2 ^ (shift + 7) := by
    have hgroup : b.toNat % 128 * 2 ^ shift ≤ 127 * 2 ^ shift := Nat.mul_le_mul_right _ (by omega)
    rw [pow_add]
    omega
  have hword : 2 ^ (shift + 7) ≤ 2 ^ 64 := Nat.pow_le_pow_right (by decide) hs.le
  apply (readByte_ends hr hlo (by omega)).of_total.bind
  intro b' s₁ hpost
  obtain ⟨hb', rfl⟩ := hpost
  obtain rfl : b' = b := Option.some.inj (hb'.symm.trans hb)
  refine ends_ite (fun h0 => absurd ((and_0x80_eq_zero_iff _).mp h0) (by omega)) fun _ => ?_
  refine ends_ite (fun h64 => absurd h64 (by omega)) fun _ => ?_
  rw [and_0x7F_eq, or_shiftLeft_eq hv (by omega), u64_of_lt (by omega)]
  exact h hsum

/-- A number of at most ten bytes, if the loop starts with it: what is returned is its value,
cut to a word. -/
theorem readVarintLoop_isVarint (hr : r.Inside L) {p : Bytes} (hp : IsVarint p)
    {left ptr value shift : ℕ} (hlo : r.lo ≤ ptr) (hleft : ptr + left = r.hi)
    (hend : ptr + p.length ≤ r.hi) (hocc : OccursAt patch ptr p) (hv : value < 2 ^ shift)
    (hshift : shift + 7 * p.length ≤ 70) :
    Ends (readVarintLoop L r left ptr value shift s)
      (fun v s' => v = (u64 (value + varintValue p * 2 ^ shift), ptr + p.length) ∧
        s' = s.logReads (List.range' ptr p.length) r.stream) (fun _ _ => False) := by
  induction p generalizing left ptr value shift s with
  | nil => exact hp.elim
  | cons b p ih =>
    rw [List.length_cons] at hend hshift
    obtain ⟨left, rfl⟩ : ∃ k, left = k + 1 := ⟨left - 1, by omega⟩
    obtain ⟨hb, hrest⟩ := occursAt_cons.mp hocc
    by_cases hlt : b.toNat < 128
    · obtain rfl := (isVarint_cons_of_lt hlt).mp hp
      apply (readByte_ends hr hlo (by omega)).bind
      intro b' s₁ hpost
      obtain ⟨hb', rfl⟩ := hpost
      obtain rfl : b' = b := Option.some.inj (hb'.symm.trans hb)
      refine ends_ite (fun _ => ?_) fun hne => absurd ((and_0x80_eq_zero_iff _).mpr hlt) hne
      rw [and_0x7F_eq, or_shiftLeft_eq hv (by omega), varintValue, varintValue, mul_zero, add_zero]
      exact ⟨rfl, rfl⟩
    · have hrest' := (isVarint_cons_of_ge (not_lt.mp hlt)).mp hp
      -- another byte follows, so this group ends below bit 64
      have hpos : 0 < p.length := by
        cases p with
        | nil => exact hrest'.elim
        | cons _ _ => exact Nat.succ_pos _
      apply readVarintLoop_continues hr hlo hleft hb (not_lt.mp hlt) hv (by omega)
      intro hsum
      refine (ih hrest' (by omega) (by omega) (by omega) hrest hsum (by omega)).imp ?_
      intro v s' hpost
      obtain ⟨rfl, rfl⟩ := hpost
      rw [Output.logReads_append, List.length_cons, List.range'_succ, List.singleton_append,
        varintValue]
      refine ⟨?_, rfl⟩
      congr 1
      · congr 1
        rw [pow_add]
        ring
      · ring

/-- Bytes that continue up to bit 64. -/
theorem readVarintLoop_tooLong (hr : r.Inside L) {p : Bytes} (hp : Continues p)
    {left ptr value shift : ℕ} (hlo : r.lo ≤ ptr) (hleft : ptr + left = r.hi)
    (hend : ptr + p.length ≤ r.hi) (hocc : OccursAt patch ptr p) (hv : value < 2 ^ shift)
    (hs : shift < 64) (hshift : 64 ≤ shift + 7 * p.length) :
    Ends (readVarintLoop L r left ptr value shift s) (fun _ _ => False)
      (fun e _ => e = .fail .corruptData) := by
  induction p generalizing left ptr value shift s with
  | nil =>
    rw [List.length_nil] at hshift
    omega
  | cons b p ih =>
    rw [List.length_cons] at hend hshift
    obtain ⟨left, rfl⟩ : ∃ k, left = k + 1 := ⟨left - 1, by omega⟩
    obtain ⟨hb, hrest⟩ := occursAt_cons.mp hocc
    have hge : 128 ≤ b.toNat := hp b List.mem_cons_self
    by_cases hlast : 64 ≤ shift + 7
    · apply (readByte_ends hr hlo (by omega)).of_total.bind
      intro b' s₁ hpost
      obtain ⟨hb', rfl⟩ := hpost
      obtain rfl : b' = b := Option.some.inj (hb'.symm.trans hb)
      refine ends_ite (fun h0 => absurd ((and_0x80_eq_zero_iff _).mp h0) (by omega)) fun _ => ?_
      exact ends_ite (fun _ => rfl) fun hne => absurd hlast hne
    · apply readVarintLoop_continues hr hlo hleft hb hge hv (not_le.mp hlast)
      intro hsum
      exact ih (fun x hx => hp x (List.mem_cons_of_mem _ hx)) (by omega) (by omega) (by omega) hrest hsum
        (by omega) (by omega)

theorem readVarintLoop_unterminated (hr : r.Inside L) {p : Bytes} (hp : Continues p)
    {ptr value shift : ℕ} (hlo : r.lo ≤ ptr) (hend : ptr + p.length = r.hi)
    (hocc : OccursAt patch ptr p) (hv : value < 2 ^ shift) (hshift : shift + 7 * p.length < 64) :
    Ends (readVarintLoop L r p.length ptr value shift s) (fun _ _ => False)
      (fun e _ => e = .fail .truncated) := by
  induction p generalizing ptr value shift s with
  | nil => rfl
  | cons b p ih =>
    rw [List.length_cons] at hend hshift ⊢
    obtain ⟨hb, hrest⟩ := occursAt_cons.mp hocc
    apply readVarintLoop_continues hr hlo hend hb (hp b List.mem_cons_self) hv (by omega)
    intro hsum
    exact ih (fun x hx => hp x (List.mem_cons_of_mem _ hx)) (by omega) (by omega) hrest hsum (by omega)

/-- Any spelling of a word in at most ten bytes is read as that word. -/
theorem readVarint_isVarint (hr : r.Inside L) {p : Bytes} (hp : IsVarint p) {ptr : ℕ}
    (hlo : r.lo ≤ ptr) (hend : ptr + p.length ≤ r.hi) (h : OccursAt patch ptr p)
    (hlen : p.length ≤ 10) (hvalue : varintValue p < 2 ^ 64) :
    Parses r.stream ptr p (varintValue p) (readVarint L r ptr) := by
  intro s
  have hloop := readVarintLoop_isVarint (s := s) hr hp hlo (Nat.add_sub_cancel' (by omega)) hend h
    (show 0 < 2 ^ 0 by decide) (by omega)
  rwa [pow_zero, mul_one, zero_add, u64_of_lt hvalue] at hloop

theorem readVarint_varint (hr : r.Inside L) {n ptr : ℕ} (hlo : r.lo ≤ ptr)
    (hend : ptr + (varint n).length ≤ r.hi) (h : OccursAt patch ptr (varint n)) (hn : n < 2 ^ 64) :
    Parses r.stream ptr (varint n) n (readVarint L r ptr) := by
  obtain ⟨hvarint, hvalue⟩ := isVarint_varint n
  have hparses := readVarint_isVarint hr hvarint hlo hend h
    (length_varint_le_of_lt (k := 9) (hn.trans (by decide))) (hvalue.symm ▸ hn)
  rwa [hvalue] at hparses

end Varints

end Fsdiff.Patch
