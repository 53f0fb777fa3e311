import Fsdiff.Data.Chunks
import Fsdiff.Types
import Mathlib.Data.Nat.Bitwise

/-! The comparison kernels behind `g_fsd_simd`: what a dispatch table has to
compute, and the scalar kernels of `simd_scalar.c`, which work on 64-bit words. -/
namespace Fsdiff
open ByteString

def matchCount (a b : Bytes) : ℕ := (a.zip b).countP fun p => p.1 == p.2

/-- `g_fsd_simd` with the contract of its entries. Arrays carry their length. -/
structure Kernels where
  isZero : Bytes → Bool
  isOne : Bytes → Bool
  countMatches : Bytes → Bytes → ℕ
  isZero_iff : ∀ data, isZero data = true ↔ data = List.replicate data.length 0x00
  isOne_iff : ∀ data, isOne data = true ↔ data = List.replicate data.length 0xFF
  countMatches_eq : ∀ a b, a.length = b.length → countMatches a b = matchCount a b

/-! ### Scalar kernels -/

/-- `memcpy(&word, bytes + i * 8, 8)` -/
def wordAt (data : Bytes) (i : ℕ) : ℕ := leNat (window data (i * 8) 8)

/-- Whole words equal to `word`, then single bytes equal to `byte`. -/
def scalarIsFilled (word : ℕ) (byte : UInt8) (data : Bytes) : Bool :=
  (List.range (data.length / 8)).all (fun i => wordAt data i = word) &&
    (data.drop (data.length / 8 * 8)).all (· = byte)

/-- `fsd_scalar_is_zero` -/
def scalarIsZero : Bytes → Bool := scalarIsFilled 0 0x00

/-- `fsd_scalar_is_one` -/
def scalarIsOne : Bytes → Bool := scalarIsFilled 0xFFFFFFFFFFFFFFFF 0xFF

/-- `for (j = 0; j < 8; j++)` over the bytes of a difference, lowest first. -/
def zeroBytes : ℕ → ℕ → ℕ
  | 0, _ => 0
  | n + 1, diff => (if diff &&& 0xFF = 0 then 1 else 0) + zeroBytes n (diff >>> 8)

def wordMatches (wa wb : ℕ) : ℕ :=
  let diff := wa ^^^ wb
  if diff = 0 then 8 else zeroBytes 8 diff

/-- `fsd_scalar_count_matches` -/
def scalarCountMatches (a b : Bytes) : ℕ :=
  let words := a.length / 8
  ((List.range words).map fun i => wordMatches (wordAt a i) (wordAt b i)).sum +
    matchCount (a.drop (words * 8)) (b.drop (words * 8))

section Count
variable {a b c d : Bytes}

theorem matchCount_append (h : a.length = b.length) :
    matchCount (a ++ c) (b ++ d) = matchCount a b + matchCount c d := by
  rw [matchCount, List.zip_append h, List.countP_append, matchCount, matchCount]

theorem matchCount_cons (x y : UInt8) :
    matchCount (x :: a) (y :: b) = (if x = y then 1 else 0) + matchCount a b := by
  simp [matchCount, List.countP_cons, Nat.add_comm]

theorem matchCount_eq_countP (h : a.length = b.length) :
    matchCount a b = (List.range a.length).countP fun k => decide (a[k]? = b[k]?) := by
  induction a generalizing b with
  | nil => rfl
  | cons x a ih =>
    cases b with
    | nil => cases h
    | cons y b =>
      rw [matchCount_cons, ih (Nat.succ.inj h), List.length_cons, List.range_succ_eq_map, List.countP_cons,
        List.countP_map, add_comm]
      congr 1
      simp only [List.getElem?_cons_zero, Option.some.injEq, decide_eq_true_eq]

/-- The zero bytes of a difference are the positions that agree. -/
theorem zeroBytes_xor (h : a.length = b.length) :
    zeroBytes a.length (leNat a ^^^ leNat b) = matchCount a b := by
  induction a generalizing b with
  | nil =>
    obtain rfl : b = [] := List.length_eq_zero_iff.mp h.symm
    rfl
  | cons x a ih =>
    cases b with
    | nil => cases h
    | cons y b =>
      have hx := x.toNat_lt
      have hy := y.toNat_lt
      have hlow : (leNat (x :: a) ^^^ leNat (y :: b)) &&& 0xFF = x.toNat ^^^ y.toNat := by
        change _ &&& (2 ^ 8 - 1) = _
        rw [Nat.and_two_pow_sub_one_eq_mod, Nat.xor_mod_two_pow, leNat, leNat]
        congr 1 <;> omega
      have hhigh : (leNat (x :: a) ^^^ leNat (y :: b)) >>> 8 = leNat a ^^^ leNat b := by
        rw [Nat.shiftRight_xor_distrib, Nat.shiftRight_eq_div_pow, Nat.shiftRight_eq_div_pow,
          leNat, leNat]
        congr 1 <;> omega
      have heq : x.toNat ^^^ y.toNat = 0 ↔ x = y := by
        rw [Nat.xor_eq_zero_iff, UInt8.toNat_inj]
      rw [List.length_cons, zeroBytes, hlow, hhigh, ih (Nat.succ.inj h), matchCount_cons]
      simp only [heq]

theorem wordMatches_eq (ha : a.length = 8) (hb : b.length = 8) :
    wordMatches (leNat a) (leNat b) = matchCount a b := by
  have h := zeroBytes_xor (ha.trans hb.symm)
  rw [ha] at h
  unfold wordMatches
  dsimp only
  split_ifs with h0
  · rw [← h, h0]
    rfl
  · exact h

theorem scalarCountMatches_eq (h : a.length = b.length) :
    scalarCountMatches a b = matchCount a b :=
  Chunks.sumChunks_eq (k := 8) (f := fun c d => wordMatches (leNat c) (leNat d)) rfl
    (fun _ _ _ _ => matchCount_append) (fun _ _ => wordMatches_eq) h

end Count

section Filled
variable {data : Bytes} {v : UInt8}

theorem leBytes_leNat (s : Bytes) : leBytes s.length (leNat s) = s := by
  induction s with
  | nil => rfl
  | cons b s ih =>
    have hb := b.toNat_lt
    have hlow : UInt8.ofNat (b.toNat + 256 * leNat s) = b := by
      apply UInt8.toNat_inj.mp
      rw [UInt8.toNat_ofNat']
      omega
    have hhigh : (b.toNat + 256 * leNat s) / 256 = leNat s := by omega
    rw [List.length_cons, leBytes, leNat, hlow, hhigh, ih]

/-- A kernel that tests chunk by chunk is right when it tests a chunk right. -/
theorem allChunks_filled {k : ℕ} {p : Bytes → Bool}
    (hp : ∀ c, c.length = k → (p c = true ↔ ∀ x ∈ c, x = v)) (data : Bytes) :
    Chunks.allChunks k p (fun x => decide (x = v)) data = true ↔ data = List.replicate data.length v := by
  rw [List.eq_replicate_length, Chunks.allChunks_iff data fun c hc => ?_]
  · simp only [decide_eq_true_eq]
  · simp only [decide_eq_true_eq]
    exact hp c hc

theorem leNat_eq_iff {s t : Bytes} (h : s.length = t.length) : leNat s = leNat t ↔ s = t := by
  constructor
  · intro heq
    rw [← leBytes_leNat s, heq, h, leBytes_leNat]
  · rintro rfl
    rfl

theorem leNat_filled_iff {k : ℕ} {c : Bytes} (h : c.length = k) :
    leNat c = leNat (List.replicate k v) ↔ ∀ x ∈ c, x = v := by
  subst h
  rw [leNat_eq_iff List.length_replicate.symm, List.eq_replicate_length]

theorem wordAt_eq_iff (i : ℕ) (hi : i * 8 + 8 ≤ data.length) :
    wordAt data i = leNat (List.replicate 8 v) ↔ window data (i * 8) 8 = List.replicate 8 v :=
  leNat_eq_iff (by rw [length_window hi, List.length_replicate])

theorem scalarIsFilled_iff :
    scalarIsFilled (leNat (List.replicate 8 v)) v data = true ↔
      data = List.replicate data.length v :=
  allChunks_filled (k := 8) (p := fun c => decide (leNat c = leNat (List.replicate 8 v)))
    (fun _ hc => by rw [decide_eq_true_eq, leNat_filled_iff hc]) data

theorem scalarIsZero_iff : scalarIsZero data = true ↔ data = List.replicate data.length 0x00 := by
  have hword : leNat (List.replicate 8 0x00) = 0 := by decide
  rw [scalarIsZero, ← hword]
  exact scalarIsFilled_iff

theorem scalarIsOne_iff : scalarIsOne data = true ↔ data = List.replicate data.length 0xFF := by
  have hword : leNat (List.replicate 8 0xFF) = 0xFFFFFFFFFFFFFFFF := by decide
  rw [scalarIsOne, ← hword]
  exact scalarIsFilled_iff

end Filled

/-- The table that `fsd_simd_force_scalar` installs. -/
def scalarKernels : Kernels where
  isZero := scalarIsZero
  isOne := scalarIsOne
  countMatches := scalarCountMatches
  isZero_iff _ := scalarIsZero_iff
  isOne_iff _ := scalarIsOne_iff
  countMatches_eq _ _ := scalarCountMatches_eq

end Fsdiff
