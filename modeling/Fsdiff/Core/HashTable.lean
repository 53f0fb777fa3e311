import Fsdiff.Types

/-! `hash_table.c`: chains of source blocks by CRC-32. Pool memory is drawn by the
callers; a chain is the list of entries that `next` leads through. -/
namespace Fsdiff

structure HashEntry where
  crc32 : BitVec 32
  blockIndex : ℕ
  deriving DecidableEq, Repr

/-- `fsd_hash_table_t`; `bucket_count` is the number of chains. -/
structure HashTable where
  buckets : List (List HashEntry)
  entryCount : ℕ := 0

namespace HashTable

/-- `MIN_BUCKETS` -/
def minBuckets : ℕ := 1024

/-- `next_power_of_2` -/
def nextPowerOf2 (n : ℕ) : ℕ :=
  if n = 0 then 1
  else
    let n := n - 1
    let n := n ||| n >>> 1
    let n := n ||| n >>> 2
    let n := n ||| n >>> 4
    let n := n ||| n >>> 8
    let n := n ||| n >>> 16
    let n := n ||| n >>> 32
    u64 (n + 1)

/-- The table size for a load factor of 3/4. -/
def bucketCountFor (expectedEntries : ℕ) : ℕ :=
  nextPowerOf2 (max (u64 (expectedEntries * 4) / 3) minBuckets)

/-- `fsd_hash_table_create` once its memory is there. -/
def create (expectedEntries : ℕ) : HashTable :=
  ⟨List.replicate (bucketCountFor expectedEntries) [], 0⟩

/-- `hash_to_bucket` -/
def hashToBucket (crc32 : BitVec 32) (bucketCount : ℕ) : ℕ := crc32.toNat % bucketCount

/-- `fsd_hash_table_insert` with an entry to put at the head of its chain. -/
def insert (t : HashTable) (crc32 : BitVec 32) (blockIndex : ℕ) : HashTable :=
  { buckets := t.buckets.modify (hashToBucket crc32 t.buckets.length) (⟨crc32, blockIndex⟩ :: ·)
    entryCount := t.entryCount + 1 }

/-- `fsd_hash_table_lookup`: the chain from the first entry with this CRC on. The
entries behind it may have another. -/
def lookup (t : HashTable) (crc32 : BitVec 32) : List HashEntry :=
  (t.buckets.getD (hashToBucket crc32 t.buckets.length) []).dropWhile (·.crc32 ≠ crc32)

/-- Every entry of every chain has property `P`. -/
def AllEntries (P : HashEntry → Prop) (t : HashTable) : Prop := ∀ chain ∈ t.buckets, ∀ e ∈ chain, P e

section Entries
variable {P : HashEntry → Prop} {t : HashTable}

theorem allEntries_create (expected : ℕ) : AllEntries P (create expected) := by
  intro chain hc e he
  rw [List.eq_of_mem_replicate hc] at he
  cases he

theorem AllEntries.insert (h : AllEntries P t) {crc32 : BitVec 32} {i : ℕ} (hp : P ⟨crc32, i⟩) :
    AllEntries P (t.insert crc32 i) := by
  intro chain hc e he
  obtain ⟨k, hk, rfl⟩ := List.mem_iff_getElem.mp hc
  simp only [HashTable.insert, List.getElem_modify] at he
  have hmem : t.buckets.get ⟨k, by simpa [HashTable.insert] using hk⟩ ∈ t.buckets := List.get_mem _ _
  split_ifs at he
  · rcases List.mem_cons.mp he with rfl | he
    · exact hp
    · exact h _ hmem e he
  · exact h _ hmem e he

theorem AllEntries.lookup (h : AllEntries P t) (crc32 : BitVec 32) : ∀ e ∈ t.lookup crc32, P e := by
  intro e he
  have hmem := (List.dropWhile_sublist _).mem he
  rw [List.getD_eq_getElem?_getD] at hmem
  cases hb : t.buckets[hashToBucket crc32 t.buckets.length]? with
  | none =>
    rw [hb] at hmem
    cases hmem
  | some chain =>
    rw [hb] at hmem
    exact h chain (List.mem_of_getElem? hb) e hmem

end Entries

/-! ### Nothing is lost -/

section Chains
variable {t : HashTable} {e : HashEntry}

/-- `e` is in the chain of its CRC. -/
def Chained (t : HashTable) (e : HashEntry) : Prop :=
  e ∈ t.buckets.getD (hashToBucket e.crc32 t.buckets.length) []

@[simp] theorem length_buckets_insert (t : HashTable) (crc32 : BitVec 32) (i : ℕ) :
    (t.insert crc32 i).buckets.length = t.buckets.length := by
  simp [insert]

/-- The table never has zero buckets: the number of entries is at most `2^64 / 3`, far from
the powers of two that wrap. -/
theorem length_buckets_create (expected : ℕ) : 0 < (create expected).buckets.length := by
  rw [create, List.length_replicate, bucketCountFor]
  have hmax : max (u64 (expected * 4) / 3) minBuckets ≤ 2 ^ 63 := by
    have hmod : expected * 4 % 2 ^ 64 < 2 ^ 64 := Nat.mod_lt _ (by positivity)
    simp only [u64, minBuckets]
    omega
  generalize max (u64 (expected * 4) / 3) minBuckets = n at hmax
  unfold nextPowerOf2
  split_ifs with h
  · exact Nat.one_pos
  have hor : ∀ {a : ℕ} (k : ℕ), a < 2 ^ 63 → a ||| a >>> k < 2 ^ 63 := by
    intro a k ha
    apply Nat.or_lt_two_pow ha
    exact (Nat.shiftRight_le a k).trans_lt ha
  have hlast := hor 32 (hor 16 (hor 8 (hor 4 (hor 2 (hor 1 (show n - 1 < 2 ^ 63 by omega))))))
  dsimp only
  rw [u64_of_lt (by omega)]
  exact Nat.succ_pos _

theorem chained_insert (h : 0 < t.buckets.length) (crc32 : BitVec 32) (i : ℕ) :
    Chained (t.insert crc32 i) ⟨crc32, i⟩ := by
  have hlt : hashToBucket crc32 t.buckets.length < t.buckets.length := Nat.mod_lt _ h
  unfold Chained
  rw [length_buckets_insert]
  simp only [insert, List.getD_eq_getElem?_getD, List.getElem?_modify, if_true,
    List.getElem?_eq_getElem hlt]
  exact List.mem_cons_self

theorem Chained.insert (h : Chained t e) (crc32 : BitVec 32) (i : ℕ) :
    Chained (t.insert crc32 i) e := by
  unfold Chained at h ⊢
  rw [length_buckets_insert]
  simp only [HashTable.insert, List.getD_eq_getElem?_getD, List.getElem?_modify] at h ⊢
  split_ifs
  · cases hb : t.buckets[hashToBucket e.crc32 t.buckets.length]? with
    | none =>
      rw [hb] at h
      cases h
    | some chain =>
      rw [hb] at h
      exact List.mem_cons_of_mem _ h
  · simpa using h

theorem Chained.mem_lookup (h : Chained t e) : e ∈ t.lookup e.crc32 := by
  unfold Chained at h
  unfold lookup
  generalize t.buckets.getD (hashToBucket e.crc32 t.buckets.length) [] = chain at h
  induction chain with
  | nil => cases h
  | cons a chain ih =>
    rw [List.dropWhile_cons]
    split_ifs with ha
    · rcases List.mem_cons.mp h with rfl | h
      · simp at ha
      · exact ih h
    · exact h

end Chains

end HashTable

end Fsdiff
