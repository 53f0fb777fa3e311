import Mathlib.Data.List.Sort
import Mathlib.Data.List.Pairwise

/-! Sorting by a key and then by a value, and keeping the first entry of each run of equal
keys: what is left has one entry for each key, that of the least value, and does not depend on
how often or in which order the entries came. -/
namespace LeastByKey
variable {α κ ν : Type} [LinearOrder κ] [LinearOrder ν] (key : α → κ) (val : α → ν)

/-- The order that is sorted by. -/
def Le (a b : α) : Prop := key a < key b ∨ key a = key b ∧ val a ≤ val b

instance : DecidableRel (Le key val) := fun a b =>
  inferInstanceAs (Decidable (key a < key b ∨ key a = key b ∧ val a ≤ val b))

/-- `x` is in `l`, and no entry of its key has a smaller value. -/
def IsLeast (l : List α) (x : α) : Prop := x ∈ l ∧ ∀ y ∈ l, key y = key x → val x ≤ val y

/-- The entries whose key is not that of the entry kept before, which is `last` at first. -/
def dropRepeats : α → List α → List α
  | _, [] => []
  | last, x :: l => if key x ≠ key last then x :: dropRepeats x l else dropRepeats last l

/-- The first entry and those that do not repeat the key kept before. -/
def keepFirst : List α → List α
  | [] => []
  | x :: l => x :: dropRepeats key x l

section Order
variable {key val} {a b c : α}

theorem Le.trans (hab : Le key val a b) (hbc : Le key val b c) : Le key val a c := by
  rcases hab with hab | ⟨hab, hv⟩
  · rcases hbc with hbc | ⟨hbc, -⟩
    · exact .inl (hab.trans hbc)
    · exact .inl (hbc ▸ hab)
  · rcases hbc with hbc | ⟨hbc, hv'⟩
    · exact .inl (hab ▸ hbc)
    · exact .inr ⟨hab.trans hbc, hv.trans hv'⟩

variable (key val) in
theorem Le.total (a b : α) : Le key val a b ∨ Le key val b a := by
  rcases lt_trichotomy (key a) (key b) with h | h | h
  · exact .inl (.inl h)
  · rcases le_total (val a) (val b) with hv | hv
    · exact .inl (.inr ⟨h, hv⟩)
    · exact .inr (.inr ⟨h.symm, hv⟩)
  · exact .inr (.inl h)

theorem Le.key_le (h : Le key val a b) : key a ≤ key b := by
  rcases h with h | h
  · exact h.le
  · exact h.1.le

theorem Le.val_le (h : Le key val a b) (hkey : key b = key a) : val a ≤ val b := by
  rcases h with h | h
  · exact absurd hkey h.ne'
  · exact h.2

end Order

section Keep
variable {key val} {last x : α} {l l' : List α}

theorem mem_of_mem_dropRepeats (h : x ∈ dropRepeats key last l) : x ∈ l := by
  induction l generalizing last with
  | nil => cases h
  | cons y l ih =>
    unfold dropRepeats at h
    split_ifs at h with hkey
    · rcases List.mem_cons.mp h with rfl | h
      · exact List.mem_cons_self
      · exact List.mem_cons_of_mem _ (ih h)
    · exact List.mem_cons_of_mem _ (ih h)

theorem mem_of_mem_keepFirst (h : x ∈ keepFirst key l) : x ∈ l := by
  cases l with
  | nil => cases h
  | cons y l =>
    rcases List.mem_cons.mp h with rfl | h
    · exact List.mem_cons_self
    · exact List.mem_cons_of_mem _ (mem_of_mem_dropRepeats h)

theorem pairwise_dropRepeats (hl : (last :: l).Pairwise (Le key val)) :
    (last :: dropRepeats key last l).Pairwise (key · < key ·) := by
  induction l generalizing last with
  | nil => exact List.pairwise_singleton _ _
  | cons y l ih =>
    have hl' := List.pairwise_cons.mp hl
    have hy := List.pairwise_cons.mp hl'.2
    unfold dropRepeats
    split_ifs with hkey
    · have hlt : key last < key y :=
        lt_of_le_of_ne (hl'.1 y List.mem_cons_self).key_le (Ne.symm hkey)
      refine List.pairwise_cons.mpr ⟨?_, ih hl'.2⟩
      intro z hz
      rcases List.mem_cons.mp hz with rfl | hz
      · exact hlt
      · exact hlt.trans_le (hy.1 z (mem_of_mem_dropRepeats hz)).key_le
    · apply ih
      exact List.pairwise_cons.mpr ⟨fun z hz => hl'.1 z (List.mem_cons_of_mem _ hz), hy.2⟩

theorem pairwise_keepFirst (hl : l.Pairwise (Le key val)) :
    (keepFirst key l).Pairwise (key · < key ·) := by
  cases l with
  | nil => exact List.Pairwise.nil
  | cons x l => exact pairwise_dropRepeats hl

theorem exists_least_dropRepeats (hl : (last :: l).Pairwise (Le key val)) (hx : x ∈ last :: l) :
    ∃ y ∈ last :: dropRepeats key last l, key y = key x ∧ val y ≤ val x := by
  induction l generalizing last with
  | nil =>
    rw [List.mem_singleton.mp hx]
    exact ⟨last, List.mem_cons_self, rfl, le_rfl⟩
  | cons z l ih =>
    have hl' := List.pairwise_cons.mp hl
    rcases List.mem_cons.mp hx with rfl | hx
    · exact ⟨x, List.mem_cons_self, rfl, le_rfl⟩
    unfold dropRepeats
    split_ifs with hkey
    · obtain ⟨y, hy, hyx⟩ := ih hl'.2 hx
      exact ⟨y, List.mem_cons_of_mem _ hy, hyx⟩
    · rw [not_not] at hkey
      rcases List.mem_cons.mp hx with rfl | hx
      · exact ⟨last, List.mem_cons_self, hkey.symm, (hl'.1 x List.mem_cons_self).val_le hkey⟩
      · have htail : (last :: l).Pairwise (Le key val) := List.pairwise_cons.mpr
          ⟨fun z hz => hl'.1 z (List.mem_cons_of_mem _ hz), (List.pairwise_cons.mp hl'.2).2⟩
        exact ih htail (List.mem_cons_of_mem _ hx)

theorem exists_least_keepFirst (hl : l.Pairwise (Le key val)) (hx : x ∈ l) :
    ∃ y ∈ keepFirst key l, key y = key x ∧ val y ≤ val x := by
  cases l with
  | nil => cases hx
  | cons last l => exact exists_least_dropRepeats hl hx

theorem eq_of_key_eq {y : α} (hl : l.Pairwise (key · < key ·)) (hx : x ∈ l) (hy : y ∈ l)
    (h : key x = key y) : x = y := by
  have hkeys : (l.map key).Nodup := List.pairwise_map.mpr (hl.imp ne_of_lt)
  exact List.inj_on_of_nodup_map hkeys hx hy h

theorem eq_of_mem_iff (hl : l.Pairwise (key · < key ·)) (hl' : l'.Pairwise (key · < key ·))
    (h : ∀ x, x ∈ l ↔ x ∈ l') : l = l' := by
  have hnodup : ∀ {l : List α}, l.Pairwise (key · < key ·) → l.Nodup := by
    intro l hl
    exact hl.imp fun hlt heq => hlt.ne (congrArg key heq)
  apply List.Perm.eq_of_pairwise _ hl hl'
  · exact (List.perm_ext_iff_of_nodup (hnodup hl) (hnodup hl')).mpr h
  · intro a b _ _ hab hba
    exact absurd hba hab.asymm

end Keep

section Sorting

/-- Sorted, and the first of each key. -/
def leastByKey (l : List α) : List α := keepFirst key (l.mergeSort fun a b => decide (Le key val a b))

variable {l l' : List α} {x : α}

theorem pairwise_mergeSort_le (l : List α) :
    (l.mergeSort fun a b => decide (Le key val a b)).Pairwise (Le key val) := by
  have hsorted : (l.mergeSort fun a b => decide (Le key val a b)).Pairwise
      (fun a b => decide (Le key val a b) = true) := by
    apply List.pairwise_mergeSort
    · intro a b c hab hbc
      exact decide_eq_true ((of_decide_eq_true hab).trans (of_decide_eq_true hbc))
    · intro a b
      simpa using Le.total key val a b
  exact hsorted.imp of_decide_eq_true

theorem pairwise_leastByKey (l : List α) : (leastByKey key val l).Pairwise (key · < key ·) :=
  pairwise_keepFirst (pairwise_mergeSort_le key val l)

theorem exists_leastByKey (hx : x ∈ l) :
    ∃ y ∈ leastByKey key val l, key y = key x ∧ val y ≤ val x :=
  exists_least_keepFirst (pairwise_mergeSort_le key val l) (List.mem_mergeSort.mpr hx)

variable {key val}

theorem mem_of_mem_leastByKey (h : x ∈ leastByKey key val l) : x ∈ l :=
  List.mem_mergeSort.mp (mem_of_mem_keepFirst h)

/-- What is kept are the entries of least value of their key, if key and value tell entries
apart. -/
theorem mem_leastByKey (hinj : ∀ a b, key a = key b → val a = val b → a = b) :
    x ∈ leastByKey key val l ↔ IsLeast key val l x := by
  constructor
  · intro hx
    refine ⟨mem_of_mem_leastByKey hx, ?_⟩
    intro y hy hkey
    obtain ⟨z, hz, hzy, hval⟩ := exists_leastByKey key val hy
    rw [eq_of_key_eq (pairwise_leastByKey key val l) hx hz (hkey.symm.trans hzy.symm)]
    exact hval
  · rintro ⟨hx, hleast⟩
    obtain ⟨z, hz, hzx, hval⟩ := exists_leastByKey key val hx
    have hle := hleast z (mem_of_mem_leastByKey hz) hzx
    rwa [← hinj z x hzx (le_antisymm hval hle)]

/-- Neither the order nor the number of times in which entries come matters. -/
theorem leastByKey_congr (hinj : ∀ a b, key a = key b → val a = val b → a = b)
    (h : ∀ x, x ∈ l ↔ x ∈ l') : leastByKey key val l = leastByKey key val l' := by
  apply eq_of_mem_iff (pairwise_leastByKey key val l) (pairwise_leastByKey key val l')
  intro x
  rw [mem_leastByKey hinj, mem_leastByKey hinj]
  unfold IsLeast
  simp only [h]

end Sorting

end LeastByKey
