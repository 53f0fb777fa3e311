import Fsdiff.Fs.ReadSafety

/-! `extent_append` joins an extent with the one before it where both continue. What the
extents map stays the same, and no two neighbours are left that could be joined. -/
namespace Fsdiff.ExtFs

/-- The blocks that an extent maps, each with its place on the disk. -/
def Extent.blocks (x : Extent) : List (ℕ × ℕ) :=
  (List.range x.count).map fun k => (x.logical + k, x.physical + k)

def blocksOf (list : List Extent) : List (ℕ × ℕ) := list.flatMap Extent.blocks

/-- `y` goes on where `x` ends, in the file and on the disk. -/
def Extent.Continues (x y : Extent) : Prop :=
  x.logical + x.count = y.logical ∧ x.physical + x.count = y.physical

instance (x y : Extent) : Decidable (x.Continues y) := inferInstanceAs (Decidable (_ ∧ _))

/-- `extent_append` with memory for every extent and no limit on their number. -/
def mergeExtent (list : List Extent) (e : Extent) : List Extent :=
  if e.count = 0 then list
  else
    match list.getLast? with
    | none => [e]
    | some last =>
      if last.Continues e then list.dropLast ++ [{ last with count := last.count + e.count }]
      else list ++ [e]

section Merge
variable {room : ℕ} {list list' : List Extent} {e : Extent}

@[simp] theorem blocksOf_nil : blocksOf [] = [] := rfl

@[simp] theorem blocksOf_append : blocksOf (list ++ list') = blocksOf list ++ blocksOf list' := by
  simp [blocksOf]

@[simp] theorem blocksOf_singleton : blocksOf [e] = e.blocks := by simp [blocksOf]

theorem mergeExtent_empty (h : e.count = 0) : mergeExtent list e = list := if_pos h

theorem mergeExtent_nil (h : e.count ≠ 0) : mergeExtent [] e = [e] := if_neg h

theorem mergeExtent_concat (h : e.count ≠ 0) (init : List Extent) (last : Extent) :
    mergeExtent (init ++ [last]) e =
      if last.Continues e then init ++ [{ last with count := last.count + e.count }]
      else init ++ [last] ++ [e] := by
  rw [mergeExtent, if_neg h, List.getLast?_append, List.getLast?_singleton]
  simp

/-- The cases of a merge. -/
theorem mergeExtent_cases (list : List Extent) (e : Extent) :
    (e.count = 0 ∧ mergeExtent list e = list) ∨
      (e.count ≠ 0 ∧ mergeExtent list e = list ++ [e] ∧
        ∀ init last, list = init ++ [last] → ¬ last.Continues e) ∨
      ∃ init last, list = init ++ [last] ∧ e.count ≠ 0 ∧ last.Continues e ∧
        mergeExtent list e = init ++ [{ last with count := last.count + e.count }] := by
  by_cases h0 : e.count = 0
  · exact .inl ⟨h0, mergeExtent_empty h0⟩
  right
  rcases list.eq_nil_or_concat' with rfl | ⟨init, last, rfl⟩
  · left
    refine ⟨h0, mergeExtent_nil h0, ?_⟩
    intro init last heq
    simp at heq
  · rw [mergeExtent_concat h0]
    by_cases hc : last.Continues e
    · right
      exact ⟨init, last, rfl, h0, hc, if_pos hc⟩
    · left
      refine ⟨h0, if_neg hc, ?_⟩
      intro init' last' heq
      obtain ⟨-, hlast⟩ := List.append_inj' heq rfl
      rwa [← (List.cons.inj hlast).1]

theorem extentAppend_cases (room : ℕ) (list : List Extent) (e : Extent) :
    extentAppend room list e = some (mergeExtent list e) ∨
      extentAppend room list e = none ∧
        (maxExtentsPerFile < (mergeExtent list e).length ∨ room < (mergeExtent list e).length) := by
  have hgrow : ∀ r, r = list ++ [e] →
      (if maxExtentsPerFile ≤ list.length ∨ room ≤ list.length then none
        else some (list ++ [e])) = some r ∨
      (if maxExtentsPerFile ≤ list.length ∨ room ≤ list.length then none
        else some (list ++ [e])) = none ∧ (maxExtentsPerFile < r.length ∨ room < r.length) := by
    rintro r rfl
    split_ifs with hfull
    · right
      rw [List.length_append, List.length_singleton]
      exact ⟨rfl, hfull.imp Nat.lt_succ_of_le Nat.lt_succ_of_le⟩
    · exact .inl rfl
  unfold extentAppend mergeExtent
  dsimp only
  by_cases h0 : e.count = 0
  · rw [if_pos h0, if_pos h0]
    exact .inl rfl
  rw [if_neg h0, if_neg h0]
  cases hlast : list.getLast? with
  | none =>
    rw [List.getLast?_eq_none_iff] at hlast
    exact hgrow [e] (by rw [hlast]; rfl)
  | some last =>
    dsimp only
    by_cases hc : last.logical + last.count = e.logical ∧ last.physical + last.count = e.physical
    · rw [if_pos hc, if_pos (show last.Continues e from hc)]
      exact .inl rfl
    · rw [if_neg hc, if_neg (show ¬ last.Continues e from hc)]
      exact hgrow _ rfl

theorem blocksOf_mergeExtent (list : List Extent) (e : Extent) :
    blocksOf (mergeExtent list e) = blocksOf list ++ e.blocks := by
  rcases mergeExtent_cases list e with ⟨h0, heq⟩ | ⟨-, heq, -⟩ | ⟨init, last, rfl, -, hc, heq⟩
  · rw [heq, Extent.blocks, h0]
    simp
  · rw [heq, blocksOf_append, blocksOf_singleton]
  · rw [heq, blocksOf_append, blocksOf_append, List.append_assoc, blocksOf_singleton,
      blocksOf_singleton]
    congr 1
    obtain ⟨hl, hp⟩ := hc
    simp only [Extent.blocks]
    rw [List.range_add, List.map_append, List.map_map, ← hl, ← hp]
    congr 1
    apply List.map_congr_left
    intro k _
    simp [add_assoc]

/-- A list of extents none of which is empty, and none of which continues the one before it. -/
structure Coalesced (list : List Extent) : Prop where
  count_pos : ∀ x ∈ list, 1 ≤ x.count
  chain : list.IsChain fun x y => ¬ x.Continues y

theorem coalesced_nil : Coalesced [] := ⟨by simp, .nil⟩

theorem Coalesced.mergeExtent (h : Coalesced list) (e : Extent) : Coalesced (mergeExtent list e) := by
  rcases mergeExtent_cases list e with ⟨-, heq⟩ | ⟨h0, heq, hne⟩ | ⟨init, last, rfl, h0, -, heq⟩
  · rw [heq]
    exact h
  · rw [heq]
    constructor
    · intro x hx
      rcases List.mem_append.mp hx with hx | hx
      · exact h.count_pos x hx
      · rw [List.mem_singleton.mp hx]
        exact Nat.one_le_iff_ne_zero.mpr h0
    · rw [List.isChain_append]
      refine ⟨h.chain, .singleton e, ?_⟩
      intro x hx y hy
      rcases list.eq_nil_or_concat' with rfl | ⟨init, last, rfl⟩
      · cases hx
      · simp at hx hy
        subst hx hy
        exact hne init last rfl
  · rw [heq]
    have hchain := h.chain
    rw [List.isChain_append] at hchain
    constructor
    · intro x hx
      rcases List.mem_append.mp hx with hx | hx
      · exact h.count_pos x (List.mem_append_left _ hx)
      · rw [List.mem_singleton.mp hx]
        have hlast := h.count_pos last (by simp)
        change 1 ≤ last.count + e.count
        omega
    · -- the joined extent starts where the old one did
      rw [List.isChain_append]
      refine ⟨hchain.1, .singleton _, ?_⟩
      intro x hx y hy
      have hstart := hchain.2.2 x hx last rfl
      simp at hy
      subst hy
      exact hstart

theorem length_le_mergeExtent (list : List Extent) (e : Extent) :
    list.length ≤ (mergeExtent list e).length := by
  rcases mergeExtent_cases list e with ⟨-, heq⟩ | ⟨-, heq, -⟩ | ⟨init, last, rfl, -, -, heq⟩
  · rw [heq]
  · rw [heq, List.length_append]
    omega
  · rw [heq, List.length_append, List.length_append]
    rfl

end Merge

/-! ### Many extents -/

def mergeAll (list extents : List Extent) : List Extent := extents.foldl mergeExtent list

section MergeAll
variable {list extents extents' : List Extent}

@[simp] theorem mergeAll_nil : mergeAll list [] = list := rfl

theorem mergeAll_append : mergeAll list (extents ++ extents') = mergeAll (mergeAll list extents) extents' :=
  List.foldl_append

theorem blocksOf_mergeAll (list extents : List Extent) :
    blocksOf (mergeAll list extents) = blocksOf list ++ blocksOf extents := by
  induction extents generalizing list with
  | nil => simp
  | cons e extents ih =>
    change blocksOf (mergeAll (mergeExtent list e) extents) = _
    rw [ih, blocksOf_mergeExtent, List.append_assoc]
    rfl

/-- Joining extents changes nothing about the blocks they map. -/
theorem blocksOf_mergeAll_nil (extents : List Extent) :
    blocksOf (mergeAll [] extents) = blocksOf extents := by
  rw [blocksOf_mergeAll, blocksOf_nil, List.nil_append]

theorem Coalesced.mergeAll (h : Coalesced list) (extents : List Extent) :
    Coalesced (mergeAll list extents) := by
  induction extents generalizing list with
  | nil => exact h
  | cons e extents ih => exact ih (h.mergeExtent e)

theorem length_le_mergeAll (list extents : List Extent) :
    list.length ≤ (mergeAll list extents).length := by
  induction extents generalizing list with
  | nil => exact le_rfl
  | cons e extents ih => exact (length_le_mergeExtent list e).trans (ih _)

end MergeAll

end Fsdiff.ExtFs
