import Mathlib.Data.Finset.Card
import Mathlib.Algebra.Order.BigOperators.Group.Finset
import Mathlib.Tactic.Abel

/-! A traversal with a stack and a set of keys that were seen. Expanding a node yields
reports and children; a child is pushed when its key is seen for the first time. Where no
key is met twice, the reports are those of the tree below the root. -/
namespace Worklist
variable {α κ ρ : Type} [DecidableEq κ]

/-- `done` are the keys of the nodes that have been expanded, in order. -/
structure State (α κ ρ : Type) where
  seen : κ → Bool
  stack : List α
  out : List ρ
  done : List κ

section Steps
variable (key : α → κ)

def emit (s : State α κ ρ) : ρ ⊕ α → State α κ ρ
  | .inl r => { s with out := s.out ++ [r] }
  | .inr y =>
    if s.seen (key y) then s
    else { s with seen := fun k => decide (key y = k) || s.seen k, stack := y :: s.stack }

def pop (s : State α κ ρ) (x : α) (rest : List α) : State α κ ρ :=
  { s with stack := rest, done := s.done ++ [key x] }

/-- Keys on the stack or done have been seen, and none is there twice. -/
structure Ordered (s : State α κ ρ) : Prop where
  nodup : (s.stack.map key ++ s.done).Nodup
  marked : ∀ k ∈ s.stack.map key ++ s.done, s.seen k = true

/-- Nodes that can still be expanded, when all keys are in `keys`. -/
def pending (keys : Finset κ) (s : State α κ ρ) : ℕ :=
  (keys.filter fun k => s.seen k = false).card + s.stack.length

variable {key} {s : State α κ ρ}

theorem Ordered.emit (h : Ordered key s) (ev : ρ ⊕ α) : Ordered key (emit key s ev) := by
  cases ev with
  | inl r => exact ⟨h.nodup, h.marked⟩
  | inr y =>
    unfold Worklist.emit
    dsimp only
    split_ifs with hseen
    · exact h
    constructor
    · change (key y :: (s.stack.map key ++ s.done)).Nodup
      rw [List.nodup_cons]
      exact ⟨fun hmem => hseen (h.marked _ hmem), h.nodup⟩
    · intro k hk
      rcases List.mem_cons.mp hk with rfl | hk
      · simp
      · change (decide (key y = k) || s.seen k) = true
        rw [h.marked k hk, Bool.or_true]

theorem Ordered.foldl (h : Ordered key s) (evs : List (ρ ⊕ α)) :
    Ordered key (evs.foldl (Worklist.emit key) s) := by
  induction evs generalizing s with
  | nil => exact h
  | cons ev evs ih => exact ih (h.emit ev)

omit [DecidableEq κ] in
theorem Ordered.pop (h : Ordered key s) {x : α} {rest : List α} (hs : s.stack = x :: rest) :
    Ordered key (pop key s x rest) := by
  have hperm : (rest.map key ++ (s.done ++ [key x])).Perm (s.stack.map key ++ s.done) := by
    rw [hs, List.map_cons, ← List.append_assoc]
    exact List.perm_append_singleton _ _
  exact ⟨hperm.nodup_iff.mpr h.nodup, fun k hk => h.marked k (hperm.mem_iff.mp hk)⟩

theorem pending_emit_le {keys : Finset κ} {ev : ρ ⊕ α} (hkey : ∀ y, ev = .inr y → key y ∈ keys) :
    pending keys (emit key s ev) ≤ pending keys s := by
  cases ev with
  | inl r => exact le_rfl
  | inr y =>
    unfold emit
    dsimp only
    split_ifs with hseen
    · exact le_rfl
    have hlt : (keys.filter fun k => (decide (key y = k) || s.seen k) = false).card <
        (keys.filter fun k => s.seen k = false).card := by
      apply Finset.card_lt_card
      rw [Finset.ssubset_iff_of_subset]
      · refine ⟨key y, ?_, ?_⟩
        · exact Finset.mem_filter.mpr ⟨hkey y rfl, by simpa using hseen⟩
        · simp
      · intro k hk
        simp only [Finset.mem_filter, Bool.or_eq_false_iff] at hk ⊢
        exact ⟨hk.1, hk.2.2⟩
    unfold pending
    dsimp only
    rw [List.length_cons]
    omega

theorem pending_foldl_le {keys : Finset κ} (evs : List (ρ ⊕ α))
    (hkey : ∀ y, .inr y ∈ evs → key y ∈ keys) :
    pending keys (evs.foldl (emit key) s) ≤ pending keys s := by
  induction evs generalizing s with
  | nil => exact le_rfl
  | cons ev evs ih =>
    refine (ih fun y hy => hkey y (List.mem_cons_of_mem _ hy)).trans (pending_emit_le ?_)
    rintro y rfl
    exact hkey y List.mem_cons_self

omit [DecidableEq κ] in
variable (key) in
theorem pending_pop (keys : Finset κ) {x : α} {rest : List α} (hs : s.stack = x :: rest) :
    pending keys (pop key s x rest) + 1 = pending keys s := by
  unfold pending pop
  rw [hs, List.length_cons, Nat.add_assoc]

end Steps

/-! ### Trees -/

section Trees
variable (key : α → κ) (events : α → List (ρ ⊕ α))

/-- The reports of the tree below `x`, cut off after `n` levels. -/
def unfold : ℕ → α → List ρ
  | 0, _ => []
  | n + 1, x => (events x).flatMap (Sum.elim (fun r => [r]) (unfold n))

def childKeys (evs : List (ρ ⊕ α)) : List κ := evs.filterMap (Sum.elim (fun _ => none) (some ∘ key))

/-- What makes the graph below `root` a tree. `names k` are the keys that a node with key `k`
may have as children; only keys of nodes with events matter. -/
structure Tree (level : α → ℕ) (names : κ → List κ) (live : κ → Prop) (root : α) : Prop where
  level_child : ∀ x y, .inr y ∈ events x → 0 < level y ∧ level x = level y + 1
  dead : ∀ x, ¬ live (key x) → events x = []
  named : ∀ x k, live k → (childKeys key (events x)).count k ≤ (names (key x)).count k
  once : ∀ k (ds : List κ), live k → ds.Nodup → (ds.flatMap names).count k ≤ if k = key root then 0 else 1

/-- What the nodes on the stack will still report. -/
def promised (level : α → ℕ) (s : State α κ ρ) : List ρ :=
  s.stack.flatMap fun y => unfold events (level y) y

/-- Invariant between two events of a node whose first events are `before`, the nodes
`finished` having been expanded before it. -/
structure Covers (level : α → ℕ) (names : κ → List κ) (live : κ → Prop) (root : α)
    (finished : List κ) (before : List (ρ ⊕ α)) (left : List ρ) (s : State α κ ρ) : Prop where
  ordered : Ordered key s
  level_pos : ∀ y ∈ s.stack, 0 < level y
  seen_named : ∀ k, live k → s.seen k = true →
    k = key root ∨ 0 < (finished.flatMap names).count k + (childKeys key before).count k
  total : (s.out : Multiset ρ) + promised events level s + left = unfold events (level root) root

variable {key events} {level : α → ℕ} {names : κ → List κ} {live : κ → Prop} {root : α}
  {s : State α κ ρ}

omit [DecidableEq κ] in
theorem childKeys_append (l l' : List (ρ ⊕ α)) :
    childKeys key (l ++ l') = childKeys key l ++ childKeys key l' := List.filterMap_append

theorem unfold_dead (ht : Tree key events level names live root) {y : α} (hy : ¬ live (key y))
    (n : ℕ) : unfold events n y = [] := by
  cases n with
  | zero => rfl
  | succ n => rw [unfold, ht.dead y hy, List.flatMap_nil]

/-- A live child is met for the first time: otherwise it would be named twice. -/
theorem Covers.not_seen (ht : Tree key events level names live root) {x y : α}
    {finished : List κ} {before after : List (ρ ⊕ α)} {left : List ρ}
    (h : Covers key events level names live root finished before left s)
    (hx : (finished ++ [key x]).Nodup) (hev : events x = before ++ .inr y :: after)
    (hlive : live (key y)) : s.seen (key y) = false := by
  by_contra hne
  rw [Bool.not_eq_false] at hne
  have honce := ht.once (key y) (finished ++ [key x]) hlive hx
  have hnamed := ht.named x (key y) hlive
  rw [List.flatMap_append, List.count_append, List.flatMap_singleton] at honce
  have hcount : (childKeys key before).count (key y) + 1 ≤ (childKeys key (events x)).count (key y) := by
    have hcons : childKeys key (.inr y :: after) = key y :: childKeys key after := rfl
    rw [hev, childKeys_append, List.count_append, hcons, List.count_cons_self]
    omega
  rcases h.seen_named (key y) hlive hne with hroot | hpos
  · rw [if_pos hroot] at honce
    omega
  · split_ifs at honce <;> omega

theorem Covers.emit (ht : Tree key events level names live root) {x : α} {n : ℕ}
    {finished : List κ} {before after : List (ρ ⊕ α)} {ev : ρ ⊕ α} (hn : level x = n + 1)
    (hx : (finished ++ [key x]).Nodup) (hev : events x = before ++ ev :: after)
    (h : Covers key events level names live root finished before
      ((ev :: after).flatMap (Sum.elim (fun r => [r]) (unfold events n))) s) :
    Covers key events level names live root finished (before ++ [ev])
      (after.flatMap (Sum.elim (fun r => [r]) (unfold events n))) (emit key s ev) := by
  have htotal := h.total
  rw [List.flatMap_cons, ← Multiset.coe_add] at htotal
  have hgrow : ∀ k, (childKeys key before).count k ≤ (childKeys key (before ++ [ev])).count k := by
    intro k
    rw [childKeys_append, List.count_append]
    exact Nat.le_add_right _ _
  cases ev with
  | inl r =>
    refine ⟨h.ordered.emit _, h.level_pos, ?_, ?_⟩
    · intro k hk hseen
      exact (h.seen_named k hk hseen).imp_right fun hpos => hpos.trans_le
        (Nat.add_le_add_left (hgrow k) _)
    · rw [← htotal]
      change ((s.out ++ [r] : List ρ) : Multiset ρ) + promised events level s + _ = _
      rw [← Multiset.coe_add]
      dsimp only [Sum.elim_inl]
      abel
  | inr y =>
    have hchild := ht.level_child x y (by rw [hev]; simp)
    have hlevel : level y = n := by omega
    dsimp only [Sum.elim_inr] at htotal
    by_cases hseen : s.seen (key y) = true
    · -- skipping a node that has no events loses nothing
      have hdead : ¬ live (key y) := by
        intro hlive
        rw [h.not_seen ht hx hev hlive] at hseen
        cases hseen
      have hskip : Worklist.emit key s (.inr y) = s := if_pos hseen
      rw [unfold_dead ht hdead] at htotal
      rw [hskip]
      refine ⟨h.ordered, h.level_pos, ?_, ?_⟩
      · intro k hk hs
        exact (h.seen_named k hk hs).imp_right fun hpos => hpos.trans_le
          (Nat.add_le_add_left (hgrow k) _)
      · rw [← htotal]
        simp
    · have hpush : Worklist.emit key s (.inr y) =
          { s with seen := fun k => decide (key y = k) || s.seen k, stack := y :: s.stack } :=
        if_neg hseen
      refine ⟨h.ordered.emit _, ?_, ?_, ?_⟩
      · rw [hpush]
        intro z hz
        rcases List.mem_cons.mp hz with rfl | hz
        · exact hchild.1
        · exact h.level_pos z hz
      · rw [hpush]
        intro k hk hs
        by_cases heq : key y = k
        · right
          have hself : 0 < (childKeys key (before ++ [.inr y])).count k := by
            rw [childKeys_append, List.count_append, childKeys]
            simp [childKeys, heq]
          omega
        · have hold : s.seen k = true := by simpa [heq] using hs
          exact (h.seen_named k hk hold).imp_right fun hpos => hpos.trans_le
            (Nat.add_le_add_left (hgrow k) _)
      · rw [hpush, ← htotal]
        change (s.out : Multiset ρ) + ((y :: s.stack).flatMap fun y => unfold events (level y) y : List ρ) +
          _ = _
        rw [List.flatMap_cons, ← Multiset.coe_add, hlevel]
        change _ + (_ + (promised events level s : Multiset ρ)) + _ = _
        abel

theorem Covers.foldl (ht : Tree key events level names live root) {x : α} {n : ℕ}
    {finished : List κ} (hn : level x = n + 1) (hx : (finished ++ [key x]).Nodup)
    (after : List (ρ ⊕ α)) {before : List (ρ ⊕ α)} (hev : events x = before ++ after)
    (h : Covers key events level names live root finished before
      (after.flatMap (Sum.elim (fun r => [r]) (unfold events n))) s) :
    Covers key events level names live root finished (events x) []
      (after.foldl (Worklist.emit key) s) := by
  induction after generalizing before s with
  | nil =>
    rw [List.append_nil] at hev
    rw [hev]
    exact h
  | cons ev after ih =>
    have hev' : events x = (before ++ [ev]) ++ after := by
      rw [hev, List.append_assoc, List.singleton_append]
    exact ih hev' (h.emit ht hn hx hev)

/-- The invariant between two nodes. -/
def Complete (key : α → κ) (events : α → List (ρ ⊕ α)) (level : α → ℕ) (names : κ → List κ)
    (live : κ → Prop) (root : α) (s : State α κ ρ) : Prop :=
  Covers key events level names live root s.done [] [] s

theorem foldl_emit_done (key : α → κ) (evs : List (ρ ⊕ α)) (s : State α κ ρ) :
    (evs.foldl (emit key) s).done = s.done := by
  induction evs generalizing s with
  | nil => rfl
  | cons ev evs ih =>
    rw [List.foldl_cons, ih]
    cases ev with
    | inl r => rfl
    | inr y =>
      unfold emit
      dsimp only
      split_ifs <;> rfl

theorem Complete.expand (ht : Tree key events level names live root)
    (h : Complete key events level names live root s) {x : α} {rest : List α}
    (hs : s.stack = x :: rest) :
    Complete key events level names live root ((events x).foldl (emit key) (pop key s x rest)) := by
  have hpos := h.level_pos x (by rw [hs]; exact List.mem_cons_self)
  obtain ⟨n, hn⟩ := Nat.exists_eq_add_of_le' hpos
  have hpop := h.ordered.pop hs
  have hx : (s.done ++ [key x]).Nodup := (List.nodup_append.mp hpop.nodup).2.1
  have hstart : Covers key events level names live root s.done []
      ((events x).flatMap (Sum.elim (fun r => [r]) (unfold events n))) (pop key s x rest) := by
    refine ⟨hpop, ?_, h.seen_named, ?_⟩
    · intro y hy
      exact h.level_pos y (by rw [hs]; exact List.mem_cons_of_mem _ hy)
    · have htotal := h.total
      unfold promised at htotal
      rw [hs, List.flatMap_cons, hn, unfold, ← Multiset.coe_add] at htotal
      rw [← htotal]
      change (s.out : Multiset ρ) + (rest.flatMap fun y => unfold events (level y) y : List ρ) + _ = _
      rw [Multiset.coe_nil]
      abel
  have hend := hstart.foldl ht hn hx (events x) rfl
  refine ⟨hend.ordered, hend.level_pos, ?_, hend.total⟩
  intro k hk hseen
  rw [foldl_emit_done]
  refine (hend.seen_named k hk hseen).imp_right fun hcount => ?_
  have hnamed := ht.named x k hk
  change 0 < ((s.done ++ [key x]).flatMap names).count k + _
  rw [List.flatMap_append, List.count_append, List.flatMap_singleton]
  omega

/-- When the stack is empty, the tree has been reported. -/
theorem Complete.perm (h : Complete key events level names live root s) (hs : s.stack = []) :
    s.out.Perm (unfold events (level root) root) := by
  have htotal := h.total
  unfold promised at htotal
  rw [hs, List.flatMap_nil, Multiset.coe_nil, add_zero, add_zero] at htotal
  exact Multiset.coe_eq_coe.mp htotal

end Trees

theorem count_flatMap_le (f : κ → List κ) {keys ds : List κ} (k : κ) (hds : ds.Nodup)
    (hout : ∀ d, d ∉ keys → f d = []) :
    (ds.flatMap f).count k ≤ (keys.flatMap f).count k := by
  have hfilter : (ds.filter (· ∈ keys)).flatMap f = ds.flatMap f := by
    induction ds with
    | nil => rfl
    | cons d ds ih =>
      rw [List.flatMap_cons, ← ih (List.nodup_cons.mp hds).2]
      by_cases hd : d ∈ keys
      · simp [hd]
      · simp [hd, hout d hd]
  have hsub : (ds.filter (· ∈ keys)).Subperm keys := by
    apply List.subperm_of_subset (hds.filter _)
    intro d hd
    simpa using (List.mem_filter.mp hd).2
  obtain ⟨l, hperm, hl⟩ := hsub
  rw [← hfilter, ← (hperm.flatMap_right f).count_eq k]
  exact (hl.flatMap f).count_le k

end Worklist
