import Fsdiff.Patch.Safety

/-! Which first bytes the decoder executes, against the operation grammar of the
format specification. The inline count is rejected for `COPY_ADD` only, and
neither offset switch has a default, so three forms outside the grammar run. -/
namespace Fsdiff.Patch
open ByteString Exec

/-- First bytes of the grammar. In the two copies that carry an offset the low three
bits are `offset_enc` and a flag, so they have no inline count. -/
def WellFormedOp (b : UInt8) : Prop :=
  opTypeOf b ≤ 5 ∧
    (opTypeOf b = opCopyRelocate ∨ opTypeOf b = opCopyAdd →
      countEncOf b ≠ 3 ∧ offsetEncOf b ≠ 3)

instance (b : UInt8) : Decidable (WellFormedOp b) := inferInstanceAs (Decidable (_ ∧ _))

/-- First bytes outside the grammar that no check of the decoder rejects. -/
def Unguarded (b : UInt8) : Prop :=
  (opTypeOf b = opCopyRelocate ∧ (countEncOf b = 3 ∨ offsetEncOf b = 3)) ∨
    (opTypeOf b = opCopyAdd ∧ offsetEncOf b = 3)

instance (b : UInt8) : Decidable (Unguarded b) := inferInstanceAs (Decidable (_ ∨ _))

/-- What the decoder's own checks establish about a first byte. -/
def Guarded (b : UInt8) : Prop := opTypeOf b ≤ 5 ∧ (opTypeOf b = opCopyAdd → countEncOf b ≠ 3)

theorem wellFormedOp_iff (b : UInt8) : WellFormedOp b ↔ Guarded b ∧ ¬ Unguarded b := by
  simp only [WellFormedOp, Guarded, Unguarded, opCopyRelocate, opCopyAdd]
  constructor
  · rintro ⟨ht, h⟩
    refine ⟨⟨ht, fun h4 => (h (.inr h4)).1⟩, ?_⟩
    intro hcase
    rcases hcase with ⟨h1, hc | ho⟩ | ⟨h4, ho⟩
    · exact (h (.inl h1)).1 hc
    · exact (h (.inl h1)).2 ho
    · exact (h (.inr h4)).2 ho
  · rintro ⟨⟨ht, hc⟩, hu⟩
    refine ⟨ht, ?_⟩
    intro hcase
    rcases hcase with h1 | h4
    · exact ⟨fun h => hu (.inl ⟨h1, .inl h⟩), fun h => hu (.inl ⟨h1, .inr h⟩)⟩
    · exact ⟨hc h4, fun h => hu (.inr ⟨h4, h⟩)⟩

section Steps
variable {m : Machine} {patch : Bytes} {L : Layout patch} {s : Output} {c : Cursors}

theorem applyCopyAdd_guarded (b : UInt8) :
    Ends (applyCopyAdd m L b c s) (fun _ _ => countEncOf b ≠ 3) (fun _ _ => True) := by
  by_cases h3 : countEncOf b = 3
  · rw [applyCopyAdd, if_pos h3]
    trivial
  · cases applyCopyAdd m L b c s with
    | ok => exact h3
    | error => trivial

theorem applyCounted_guarded (b : UInt8) (count opPtr : ℕ) :
    Ends (applyCounted m L b count opPtr c s) (fun _ _ => opTypeOf b ≤ 5) (fun _ _ => True) := by
  by_cases h5 : opTypeOf b ≤ 5
  · cases applyCounted m L b count opPtr c s with
    | ok => exact h5
    | error => trivial
  · obtain ⟨t, ht⟩ : ∃ t, opTypeOf b = t + 6 := ⟨opTypeOf b - 6, by omega⟩
    rw [applyCounted, ht]
    trivial

theorem applyOp_guarded (hop : headerSize ≤ c.opPtr) (hr : Running L c) :
    Ends (applyOp m L c s) (fun _ _ => ∃ b, patch[c.opPtr]? = some b ∧ Guarded b)
      (fun _ _ => True) := by
  apply ((readByte_ends opRegion_inside hop hr.2).of_total).bind
  intro b s₁ hpost
  obtain ⟨hb, rfl⟩ := hpost
  refine ends_ite (fun h4 => ?_) fun h4 => ?_
  · refine (applyCopyAdd_guarded b).mono (fun _ _ h3 => ?_) (fun _ _ _ => trivial)
    exact ⟨b, hb, by rw [h4]; decide, fun _ => h3⟩
  · refine Ends.bind (Q := fun _ _ => True) ?_ ?_
    · cases readCount L b (c.opPtr + 1) _ <;> trivial
    · rintro ⟨count, opPtr⟩ s₂ -
      refine ends_ite (fun _ => trivial) fun _ => ?_
      refine (applyCounted_guarded b count opPtr).imp fun _ _ h5 => ?_
      exact ⟨b, hb, h5, fun h => absurd h h4⟩

/-- The rest of a run, seen from any of its loop heads. -/
theorem LoopHead.opLoop_eq (h : LoopHead m L c s) :
    ∃ fuel, L.opEnd ≤ c.opPtr + fuel ∧
      opLoop m L fuel c s = opLoop m L L.header.opStreamLen L.start {} := by
  induction h with
  | start => exact ⟨_, le_rfl, rfl⟩
  | @next c c' s s' hh hr hs ih =>
    obtain ⟨fuel, hfuel, heq⟩ := ih
    obtain ⟨n, rfl⟩ : ∃ n, fuel = n + 1 := ⟨fuel - 1, by have := hr.2; omega⟩
    have hlt : c.opPtr < c'.opPtr := ((applyOp_ends hh.inv.1 hr hh.inv.2).of_ok hs).2.1
    refine ⟨n, by omega, ?_⟩
    rw [← heq, opLoop, if_pos hr]
    change _ = EStateM.bind (applyOp m L c) (opLoop m L n) s
    rw [EStateM.bind, hs]

theorem LoopHead.applyOp_ok (h : LoopHead m L c s) (hr : Running L c) {c' : Cursors} {s' : Output}
    (hok : applyOps m L {} = .ok c' s') : ∃ c₁ s₁, applyOp m L c s = .ok c₁ s₁ := by
  obtain ⟨fuel, hfuel, heq⟩ := h.opLoop_eq
  obtain ⟨n, rfl⟩ : ∃ n, fuel = n + 1 := ⟨fuel - 1, by have := hr.2; omega⟩
  rw [opLoop, if_pos hr] at heq
  change EStateM.bind (applyOp m L c) (opLoop m L n) s = _ at heq
  cases hs : applyOp m L c s with
  | ok c₁ s₁ => exact ⟨c₁, s₁, rfl⟩
  | error e s₁ =>
    rw [EStateM.bind, hs] at heq
    change EStateM.bind (opLoop m L L.header.opStreamLen L.start) _ {} = _ at hok
    rw [EStateM.bind, ← heq] at hok
    cases hok

end Steps

/-- Every operation of the run has a first byte with `P`. -/
def EveryOp (m : Machine) {patch : Bytes} (L : Layout patch) (P : UInt8 → Prop) : Prop :=
  ∀ c s, LoopHead m L c s → Running L c → ∃ b, patch[c.opPtr]? = some b ∧ P b

/-- A successful run stays inside the grammar exactly when none of its operations
starts with one of the unguarded forms. -/
theorem executed_wellFormed_iff (m : Machine) (patch : Bytes) (c : Cursors) (s : Output)
    (h : patchApply m patch = .ok c s) :
    ∃ L, patchLayout patch = .ok L ∧
      (EveryOp m L WellFormedOp ↔ EveryOp m L (fun b => ¬ Unguarded b)) := by
  unfold patchApply at h
  cases hl : patchLayout patch with
  | error e => simp [hl] at h
  | ok L =>
    simp only [hl] at h
    refine ⟨L, rfl, ?_, ?_⟩
    · intro hw c₁ s₁ hh hr
      obtain ⟨b, hb, hwf⟩ := hw c₁ s₁ hh hr
      exact ⟨b, hb, ((wellFormedOp_iff b).mp hwf).2⟩
    · intro hu c₁ s₁ hh hr
      obtain ⟨b, hb, hub⟩ := hu c₁ s₁ hh hr
      obtain ⟨c₂, s₂, hs⟩ := hh.applyOp_ok hr h
      obtain ⟨b', hb', hg⟩ := (applyOp_guarded hh.inv.1.op_ge hr).of_ok hs
      obtain rfl : b' = b := Option.some.inj (hb'.symm.trans hb)
      exact ⟨b', hb, (wellFormedOp_iff b').mpr ⟨hg, hub⟩⟩

/-- `COPY_RELOCATE` with first byte 0x39: `count_enc` is inline, and bit 0 is read
both as the sign of the offset and as part of a count of two. -/
def inlineRelocatePatch : Bytes := headerWrite 2 5 2 0 ++ [0x39, 0x00]

theorem inlineRelocatePatch_accepted :
    ∃ c s L, patchApply (reliable (List.replicate 64 7)) inlineRelocatePatch = .ok c s ∧
      patchLayout inlineRelocatePatch = .ok L ∧ s.written = List.replicate 64 7 ∧
      ¬ EveryOp (reliable (List.replicate 64 7)) L WellFormedOp := by
  refine ⟨⟨34, 34, 34, 2⟩, ⟨List.replicate 64 7, 2, 2, [32, 33], [], []⟩,
    ⟨⟨5, 2, 2, 0, by decide, by decide⟩, by decide, by decide⟩, ?_, rfl, rfl, ?_⟩
  · with_unfolding_all rfl
  · intro h
    obtain ⟨b, hb, hw⟩ := h _ _ .start (by decide)
    have hb39 : b = 0x39 := by
      change some 0x39 = some b at hb
      exact (Option.some.inj hb).symm
    subst hb39
    exact absurd hw (by decide)

theorem executed_wellFormed_mixedPatch :
    (∀ b ∈ [0x58, 0x21, 0x81, 0xB8], WellFormedOp b) ∧
      ∃ s L, patchApply (reliable mixedSource) mixedPatch = .ok ⟨45, 48, 80, 4⟩ s ∧
        patchLayout mixedPatch = .ok L ∧
        (EveryOp (reliable mixedSource) L WellFormedOp ↔
          EveryOp (reliable mixedSource) L (fun b => ¬ Unguarded b)) := by
  have hrun : patchApply (reliable mixedSource) mixedPatch = .ok ⟨45, 48, 80, 4⟩ _ :=
    eq_ok_of_ending (by decide +kernel)
  have hops : ∀ b ∈ [0x58, 0x21, 0x81, 0xB8], WellFormedOp b := by
    simp only [List.forall_mem_cons]
    exact ⟨by decide, by decide, by decide, by decide, nofun⟩
  obtain ⟨L, hL, hiff⟩ := executed_wellFormed_iff (reliable mixedSource) mixedPatch _ _ hrun
  exact ⟨hops, _, L, hrun, hL, hiff⟩

end Fsdiff.Patch
