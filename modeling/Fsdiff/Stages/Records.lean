import Fsdiff.Stages.Context
import Mathlib.Tactic.Linarith

/-! What a tracker may say about two images, and the rules by which the stages may
change it. A stage advances a tracker when it keeps every recorded match and adds only
true ones. -/
namespace Fsdiff.Stages
open ByteString Exec

/-- Two images in blocks of `bs` bytes, and the equal bytes that a partial match needs. -/
structure Comparison where
  bs : ℕ
  threshold : ℕ
  src : Bytes
  dest : Bytes

def Comparison.destBlock (J : Comparison) (i : ℕ) : Bytes := blockAt J.bs J.dest i

def Comparison.srcBlock (J : Comparison) (i : ℕ) : Bytes := blockAt J.bs J.src i

/-- `src_blocks` -/
def Comparison.srcBlocks (J : Comparison) : ℕ := J.src.length / J.bs

/-- `dest_blocks` -/
def Comparison.destBlocks (J : Comparison) : ℕ := J.dest.length / J.bs

/-- `p` is the start of a source window that matches block `i` well enough. -/
def Comparison.Accepts (J : Comparison) (i p : ℕ) : Prop :=
  p + J.bs ≤ J.src.length ∧ J.threshold ≤ matchCount (window J.src p J.bs) (J.destBlock i)

/-- The state of block `i` is true of the images. -/
def Recorded (J : Comparison) (i : ℕ) (b : BlockState) : Prop :=
  match b.matchType with
  | .none => True
  | .zero => J.destBlock i = List.replicate J.bs 0x00
  | .one => J.destBlock i = List.replicate J.bs 0xFF
  | .identity => b.srcIndex = i ∧ i < J.srcBlocks ∧ J.destBlock i = J.srcBlock i
  | .relocate =>
    b.srcIndex ≠ i ∧ b.srcIndex < J.srcBlocks ∧ J.destBlock i = J.srcBlock b.srcIndex
  | .partialMatch =>
    0 ≤ b.byteOffset ∧ b.byteOffset < J.bs ∧
      ∃ p : ℕ, (p : ℤ) = b.srcIndex * J.bs + b.byteOffset ∧ J.Accepts i p ∧
        b.delta = some (deltaOf (J.destBlock i) (window J.src p J.bs))

/-- There is a state for every block, it is true, and the bitmap agrees with the states. -/
structure Sound (J : Comparison) (t : Tracker) : Prop where
  inv : t.Inv
  count_eq : t.count = J.destBlocks
  recorded : ∀ i b, t.get i = some b → Recorded J i b

theorem Comparison.length_destBlock {J : Comparison} {i : ℕ} (hi : i < J.destBlocks) :
    (J.destBlock i).length = J.bs := by
  have hle : (i + 1) * J.bs ≤ J.dest.length :=
    (Nat.mul_le_mul_right _ hi).trans (Nat.div_mul_le_self _ _)
  apply length_window
  rw [add_mul, one_mul] at hle
  exact hle

def SameMatch (b b' : BlockState) : Prop :=
  b'.matchType = b.matchType ∧ b'.srcIndex = b.srcIndex ∧ b'.byteOffset = b.byteOffset ∧
    b'.delta = b.delta

/-- No block that was matched in `t` has changed in `t'`. -/
structure Kept (t t' : Tracker) : Prop where
  count_eq : t'.count = t.count
  same : ∀ i b, t.get i = some b → b.matchType ≠ .none → ∃ b', t'.get i = some b' ∧ SameMatch b b'

theorem Kept.refl (t : Tracker) : Kept t t :=
  ⟨rfl, fun _ b hb _ => ⟨b, hb, rfl, rfl, rfl, rfl⟩⟩

theorem Kept.trans {t t₁ t₂ : Tracker} (h : Kept t t₁) (h' : Kept t₁ t₂) : Kept t t₂ := by
  refine ⟨h'.count_eq.trans h.count_eq, ?_⟩
  intro i b hb hm
  obtain ⟨b₁, hb₁, hty, hs, ho, hd⟩ := h.same i b hb hm
  obtain ⟨b₂, hb₂, hty₂, hs₂, ho₂, hd₂⟩ := h'.same i b₁ hb₁ (hty ▸ hm)
  exact ⟨b₂, hb₂, hty₂.trans hty, hs₂.trans hs, ho₂.trans ho, hd₂.trans hd⟩

section Updates
variable {J : Comparison} {t : Tracker} {i : ℕ}

theorem Recorded.of_same {b b' : BlockState} (h : Recorded J i b) (hs : SameMatch b b') :
    Recorded J i b' := by
  obtain ⟨hty, hsrc, hoff, hdelta⟩ := hs
  simpa only [Recorded, hty, hsrc, hoff, hdelta] using h

theorem Sound.setCrc32 (h : Sound J t) (c : BitVec 32) :
    Sound J (t.setCrc32 i c) ∧ Kept t (t.setCrc32 i c) := by
  have hsame : ∀ j b', (t.setCrc32 i c).get j = some b' → ∃ b, t.get j = some b ∧ SameMatch b b' := by
    intro j b' hb'
    rw [Tracker.get_setCrc32] at hb'
    split_ifs at hb'
    · obtain ⟨b, hb, rfl⟩ := Option.map_eq_some_iff.mp hb'
      exact ⟨b, hb, rfl, rfl, rfl, rfl⟩
    · exact ⟨b', hb', rfl, rfl, rfl, rfl⟩
  have hc := Tracker.count_setCrc32 t i c
  refine ⟨⟨h.inv.setCrc32 c, hc.trans h.count_eq, ?_⟩, hc, ?_⟩
  · intro j b' hb'
    obtain ⟨b, hb, hs⟩ := hsame j b' hb'
    exact (h.recorded j b hb).of_same hs
  · intro j b hb _
    have hlt : j < (t.setCrc32 i c).count := by
      rw [Tracker.count_setCrc32]
      exact Tracker.get_lt hb
    obtain ⟨b', hb'⟩ := Tracker.exists_get hlt
    obtain ⟨b₀, hb₀, hs⟩ := hsame j b' hb'
    rw [hb] at hb₀
    cases hb₀
    exact ⟨b', hb', hs⟩

theorem Sound.setMatch (h : Sound J t) {ty : MatchType} (hty : ty ≠ .none) {s : ℕ}
    (hev : ∀ b : BlockState, Recorded J i { b with matchType := ty, srcIndex := s }) :
    Sound J (t.setMatch i ty s) ∧ Kept t (t.setMatch i ty s) := by
  have hc := Tracker.count_setMatch t i ty s
  refine ⟨⟨h.inv.setMatch hty s, hc.trans h.count_eq, ?_⟩, hc, ?_⟩
  · intro j b' hb'
    rw [Tracker.get_setMatch] at hb'
    split_ifs at hb' with hij
    · subst hij
      obtain ⟨b, hb, hb'⟩ := Option.map_eq_some_iff.mp hb'
      split_ifs at hb'
      · subst hb'
        exact hev b
      · subst hb'
        exact h.recorded i b hb
    · exact h.recorded j b' hb'
  · intro j b hb hm
    refine ⟨b, ?_, rfl, rfl, rfl, rfl⟩
    rw [Tracker.get_setMatch, hb, Option.map_some, if_neg hm, ite_self]

/-- `set_match` and `set_delta` of an unmatched block with a window that matches it. -/
theorem Sound.setPartial (h : Sound J t) (hbs : 0 < J.bs) (hu : t.isUnmatched i = true) {p : ℕ}
    (hp : J.Accepts i p) :
    let t' := (t.setMatch i .partialMatch (p / J.bs)).setDelta i (p % J.bs : ℕ)
      (some (deltaOf (J.destBlock i) (window J.src p J.bs)))
    Sound J t' ∧ Kept t t' := by
  have hget : ∀ j, ((t.setMatch i .partialMatch (p / J.bs)).setDelta i (p % J.bs : ℕ)
      (some (deltaOf (J.destBlock i) (window J.src p J.bs)))).get j =
        if i = j then (t.get j).map fun b => { b with
          matchType := .partialMatch, srcIndex := p / J.bs, byteOffset := (p % J.bs : ℕ),
          delta := some (deltaOf (J.destBlock i) (window J.src p J.bs)) }
        else t.get j := by
    intro j
    rw [Tracker.get_setDelta, Tracker.get_setMatch]
    split_ifs with hij
    · subst hij
      cases hb : t.get i with
      | none => rfl
      | some b =>
        have hm := (h.inv.isUnmatched_iff hb).mp hu
        simp [hm]
    · rfl
  refine ⟨⟨(h.inv.setMatch (by decide) _).setDelta _ _, ?_, ?_⟩, ?_, ?_⟩
  · rw [Tracker.count_setDelta, Tracker.count_setMatch, h.count_eq]
  · intro j b' hb'
    rw [hget] at hb'
    split_ifs at hb' with hij
    · subst hij
      obtain ⟨b, hb, rfl⟩ := Option.map_eq_some_iff.mp hb'
      refine ⟨Int.natCast_nonneg _, Int.ofNat_lt.mpr (Nat.mod_lt p hbs), p, ?_, hp, rfl⟩
      dsimp only
      rw [← Nat.cast_mul, ← Nat.cast_add, mul_comm, Nat.div_add_mod]
    · exact h.recorded j b' hb'
  · rw [Tracker.count_setDelta, Tracker.count_setMatch]
  · intro j b hb hm
    have hij : i ≠ j := by
      rintro rfl
      exact hm ((h.inv.isUnmatched_iff hb).mp hu)
    exact ⟨b, by rw [hget, if_neg hij, hb], rfl, rfl, rfl, rfl⟩

end Updates

/-! ### Runs -/

/-- However `r` ends, the tracker of `w` has been advanced. -/
def Advances (J : Comparison) {α : Type} (w : World) (r : EStateM.Result FsdError World α) : Prop :=
  Ends r (fun _ w' => Sound J w'.tracker ∧ Kept w.tracker w'.tracker)
    (fun _ w' => Sound J w'.tracker ∧ Kept w.tracker w'.tracker)

/-- `x` advances every sound tracker. -/
def Advancing (J : Comparison) {α : Type} (x : StageM α) : Prop :=
  ∀ w, Sound J w.tracker → Advances J w (x w)

section Runs
variable {J : Comparison} {α β : Type} {w : World} {env : Env}

theorem Sound.advances (h : Sound J w.tracker) : Sound J w.tracker ∧ Kept w.tracker w.tracker :=
  ⟨h, .refl _⟩

theorem advancing_pure (a : α) : Advancing J (pure a : StageM α) := fun _ h => h.advances

theorem Advances.bind {x : StageM α} {f : α → StageM β} (hx : Advances J w (x w))
    (hf : ∀ a, Advancing J (f a)) : Advances J w ((x >>= f) w) := by
  apply Ends.bind hx
  intro a w₁ hpost
  obtain ⟨hs, hk⟩ := hpost
  apply (hf a w₁ hs).mono
  · intro b w₂ hpost
    obtain ⟨hs₂, hk₂⟩ := hpost
    exact ⟨hs₂, hk.trans hk₂⟩
  · intro e w₂ hpost
    obtain ⟨hs₂, hk₂⟩ := hpost
    exact ⟨hs₂, hk.trans hk₂⟩

theorem Advancing.bind {x : StageM α} {f : α → StageM β} (hx : Advancing J x)
    (hf : ∀ a, Advancing J (f a)) : Advancing J (x >>= f) :=
  fun w h => (hx w h).bind hf

theorem advancing_get {f : World → StageM α} (hf : ∀ w, Sound J w.tracker → Advances J w (f w w)) :
    Advancing J (get >>= f) := hf

theorem Advancing.ite {p : Prop} {_ : Decidable p} {x y : StageM α} (hx : p → Advancing J x)
    (hy : ¬ p → Advancing J y) : Advancing J (if p then x else y) := by
  split_ifs with h
  · exact hx h
  · exact hy h

theorem advancing_updateTracker {f : Tracker → Tracker}
    (hf : ∀ t, Sound J t → Sound J (f t) ∧ Kept t (f t)) : Advancing J (updateTracker f) :=
  fun w h => hf w.tracker h

theorem advancing_checkCancelled : Advancing J (checkCancelled env) := by
  intro w h
  change Advances J w ((if env.cancelled w.checks then throw .cancelled else pure () : StageM Unit)
    { w with checks := w.checks + 1 })
  apply ends_ite
  · exact fun _ => h.advances
  · exact fun _ => h.advances

theorem Advancing.iterM {body : ℕ → β → StageM β} (n first : ℕ) (b : β)
    (hbody : ∀ i b, first ≤ i → i < first + n → Advancing J (body i b)) :
    Advancing J (Exec.iterM body n first b) := by
  intro w h
  apply Ends.iterM (fun _ _ (w' : World) => Sound J w'.tracker ∧ Kept w.tracker w'.tracker)
  · intro i b w₁ hi hn hpost
    obtain ⟨hs, hk⟩ := hpost
    apply (hbody i b hi hn w₁ hs).mono
    · intro _ w₂ hpost
      obtain ⟨hs₂, hk₂⟩ := hpost
      exact ⟨hs₂, hk.trans hk₂⟩
    · intro _ w₂ hpost
      obtain ⟨hs₂, hk₂⟩ := hpost
      exact ⟨hs₂, hk.trans hk₂⟩
  · exact h.advances

/-- Recording a window of an unmatched block that is good enough. -/
theorem recordWindow_advances (hbs : 0 < J.bs) (h : Sound J w.tracker) {i p : ℕ}
    (hu : w.tracker.isUnmatched i = true) (hp : J.Accepts i p) :
    Advances J w (recordWindow env J.bs J.src J.dest i p w) := by
  apply Ends.bind (x := poolAlloc env)
    (Q := fun _ w' => w'.tracker = w.tracker) (s := w) rfl
  intro ok w₁ hw
  apply ends_ite
  · intro _
    change Sound J _ ∧ Kept w.tracker _
    have hset := Sound.setPartial (t := w₁.tracker) (hw ▸ h) hbs (hw ▸ hu) hp
    rw [hw] at hset
    dsimp only
    rw [hw]
    exact hset
  · intro _
    change Sound J w₁.tracker ∧ Kept w.tracker w₁.tracker
    rw [hw]
    exact h.advances

end Runs

end Fsdiff.Stages
