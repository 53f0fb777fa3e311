import Fsdiff.Data.Polling
import Fsdiff.Stages.Controller

/-! What the cancel flags do to a run: up to the look that finds one set it is the run that
nobody cancels, and there it ends. -/
namespace Fsdiff.Stages
open Exec

/-- The same memory, and nobody cancels. -/
def Env.undisturbed (env : Env) : Env := { env with cancelled := fun _ => false }

/-- `x` is `x₀` with looks at the flags, and `x₀` stops only with an error of `E`. -/
abbrev Cancellable {α : Type} (E : FsdError → Prop) (env : Env) (x₀ x : StageM α) : Prop :=
  Polled World.checks .cancelled E env.cancelled x₀ x

section Stages
variable {E : FsdError → Prop} {env : Env} {K : Kernels} {bs t range : ℕ} {src dest : Bytes}

theorem cancellable_poolAlloc : Cancellable E env (poolAlloc env.undisturbed) (poolAlloc env) :=
  polled_of_quiet fun _ => rfl

theorem cancellable_checkCancelled :
    Cancellable E env (checkCancelled env.undisturbed) (checkCancelled env) := by
  apply polled_look (g := fun w => { w with checks := w.checks + 1 }) fun _ => rfl
  · exact fun _ => rfl
  · intro w
    change (if env.cancelled w.checks = true then throw .cancelled else pure () : StageM Unit)
      { w with checks := w.checks + 1 } = _
    split_ifs <;> rfl

theorem cancellable_updateTracker (f : Tracker → Tracker) :
    Cancellable E env (updateTracker f) (updateTracker f) :=
  polled_modify fun _ => rfl

theorem cancellable_raise {α : Type} {r : Except FsdError α} (h : ∀ e, r = .error e → E e) :
    Cancellable E env (raise r) (raise r) := by
  cases r with
  | ok a => exact polled_pure a
  | error e => exact polled_throw (h e rfl)

theorem recordWindow_cancellable (destIdx srcPos : ℕ) :
    Cancellable E env (recordWindow env.undisturbed bs src dest destIdx srcPos)
      (recordWindow env bs src dest destIdx srcPos) := by
  apply cancellable_poolAlloc.bind
  intro granted
  apply Polled.ite
  · intro _
    exact (cancellable_updateTracker _).bind fun _ => polled_pure _
  · exact fun _ => polled_pure _

theorem identityStageRun_cancellable (srcBlocks destBlocks : ℕ) :
    Cancellable E env (identityStageRun K bs src dest srcBlocks destBlocks)
      (identityStageRun K bs src dest srcBlocks destBlocks) := by
  apply Polled.bind
  · apply Polled.iterM
    intro i _
    apply Polled.ite (fun _ => cancellable_updateTracker _) fun _ => ?_
    apply Polled.ite (fun _ => cancellable_updateTracker _) fun _ => ?_
    exact .ite (fun _ => cancellable_updateTracker _) fun _ => cancellable_updateTracker _
  · intro _
    apply Polled.iterM
    intro i _
    apply Polled.ite (fun _ => cancellable_updateTracker _) fun _ => ?_
    exact .ite (fun _ => cancellable_updateTracker _) fun _ => cancellable_updateTracker _

theorem hashTableCreate_cancellable (hmem : (∃ n, env.poolAlloc n = false) → E .outOfMemory)
    (expected : ℕ) :
    Cancellable E env (hashTableCreate env.undisturbed expected) (hashTableCreate env expected) := by
  have halloc : ∀ w : World, Ends (poolAlloc env w)
      (fun granted w' => w'.checks = w.checks ∧ (granted = false → E .outOfMemory))
      (fun e w' => w'.checks = w.checks ∧ E e) :=
    fun w => ⟨rfl, fun hrefused => hmem ⟨w.allocs, hrefused⟩⟩
  apply polled_of_quiet
  intro w
  apply (halloc w).bind
  rintro granted w₁ ⟨hw₁, hrefused⟩
  apply ends_ite
  · intro _
    rw [← hw₁]
    apply (halloc w₁).bind
    rintro granted' w₂ ⟨hw₂, hrefused'⟩
    apply ends_ite
    · exact fun _ => hw₂
    · exact fun hno => ⟨hw₂, hrefused' (Bool.eq_false_iff.mpr hno)⟩
  · exact fun hno => ⟨hw₁, hrefused (Bool.eq_false_iff.mpr hno)⟩

theorem relocationBuildIndex_cancellable (hmem : (∃ n, env.poolAlloc n = false) → E .outOfMemory)
    (srcBlocks : ℕ) :
    Cancellable E env (relocationBuildIndex env.undisturbed bs src srcBlocks)
      (relocationBuildIndex env bs src srcBlocks) := by
  apply (hashTableCreate_cancellable hmem srcBlocks).bind
  intro table
  apply Polled.iterM
  intro i table
  apply Polled.ite (fun _ => polled_pure _) fun _ => ?_
  apply cancellable_poolAlloc.bind
  intro granted
  exact .ite (fun _ => polled_pure _) fun _ => polled_pure _

theorem relocationStageRun_cancellable (table : HashTable) :
    Cancellable E env (relocationStageRun bs src dest table) (relocationStageRun bs src dest table) := by
  apply polled_get.bind
  intro w
  apply Polled.iterM
  intro i _
  apply polled_get.bind
  intro w
  apply Polled.ite
  · intro _
    cases w.tracker.get i with
    | none => exact polled_pure _
    | some state =>
      cases hfind : findRelocation bs src dest i (table.lookup state.crc32) with
      | none =>
        simp only [hfind]
        exact polled_pure _
      | some entry =>
        simp only [hfind]
        exact cancellable_updateTracker _
  · exact fun _ => polled_pure _

theorem fsmapLoop_cancellable (n : ℕ) (hyps : List Hypothesis) :
    Cancellable E env (fsmapLoop env.undisturbed K bs t range src dest n hyps)
      (fsmapLoop env K bs t range src dest n hyps) := by
  induction hyps generalizing n with
  | nil => exact polled_pure ()
  | cons hyp hyps ih =>
    unfold fsmapLoop
    apply Polled.bind
    · exact .ite (fun _ => cancellable_checkCancelled) fun _ => polled_pure _
    intro _
    apply Polled.bind
    · apply polled_get.bind
      intro w
      apply Polled.ite
      · intro _
        cases fsmapWindow K bs t range src (blockAt bs dest hyp.destBlock) hyp.srcPos with
        | none => exact polled_pure _
        | some p => exact (recordWindow_cancellable _ _).bind fun _ => polled_pure _
      · exact fun _ => polled_pure _
    · exact fun _ => ih (n + 1)

theorem fsmapBuildIndex_cancellable {destBlocks : ℕ} (index : FsmapIndex bs src.length destBlocks)
    (hindex : ∀ t e, index.build t = .error e → E e) :
    Cancellable E env (fsmapBuildIndex bs src index) (fsmapBuildIndex bs src index) := by
  apply polled_get.bind
  intro w
  exact cancellable_raise (hindex w.tracker)

theorem extendMatch_cancellable (srcSize : ℕ) (bestOffset : ℤ) (n extIdx : ℕ) :
    Cancellable E env (extendMatch env.undisturbed K bs t src dest srcSize bestOffset n extIdx)
      (extendMatch env K bs t src dest srcSize bestOffset n extIdx) := by
  induction n generalizing extIdx with
  | zero => exact polled_pure ()
  | succ n ih =>
    unfold extendMatch
    apply polled_get.bind
    intro w
    apply Polled.ite
    · intro _
      apply Polled.ite (fun _ => polled_pure _) fun _ => ?_
      apply Polled.ite (fun _ => polled_pure _) fun _ => ?_
      apply (recordWindow_cancellable _ _).bind
      intro recorded
      exact .ite (fun _ => ih (extIdx + 1)) fun _ => polled_pure _
    · exact fun _ => polled_pure _

theorem partialStageRun_cancellable (srcBlocks : ℕ) :
    Cancellable E env (partialStageRun env.undisturbed K bs t range src dest srcBlocks)
      (partialStageRun env K bs t range src dest srcBlocks) := by
  apply polled_get.bind
  intro w
  apply Polled.bind
  · apply Polled.iterM
    intro destIdx prev
    apply polled_get.bind
    intro w'
    apply Polled.bind
    · apply polled_get.bind
      intro w''
      apply Polled.ite
      · intro _
        apply Polled.ite
        · intro _
          apply Polled.ite (fun _ => polled_pure _) fun _ => ?_
          apply (recordWindow_cancellable _ _).bind
          intro recorded
          exact .ite (fun _ => extendMatch_cancellable _ _ _ _) fun _ => polled_pure _
        · exact fun _ => polled_pure _
      · exact fun _ => polled_pure _
    · exact fun _ => polled_pure _
  · exact fun _ => polled_pure _

end Stages

section Run
variable {E : FsdError → Prop} {env : Env} {K : Kernels} {ctrl : StageController} {src dest : Bytes}
variable {index : FsmapIndex ctrl.blockSize src.length (dest.length / ctrl.blockSize)}

theorem stagePart_cancellable {enabled : Bool} {body₀ body : StageM Unit}
    (h : Cancellable E env body₀ body) :
    Cancellable E env (stagePart env.undisturbed enabled body₀) (stagePart env enabled body) :=
  .ite (fun _ => cancellable_checkCancelled.bind fun _ => h) fun _ => polled_pure ()

theorem stageParts_cancellable (hmem : (∃ n, env.poolAlloc n = false) → E .outOfMemory)
    (hindex : ∀ t e, index.build t = .error e → E e) :
    List.Forall₂ (Cancellable E env) (stageParts env.undisturbed K ctrl src dest index)
      (stageParts env K ctrl src dest index) := by
  refine .cons ?_ (.cons ?_ (.cons ?_ (.cons ?_ .nil)))
  · exact stagePart_cancellable (identityStageRun_cancellable _ _)
  · apply stagePart_cancellable
    exact (relocationBuildIndex_cancellable hmem _).bind fun table => relocationStageRun_cancellable table
  · apply stagePart_cancellable
    exact (fsmapBuildIndex_cancellable index hindex).bind fun hyps => fsmapLoop_cancellable 0 hyps
  · exact stagePart_cancellable (partialStageRun_cancellable _)

theorem runParts_cancellable {parts₀ parts : List (StageM Unit)}
    (h : List.Forall₂ (Cancellable E env) parts₀ parts) :
    Cancellable E env (runParts parts₀) (runParts parts) := by
  induction h with
  | nil => exact polled_pure ()
  | cons hpart _ ih => exact hpart.bind fun _ => ih

/-- A run is the run that nobody cancels up to the first look that finds a flag set. Without
one, it fails for want of memory or because the filesystem index does. -/
theorem controllerRun_cancellable (hmem : (∃ n, env.poolAlloc n = false) → E .outOfMemory)
    (hindex : ∀ t e, index.build t = .error e → E e) :
    Cancellable E env (controllerRun env.undisturbed K ctrl src dest index)
      (controllerRun env K ctrl src dest index) :=
  (runParts_cancellable (stageParts_cancellable hmem hindex)).bind fun _ => cancellable_updateTracker _

theorem controllerRun_stops (hmem : (∃ n, env.poolAlloc n = false) → E .outOfMemory)
    (hindex : ∀ t e, index.build t = .error e → E e) :
    Stops (fun e => E e ∨ e = .cancelled ∧ ∃ n, env.cancelled n = true)
      (controllerRun env K ctrl src dest index) :=
  (controllerRun_cancellable hmem hindex).stops

end Run

end Fsdiff.Stages
