import Fsdiff.Io.DiffFiles
import Fsdiff.Stages.Cancellation

/-! `diff.c`: calls of `fsd_diff_files` on one context, one after the other, and
`fsd_diff_cancel` between any two of their steps. -/
namespace Fsdiff.Io
open Exec Stages

/-! ### One call -/

/-- The same surroundings, the `n`-th look at the cancel flag finding `seen n`. -/
def Surroundings.watching (S : Surroundings) (seen : ℕ → Bool) : Surroundings :=
  { S with stages := { S.stages with cancelled := seen } }

section Looks
variable (S : Surroundings) (K : Kernels) (opts : DiffOptions) (index : Index)

/-- The looks at the flag in `matchImages`. -/
def matchLooks (src dest : Bytes) : ℕ :=
  if dest.length % opts.blockSize ≠ 0 then 0
  else if S.controllerMemory = false then 0
  else
    match controllerCreate opts (src.length / opts.blockSize) (dest.length / opts.blockSize) with
    | .error _ => 0
    | .ok ctrl =>
      (endState (controllerRun S.stages K ctrl src dest (index src dest ctrl.blockSize)
        { tracker := ctrl.tracker })).checks

/-- The looks at the flag in `diffFiles`. -/
def diffLooks : ℕ :=
  if opts.blockSizeLog2 < 5 ∨ 24 < opts.blockSizeLog2 then 0
  else
    match S.images with
    | .error _ => 0
    | .ok (src, dest) => matchLooks S K opts index src dest

end Looks

/-- What a call of `fsd_diff_files` finds, apart from its context. Neither opening the images
nor building the index returns `FSD_ERR_CANCELLED`. -/
structure Job where
  surroundings : Surroundings
  kernels : Kernels
  index : Index
  passing : Passing
  output : Path
  images_ne : surroundings.images ≠ .error .cancelled
  index_ne : ∀ src dest bs t, (index src dest bs).build t ≠ .error .cancelled

section Job
variable (opts : DiffOptions) (job : Job)

/-- How the call ends if its looks find `seen`, and those beyond find the flag clear. -/
def Job.result (seen : List Bool) : Except FsdError ℕ :=
  (diffFiles (job.surroundings.watching fun n => seen.getD n false) job.kernels opts job.index
    job.passing job.output).result

/-- The looks that the call makes then. -/
def Job.looks (seen : List Bool) : ℕ :=
  diffLooks (job.surroundings.watching fun n => seen.getD n false) job.kernels opts job.index

end Job

/-! ### The context -/

/-- What cancellation needs of `fsd_diff_ctx_t`. -/
structure DiffCtx where
  opts : DiffOptions
  cancelled : Bool

/-- `fsd_diff_create` -/
def diffCreate (opts : DiffOptions) : DiffCtx := ⟨opts, false⟩

/-- `fsd_diff_cancel` -/
def diffCancel (ctx : DiffCtx) : DiffCtx := { ctx with cancelled := true }

/-- What `fsd_diff_files` does next: the work up to its next look or, behind the last one, up
to its return; a look at the flag; the store of 0 on the cancelled return path; the return. With
the work and the look goes what the looks so far have found. -/
inductive Call where
  | idle
  | working (job : Job) (seen : List Bool)
  | looking (job : Job) (seen : List Bool)
  | clearing
  | returning (result : Except FsdError ℕ)

structure Session where
  ctx : DiffCtx
  call : Call

inductive Event where
  | cancel
  | start (job : Job)
  | step

/-- The next step of the call in progress. -/
def Session.step (s : Session) : Option Session :=
  match s.call with
  | .idle => none
  | .working job seen =>
    if seen.length < job.looks s.ctx.opts seen then some { s with call := .looking job seen }
    else
      match job.result s.ctx.opts seen with
      | .error .cancelled => some { s with call := .clearing }
      | result => some { s with call := .returning result }
  | .looking job seen => some { s with call := .working job (seen ++ [s.ctx.cancelled]) }
  | .clearing =>
    some { ctx := { s.ctx with cancelled := false }, call := .returning (.error .cancelled) }
  | .returning _ => some { s with call := .idle }

/-- A request may come at any time, a call only when none is in progress. -/
def Session.next (s : Session) : Event → Option Session
  | .cancel => some { s with ctx := diffCancel s.ctx }
  | .start job =>
    match s.call with
    | .idle => some { s with call := .working job [] }
    | _ => none
  | .step => s.step

/-- The steps lead from `s` to `s'`; each is listed with the state in which it is taken. -/
inductive Run : Session → List (Session × Event) → Session → Prop
  | nil (s : Session) : Run s [] s
  | cons {s s' s'' : Session} {e : Event} {steps : List (Session × Event)} :
      s.next e = some s' → Run s' steps s'' → Run s ((s, e) :: steps) s''

def Returns (p : Session × Event) : Prop := p.2 = .step ∧ ∃ result, p.1.call = .returning result

/-- The flag is clear, and until the next request no call on the context is cancelled. -/
def LeavesClear (s : Session) : Prop :=
  s.ctx.cancelled = false ∧ ∀ later s', Run { s with call := .idle } later s' →
    (∀ q ∈ later, q.2 ≠ .cancel) → s'.call ≠ .returning (.error .cancelled)

/-- The call has a look at the flag ahead of it, or has found it set and will clear it. -/
def Call.Attends (opts : DiffOptions) : Call → Prop
  | .idle => True
  | .working job seen => true ∈ seen ∨ seen.length < job.looks opts seen
  | .looking _ _ => True
  | .clearing => True
  | .returning _ => False

/-- A request comes while the call in progress attends to it, if there is one; and no call that
makes no look is started with a request pending. -/
def Session.Heeds (s : Session) : Event → Prop
  | .cancel => s.call.Attends s.ctx.opts
  | .start job => s.ctx.cancelled = true → 0 < job.looks s.ctx.opts []
  | .step => True

/-! ### What a call finds -/

section Watching
variable {S : Surroundings} {K : Kernels} {opts : DiffOptions} {index : Index} {passing : Passing}
variable {out : Path} {seen : ℕ → Bool}

/-- No look finds the flag set. -/
abbrev undisturbed : ℕ → Bool := fun _ => false

theorem error_ne_cancelled {α : Type} {e : FsdError} (h : e ≠ .cancelled) :
    (.error e : Except FsdError α) ≠ .error .cancelled :=
  fun heq => h (Except.error.inj heq)

/-- If nobody cancels, the stages are not cancelled. -/
theorem matchImages_ne_cancelled (src dest : Bytes)
    (hindex : ∀ bs t, (index src dest bs).build t ≠ .error .cancelled) :
    matchImages (S.watching undisturbed) K opts index src dest ≠ .error .cancelled := by
  unfold matchImages
  split_ifs
  · exact error_ne_cancelled (by decide)
  · exact error_ne_cancelled (by decide)
  split
  · next hcreate =>
    rw [controllerCreate_error hcreate]
    exact error_ne_cancelled (by decide)
  · next ctrl _ =>
    have hrun : Stops _ (controllerRun (S.watching undisturbed).stages K ctrl src dest
        (index src dest ctrl.blockSize)) :=
      controllerRun_stops (E := (· ≠ .cancelled)) (fun _ => by decide) fun t e he heq =>
        hindex _ t (heq ▸ he)
    split
    · next hw =>
      rcases (hrun _).of_error hw with hne | ⟨_, _, hset⟩
      · exact error_ne_cancelled hne
      · cases hset
    · intro heq
      cases heq

/-- From the images to the tracker nothing changes before the first look that finds the flag
set, and there the run is cancelled. -/
theorem matchImages_watching (src dest : Bytes)
    (hindex : ∀ bs t, (index src dest bs).build t ≠ .error .cancelled) :
    let N := matchLooks (S.watching undisturbed) K opts index src dest
    (ClearBetween seen 0 N →
      matchImages (S.watching seen) K opts index src dest =
          matchImages (S.watching undisturbed) K opts index src dest ∧
        matchLooks (S.watching seen) K opts index src dest = N) ∧
      ∀ k < N, ClearBetween seen 0 k → seen k = true →
        matchImages (S.watching seen) K opts index src dest = .error .cancelled ∧
          matchLooks (S.watching seen) K opts index src dest = k + 1 := by
  have hmemory : ∀ seen, (S.watching seen).controllerMemory = S.controllerMemory := fun _ => rfl
  unfold matchLooks matchImages
  simp only [hmemory]
  split_ifs
  · exact ⟨fun _ => ⟨rfl, rfl⟩, fun k hk => absurd hk (Nat.not_lt_zero k)⟩
  · exact ⟨fun _ => ⟨rfl, rfl⟩, fun k hk => absurd hk (Nat.not_lt_zero k)⟩
  cases controllerCreate opts (src.length / opts.blockSize) (dest.length / opts.blockSize) with
  | error e => exact ⟨fun _ => ⟨rfl, rfl⟩, fun k hk => absurd hk (Nat.not_lt_zero k)⟩
  | ok ctrl =>
    have hrun : Cancellable (· ≠ .cancelled) (S.watching seen).stages
        (controllerRun (S.watching undisturbed).stages K ctrl src dest (index src dest ctrl.blockSize))
        (controllerRun (S.watching seen).stages K ctrl src dest (index src dest ctrl.blockSize)) :=
      controllerRun_cancellable (fun _ => by decide) fun t e he heq => hindex _ t (heq ▸ he)
    have hat := hrun { tracker := ctrl.tracker }
    constructor
    · intro hclear
      simp only [hat.same hclear, and_self]
    · intro k hk hclear hset
      obtain ⟨w, hw, hlooks⟩ := hat.stopped k (Nat.zero_le k) hk hclear hset
      simp only [hw]
      exact ⟨trivial, hlooks⟩

theorem diffFiles_ne_cancelled (himages : S.images ≠ .error .cancelled)
    (hindex : ∀ src dest bs t, (index src dest bs).build t ≠ .error .cancelled) :
    (diffFiles (S.watching undisturbed) K opts index passing out).result ≠ .error .cancelled := by
  intro heq
  rcases diffFiles_error heq with hopen | ⟨src, dest, _, ht⟩ | hmem
  · exact himages hopen
  · exact matchImages_ne_cancelled src dest (hindex src dest) ht
  · exact absurd hmem (by decide)

/-- A call does what it would do undisturbed, unless one of the looks that it would make then
finds the flag set; there it stops. -/
theorem diffFiles_watching (hindex : ∀ src dest bs t, (index src dest bs).build t ≠ .error .cancelled) :
    let N := diffLooks (S.watching undisturbed) K opts index
    (ClearBetween seen 0 N →
      diffFiles (S.watching seen) K opts index passing out =
          diffFiles (S.watching undisturbed) K opts index passing out ∧
        diffLooks (S.watching seen) K opts index = N) ∧
      ∀ k < N, ClearBetween seen 0 k → seen k = true →
        (diffFiles (S.watching seen) K opts index passing out).result = .error .cancelled ∧
          diffLooks (S.watching seen) K opts index = k + 1 := by
  have himages : ∀ seen, (S.watching seen).images = S.images := fun _ => rfl
  unfold diffLooks diffFiles
  simp only [himages]
  split_ifs
  · exact ⟨fun _ => ⟨rfl, rfl⟩, fun k hk => absurd hk (Nat.not_lt_zero k)⟩
  cases S.images with
  | error e => exact ⟨fun _ => ⟨rfl, rfl⟩, fun k hk => absurd hk (Nat.not_lt_zero k)⟩
  | ok images =>
    obtain ⟨src, dest⟩ := images
    obtain ⟨hsame, hstopped⟩ := @matchImages_watching S K opts index seen src dest (hindex src dest)
    dsimp only
    constructor
    · intro hclear
      obtain ⟨htracker, hlooks⟩ := hsame hclear
      rw [htracker]
      exact ⟨rfl, hlooks⟩
    · intro k hk hclear hset
      obtain ⟨htracker, hlooks⟩ := hstopped k hk hclear hset
      rw [htracker]
      exact ⟨rfl, hlooks⟩

end Watching

/-! ### One call, look by look -/

section Job
variable {opts : DiffOptions} {job : Job} {seen : List Bool}

/-- What the looks of a call may have found so far: the flag clear, or clear up to the last one,
which found it set. -/
inductive Job.Seen (opts : DiffOptions) (job : Job) : List Bool → Prop
  | clear {n : ℕ} : n ≤ job.looks opts [] → Job.Seen opts job (List.replicate n false)
  | caught {n : ℕ} : n < job.looks opts [] → Job.Seen opts job (List.replicate n false ++ [true])

/-- While the flag is clear, the call is the undisturbed one. -/
theorem Job.of_clear (n : ℕ) :
    job.looks opts (List.replicate n false) = job.looks opts [] ∧
      job.result opts (List.replicate n false) = job.result opts [] := by
  have hseen : (fun k => (List.replicate n false).getD k false) = undisturbed := by
    funext k
    rw [List.getD_eq_getElem?_getD, List.getElem?_replicate]
    split_ifs <;> rfl
  unfold Job.looks Job.result
  rw [hseen]
  exact ⟨rfl, rfl⟩

theorem Job.result_ne_cancelled (opts : DiffOptions) (job : Job) :
    job.result opts [] ≠ .error .cancelled :=
  diffFiles_ne_cancelled job.images_ne job.index_ne

/-- The first look that finds the flag set is the last one. -/
theorem Job.of_caught {n : ℕ} (h : n < job.looks opts []) :
    job.looks opts (List.replicate n false ++ [true]) = n + 1 ∧
      job.result opts (List.replicate n false ++ [true]) = .error .cancelled := by
  have hclear : ClearBetween (fun k => (List.replicate n false ++ [true]).getD k false) 0 n := by
    intro k _ hk
    simp [List.getD_eq_getElem?_getD, List.getElem?_append, hk]
  have hset : (List.replicate n false ++ [true]).getD n false = true := by
    simp [List.getD_eq_getElem?_getD]
  obtain ⟨_, hstopped⟩ := @diffFiles_watching job.surroundings job.kernels opts job.index job.passing
    job.output (fun k => (List.replicate n false ++ [true]).getD k false) job.index_ne
  obtain ⟨hresult, hlooks⟩ := hstopped n h hclear hset
  exact ⟨hlooks, hresult⟩

end Job

/-! ### The steps of a session -/

/-- What the looks of the call in progress have found is what they can have found. -/
def Call.Follows (opts : DiffOptions) : Call → Prop
  | .working job seen => job.Seen opts seen
  | .looking job seen => ∃ n < job.looks opts [], seen = List.replicate n false
  | _ => True

/-- The steps of a session as a machine that does not run the code. -/
inductive Takes : Session → Event → Session → Prop
  | cancel (s : Session) : Takes s .cancel { s with ctx := diffCancel s.ctx }
  | start (ctx : DiffCtx) (job : Job) : Takes ⟨ctx, .idle⟩ (.start job) ⟨ctx, .working job []⟩
  | turn {ctx : DiffCtx} {job : Job} {n : ℕ} (h : n < job.looks ctx.opts []) :
      Takes ⟨ctx, .working job (.replicate n false)⟩ .step ⟨ctx, .looking job (.replicate n false)⟩
  | finish (ctx : DiffCtx) (job : Job) :
      Takes ⟨ctx, .working job (.replicate (job.looks ctx.opts []) false)⟩ .step
        ⟨ctx, .returning (job.result ctx.opts [])⟩
  | unwind {ctx : DiffCtx} {job : Job} {n : ℕ} (h : n < job.looks ctx.opts []) :
      Takes ⟨ctx, .working job (.replicate n false ++ [true])⟩ .step ⟨ctx, .clearing⟩
  | look {ctx : DiffCtx} {job : Job} {n : ℕ} (h : n < job.looks ctx.opts []) :
      Takes ⟨ctx, .looking job (.replicate n false)⟩ .step
        ⟨ctx, .working job (.replicate n false ++ [ctx.cancelled])⟩
  | clear (ctx : DiffCtx) :
      Takes ⟨ctx, .clearing⟩ .step ⟨{ ctx with cancelled := false }, .returning (.error .cancelled)⟩
  | leave (ctx : DiffCtx) (result : Except FsdError ℕ) :
      Takes ⟨ctx, .returning result⟩ .step ⟨ctx, .idle⟩

section Steps
variable {s s' : Session} {e : Event}

/-- The code takes the steps of the machine. -/
theorem takes_of_next (hf : s.call.Follows s.ctx.opts) (h : s.next e = some s') : Takes s e s' := by
  obtain ⟨ctx, call⟩ := s
  cases e with
  | cancel =>
    cases h
    exact .cancel _
  | start job =>
    cases call with
    | idle =>
      cases h
      exact .start ctx job
    | working | looking | clearing | returning => cases h
  | step =>
    cases call with
    | idle => cases h
    | working job seen =>
      change (if seen.length < job.looks ctx.opts seen then _ else _) = some s' at h
      cases hf with
      | @clear n hn =>
        obtain ⟨hlooks, hresult⟩ := @Job.of_clear ctx.opts job n
        rw [hlooks, hresult, List.length_replicate] at h
        split_ifs at h with hlt
        · cases h
          exact .turn hlt
        · have hne := job.result_ne_cancelled ctx.opts
          have hle : n ≤ job.looks ctx.opts [] := hn
          obtain rfl : n = job.looks ctx.opts [] := by omega
          split at h
          · next heq => exact absurd heq hne
          · cases h
            exact .finish ctx job
      | @caught n hn =>
        obtain ⟨hlooks, hresult⟩ := Job.of_caught hn
        rw [hlooks, hresult, if_neg (by simp)] at h
        cases h
        exact .unwind hn
    | looking job seen =>
      obtain ⟨n, hn, rfl⟩ := hf
      cases h
      exact .look hn
    | clearing =>
      cases h
      exact .clear ctx
    | returning result =>
      cases h
      exact .leave ctx result

theorem next_of_takes (h : Takes s e s') : s.next e = some s' := by
  cases h with
  | cancel | start | look | clear | leave => rfl
  | @turn ctx job n hn =>
    change (if _ < job.looks ctx.opts _ then _ else _) = _
    rw [(Job.of_clear n).1, List.length_replicate, if_pos hn]
  | finish ctx job =>
    obtain ⟨hlooks, hresult⟩ := @Job.of_clear ctx.opts job (job.looks ctx.opts [])
    change (if _ < job.looks ctx.opts _ then _ else _) = _
    rw [hlooks, hresult, List.length_replicate, if_neg (lt_irrefl _)]
    split
    · next heq => exact absurd heq (job.result_ne_cancelled ctx.opts)
    · rfl
  | @unwind ctx job n hn =>
    obtain ⟨hlooks, hresult⟩ := Job.of_caught hn
    change (if _ < job.looks ctx.opts _ then _ else _) = _
    rw [hlooks, hresult, if_neg (by simp)]

theorem Takes.follows (h : Takes s e s') (hf : s.call.Follows s.ctx.opts) :
    s'.call.Follows s'.ctx.opts := by
  cases h with
  | cancel => exact hf
  | start ctx job => exact .clear (Nat.zero_le _)
  | turn hn => exact ⟨_, hn, rfl⟩
  | @look ctx job n hn =>
    cases hset : ctx.cancelled with
    | false =>
      change job.Seen _ (List.replicate n false ++ [false])
      rw [← List.replicate_succ']
      exact .clear hn
    | true =>
      change job.Seen _ (List.replicate n false ++ [true])
      exact .caught hn
  | finish | unwind | clear | leave => trivial

theorem Takes.attends (h : Takes s e s') (hheeds : s.Heeds e)
    (hs : s.ctx.cancelled = true → s.call.Attends s.ctx.opts) :
    s'.ctx.cancelled = true → s'.call.Attends s'.ctx.opts := by
  intro hset
  cases h with
  | cancel => exact hheeds
  | start ctx job => exact .inr (hheeds hset)
  | turn | unwind => trivial
  | finish ctx job =>
    rcases hs hset with hmem | hlt
    · cases List.eq_of_mem_replicate hmem
    · rw [(Job.of_clear _).1, List.length_replicate] at hlt
      exact absurd hlt (lt_irrefl _)
  | @look ctx job n hn =>
    left
    rw [show ctx.cancelled = true from hset]
    exact List.mem_append_right _ List.mem_cons_self
  | clear => cases hset
  | leave => trivial

theorem Takes.lost (h : Takes s e s') (hset : s.ctx.cancelled = true)
    (hlost : ¬ s.call.Attends s.ctx.opts) :
    Returns (s, e) ∨ s'.ctx.cancelled = true ∧ ¬ s'.call.Attends s'.ctx.opts := by
  cases h with
  | cancel => exact .inr ⟨rfl, hlost⟩
  | @turn ctx job n hn =>
    refine absurd (.inr ?_) hlost
    rw [(Job.of_clear n).1, List.length_replicate]
    exact hn
  | finish => exact .inr ⟨hset, not_false⟩
  | unwind => exact absurd (.inl (List.mem_append_right _ List.mem_cons_self)) hlost
  | start | look | clear => exact absurd trivial hlost
  | leave ctx result => exact .inl ⟨rfl, result, rfl⟩

/-- No call in progress has found the flag set. -/
def Call.Calm (opts : DiffOptions) : Call → Prop
  | .working job seen => ∃ n ≤ job.looks opts [], seen = List.replicate n false
  | .clearing => False
  | .returning result => result ≠ .error .cancelled
  | _ => True

theorem Takes.calm (h : Takes s e s') (hcancel : e ≠ .cancel) (hclear : s.ctx.cancelled = false)
    (hcalm : s.call.Calm s.ctx.opts) : s'.ctx.cancelled = false ∧ s'.call.Calm s'.ctx.opts := by
  cases h with
  | cancel => exact absurd rfl hcancel
  | start ctx job => exact ⟨hclear, 0, Nat.zero_le _, rfl⟩
  | turn | leave => exact ⟨hclear, trivial⟩
  | finish ctx job => exact ⟨hclear, job.result_ne_cancelled ctx.opts⟩
  | @unwind ctx job n hn =>
    obtain ⟨m, _, heq⟩ := hcalm
    have hmem : true ∈ List.replicate m false := by
      rw [← heq]
      exact List.mem_append_right _ List.mem_cons_self
    cases List.eq_of_mem_replicate hmem
  | @look ctx job n hn =>
    refine ⟨hclear, n + 1, hn, ?_⟩
    rw [show ctx.cancelled = false from hclear, List.replicate_succ']
  | clear => exact hcalm.elim

end Steps

/-! ### Whole sessions -/

section Runs
variable {s s' : Session} {steps : List (Session × Event)}

/-- What every step of a kind keeps, a run of such steps keeps. -/
theorem Run.rule {I : Session → Prop} {P : Session → Event → Prop} (h : Run s steps s')
    (hstep : ∀ s e s', P s e → I s → s.next e = some s' → I s') (hsteps : ∀ p ∈ steps, P p.1 p.2)
    (hs : I s) : I s' ∧ ∀ p ∈ steps, I p.1 := by
  induction h with
  | nil s => exact ⟨hs, fun p hp => absurd hp List.not_mem_nil⟩
  | @cons s s₁ s' e steps hnext _ ih =>
    have h₁ := hstep s e s₁ (hsteps _ List.mem_cons_self) hs hnext
    obtain ⟨hend, hmem⟩ := ih (fun p hp => hsteps p (List.mem_cons_of_mem _ hp)) h₁
    refine ⟨hend, ?_⟩
    intro p hp
    rcases List.mem_cons.mp hp with rfl | hp
    · exact hs
    · exact hmem p hp

theorem leavesClear_of_clear (hclear : s.ctx.cancelled = false) : LeavesClear s := by
  refine ⟨hclear, ?_⟩
  intro later s' hrun hlater hcancelled
  have hinv := Run.rule (I := fun s => s.call.Follows s.ctx.opts ∧ s.ctx.cancelled = false ∧
    s.call.Calm s.ctx.opts) (P := fun _ e => e ≠ .cancel) hrun ?_ hlater ⟨trivial, hclear, trivial⟩
  · have hcalm := hinv.1.2.2
    rw [hcancelled] at hcalm
    exact hcalm rfl
  · intro s e s' he hI hnext
    have htakes := takes_of_next hI.1 hnext
    exact ⟨htakes.follows hI.1, htakes.calm he hI.2.1 hI.2.2⟩

/-- A flag that is set with no one to attend to it is still set when the call returns. -/
theorem Run.exists_return (h : Run s steps s') (hf : s.call.Follows s.ctx.opts)
    (hset : s.ctx.cancelled = true) (hlost : ¬ s.call.Attends s.ctx.opts) (hidle : s'.call = .idle) :
    ∃ p ∈ steps, Returns p ∧ p.1.ctx.cancelled = true := by
  induction h with
  | nil s =>
    rw [hidle] at hlost
    exact absurd trivial hlost
  | @cons s s₁ s' e steps hnext _ ih =>
    have htakes := takes_of_next hf hnext
    rcases htakes.lost hset hlost with hreturn | ⟨hset₁, hlost₁⟩
    · exact ⟨_, List.mem_cons_self, hreturn, hset⟩
    · obtain ⟨p, hp, hreturn⟩ := ih (htakes.follows hf) hset₁ hlost₁ hidle
      exact ⟨p, List.mem_cons_of_mem _ hp, hreturn⟩

/-- In a run that ends between two calls and leaves the flag clear at every return, every
request is heeded. -/
theorem Run.heeds (h : Run s steps s') (hf : s.call.Follows s.ctx.opts) (hidle : s'.call = .idle)
    (hclear : ∀ p ∈ steps, Returns p → p.1.ctx.cancelled = false) : ∀ p ∈ steps, p.1.Heeds p.2 := by
  induction h with
  | nil s => exact fun p hp => absurd hp List.not_mem_nil
  | @cons s s₁ s' e steps hnext hrest ih =>
    have htakes := takes_of_next hf hnext
    have hclear' : ∀ p ∈ steps, Returns p → p.1.ctx.cancelled = false :=
      fun p hp => hclear p (List.mem_cons_of_mem _ hp)
    intro p hp
    rcases List.mem_cons.mp hp with rfl | hp
    · by_contra hheeds
      have hlost : s₁.ctx.cancelled = true ∧ ¬ s₁.call.Attends s₁.ctx.opts := by
        cases htakes with
        | cancel => exact ⟨rfl, hheeds⟩
        | start ctx job =>
          have hset : ctx.cancelled = true ∧ ¬ 0 < job.looks ctx.opts [] := by
            simpa [Session.Heeds] using hheeds
          refine ⟨hset.1, ?_⟩
          rintro (hmem | hlt)
          · cases hmem
          · exact hset.2 hlt
        | turn | finish | unwind | look | clear | leave => exact absurd trivial hheeds
      obtain ⟨q, hq, hreturn, hset⟩ := hrest.exists_return (htakes.follows hf) hlost.1 hlost.2 hidle
      rw [hclear' q hq hreturn] at hset
      cases hset
    · exact ih (htakes.follows hf) hidle hclear' p hp

/-- On a new context, in every run in which each request is heeded, a call that returns leaves
the flag clear, and until the next request no call is cancelled. In a run that ends between two
calls this is so only if each request is heeded. -/
theorem cancel_affects_own_run (opts : DiffOptions) (steps : List (Session × Event)) (s : Session)
    (h : Run ⟨diffCreate opts, .idle⟩ steps s) :
    ((∀ p ∈ steps, p.1.Heeds p.2) → ∀ p ∈ steps, Returns p → LeavesClear p.1) ∧
      (s.call = .idle → (∀ p ∈ steps, Returns p → LeavesClear p.1) → ∀ p ∈ steps, p.1.Heeds p.2) := by
  constructor
  · intro hheeds p hp hreturn
    have hinv := Run.rule (I := fun s => s.call.Follows s.ctx.opts ∧
      (s.ctx.cancelled = true → s.call.Attends s.ctx.opts)) (P := Session.Heeds) h ?_ hheeds
      ⟨trivial, nofun⟩
    · apply leavesClear_of_clear
      obtain ⟨_, result, hresult⟩ := hreturn
      by_contra hset
      have hattends := (hinv.2 p hp).2 (Bool.eq_true_of_not_eq_false hset)
      rw [hresult] at hattends
      exact hattends
    · intro s e s' hheeds hI hnext
      have htakes := takes_of_next hI.1 hnext
      exact ⟨htakes.follows hI.1, htakes.attends hheeds hI.2⟩
  · intro hidle hclear
    exact h.heeds trivial hidle fun p hp hreturn => (hclear p hp hreturn).1

end Runs

/-! ### A request that comes too late -/

section Sample

/-- Two images of one zero block each. -/
def zeroBlockJob : Job where
  surroundings :=
    { images := .ok (List.replicate 32 0, List.replicate 32 0)
      controllerMemory := true
      stages := ⟨fun _ => true, fun _ => false⟩
      tempFile := fun _ => true
      writerMemory := fun _ => true
      encoderMemory := true
      diffBufMemory := fun _ => true
      tempAnswers := fun _ _ => ⟨true, 5⟩
      fopen := true
      outputAnswers := fun _ => ⟨true, 5⟩ }
  kernels := scalarKernels
  index _ _ bs := .inactive bs _ _
  passing := .whole
  output := ⟨.missing, []⟩
  images_ne := nofun
  index_ne _ _ _ _ := nofun

def identityOnly : DiffOptions where
  blockSizeLog2 := 5
  enableRelocation := false
  enablePartial := false
  enableFsmap := false

theorem zeroBlockJob_looks : zeroBlockJob.looks identityOnly [] = 1 := by decide +kernel

theorem zeroBlockJob_result : zeroBlockJob.result identityOnly [] = .ok 33 := by decide +kernel

def stepsToLook (cancelled : Bool) : List (Session × Event) :=
  [(⟨⟨identityOnly, cancelled⟩, .idle⟩, .start zeroBlockJob),
    (⟨⟨identityOnly, cancelled⟩, .working zeroBlockJob []⟩, .step),
    (⟨⟨identityOnly, cancelled⟩, .looking zeroBlockJob []⟩, .step)]

theorem looks_pos : 0 < zeroBlockJob.looks identityOnly [] := by
  rw [zeroBlockJob_looks]
  exact Nat.one_pos

theorem run_looked {cancelled : Bool} {steps : List (Session × Event)} {s : Session}
    (h : Run ⟨⟨identityOnly, cancelled⟩, .working zeroBlockJob [cancelled]⟩ steps s) :
    Run ⟨⟨identityOnly, cancelled⟩, .idle⟩ (stepsToLook cancelled ++ steps) s := by
  have hturn := @Takes.turn ⟨identityOnly, cancelled⟩ zeroBlockJob 0 looks_pos
  have hlook := @Takes.look ⟨identityOnly, cancelled⟩ zeroBlockJob 0 looks_pos
  exact .cons (next_of_takes (.start ⟨identityOnly, cancelled⟩ zeroBlockJob))
    (.cons (next_of_takes hturn) (.cons (next_of_takes hlook) h))

def stepsToCancel : List (Session × Event) :=
  [(⟨⟨identityOnly, true⟩, .working zeroBlockJob [true]⟩, .step),
    (⟨⟨identityOnly, true⟩, .clearing⟩, .step)]

theorem run_pending :
    Run ⟨⟨identityOnly, true⟩, .idle⟩ (stepsToLook true ++ stepsToCancel)
      ⟨diffCreate identityOnly, .returning (.error .cancelled)⟩ := by
  have hunwind := @Takes.unwind ⟨identityOnly, true⟩ zeroBlockJob 0 looks_pos
  exact run_looked (.cons (next_of_takes hunwind) (.cons (next_of_takes (.clear _)) (.nil _)))

/-- A request after the only look of a call: the call succeeds and leaves the flag set, and the
next one, which nobody asks to stop, is cancelled. -/
theorem cancel_outlives_run :
    ∃ steps s, Run ⟨diffCreate identityOnly, .idle⟩ steps s ∧
      ∃ p ∈ steps, Returns p ∧ p.1.call = .returning (.ok 33) ∧ p.1.ctx.cancelled = true ∧
        ∃ later s', Run { p.1 with call := .idle } later s' ∧ (∀ q ∈ later, q.2 ≠ .cancel) ∧
          s'.call = .returning (.error .cancelled) := by
  have hfinish : Takes ⟨⟨identityOnly, true⟩, .working zeroBlockJob [false]⟩ .step
      ⟨⟨identityOnly, true⟩, .returning (.ok 33)⟩ := by
    have h := Takes.finish ⟨identityOnly, true⟩ zeroBlockJob
    rwa [zeroBlockJob_looks, zeroBlockJob_result] at h
  have hrest : Run ⟨diffCreate identityOnly, .working zeroBlockJob [false]⟩
      [(⟨diffCreate identityOnly, .working zeroBlockJob [false]⟩, .cancel),
        (⟨⟨identityOnly, true⟩, .working zeroBlockJob [false]⟩, .step),
        (⟨⟨identityOnly, true⟩, .returning (.ok 33)⟩, .step)]
      ⟨⟨identityOnly, true⟩, .idle⟩ :=
    .cons (next_of_takes (.cancel _)) (.cons (next_of_takes hfinish)
      (.cons (next_of_takes (.leave _ _)) (.nil _)))
  refine ⟨_, _, run_looked hrest, (⟨⟨identityOnly, true⟩, .returning (.ok 33)⟩, .step), ?_, ⟨rfl, _, rfl⟩,
    rfl, rfl, _, _, run_pending, ?_, rfl⟩
  · exact List.mem_append_right _ (by simp)
  · simp [stepsToLook, stepsToCancel]

/-- A request that comes before a call is heeded by it. -/
theorem cancel_affects_own_run_sample :
    ∃ steps s, Run ⟨diffCreate identityOnly, .idle⟩ steps s ∧ (∃ p ∈ steps, p.2 = .cancel) ∧
      ((∀ p ∈ steps, p.1.Heeds p.2) → ∀ p ∈ steps, Returns p → LeavesClear p.1) ∧
      (s.call = .idle → (∀ p ∈ steps, Returns p → LeavesClear p.1) → ∀ p ∈ steps, p.1.Heeds p.2) := by
  have h : Run ⟨diffCreate identityOnly, .idle⟩
      ((⟨diffCreate identityOnly, .idle⟩, .cancel) :: (stepsToLook true ++ stepsToCancel)) _ :=
    .cons (next_of_takes (.cancel _)) run_pending
  exact ⟨_, _, h, ⟨_, List.mem_cons_self, rfl⟩, cancel_affects_own_run _ _ _ h⟩

end Sample

end Fsdiff.Io
