import Fsdiff.Data.Exec
import Mathlib.Algebra.Order.Group.Multiset

/-! Handles that are taken and have to be given back: memory, descriptors, files. A computation
may give back only what is in use, and only once. Its triples say what it takes over and what it
leaves behind, whatever else is held. -/
namespace Ownership
open Exec
variable {κ ε α β : Type}

abbrev Handle (κ : Type) := κ × ℕ

abbrev Handles (κ : Type) := Multiset (Handle κ)

/-- The handles in use, no number twice. -/
structure World (κ : Type) where
  held : Handles κ
  next : ℕ
  lt_next : ∀ h ∈ held, h.2 < next
  nodup : held.Nodup

/-- A handle is given back that is not in use. -/
inductive Misuse where
  | notHeld
  deriving DecidableEq, Repr

abbrev OwnM (κ : Type) := EStateM Misuse (World κ)

namespace World
variable (w : World κ)

theorem lt_next_succ (kind : κ) : ∀ h ∈ (kind, w.next) ::ₘ w.held, h.2 < w.next + 1 := by
  intro h hmem
  rcases Multiset.mem_cons.mp hmem with rfl | hmem
  · exact Nat.lt_succ_self _
  · exact Nat.lt_succ_of_lt (w.lt_next h hmem)

theorem nodup_cons_next (kind : κ) : ((kind, w.next) ::ₘ w.held).Nodup := by
  rw [Multiset.nodup_cons]
  refine ⟨fun hmem => ?_, w.nodup⟩
  exact absurd (w.lt_next _ hmem) (lt_irrefl _)

def push (kind : κ) : World κ :=
  ⟨(kind, w.next) ::ₘ w.held, w.next + 1, w.lt_next_succ kind, w.nodup_cons_next kind⟩

variable [DecidableEq κ]

theorem lt_next_erase (h : Handle κ) : ∀ g ∈ w.held.erase h, g.2 < w.next :=
  fun g hmem => w.lt_next g (Multiset.mem_of_mem_erase hmem)

def drop (h : Handle κ) : World κ :=
  ⟨w.held.erase h, w.next, w.lt_next_erase h, w.nodup.erase h⟩

end World

def take (kind : κ) : OwnM κ (Handle κ) := fun w => .ok (kind, w.next) (w.push kind)

/-- A call that takes a handle, or fails with its code. -/
def acquire (kind : κ) : Option ε → OwnM κ (Except ε (Handle κ))
  | none => do
    let h ← take kind
    pure (.ok h)
  | some e => pure (.error e)

/-- A call that gives a handle back, whatever it reports. -/
def release [DecidableEq κ] (h : Handle κ) : OwnM κ Unit := fun w =>
  if h ∈ w.held then .ok () (w.drop h) else .error .notHeld w

/-- A call that gives a handle back if it succeeds. -/
def tryRelease [DecidableEq κ] (h : Handle κ) (succeeds : Bool) : OwnM κ Unit :=
  if succeeds then release h else pure ()

/-- A call on a pointer, which does nothing if it is `NULL`. -/
def whenSome (f : α → OwnM κ Unit) : Option α → OwnM κ Unit
  | some a => f a
  | none => pure ()

/-! ### Triples -/

/-- From a world with `pre` and anything else, `x` returns, with `post` of its result and of what
stands in the place of `pre`; all else is as it was. -/
def Triple (pre : Handles κ) (x : OwnM κ α) (post : α → Handles κ → Prop) : Prop :=
  ∀ w frame, w.held = pre + frame →
    Ends (x w) (fun a w' => ∃ own, w'.held = own + frame ∧ post a own) (fun _ _ => False)

/-- `x` leaves behind what its result owns. -/
def Creates (x : OwnM κ α) (own : α → Handles κ) : Prop := Triple 0 x fun a m => m = own a

/-- `x` gives back `own`. -/
def Destroys (own : Handles κ) (x : OwnM κ Unit) : Prop := Triple own x fun _ m => m = 0

/-- What a result owns that may be an error. -/
def ofExcept (own : α → Handles κ) : Except ε α → Handles κ
  | .ok a => own a
  | .error _ => 0

/-- What a pointer owns that may be `NULL`. -/
def ofOption (own : α → Handles κ) : Option α → Handles κ
  | some a => own a
  | none => 0

@[simp] theorem ofExcept_ok (own : α → Handles κ) (a : α) :
    ofExcept own (.ok a : Except ε α) = own a := rfl

@[simp] theorem ofExcept_error (own : α → Handles κ) (e : ε) :
    ofExcept own (.error e : Except ε α) = 0 := rfl

@[simp] theorem ofOption_some (own : α → Handles κ) (a : α) : ofOption own (some a) = own a := rfl

@[simp] theorem ofOption_none (own : α → Handles κ) : ofOption own (none : Option α) = 0 := rfl

section Rules
variable {pre rest : Handles κ} {x : OwnM κ α} {f : α → OwnM κ β} {post : α → Handles κ → Prop}
  {R : β → Handles κ → Prop}

theorem triple_pure {a : α} (h : post a pre) : Triple pre (pure a) post :=
  fun _ _ hw => ⟨pre, hw, h⟩

theorem Triple.imp {post' : α → Handles κ → Prop} (hx : Triple pre x post)
    (h : ∀ a m, post a m → post' a m) : Triple pre x post' := by
  intro w frame hw
  apply (hx w frame hw).imp
  rintro a w' ⟨own, hheld, hpost⟩
  exact ⟨own, hheld, h a own hpost⟩

theorem Triple.bind (hx : Triple pre x post) (hf : ∀ a m, post a m → Triple m (f a) R) :
    Triple pre (x >>= f) R := by
  intro w frame hw
  apply (hx w frame hw).bind
  rintro a w' ⟨own, hheld, hpost⟩
  exact hf a own hpost w' frame hheld

/-- What else is held stays. -/
theorem Triple.frame (hx : Triple pre x post) :
    Triple (pre + rest) x fun a m => ∃ own, m = own + rest ∧ post a own := by
  intro w frame hw
  rw [add_assoc] at hw
  apply (hx w (rest + frame) hw).imp
  rintro a w' ⟨own, hheld, hpost⟩
  exact ⟨own + rest, by rw [hheld, add_assoc], own, rfl, hpost⟩

/-- First a call on a part of what is held. -/
theorem Triple.framed {whole : Handles κ} (rest : Handles κ) (hx : Triple pre x post)
    (hpre : whole = pre + rest) (hf : ∀ a m, post a m → Triple (m + rest) (f a) R) :
    Triple whole (x >>= f) R := by
  rw [hpre]
  apply hx.frame.bind
  rintro a _ ⟨own, rfl, hpost⟩
  exact hf a own hpost

theorem Triple.of_eq {pre' : Handles κ} (h : pre = pre') (hx : Triple pre' x post) : Triple pre x post :=
  h ▸ hx

theorem triple_ite {p : Prop} {_ : Decidable p} {y : OwnM κ α} (hx : p → Triple pre x post)
    (hy : ¬ p → Triple pre y post) : Triple pre (if p then x else y) post := by
  split_ifs with hp
  · exact hx hp
  · exact hy hp

theorem Creates.then {own : α → Handles κ} (hx : Creates x own)
    (hf : ∀ a, Triple (own a + pre) (f a) R) : Triple pre (x >>= f) R := by
  have hframe : Triple (0 + pre) x _ := Triple.frame hx
  rw [zero_add] at hframe
  apply hframe.bind
  rintro a _ ⟨_, rfl, rfl⟩
  exact hf a

theorem Creates.cases {own : α → Handles κ} {y : OwnM κ (Except ε α)} {g : Except ε α → OwnM κ β}
    (hy : Creates y (ofExcept own)) (herr : ∀ e, Triple pre (g (.error e)) R)
    (hok : ∀ a, Triple (own a + pre) (g (.ok a)) R) : Triple pre (y >>= g) R := by
  apply hy.then
  intro r
  cases r with
  | error e =>
    rw [ofExcept_error, zero_add]
    exact herr e
  | ok a => exact hok a

theorem Destroys.then {own : Handles κ} {y : OwnM κ Unit} {g : Unit → OwnM κ β} (hy : Destroys own y)
    (hg : Triple pre (g ()) R) : Triple (own + pre) (y >>= g) R := by
  have hframe : Triple (own + pre) y _ := Triple.frame hy
  apply hframe.bind
  rintro _ _ ⟨_, rfl, rfl⟩
  rwa [zero_add]

theorem destroys_pure : Destroys (0 : Handles κ) (pure ()) := triple_pure rfl

theorem destroys_whenSome {own : α → Handles κ} {g : α → OwnM κ Unit} (hg : ∀ a, Destroys (own a) (g a))
    (o : Option α) : Destroys (ofOption own o) (whenSome g o) := by
  cases o with
  | some a => exact hg a
  | none => exact destroys_pure

theorem triple_take {kind : κ} {g : Handle κ → OwnM κ β} (h : ∀ n, Triple ({(kind, n)} + pre) (g (kind, n)) R) :
    Triple pre (take kind >>= g) R := by
  intro w frame hw
  refine h w.next (w.push kind) frame ?_
  rw [add_assoc, ← hw, Multiset.singleton_add]
  rfl

theorem creates_acquire (kind : κ) (fault : Option ε) :
    Creates (acquire kind fault) (ofExcept fun h => {h}) := by
  cases fault with
  | some e => exact triple_pure rfl
  | none => exact triple_take fun n => triple_pure (add_zero _)

theorem destroys_release [DecidableEq κ] (h : Handle κ) : Destroys {h} (release h) := by
  intro w frame hw
  rw [Multiset.singleton_add] at hw
  have hmem : h ∈ w.held := hw ▸ Multiset.mem_cons_self h frame
  rw [release, if_pos hmem]
  refine ⟨0, ?_, rfl⟩
  change w.held.erase h = 0 + frame
  rw [hw, Multiset.erase_cons_head, zero_add]

/-- What a call has not given back. -/
def kept (own : Handles κ) (succeeds : Bool) : Handles κ := if succeeds then 0 else own

theorem triple_tryRelease [DecidableEq κ] (h : Handle κ) (succeeds : Bool) :
    Triple {h} (tryRelease h succeeds) fun _ m => m = kept {h} succeeds := by
  cases succeeds with
  | true => exact destroys_release h
  | false => exact triple_pure rfl

end Rules

end Ownership
