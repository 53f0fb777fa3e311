import Mathlib.Data.List.Basic
import Mathlib.Algebra.Order.Group.Nat

/-! Files behind a buffer. A write may only reach the buffer, any call may fail, and a call
that fails may lose what the buffer held. How the calls on a stream go is written on a tape
that it carries, one answer for each call. -/
namespace Stdio

/-- How one call goes: whether it succeeds, and how many entries it moves. -/
structure Answer where
  ok : Bool
  moved : ℕ
  deriving DecidableEq, Repr

/-- An open file: what has reached it, what is in the buffer, the position of the next read
and the error indicator. -/
structure Stream (α : Type) where
  disk : List α
  answers : ℕ → Answer
  pending : List α := []
  pos : ℕ := 0
  err : Bool := false

namespace Stream
variable {α : Type} (f : Stream α)

/-- What has been written and not been lost. -/
def contents : List α := f.disk ++ f.pending

def later : ℕ → Answer := fun n => f.answers (n + 1)

/-- `fflush`: the buffer is written, as far as it goes, and is empty afterwards. -/
def fflush : Bool × Stream α :=
  let a := f.answers 0
  if a.ok then (true, { f with disk := f.disk ++ f.pending, pending := [], answers := f.later })
  else
    (false,
      { f with
        disk := f.disk ++ f.pending.take a.moved
        pending := []
        err := true
        answers := f.later })

/-- `fclose`: whether it succeeds, and what the file holds then. -/
def fclose : Bool × List α := (f.fflush.1, f.fflush.2.disk)

/-- `fwrite`: how many entries were taken, all of them if it succeeds. Some of the buffer may
be written on the occasion. -/
def fwrite (data : List α) : ℕ × Stream α :=
  let a := f.answers 0
  let buffer := f.pending ++ data
  let disk := f.disk ++ buffer.take a.moved
  if a.ok ∨ data.length = 0 then
    (data.length, { f with disk := disk, pending := buffer.drop a.moved, answers := f.later })
  else
    (min a.moved (data.length - 1),
      { f with disk := disk, pending := [], err := true, answers := f.later })

/-- `rewind`, which writes the buffer but cannot report that this failed. -/
def rewind : Stream α := { f.fflush.2 with pos := 0, err := false }

/-- `fread`: the entries from the position on, at most `n` of them, and fewer than there are
only with an error. -/
def fread (n : ℕ) : List α × Stream α :=
  let a := f.answers 0
  let found := (f.disk.drop f.pos).take n
  if a.ok then (found, { f with pos := f.pos + found.length, answers := f.later })
  else
    (found.take a.moved,
      { f with pos := f.pos + (found.take a.moved).length, err := true, answers := f.later })

variable {f}

theorem fflush_disk (h : f.fflush.1 = true) : f.fflush.2.disk = f.contents := by
  unfold fflush at h ⊢
  dsimp only at h ⊢
  split_ifs at h ⊢
  rfl

theorem fflush_pending : f.fflush.2.pending = [] := by
  unfold fflush
  dsimp only
  split_ifs <;> rfl

theorem fclose_disk (h : f.fclose.1 = true) : f.fclose.2 = f.contents := fflush_disk h

theorem fwrite_contents {data : List α} (h : (f.fwrite data).1 = data.length) :
    (f.fwrite data).2.contents = f.contents ++ data := by
  unfold fwrite at h ⊢
  dsimp only at h ⊢
  split_ifs at h ⊢ with hok
  · simp [contents]
  · -- a write that fails has taken fewer
    simp only [not_or] at hok
    omega

/-- No call on the stream fails. -/
def Reliable (f : Stream α) : Prop := ∀ n, (f.answers n).ok = true

theorem Reliable.fwrite (h : f.Reliable) (data : List α) :
    (f.fwrite data).1 = data.length ∧ (f.fwrite data).2.Reliable := by
  unfold Stream.fwrite
  dsimp only
  rw [if_pos (.inl (h 0))]
  exact ⟨rfl, fun n => h (n + 1)⟩

theorem rewind_disk (h : f.pending = []) : f.rewind.disk = f.disk := by
  unfold rewind fflush
  dsimp only
  split_ifs <;> simp [h]

@[simp] theorem rewind_pos : f.rewind.pos = 0 := rfl

@[simp] theorem fread_disk (n : ℕ) : (f.fread n).2.disk = f.disk := by
  unfold fread
  dsimp only
  split_ifs <;> rfl

theorem fread_pos (n : ℕ) : (f.fread n).2.pos = f.pos + (f.fread n).1.length := by
  unfold fread
  dsimp only
  split_ifs <;> rfl

theorem fread_length_le (n : ℕ) : (f.fread n).1.length ≤ (f.disk.drop f.pos).length := by
  unfold fread
  dsimp only
  split_ifs
  · exact List.length_take_le' _ _
  · exact (List.length_take_le' _ _).trans (List.length_take_le' _ _)

/-- Without an error everything was read that was asked for and is there. -/
theorem fread_eq {n : ℕ} (h : (f.fread n).2.err = false) :
    f.err = false ∧ (f.fread n).1 = (f.disk.drop f.pos).take n := by
  unfold fread at h ⊢
  dsimp only at h ⊢
  split_ifs at h ⊢
  exact ⟨h, rfl⟩

end Stream

end Stdio
