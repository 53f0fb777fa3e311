import Fsdiff.Data.Bytes

/-! Files read at positions. A call may be interrupted, may fail, and may return fewer bytes
than asked for, but not none before the end of the file. How the calls go is written on a tape,
one answer for each call. -/
namespace Pread
open ByteString
variable {α : Type}

/-- How one call goes. -/
inductive Answer where
  | interrupted
  | failed
  | upTo (n : ℕ)
  deriving DecidableEq, Repr

/-- What a call returns when it fails. -/
inductive Errno where
  | interrupted
  | failed
  deriving DecidableEq, Repr

/-- `pread` of `len` bytes at `offset`: at least one of them, if the file has not ended. -/
def pread (file : List α) (answer : Answer) (len offset : ℕ) : Except Errno (List α) :=
  match answer with
  | .interrupted => .error .interrupted
  | .failed => .error .failed
  | .upTo n => .ok (window file offset (min len (max n 1)))

theorem pread_ok {file : List α} {answer : Answer} {len offset : ℕ} {data : List α}
    (h : pread file answer len offset = .ok data) :
    data.length ≤ len ∧ data = window file offset data.length ∧
      (data = [] → len = 0 ∨ file.length ≤ offset) := by
  cases answer with
  | interrupted => cases h
  | failed => cases h
  | upTo n =>
    cases h
    have hlen : (window file offset (min len (max n 1))).length =
        min (min len (max n 1)) (file.length - offset) := by
      simp [window]
    refine ⟨by omega, List.prefix_iff_eq_take.mp (List.take_prefix _ _), ?_⟩
    · intro h0
      rw [h0, List.length_nil] at hlen
      omega

/-! ### Files that go on with a filler -/

/-- The `n` entries at `p` of a file that is followed by `fill` without end. -/
def padded (fill : α) (file : List α) (p n : ℕ) : List α :=
  (List.range n).map fun k => (file[p + k]?).getD fill

section Padded
variable {fill : α} {file : List α} {p n m : ℕ}

@[simp] theorem length_padded : (padded fill file p n).length = n := by simp [padded]

theorem padded_append : padded fill file p n ++ padded fill file (p + n) m = padded fill file p (n + m) := by
  unfold padded
  rw [List.range_add, List.map_append, List.map_map]
  congr 1
  apply List.map_congr_left
  intro k _
  simp [add_assoc]

theorem padded_eq_window (h : p + n ≤ file.length) : padded fill file p n = window file p n := by
  apply List.ext_getElem?
  intro k
  by_cases hk : k < n
  · rw [getElem?_window hk, padded, List.getElem?_map, List.getElem?_range hk]
    have hget : file[p + k]? = some file[p + k] := List.getElem?_eq_getElem (by omega)
    simp [hget]
  · have hlen := length_window_le (s := file) (p := p) (n := n)
    rw [List.getElem?_eq_none (by rw [length_padded]; omega), List.getElem?_eq_none (by omega)]

theorem padded_eq_replicate (h : file.length ≤ p) : padded fill file p n = List.replicate n fill := by
  have hall : ∀ k, (file[p + k]?).getD fill = fill := by
    intro k
    rw [List.getElem?_eq_none (by omega)]
    rfl
  simp [padded, hall]

theorem window_padded {c : ℕ} (h : c + m ≤ n) :
    window (padded fill file p n) c m = padded fill file (p + c) m := by
  obtain ⟨rest, rfl⟩ : ∃ rest, n = c + m + rest := ⟨n - (c + m), by omega⟩
  rw [← padded_append, ← padded_append, window, List.append_assoc,
    List.drop_left' length_padded, List.take_left' length_padded]

end Padded

/-! ### Buffers -/

/-- The buffer with `data` stored at `p`. -/
def overwrite (buf : List α) (p : ℕ) (data : List α) : List α :=
  buf.take p ++ data ++ buf.drop (p + data.length)

section Overwrite
variable {buf data : List α} {p : ℕ}

theorem length_overwrite (h : p + data.length ≤ buf.length) : (overwrite buf p data).length = buf.length := by
  simp only [overwrite, List.length_append, List.length_take, List.length_drop]
  omega

theorem take_overwrite (h : p ≤ buf.length) :
    (overwrite buf p data).take (p + data.length) = buf.take p ++ data := by
  have hlen : (buf.take p ++ data).length = p + data.length := by
    rw [List.length_append, List.length_take]
    omega
  rw [overwrite, ← hlen, List.take_left]

end Overwrite

end Pread
