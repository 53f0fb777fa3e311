import Mathlib.Data.Int.Notation
import Mathlib.Data.Nat.Notation

/-! Tables of decimal numbers as text: a comma between two fields, a newline behind each row. -/
namespace Csv

abbrev Field := List Char

/-! ### Numbers -/

def ofNat (n : ℕ) : Field := Nat.toDigits 10 n

def ofInt : ℤ → Field
  | .ofNat n => ofNat n
  | .negSucc n => '-' :: ofNat (n + 1)

def readNat (f : Field) : Option ℕ :=
  if !f.isEmpty && f.all Char.isDigit then some (Nat.ofDigitChars 10 f 0) else none

def readInt : Field → Option ℤ
  | '-' :: f => (readNat f).map fun n => -(n : ℤ)
  | f => (readNat f).map Int.ofNat

/-- A field that may be empty. -/
def readOptional {α : Type} (read : Field → Option α) (f : Field) : Option (Option α) :=
  if f = [] then some none else (read f).map some

/-- A field without separators. -/
def Plain (f : Field) : Prop := ',' ∉ f ∧ '\n' ∉ f

instance (f : Field) : Decidable (Plain f) := inferInstanceAs (Decidable (_ ∧ _))

theorem isDigit_of_mem_ofNat {n : ℕ} {c : Char} (h : c ∈ ofNat n) : c.isDigit :=
  Nat.isDigit_of_mem_toDigits (by decide) (by decide) h

theorem ofNat_ne_nil (n : ℕ) : ofNat n ≠ [] := Nat.toDigits_ne_nil

theorem not_mem_ofNat (n : ℕ) {c : Char} (hc : c.isDigit = false) : c ∉ ofNat n := by
  intro h
  rw [isDigit_of_mem_ofNat h] at hc
  cases hc

@[simp] theorem readNat_ofNat (n : ℕ) : readNat (ofNat n) = some n := by
  have hdigits : (!(ofNat n).isEmpty && (ofNat n).all Char.isDigit) = true := by
    rw [Bool.and_eq_true, Bool.not_eq_true', List.isEmpty_eq_false_iff, List.all_eq_true]
    exact ⟨ofNat_ne_nil n, fun c => isDigit_of_mem_ofNat⟩
  rw [readNat, if_pos hdigits, ofNat, Nat.ofDigitChars_ten_toDigits]

theorem ofInt_ne_nil (x : ℤ) : ofInt x ≠ [] := by
  cases x with
  | ofNat n => exact ofNat_ne_nil n
  | negSucc n => exact List.cons_ne_nil _ _

theorem readInt_of_head {f : Field} (h : '-' ∉ f) : readInt f = (readNat f).map Int.ofNat := by
  unfold readInt
  split
  · exact absurd List.mem_cons_self h
  · rfl

@[simp] theorem readInt_ofInt (x : ℤ) : readInt (ofInt x) = some x := by
  cases x with
  | ofNat n =>
    change readInt (ofNat n) = _
    rw [readInt_of_head (not_mem_ofNat n (by decide)), readNat_ofNat]
    rfl
  | negSucc n =>
    rw [ofInt, readInt, readNat_ofNat]
    rfl

@[simp] theorem readOptional_nil {α : Type} (read : Field → Option α) : readOptional read [] = some none :=
  if_pos rfl

theorem readOptional_of_ne_nil {α : Type} {read : Field → Option α} {f : Field} {a : α} (hf : f ≠ [])
    (h : read f = some a) : readOptional read f = some (some a) := by
  rw [readOptional, if_neg hf, h]
  rfl

@[simp] theorem readOptional_ofNat (n : ℕ) : readOptional readNat (ofNat n) = some (some n) :=
  readOptional_of_ne_nil (ofNat_ne_nil n) (readNat_ofNat n)

@[simp] theorem readOptional_ofInt (x : ℤ) : readOptional readInt (ofInt x) = some (some x) :=
  readOptional_of_ne_nil (ofInt_ne_nil x) (readInt_ofInt x)

@[simp] theorem plain_ofNat (n : ℕ) : Plain (ofNat n) :=
  ⟨not_mem_ofNat n (by decide), not_mem_ofNat n (by decide)⟩

@[simp] theorem plain_ofInt (x : ℤ) : Plain (ofInt x) := by
  cases x with
  | ofNat n => exact plain_ofNat n
  | negSucc n =>
    obtain ⟨hcomma, hnewline⟩ := plain_ofNat (n + 1)
    constructor
    · exact List.not_mem_cons_of_ne_of_not_mem (by decide) hcomma
    · exact List.not_mem_cons_of_ne_of_not_mem (by decide) hnewline

@[simp] theorem plain_nil : Plain [] := ⟨List.not_mem_nil, List.not_mem_nil⟩

/-! ### Tables -/

def line (fields : List Field) : List Char := [','].intercalate fields ++ ['\n']

def text (table : List (List Field)) : List Char := table.flatMap line

/-- What stands behind the last newline is no row. -/
def rows (s : List Char) : List (List Field) := (s.splitOn '\n').dropLast.map fun row => row.splitOn ','

theorem not_mem_intercalate {c d : Char} (hcd : c ≠ d) {fields : List Field} (h : ∀ f ∈ fields, c ∉ f) :
    c ∉ [d].intercalate fields := by
  induction fields with
  | nil => exact List.not_mem_nil
  | cons f fields ih =>
    rw [List.forall_mem_cons] at h
    cases fields with
    | nil => simpa using h.1
    | cons g fields =>
      rw [List.intercalate_cons_cons]
      simp only [List.mem_append, List.mem_singleton]
      rintro ((hf | hd) | hrest)
      · exact h.1 hf
      · exact hcd hd
      · exact ih h.2 hrest

/-- What is read of a table is the table. -/
theorem rows_text {table : List (List Field)} (h : ∀ row ∈ table, row ≠ [] ∧ ∀ f ∈ row, Plain f) :
    rows (text table) = table := by
  induction table with
  | nil => rfl
  | cons row table ih =>
    rw [List.forall_mem_cons] at h
    obtain ⟨⟨hne, hplain⟩, htable⟩ := h
    have hsplit : (text (row :: table)).splitOn '\n' =
        [','].intercalate row :: (text table).splitOn '\n' := by
      have hcons : text (row :: table) = [','].intercalate row ++ '\n' :: text table := by
        simp [text, line]
      rw [hcons]
      apply List.splitOn_append_cons_self_of_not_mem
      exact not_mem_intercalate (by decide) fun f hf => (hplain f hf).2
    rw [rows, hsplit, List.dropLast_cons_of_ne_nil (List.splitOn_ne_nil _ _), List.map_cons,
      List.splitOn_intercalate _ (fun f hf => (hplain f hf).1) hne]
    exact congrArg _ (ih htable)

end Csv
