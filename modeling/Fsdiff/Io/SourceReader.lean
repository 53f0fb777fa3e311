import Fsdiff.Data.Align
import Fsdiff.Data.Exec
import Fsdiff.Data.Pread
import Fsdiff.Types

/-! `source_reader.c`: a source read through a mapping, or directly with `pread` and a buffer of
read-ahead. Each loop has a bound on its turns, and reaching it is an outcome of its own. -/
namespace Fsdiff.Io
open Align ByteString Exec Pread

/-- How a call ends without a result: an error code, or the bound on the turns of a loop. -/
inductive ReadFault where
  | code (e : FsdError)
  | outOfFuel
  deriving DecidableEq, Repr

/-! ### The mapping -/

/-- `fsd_mmap_data`; an empty file has no mapping. -/
def mmapData (file : Bytes) : Option Bytes := if file.length = 0 then none else some file

/-- The checks at the start of `fsd_source_reader_read_at`, with a buffer for the bytes. -/
def readAtGuard (fileSize offset len : ℕ) : Except FsdError Unit :=
  if len = 0 then .ok ()
  else if fileSize < offset ∨ fileSize - offset < len then .error .truncated
  else .ok ()

/-- `fsd_source_reader_read_at` on the mapping. -/
def mmapReadAt (file : Bytes) (offset len : ℕ) : Except FsdError Bytes := do
  readAtGuard file.length offset len
  pure (window file offset len)

/-! ### The direct reader -/

/-- What is behind the descriptor: the file, how each `pread` goes, and which allocations
succeed. -/
structure Source where
  file : Bytes
  answers : ℕ → Answer
  memory : ℕ → Bool

/-- `struct fsd_source_reader` of the direct backend, with the numbers of calls of `pread` and
`posix_memalign` so far. -/
structure DirectReader where
  fileSize : ℕ
  alignment : ℕ
  scratch : Bytes
  scratchSize : ℕ
  scratchOff : ℕ
  scratchValid : ℕ
  slurp : Option Bytes
  preads : ℕ
  allocs : ℕ

/-- `FSD_DIO_DEFAULT_ALIGN` -/
def dioDefaultAlign : ℕ := 4096

/-- `FSD_DIO_SCRATCH_SIZE` -/
def dioScratchSize : ℕ := 1024 * 1024

/-- The alignment that `open_direct` settles on. -/
def checkedAlignment (align : ℕ) : ℕ :=
  if align = 0 ∨ align &&& (align - 1) ≠ 0 then dioDefaultAlign else align

/-- The size of the read-ahead that `open_direct` allocates. -/
def scratchSizeFor (align : ℕ) : ℕ :=
  let scratchSize := dioScratchSize
  let scratchSize := if scratchSize < align then align else scratchSize
  roundUp 64 scratchSize align

/-- `open_direct`, its calls succeeding; `scratch` is what the new buffer happens to hold. -/
def openDirect (src : Source) (sector : ℕ) (scratch : Bytes) : DirectReader :=
  { fileSize := src.file.length
    alignment := checkedAlignment sector
    scratch := scratch
    scratchSize := scratchSizeFor (checkedAlignment sector)
    scratchOff := 0
    scratchValid := 0
    slurp := none
    preads := 0
    allocs := 0 }

/-- A buffer that is being filled, and the number of calls of `pread` so far. -/
structure Filling where
  preads : ℕ
  buf : Bytes

abbrev FillM := EStateM ReadFault Filling

abbrev ReaderM := EStateM ReadFault DirectReader

section Direct
variable (src : Source)

/-- `pread_full` from `total` on. -/
def preadFull (fileSize len offset : ℕ) : ℕ → ℕ → FillM Unit
  | 0, _ => throw .outOfFuel
  | fuel + 1, total =>
    if len ≤ total then pure ()
    else do
      let st ← get
      set { st with preads := st.preads + 1 }
      match pread src.file (src.answers st.preads) (len - total) (offset + total) with
      | .error .interrupted => preadFull fileSize len offset fuel total
      | .error .failed => throw (.code .io)
      | .ok data =>
        if data.length = 0 then
          if fileSize ≤ offset + total then
            modify fun st => { st with buf := overwrite st.buf total (List.replicate (len - total) 0) }
          else throw (.code .io)
        else do
          modify fun st => { st with buf := overwrite st.buf total data }
          preadFull fileSize len offset fuel (total + data.length)

/-- A fill of the read-ahead. -/
def fillScratch (x : FillM Unit) : ReaderM Unit := fun r =>
  match x ⟨r.preads, r.scratch⟩ with
  | .ok a st => .ok a { r with preads := st.preads, scratch := st.buf }
  | .error e st => .error e { r with preads := st.preads, scratch := st.buf }

def fillBuffer (x : FillM Unit) (buf : Bytes) : ReaderM Bytes := fun r =>
  match x ⟨r.preads, buf⟩ with
  | .ok _ st => .ok st.buf { r with preads := st.preads }
  | .error e st => .error e { r with preads := st.preads }

variable (fuel : ℕ)

/-- The loop of `direct_read_at`; `out` is what has been copied so far. -/
def directLoop : ℕ → ℕ → ℕ → Bytes → ReaderM Bytes
  | 0, _, _, _ => throw .outOfFuel
  | turns + 1, offset, len, out =>
    if len = 0 then pure out
    else do
      let r ← get
      if 0 < r.scratchValid ∧ r.scratchOff ≤ offset ∧ offset < r.scratchOff + r.scratchValid then
        let cachedOff := offset - r.scratchOff
        let available := r.scratchValid - cachedOff
        let copy := if len < available then len else available
        directLoop turns (offset + copy) (len - copy) (out ++ window r.scratch cachedOff copy)
      else do
        let alignedOff := roundDown 64 offset r.alignment
        let maxAligned := roundUp 64 r.fileSize r.alignment
        let chunk :=
          if maxAligned < u64 (alignedOff + r.scratchSize) then u64Sub maxAligned alignedOff
          else r.scratchSize
        set { r with scratchValid := 0 }
        fillScratch (preadFull src r.fileSize chunk alignedOff fuel 0)
        modify fun r => { r with scratchOff := alignedOff, scratchValid := chunk }
        directLoop turns offset len out

/-- `fsd_source_reader_read_at` on the direct reader. -/
def directReadAt (offset len : ℕ) : ReaderM Bytes := do
  let r ← get
  match readAtGuard r.fileSize offset len with
  | .error e => throw (.code e)
  | .ok () => directLoop src fuel fuel offset len []

/-- `direct_materialize`, and the pointer that `fsd_source_reader_data` returns. An empty file
has a byte of its own. -/
def directData : ReaderM Bytes := do
  let r ← get
  match r.slurp with
  | some buf => pure buf
  | none =>
    if r.fileSize = 0 then do
      set { r with slurp := some [0] }
      pure [0]
    else do
      let allocSize := roundUp 64 r.fileSize r.alignment
      set { r with allocs := r.allocs + 1 }
      if src.memory r.allocs = true then do
        let buf ← fillBuffer (preadFull src r.fileSize allocSize 0 fuel 0) (List.replicate allocSize 0)
        modify fun r => { r with slurp := some buf }
        pure buf
      else throw (.code .outOfMemory)

end Direct

/-! ### Filling a buffer -/

/-- One of the calls `a` to `b` of `pread` has failed. -/
def PreadFailed (src : Source) (a b : ℕ) : Prop := ∃ k, a ≤ k ∧ k < b ∧ src.answers k = .failed

section Fill
variable {src : Source} {N : ℕ}

theorem PreadFailed.mono {a b a' b' : ℕ} (h : PreadFailed src a b) (ha : a' ≤ a) (hb : b ≤ b') :
    PreadFailed src a' b' := by
  obtain ⟨k, hak, hkb, hfail⟩ := h
  exact ⟨k, ha.trans hak, hkb.trans_le hb, hfail⟩

theorem pread_error_failed {file : Bytes} {answer : Answer} {len offset : ℕ}
    (h : pread file answer len offset = .error .failed) : answer = .failed := by
  cases answer with
  | interrupted => cases h
  | failed => rfl
  | upTo n => cases h

theorem pread_error_interrupted {file : Bytes} {answer : Answer} {len offset : ℕ}
    (h : pread file answer len offset = .error .interrupted) : answer = .interrupted := by
  cases answer with
  | interrupted => rfl
  | failed => cases h
  | upTo n => cases h

theorem fill_zeros {file buf : Bytes} {len offset total : ℕ} (hpast : file.length ≤ offset + total)
    (hle : total ≤ len) (hbuf : len ≤ buf.length) (hdone : buf.take total = padded 0 file offset total) :
    (overwrite buf total (List.replicate (len - total) 0)).length = buf.length ∧
      (overwrite buf total (List.replicate (len - total) 0)).take len = padded 0 file offset len := by
  have hzeros : total + (List.replicate (len - total) (0 : UInt8)).length ≤ buf.length := by
    rw [List.length_replicate]
    omega
  have htake := @take_overwrite _ buf (List.replicate (len - total) (0 : UInt8)) total (by omega)
  have hzero : padded 0 file (offset + total) (len - total) = List.replicate (len - total) 0 :=
    padded_eq_replicate hpast
  rw [List.length_replicate, Nat.add_sub_of_le hle, hdone] at htake
  refine ⟨length_overwrite hzeros, ?_⟩
  rw [htake, ← hzero, padded_append, Nat.add_sub_of_le hle]

/-- The bytes that a read returned go behind those that are already there. -/
theorem fill_data {file buf data : Bytes} {offset total : ℕ}
    (hdata : data = window file (offset + total) data.length) (hfits : total + data.length ≤ buf.length)
    (hdone : buf.take total = padded 0 file offset total) :
    (overwrite buf total data).length = buf.length ∧
      (overwrite buf total data).take (total + data.length) =
        padded 0 file offset (total + data.length) := by
  refine ⟨length_overwrite hfits, ?_⟩
  by_cases h0 : data.length = 0
  · rw [take_overwrite (by omega), hdone, List.length_eq_zero_iff.mp h0, List.append_nil]
    rfl
  have hinside : offset + total + data.length ≤ file.length := by
    have hw := congrArg List.length hdata
    rw [window, List.length_take, List.length_drop] at hw
    omega
  rw [take_overwrite (by omega), hdone, ← padded_append, padded_eq_window hinside, ← hdata]

/-- Every turn takes an interruption off the tape or a byte off the rest, so the fill ends: with
the bytes of the file, or because a call failed. -/
theorem preadFull_ends (hfin : ∀ n, N ≤ n → src.answers n ≠ .interrupted) (len offset fuel total : ℕ)
    (st : Filling) (hle : total ≤ len) (hbuf : len ≤ st.buf.length)
    (hdone : st.buf.take total = padded 0 src.file offset total)
    (hfuel : len - total + (N - st.preads) < fuel) :
    Ends (preadFull src src.file.length len offset fuel total st)
      (fun _ st' => st.preads ≤ st'.preads ∧ st'.buf.length = st.buf.length ∧
        st'.buf.take len = padded 0 src.file offset len)
      (fun e st' => e = .code .io ∧ st'.buf.length = st.buf.length ∧
        st.preads ≤ st'.preads ∧ PreadFailed src st.preads st'.preads) := by
  induction fuel generalizing total st with
  | zero => omega
  | succ fuel ih =>
    unfold preadFull
    apply ends_ite
    · intro hend
      obtain rfl : total = len := by omega
      exact ⟨le_rfl, rfl, hdone⟩
    intro hmore
    rw [get_bind, set_bind]
    cases hread : pread src.file (src.answers st.preads) (len - total) (offset + total) with
    | error errno =>
      cases errno with
      | failed =>
        exact ⟨rfl, rfl, Nat.le_succ _, st.preads, le_rfl, Nat.lt_succ_self _, pread_error_failed hread⟩
      | interrupted =>
        have hlt : st.preads < N := by
          by_contra hge
          exact hfin st.preads (not_lt.mp hge) (pread_error_interrupted hread)
        apply (ih total { st with preads := st.preads + 1 } hle hbuf hdone (by dsimp only; omega)).mono
        · rintro _ st' ⟨hpreads, hrest⟩
          exact ⟨(Nat.le_succ _).trans hpreads, hrest⟩
        · rintro e st' ⟨he, hlen, hpreads, hfail⟩
          exact ⟨he, hlen, (Nat.le_succ _).trans hpreads, hfail.mono (Nat.le_succ _) le_rfl⟩
    | ok data =>
      obtain ⟨hlen, hdata, hnone⟩ := pread_ok hread
      dsimp only
      apply ends_ite
      · intro h0
        -- nothing was read, so the file has ended and the rest is zero
        have hpast : src.file.length ≤ offset + total := by
          rcases hnone (List.length_eq_zero_iff.mp h0) with h | h
          · omega
          · exact h
        apply ends_ite
        · intro _
          obtain ⟨hover, hfilled⟩ := fill_zeros hpast hle hbuf hdone
          exact ⟨Nat.le_succ _, hover, hfilled⟩
        · intro hnot
          exact absurd hpast hnot
      · intro hpos
        rw [modify_bind]
        obtain ⟨hover, hdone'⟩ := fill_data hdata (show total + data.length ≤ st.buf.length by omega) hdone
        have hstep := ih (total + data.length) ⟨st.preads + 1, overwrite st.buf total data⟩ (by omega)
          (by dsimp only; omega) hdone' (by dsimp only; omega)
        apply hstep.mono
        · rintro _ st' ⟨hpreads, hlen', hrest⟩
          exact ⟨(Nat.le_succ _).trans hpreads, hlen'.trans hover, hrest⟩
        · rintro e st' ⟨he, hlen', hpreads, hfail⟩
          exact ⟨he, hlen'.trans hover, (Nat.le_succ _).trans hpreads, hfail.mono (Nat.le_succ _) le_rfl⟩

end Fill

/-! ### The read-ahead -/

/-- What holds of a direct reader between calls: the valid part of the read-ahead, and the buffer
of the whole source, hold the bytes of the file. -/
structure ReaderInv (src : Source) (r : DirectReader) : Prop where
  fileSize_eq : r.fileSize = src.file.length
  alignment_eq : ∃ k ≤ 20, r.alignment = 2 ^ k
  scratchSize_eq : r.scratchSize = 2 ^ 20
  scratch_length : r.scratch.length = r.scratchSize
  valid_le : r.scratchValid ≤ r.scratchSize
  scratch_holds : r.scratch.take r.scratchValid = padded 0 src.file r.scratchOff r.scratchValid
  slurp_holds : ∀ buf, r.slurp = some buf → buf.take src.file.length = src.file

/-- The first byte of a request is in the valid part of the read-ahead. -/
def Hit (r : DirectReader) (offset : ℕ) : Prop :=
  0 < r.scratchValid ∧ r.scratchOff ≤ offset ∧ offset < r.scratchOff + r.scratchValid

instance (r : DirectReader) (offset : ℕ) : Decidable (Hit r offset) :=
  inferInstanceAs (Decidable (_ ∧ _))

section ReadAhead
variable {src : Source} {r : DirectReader} {N : ℕ}

theorem window_take {list : List UInt8} {c m n : ℕ} (h : c + m ≤ n) :
    window (list.take n) c m = window list c m := by
  rw [window, window, List.drop_take, List.take_take, min_eq_left (by omega)]

theorem ReaderInv.window_scratch (h : ReaderInv src r) {offset copy : ℕ} (hoff : r.scratchOff ≤ offset)
    (hvalid : offset - r.scratchOff + copy ≤ r.scratchValid) (hend : offset + copy ≤ src.file.length) :
    window r.scratch (offset - r.scratchOff) copy = window src.file offset copy := by
  rw [← window_take hvalid, h.scratch_holds, window_padded hvalid, Nat.add_sub_of_le hoff,
    padded_eq_window hend]

/-- The region that is read on a miss starts at or before the request and goes beyond it. -/
theorem refill_bounds (h : ReaderInv src r) (hsize : src.file.length ≤ 2 ^ 63 - 2 ^ 21) {offset : ℕ}
    (hoff : offset < src.file.length) :
    let alignedOff := roundDown 64 offset r.alignment
    let maxAligned := roundUp 64 r.fileSize r.alignment
    let chunk :=
      if maxAligned < u64 (alignedOff + r.scratchSize) then u64Sub maxAligned alignedOff
      else r.scratchSize
    alignedOff ≤ offset ∧ offset < alignedOff + chunk ∧ chunk ≤ r.scratchSize := by
  intro alignedOff maxAligned chunk
  obtain ⟨k, hk, halign⟩ := h.alignment_eq
  have hpow : 2 ^ k ≤ 2 ^ 20 := Nat.pow_le_pow_right (by decide) hk
  have hdown := roundDown_bounds (show k ≤ 64 by omega) (show offset < 2 ^ 64 by omega)
  have hup := roundUp_bounds (show k ≤ 64 by omega) (show src.file.length + 2 ^ k - 1 < 2 ^ 64 by omega)
  rw [← halign] at hdown hup
  change alignedOff ≤ offset ∧ offset < alignedOff + r.alignment at hdown
  have hmax : maxAligned = roundUp 64 src.file.length r.alignment := by
    change roundUp 64 r.fileSize r.alignment = _
    rw [h.fileSize_eq]
  rw [← hmax] at hup
  have hscratch := h.scratchSize_eq
  have hsum : u64 (alignedOff + r.scratchSize) = alignedOff + r.scratchSize := u64_of_lt (by omega)
  have hsub : u64Sub maxAligned alignedOff = maxAligned - alignedOff :=
    u64Sub_of_le (by omega) (by omega)
  have hchunk : chunk = if maxAligned < alignedOff + r.scratchSize then maxAligned - alignedOff
      else r.scratchSize := by
    rw [← hsum, ← hsub]
  rw [hchunk]
  split_ifs <;> omega

/-- A refill makes the whole region valid. If it fails, nothing is. -/
theorem fillScratch_ends (h : ReaderInv src r) (hfin : ∀ n, N ≤ n → src.answers n ≠ .interrupted)
    {chunk alignedOff fuel : ℕ} (hchunk : chunk ≤ r.scratchSize) (hfuel : chunk + N < fuel) :
    Ends (fillScratch (preadFull src r.fileSize chunk alignedOff fuel 0) { r with scratchValid := 0 })
      (fun _ r' => r.preads ≤ r'.preads ∧
        ReaderInv src { r' with scratchOff := alignedOff, scratchValid := chunk })
      (fun e r' => e = .code .io ∧ ReaderInv src r' ∧ PreadFailed src r.preads r'.preads) := by
  have hfill := preadFull_ends hfin chunk alignedOff fuel 0 ⟨r.preads, r.scratch⟩
    (Nat.zero_le _) (by rw [h.scratch_length]; exact hchunk) rfl (by dsimp only; omega)
  rw [← h.fileSize_eq] at hfill
  unfold fillScratch
  dsimp only
  cases hrun : preadFull src r.fileSize chunk alignedOff fuel 0 ⟨r.preads, r.scratch⟩ with
  | ok a st =>
    obtain ⟨hpreads, hlen, htake⟩ := hfill.of_ok hrun
    exact ⟨hpreads, { h with
      scratch_length := hlen.trans h.scratch_length
      valid_le := hchunk
      scratch_holds := htake }⟩
  | error e st =>
    obtain ⟨he, hlen, hpreads, hfail⟩ := hfill.of_error hrun
    exact ⟨he, { h with
      scratch_length := hlen.trans h.scratch_length
      valid_le := Nat.zero_le _
      scratch_holds := rfl }, hfail⟩

/-- Every miss is followed by a hit, and every hit takes at least a byte off the rest. -/
theorem directLoop_ends (hsize : src.file.length ≤ 2 ^ 63 - 2 ^ 21)
    (hfin : ∀ n, N ≤ n → src.answers n ≠ .interrupted) {fuel : ℕ} (hfuel : 2 ^ 20 + N < fuel)
    (turns offset len : ℕ) (out : Bytes) (r : DirectReader) (h : ReaderInv src r)
    (hend : offset + len ≤ src.file.length)
    (hturns : 2 * len + (if Hit r offset then 0 else 1) < turns) :
    Ends (directLoop src fuel turns offset len out r)
      (fun bytes r' => bytes = out ++ window src.file offset len ∧ ReaderInv src r' ∧
        r.preads ≤ r'.preads)
      (fun e r' => e = .code .io ∧ ReaderInv src r' ∧ PreadFailed src r.preads r'.preads) := by
  induction turns generalizing offset len out r with
  | zero => omega
  | succ turns ih =>
    unfold directLoop
    apply ends_ite
    · rintro rfl
      exact ⟨by simp, h, le_rfl⟩
    intro hlen
    rw [get_bind]
    apply ends_ite
    · intro hhit
      generalize hcopy : (if len < r.scratchValid - (offset - r.scratchOff) then len
        else r.scratchValid - (offset - r.scratchOff)) = copy
      have hcopy' : copy ≤ len ∧ 0 < copy ∧ offset - r.scratchOff + copy ≤ r.scratchValid := by
        rw [← hcopy]
        split_ifs <;> omega
      have hstep := ih (offset + copy) (len - copy) (out ++ window r.scratch (offset - r.scratchOff) copy) r h
        (by omega) (by split_ifs at hturns ⊢ <;> omega)
      apply hstep.mono
      · rintro bytes r' ⟨rfl, hinv, hpreads⟩
        refine ⟨?_, hinv, hpreads⟩
        rw [h.window_scratch hhit.2.1 hcopy'.2.2 (by omega), List.append_assoc, window_append,
          Nat.add_sub_of_le hcopy'.1]
      · exact fun e r' herr => herr
    · intro hmiss
      obtain ⟨hle, hlt, hchunk⟩ := refill_bounds h hsize (show offset < src.file.length by omega)
      generalize (if roundUp 64 r.fileSize r.alignment < u64 (roundDown 64 offset r.alignment + r.scratchSize)
        then u64Sub (roundUp 64 r.fileSize r.alignment) (roundDown 64 offset r.alignment)
        else r.scratchSize) = chunk at *
      rw [set_bind]
      have hscratch := h.scratchSize_eq
      apply (fillScratch_ends h hfin hchunk (by omega)).bind
      rintro _ r₁ ⟨hpreads, hinv⟩
      rw [modify_bind]
      have hnow : Hit { r₁ with scratchOff := roundDown 64 offset r.alignment, scratchValid := chunk }
          offset := ⟨by dsimp only; omega, hle, hlt⟩
      have hturns' : 2 * len + 1 < turns + 1 := by
        rwa [if_neg (show ¬ Hit r offset from hmiss)] at hturns
      have hstep := ih offset len out
        { r₁ with scratchOff := roundDown 64 offset r.alignment, scratchValid := chunk } hinv hend
        (by rw [if_pos hnow]; omega)
      apply hstep.mono
      · rintro bytes r' ⟨hbytes, hinv', hpreads'⟩
        exact ⟨hbytes, hinv', hpreads.trans hpreads'⟩
      · rintro e r' ⟨he, hinv', hfail⟩
        exact ⟨he, hinv', hfail.mono hpreads le_rfl⟩

end ReadAhead

/-! ### Calls on one reader -/

inductive ReaderCall where
  | readAt (offset len : ℕ)
  | data
  deriving DecidableEq, Repr

section Calls
variable (src : Source) (fuel : ℕ)

def ReaderCall.run : ReaderCall → ReaderM Bytes
  | .readAt offset len => directReadAt src fuel offset len
  | .data => directData src fuel

def readerAfter (calls : List ReaderCall) (r : DirectReader) : DirectReader :=
  calls.foldl
    (fun r call =>
      match call.run src fuel r with
      | .ok _ r' => r'
      | .error _ r' => r') r

end Calls

section Refinement
variable {src : Source} {r : DirectReader} {N fuel : ℕ}

theorem readAtGuard_eq (fileSize offset len : ℕ) :
    readAtGuard fileSize offset len =
      if 0 < len ∧ fileSize < offset + len then .error .truncated else .ok () := by
  unfold readAtGuard
  split_ifs <;> first | rfl | omega

theorem mmapReadAt_eq (file : Bytes) (offset len : ℕ) :
    mmapReadAt file offset len =
      if 0 < len ∧ file.length < offset + len then .error .truncated
      else .ok (window file offset len) := by
  rw [mmapReadAt, readAtGuard_eq]
  split_ifs <;> rfl

/-- A read returns what the mapping returns, or a `pread` of it has failed. -/
theorem directReadAt_ends (h : ReaderInv src r) (hsize : src.file.length ≤ 2 ^ 63 - 2 ^ 21)
    (hfin : ∀ n, N ≤ n → src.answers n ≠ .interrupted)
    (hfuel : 2 * src.file.length + 2 ^ 21 + N + 1 < fuel) (offset len : ℕ) :
    Ends (directReadAt src fuel offset len r)
      (fun bytes r' => mmapReadAt src.file offset len = .ok bytes ∧ ReaderInv src r')
      (fun e r' => ((e = .code .io ∧ PreadFailed src r.preads r'.preads) ∨
        ∃ e', e = .code e' ∧ mmapReadAt src.file offset len = .error e') ∧ ReaderInv src r') := by
  unfold directReadAt
  rw [get_bind, h.fileSize_eq, readAtGuard_eq, mmapReadAt_eq]
  by_cases htrunc : 0 < len ∧ src.file.length < offset + len
  · rw [if_pos htrunc, if_pos htrunc]
    exact ⟨.inr ⟨_, rfl, rfl⟩, h⟩
  rw [if_neg htrunc, if_neg htrunc]
  by_cases hlen : len = 0
  · subst hlen
    obtain ⟨turns, rfl⟩ : ∃ turns, fuel = turns + 1 := ⟨fuel - 1, by omega⟩
    unfold directLoop
    rw [if_pos rfl]
    exact ⟨by rw [window_zero], h⟩
  have hloop := directLoop_ends hsize hfin (show 2 ^ 20 + N < fuel by omega) fuel offset len [] r h (by omega)
    (by split_ifs <;> omega)
  apply hloop.mono
  · rintro bytes r' ⟨rfl, hinv, -⟩
    exact ⟨by rw [List.nil_append], hinv⟩
  · rintro e r' ⟨rfl, hinv, hfail⟩
    exact ⟨.inl ⟨rfl, hfail⟩, hinv⟩

/-- The buffer of the whole source begins with the file, and only a failed `pread` or a refused
allocation keeps it from being made. Nothing else of the reader changes. -/
theorem directData_makes (hlen : r.fileSize = src.file.length) {k : ℕ} (hk : k ≤ 31)
    (halign : r.alignment = 2 ^ k) (hslurp : ∀ buf, r.slurp = some buf → buf.take src.file.length = src.file)
    (hsize : src.file.length < 2 ^ 63) (hfin : ∀ n, N ≤ n → src.answers n ≠ .interrupted)
    (hfuel : src.file.length + 2 ^ k + N < fuel) :
    Ends (directData src fuel r)
      (fun buf r' => buf.take src.file.length = src.file ∧
        ∃ preads allocs, r' = { r with slurp := some buf, preads := preads, allocs := allocs })
      (fun e r' => ((e = .code .io ∧ PreadFailed src r.preads r'.preads) ∨
          e = .code .outOfMemory ∧ src.memory r.allocs = false) ∧
        ∃ preads allocs, r' = { r with preads := preads, allocs := allocs }) := by
  unfold directData
  rw [get_bind]
  cases hslurped : r.slurp with
  | some buf => exact ⟨hslurp buf hslurped, r.preads, r.allocs, by rw [← hslurped]⟩
  | none =>
    apply ends_ite
    · intro h0
      have hempty : src.file = [] := List.length_eq_zero_iff.mp (hlen.symm.trans h0)
      rw [set_bind]
      exact ⟨by rw [hempty]; rfl, r.preads, r.allocs, rfl⟩
    intro _
    rw [set_bind]
    apply ends_ite
    · intro hmemory
      have hpow : 2 ^ k ≤ 2 ^ 31 := Nat.pow_le_pow_right (by decide) hk
      have hup := roundUp_bounds (show k ≤ 64 by omega)
        (show src.file.length + 2 ^ k - 1 < 2 ^ 64 by omega)
      rw [← halign, ← hlen] at hup
      generalize hsz : roundUp 64 r.fileSize r.alignment = allocSize at *
      have hfill := preadFull_ends hfin allocSize 0 fuel 0 ⟨r.preads, List.replicate allocSize 0⟩
        (Nat.zero_le _) (by simp) rfl (by dsimp only; omega)
      rw [← hlen] at hfill
      have hbuffer : Ends (fillBuffer (preadFull src r.fileSize allocSize 0 fuel 0)
          (List.replicate allocSize 0) { r with slurp := none, allocs := r.allocs + 1 })
          (fun buf r' => buf.take src.file.length = src.file ∧
            ∃ preads allocs, r' = { r with slurp := none, preads := preads, allocs := allocs })
          (fun e r' => ((e = .code .io ∧ PreadFailed src r.preads r'.preads) ∨
              e = .code .outOfMemory ∧ src.memory r.allocs = false) ∧
            ∃ preads allocs, r' = { r with slurp := none, preads := preads, allocs := allocs }) := by
        unfold fillBuffer
        dsimp only
        cases hrun : preadFull src r.fileSize allocSize 0 fuel 0 ⟨r.preads, List.replicate allocSize 0⟩ with
        | ok a st =>
          obtain ⟨-, -, htake⟩ := hfill.of_ok hrun
          refine ⟨?_, st.preads, r.allocs + 1, rfl⟩
          have hle : src.file.length ≤ allocSize := by rw [← hlen]; exact hup.1
          have hwhole : st.buf.take src.file.length = (st.buf.take allocSize).take src.file.length := by
            rw [List.take_take, min_eq_left hle]
          have hfront := @window_padded _ (0 : UInt8) src.file 0 allocSize src.file.length 0 (by omega)
          rw [window, List.drop_zero] at hfront
          rw [hwhole, htake, hfront, padded_eq_window (by omega), window_all]
        | error e st =>
          obtain ⟨he, -, -, hfail⟩ := hfill.of_error hrun
          exact ⟨.inl ⟨he, hfail⟩, st.preads, r.allocs + 1, rfl⟩
      apply hbuffer.bind
      rintro buf r₁ ⟨hbuf, preads, allocs, rfl⟩
      rw [modify_bind]
      exact ⟨hbuf, preads, allocs, rfl⟩
    · intro hmemory
      exact ⟨.inr ⟨rfl, Bool.eq_false_iff.mpr hmemory⟩, r.preads, r.allocs + 1, rfl⟩

theorem directData_ends (h : ReaderInv src r) (hsize : src.file.length < 2 ^ 63)
    (hfin : ∀ n, N ≤ n → src.answers n ≠ .interrupted)
    (hfuel : 2 * src.file.length + 2 ^ 21 + N + 1 < fuel) :
    Ends (directData src fuel r)
      (fun buf r' => buf.take src.file.length = src.file ∧ ReaderInv src r')
      (fun e r' => ((e = .code .io ∧ PreadFailed src r.preads r'.preads) ∨
        e = .code .outOfMemory ∧ src.memory r.allocs = false) ∧ ReaderInv src r') := by
  obtain ⟨k, hk, halign⟩ := h.alignment_eq
  have hpow : 2 ^ k ≤ 2 ^ 20 := Nat.pow_le_pow_right (by decide) hk
  apply (directData_makes h.fileSize_eq (by omega) halign h.slurp_holds hsize hfin (by omega)).mono
  · rintro buf r' ⟨hbuf, preads, allocs, rfl⟩
    refine ⟨hbuf, { h with slurp_holds := ?_ }⟩
    rintro buf' hbuf'
    cases hbuf'
    exact hbuf
  · rintro e r' ⟨hfail, preads, allocs, rfl⟩
    exact ⟨hfail, { h with }⟩

theorem exists_checkedAlignment {sector m : ℕ} (hm : 12 ≤ m) (hsector : sector ≤ 2 ^ m) :
    ∃ k ≤ m, checkedAlignment sector = 2 ^ k := by
  unfold checkedAlignment
  split_ifs with hbad
  · exact ⟨12, hm, rfl⟩
  · rw [not_or, not_not] at hbad
    obtain ⟨k, hk⟩ := (Nat.and_sub_one_eq_zero_iff_isPowerOfTwo hbad.1).mp hbad.2
    refine ⟨k, ?_, hk⟩
    rw [hk] at hsector
    exact (Nat.pow_le_pow_iff_right (by decide)).mp hsector

theorem readerInv_openDirect (src : Source) {sector : ℕ} (hsector : sector ≤ 2 ^ 20) {scratch : Bytes}
    (hscratch : scratch.length = scratchSizeFor (checkedAlignment sector)) :
    ReaderInv src (openDirect src sector scratch) := by
  have halign := exists_checkedAlignment (show 12 ≤ 20 by decide) hsector
  have hsize : scratchSizeFor (checkedAlignment sector) = 2 ^ 20 := by
    obtain ⟨k, hk, heq⟩ := halign
    have hpow : 2 ^ k ≤ 2 ^ 20 := Nat.pow_le_pow_right (by decide) hk
    have hup := roundUp_bounds (show k ≤ 64 by omega) (show 2 ^ 20 + 2 ^ k - 1 < 2 ^ 64 by omega)
    have hdvd := Nat.dvd_sub (dvd_roundUp (x := 2 ^ 20) (show k ≤ 64 by omega)) (Nat.pow_dvd_pow 2 hk)
    have hzero := Nat.eq_zero_of_dvd_of_lt hdvd (by omega)
    have hcut : ¬ dioScratchSize < 2 ^ k := not_lt.mpr hpow
    rw [scratchSizeFor, heq, if_neg hcut]
    change roundUp 64 (2 ^ 20) (2 ^ k) = 2 ^ 20
    omega
  exact {
    fileSize_eq := rfl
    alignment_eq := halign
    scratchSize_eq := hsize
    scratch_length := hscratch
    valid_le := Nat.zero_le _
    scratch_holds := rfl
    slurp_holds := nofun }

theorem readerAfter_inv (h : ReaderInv src r) (hsize : src.file.length ≤ 2 ^ 63 - 2 ^ 21)
    (hfin : ∀ n, N ≤ n → src.answers n ≠ .interrupted)
    (hfuel : 2 * src.file.length + 2 ^ 21 + N + 1 < fuel) (calls : List ReaderCall) :
    ReaderInv src (readerAfter src fuel calls r) := by
  induction calls generalizing r with
  | nil => exact h
  | cons call calls ih =>
    have hcall : Ends (call.run src fuel r) (fun _ r' => ReaderInv src r') (fun _ r' => ReaderInv src r') := by
      cases call with
      | readAt offset len =>
        exact (directReadAt_ends h hsize hfin hfuel offset len).mono (fun _ _ h => h.2) fun _ _ h => h.2
      | data => exact (directData_ends h (by omega) hfin hfuel).mono (fun _ _ h => h.2) fun _ _ h => h.2
    rw [readerAfter, List.foldl_cons]
    cases hrun : call.run src fuel r with
    | ok a r' => exact ih (hcall.of_ok hrun)
    | error e r' => exact ih (hcall.of_error hrun)

end Refinement

/-- With finitely many interruptions, every call on a direct reader returns what the mapping
returns, unless a `pread` of it has failed; the valid part of the read-ahead holds the bytes of
the file, also after failures; and the buffer of the whole source is the file. -/
theorem directReader_refines (src : Source) (hsize : src.file.length ≤ 2 ^ 63 - 2 ^ 21)
    (hfin : ∃ N, ∀ n, N ≤ n → src.answers n ≠ .interrupted) {sector : ℕ} (hsector : sector ≤ 2 ^ 20)
    {scratch : Bytes} (hscratch : scratch.length = scratchSizeFor (checkedAlignment sector)) :
    ∃ bound, ∀ fuel, bound ≤ fuel → ∀ calls, ∀ r,
      r = readerAfter src fuel calls (openDirect src sector scratch) →
        (0 < r.scratchValid →
          r.scratch.take r.scratchValid = padded 0 src.file r.scratchOff r.scratchValid) ∧
        (∀ offset len,
          Ends (directReadAt src fuel offset len r)
            (fun bytes _ => mmapReadAt src.file offset len = .ok bytes)
            (fun e r' => (e = .code .io ∧ PreadFailed src r.preads r'.preads) ∨
              ∃ e', e = .code e' ∧ mmapReadAt src.file offset len = .error e') ∧
          mmapReadAt src.file offset len =
            if 0 < len ∧ src.file.length < offset + len then .error .truncated
            else .ok (window src.file offset len)) ∧
        Ends (directData src fuel r)
          (fun buf _ => buf.take src.file.length = src.file)
          (fun e r' => (e = .code .io ∧ PreadFailed src r.preads r'.preads) ∨
            e = .code .outOfMemory ∧ src.memory r.allocs = false) := by
  obtain ⟨N, hfin⟩ := hfin
  refine ⟨2 * src.file.length + 2 ^ 21 + N + 2, ?_⟩
  rintro fuel hfuel calls r rfl
  have hinv := readerAfter_inv (readerInv_openDirect src hsector hscratch) hsize hfin hfuel calls
  refine ⟨fun _ => hinv.scratch_holds, ?_, ?_⟩
  · intro offset len
    refine ⟨?_, mmapReadAt_eq _ _ _⟩
    exact (directReadAt_ends hinv hsize hfin hfuel offset len).mono (fun _ _ h => h.1) fun _ _ h => h.1
  · exact (directData_ends hinv (by omega) hfin hfuel).mono (fun _ _ h => h.1) fun _ _ h => h.1

/-- Three bytes, read one at a time after an interruption. -/
def sampleSource : Source :=
  ⟨[1, 2, 3], fun n => if n = 0 then .interrupted else .upTo 1, fun _ => true⟩

theorem directReader_refines_sample :
    ∃ bound, ∀ fuel, bound ≤ fuel → ∀ calls, ∀ r,
      r = readerAfter sampleSource fuel calls
          (openDirect sampleSource 512 (List.replicate (2 ^ 20) 0)) →
        (0 < r.scratchValid →
          r.scratch.take r.scratchValid = padded 0 sampleSource.file r.scratchOff r.scratchValid) ∧
        (∀ offset len,
          Ends (directReadAt sampleSource fuel offset len r)
            (fun bytes _ => mmapReadAt sampleSource.file offset len = .ok bytes)
            (fun e r' => (e = .code .io ∧ PreadFailed sampleSource r.preads r'.preads) ∨
              ∃ e', e = .code e' ∧ mmapReadAt sampleSource.file offset len = .error e') ∧
          mmapReadAt sampleSource.file offset len =
            if 0 < len ∧ sampleSource.file.length < offset + len then .error .truncated
            else .ok (window sampleSource.file offset len)) ∧
        Ends (directData sampleSource fuel r)
          (fun buf _ => buf.take sampleSource.file.length = sampleSource.file)
          (fun e r' => (e = .code .io ∧ PreadFailed sampleSource r.preads r'.preads) ∨
            e = .code .outOfMemory ∧ sampleSource.memory r.allocs = false) := by
  have hfin : ∃ N, ∀ n, N ≤ n → sampleSource.answers n ≠ .interrupted := by
    refine ⟨1, ?_⟩
    intro n hn
    have hupTo : sampleSource.answers n = .upTo 1 := if_neg (by omega)
    rw [hupTo]
    exact nofun
  have hscratch : (List.replicate (2 ^ 20) (0 : UInt8)).length = scratchSizeFor (checkedAlignment 512) := by
    rw [List.length_replicate]
    decide
  exact directReader_refines sampleSource (by decide) hfin (by decide) hscratch

end Fsdiff.Io
