import Fsdiff.Encoding.OperationEncoder
import Fsdiff.Format.Operation

/-! The bytes that each branch of the encoder emits, as operations of the format
with their widths. Nothing is assumed about the tracker here. -/
namespace Fsdiff.Encoder
open ByteString Exec Format

def Env.Faulty (env : Env) : Prop := (∃ n, env.malloc n = false) ∨ ∃ n, env.writeFault n ≠ none

/-- What the three writers accepted between `s` and `s'`. -/
structure Emits (s s' : Streams) (op diff lit : Bytes) : Prop where
  op_eq : s'.op = s.op ++ op
  diff_eq : s'.diff = s.diff ++ diff
  lit_eq : s'.lit = s.lit ++ lit

theorem Emits.refl (s : Streams) : Emits s s [] [] [] := by
  constructor <;> simp

theorem Emits.trans {s s₁ s₂ : Streams} {op op' diff diff' lit lit' : Bytes}
    (h : Emits s s₁ op diff lit) (h' : Emits s₁ s₂ op' diff' lit') :
    Emits s s₂ (op ++ op') (diff ++ diff') (lit ++ lit') := by
  constructor
  · rw [h'.op_eq, h.op_eq, List.append_assoc]
  · rw [h'.diff_eq, h.diff_eq, List.append_assoc]
  · rw [h'.lit_eq, h.lit_eq, List.append_assoc]

section Writers
variable {env : Env} {s : Streams}

theorem write_ends (w : Writer) (data : Bytes) :
    Ends (write env w data s) (fun _ s' => s' = { s.append data w with writes := s.writes + 1 })
      (fun _ _ => env.Faulty) := by
  unfold write
  apply Ends.bind (x := get) (Q := fun o s' => s = o ∧ s = s') ⟨rfl, rfl⟩
  intro _ _ hpost
  obtain ⟨rfl, rfl⟩ := hpost
  apply Ends.bind (Q := fun _ (s' : Streams) => s' = { s with writes := s.writes + 1 })
  · exact ends_ok.mpr rfl
  rintro _ _ rfl
  cases hf : env.writeFault s.writes with
  | some e => exact .inr ⟨s.writes, by simp [hf]⟩
  | none =>
    cases w <;> rfl

/-- `x` puts exactly `bytes` on the operation stream. -/
def EmitsOp (env : Env) (bytes : Bytes) (x : EncM Unit) : Prop :=
  ∀ s, Ends (x s) (fun _ s' => Emits s s' bytes [] []) (fun _ _ => env.Faulty)

theorem write_op_emits (data : Bytes) : EmitsOp env data (write env .op data) := by
  intro s
  apply (write_ends .op data).imp
  rintro _ s' rfl
  constructor <;> simp [Streams.append]

theorem write_diff_emits (data : Bytes) :
    Ends (write env .diff data s) (fun _ s' => Emits s s' [] data []) (fun _ _ => env.Faulty) := by
  apply (write_ends .diff data).imp
  rintro _ s' rfl
  constructor <;> simp [Streams.append]

theorem write_lit_emits (data : Bytes) :
    Ends (write env .lit data s) (fun _ s' => Emits s s' [] [] data) (fun _ _ => env.Faulty) := by
  apply (write_ends .lit data).imp
  rintro _ s' rfl
  constructor <;> simp [Streams.append]

theorem allocate_emits :
    Ends (allocate env s) (fun _ s' => Emits s s' [] [] []) (fun _ _ => env.Faulty) := by
  change Ends ((if env.malloc s.mallocs then pure () else throw .outOfMemory : EncM Unit)
    { s with mallocs := s.mallocs + 1 }) _ _
  refine ends_ite (fun _ => ?_) fun h => .inl ⟨s.mallocs, by simpa using h⟩
  constructor <;> simp

theorem EmitsOp.seq {bytes bytes' : Bytes} {x y : EncM Unit} (hx : EmitsOp env bytes x)
    (hy : EmitsOp env bytes' y) : EmitsOp env (bytes ++ bytes') (do x; y) := by
  intro s
  refine (hx s).bind fun _ s₁ h₁ => ?_
  exact (hy s₁).mono (fun _ s₂ h₂ => h₁.trans h₂) (fun _ _ h => h)

theorem EmitsOp.of_eq {bytes bytes' : Bytes} {x : EncM Unit} (h : EmitsOp env bytes x)
    (he : bytes = bytes') : EmitsOp env bytes' x := he ▸ h

theorem writeByte_emits (b : ℕ) : EmitsOp env [UInt8.ofNat b] (writeByte env .op b) :=
  write_op_emits _

theorem writeU16Le_emits (v : ℕ) : EmitsOp env (leBytes 2 v) (writeU16Le env .op v) :=
  (write_op_emits _).of_eq (leBytes_mod 2 v)

theorem writeU32Le_emits (v : ℕ) : EmitsOp env (leBytes 4 v) (writeU32Le env .op v) :=
  (write_op_emits _).of_eq (leBytes_mod 4 v)

end Writers

/-! ### Counts -/

/-- The count encoding that `encode_count` picks. -/
def plainCountEnc (n : ℕ) : CountEnc :=
  if n ≤ 8 then .inline else if n ≤ 256 then .one else if n ≤ 65536 then .two else .four

/-- The count encoding of the operations that have no inline form. -/
def wideCountEnc (n : ℕ) : CountEnc :=
  if n ≤ 256 then .one else if n ≤ 65536 then .two else .four

theorem or_fields {t c f : ℕ} (hc : c < 4) (hf : f < 8) :
    t <<< 5 ||| c <<< 3 ||| f = t * 32 + c * 8 + f := by
  have hcf : c <<< 3 < 2 ^ 5 := by
    rw [Nat.shiftLeft_eq]
    omega
  rw [← Nat.shiftLeft_add_eq_or_of_lt hcf,
    show t <<< 5 + c <<< 3 = (t * 4 + c) <<< 3 by simp only [Nat.shiftLeft_eq]; ring,
    ← Nat.shiftLeft_add_eq_or_of_lt (show f < 2 ^ 3 from hf)]
  simp only [Nat.shiftLeft_eq]
  ring

theorem or_flags {t c o b : ℕ} (hc : c < 4) (ho : o < 4) (hb : b < 2) :
    t <<< 5 ||| c <<< 3 ||| o <<< 1 ||| b = t * 32 + c * 8 + (o * 2 + b) := by
  have hob : o <<< 1 ||| b = o * 2 + b := by
    rw [← Nat.shiftLeft_add_eq_or_of_lt (show b < 2 ^ 1 from hb), Nat.shiftLeft_eq, pow_one]
  rw [Nat.or_assoc, hob, or_fields hc (by omega)]

/-- The bytes of an operation that is only a count. -/
def plainBytes (t n : ℕ) : Bytes :=
  UInt8.ofNat (t * 32 + (plainCountEnc n).code * 8 + if plainCountEnc n = .inline then n - 1 else 0) ::
    (plainCountEnc n).bytes n

section Counts
variable {env : Env}

private theorem firstByte_zero {t c : ℕ} (hc : c < 4) : t <<< 5 ||| c <<< 3 = t * 32 + c * 8 + 0 := by
  rw [← or_fields hc (by decide), Nat.or_zero]

theorem encodeCount_emits (t : ℕ) {n : ℕ} (hn : 1 ≤ n) :
    EmitsOp env (plainBytes t n) (encodeCount env (t <<< 5) n) := by
  unfold encodeCount plainBytes
  by_cases h8 : n ≤ 8
  · have he : plainCountEnc n = .inline := if_pos h8
    have hlow : (n - 1) &&& 0x7 = n - 1 := by
      change (n - 1) &&& (2 ^ 3 - 1) = _
      rw [Nat.and_two_pow_sub_one_eq_mod]
      omega
    rw [if_pos h8, he, or_fields (by decide) (by omega), hlow]
    exact writeByte_emits _
  rw [if_neg h8]
  by_cases h256 : n ≤ 256
  · have he : plainCountEnc n = .one := by rw [plainCountEnc, if_neg h8, if_pos h256]
    rw [if_pos h256, he, firstByte_zero (by decide)]
    exact (writeByte_emits _).seq (writeByte_emits _)
  rw [if_neg h256]
  by_cases h65536 : n ≤ 65536
  · have he : plainCountEnc n = .two := by
      rw [plainCountEnc, if_neg h8, if_neg h256, if_pos h65536]
    rw [if_pos h65536, he, firstByte_zero (by decide)]
    exact (writeByte_emits _).seq (writeU16Le_emits _)
  · have he : plainCountEnc n = .four := by
      rw [plainCountEnc, if_neg h8, if_neg h256, if_neg h65536]
    rw [if_neg h65536, he, firstByte_zero (by decide)]
    exact (writeByte_emits _).seq (writeU32Le_emits _)

theorem countEncFor_eq (n : ℕ) : countEncFor n = (wideCountEnc n).code := by
  unfold countEncFor wideCountEnc
  split_ifs <;> rfl

theorem wideCountEnc_ne (n : ℕ) : wideCountEnc n ≠ .inline := by
  unfold wideCountEnc
  split_ifs <;> decide

theorem writeCount_emits (n : ℕ) : EmitsOp env ((wideCountEnc n).bytes n) (writeCount env n) := by
  have hne := wideCountEnc_ne n
  rw [writeCount, countEncFor_eq]
  cases he : wideCountEnc n with
  | one => exact writeByte_emits _
  | two => exact writeU16Le_emits _
  | four => exact writeU32Le_emits _
  | inline => exact absurd he hne

end Counts

/-! ### Operations -/

def relocateEnc (distance : ℕ) : OffsetEnc :=
  if distance ≤ 0xFF then .short else if distance ≤ 0xFFFF then .middle else .long

def byteEnc (byteOffset : ℤ) : OffsetEnc :=
  if byteOffset.natAbs ≤ 0x7FFF then .short
  else if byteOffset.natAbs ≤ 0x7FFFFF then .middle
  else .long

/-- The bytes of a `COPY_ADD` whose diff data take `k` bytes in format `fmt`. -/
def copyAddBytes (n : ℕ) (byteOffset : ℤ) (fmt k : ℕ) : Bytes :=
  let w := (byteEnc byteOffset).byteOffsetWidth
  UInt8.ofNat (opCopyAdd * 32 + (wideCountEnc n).code * 8 + ((byteEnc byteOffset).code * 2 + fmt)) ::
    (leBytes w (twosComplement w byteOffset) ++ (wideCountEnc n).bytes n ++ leBytes 4 k)

/-- What one operation puts on the three streams. -/
structure Emission where
  op : Bytes
  diff : Bytes := []
  lit : Bytes := []

def literalEmission (bs : ℕ) (dest : Bytes) (i n : ℕ) : Emission :=
  { op := plainBytes opLiteral n, lit := window dest (u64 (i * bs)) (u64 (n * bs)) }

/-- Dense or sparse, by the number of non-zero bytes. -/
def prefersSparse (bs n : ℕ) (deltas : List (Option Bytes)) : Bool :=
  (deltas.map (nonzeroCount bs)).sum < n * sparseThresholdPerBlock

def partialEmission (bs : ℕ) (dest : Bytes) (i : ℕ) (state : BlockState) (n : ℕ)
    (deltas : List (Option Bytes)) : Emission :=
  let byteOffset := byteDistance bs i state
  if byteOffset < -2 ^ 31 ∨ 2 ^ 31 - 1 < byteOffset then literalEmission bs dest i n
  else
    let sparse := prefersSparse bs n deltas
    let diff := diffData bs sparse deltas
    { op := copyAddBytes n byteOffset sparse.toNat diff.length, diff := diff }

def relocateEmission (bs : ℕ) (dest : Bytes) (i : ℕ) (state : BlockState) (n : ℕ) : Emission :=
  let offset := relocateDistance i state
  if 0xFFFFFFFF < offset.natAbs then literalEmission bs dest i n
  else { op := (Op.copyRelocate n (offset < 0) offset.natAbs).bytes
          ⟨wideCountEnc n, relocateEnc offset.natAbs⟩ }

section Operations
variable {env : Env} {bs i n : ℕ} {dest : Bytes} {state : BlockState} {s : Streams}

/-- Emission of all three streams. -/
def EmitsAll (env : Env) (e : Emission) (x : EncM Unit) (Failure : Prop) : Prop :=
  ∀ s, Ends (x s) (fun _ s' => Emits s s' e.op e.diff e.lit) (fun _ _ => env.Faulty ∨ Failure)

theorem EmitsAll.or_failure {e : Emission} {x : EncM Unit} {Failure : Prop}
    (h : EmitsAll env e x False) : EmitsAll env e x Failure :=
  fun s => (h s).weaken (fun _ _ h => h.imp_right False.elim)

theorem EmitsOp.all {bytes : Bytes} {x : EncM Unit} (h : EmitsOp env bytes x) :
    EmitsAll env { op := bytes } x False :=
  fun s => (h s).weaken (fun _ _ h => .inl h)

theorem emitLiteralRun_emits (hn : 1 ≤ n) :
    EmitsAll env (literalEmission bs dest i n) (emitLiteralRun env bs dest i n) False := by
  intro s
  apply ((encodeCount_emits opLiteral hn s).weaken (fun _ _ h => .inl h)).bind
  intro _ s₁ h₁
  refine (write_lit_emits _).mono (fun _ s₂ h₂ => ?_) (fun _ _ h => .inl h)
  simpa [literalEmission] using h₁.trans h₂

theorem relocateOffsetEnc_eq (d : ℕ) : relocateOffsetEnc d = (relocateEnc d).code := by
  unfold relocateOffsetEnc relocateEnc
  split_ifs <;> rfl

theorem byteOffsetEnc_eq (x : ℤ) : byteOffsetEnc x = (byteEnc x).code := by
  unfold byteOffsetEnc byteEnc
  split_ifs <;> rfl

private theorem code_lt (n : ℕ) : (wideCountEnc n).code < 4 := by
  cases wideCountEnc n <;> decide

private theorem offsetCode_lt (e : OffsetEnc) : e.code < 4 := by
  cases e <;> decide

theorem writeRelocateOffset_emits (d : ℕ) :
    EmitsOp env (leBytes (relocateEnc d).relocateWidth d) (writeRelocateOffset env d) := by
  rw [writeRelocateOffset, relocateOffsetEnc_eq]
  cases relocateEnc d with
  | short => exact writeByte_emits _
  | middle => exact writeU16Le_emits _
  | long => exact writeU32Le_emits _

theorem encodeRelocate_emits (hn : 1 ≤ n) :
    EmitsAll env (relocateEmission bs dest i state n) (encodeRelocate env bs dest i state n)
      False := by
  simp only [encodeRelocate, relocateEmission]
  generalize relocateDistance i state = offset
  by_cases hfar : 0xFFFFFFFF < offset.natAbs
  · rw [if_pos hfar, if_pos hfar]
    exact emitLiteralRun_emits hn
  rw [if_neg hfar, if_neg hfar]
  have hsign : (if offset < 0 then 1 else 0) = (decide (offset < 0)).toNat := by
    split_ifs with h <;> simp [h]
  rw [hsign, countEncFor_eq, relocateOffsetEnc_eq,
    or_flags (code_lt n) (offsetCode_lt _) (Bool.toNat_lt _)]
  exact ((writeByte_emits _).seq ((writeCount_emits n).seq (writeRelocateOffset_emits _))).all

theorem ofNat_and_0xFF (v : ℕ) : UInt8.ofNat (v &&& 0xFF) = UInt8.ofNat v := by
  apply UInt8.toNat_inj.mp
  change (UInt8.ofNat (v &&& (2 ^ 8 - 1))).toNat = _
  rw [Nat.and_two_pow_sub_one_eq_mod, UInt8.toNat_ofNat', UInt8.toNat_ofNat', Nat.mod_mod]

theorem leBytes_emod (w : ℕ) {k : ℕ} (h : w ≤ k) (x : ℤ) :
    leBytes w (x % 256 ^ k).toNat = leBytes w (twosComplement w x) := by
  have hpos : (0 : ℤ) < 256 ^ k := by positivity
  have hmod : (x % 256 ^ k).toNat % 256 ^ w = twosComplement w x := by
    apply Int.ofNat_inj.mp
    rw [twosComplement, Int.natCast_mod, Int.toNat_of_nonneg (Int.emod_nonneg _ hpos.ne'),
      Int.toNat_of_nonneg (Int.emod_nonneg _ (by positivity)), Nat.cast_pow, Nat.cast_ofNat,
      Int.emod_emod_of_dvd _ (pow_dvd_pow 256 h)]
  rw [← hmod, leBytes_mod]

theorem writeByteOffset_emits (x : ℤ) :
    EmitsOp env (leBytes (byteEnc x).byteOffsetWidth (twosComplement (byteEnc x).byteOffsetWidth x))
      (writeByteOffset env x) := by
  rw [writeByteOffset, byteOffsetEnc_eq]
  cases byteEnc x with
  | short => exact (writeU16Le_emits _).of_eq (leBytes_emod 2 (k := 2) le_rfl x)
  | middle =>
    refine ((writeByte_emits _).seq ((writeByte_emits _).seq (writeByte_emits _))).of_eq ?_
    refine Eq.trans ?_ (leBytes_emod 3 (k := 4) (by decide) x)
    simp only [ofNat_and_0xFF, Nat.shiftRight_eq_div_pow, leBytes, Nat.div_div_eq_div_mul]
    rfl
  | long => exact (writeU32Le_emits _).of_eq (leBytes_emod 4 (k := 4) le_rfl x)

/-- The only failures that are not those of a writer or of `malloc`: a buffer size
past `SIZE_MAX`, or diff data past the length field. -/
def DiffTooLarge (bs n : ℕ) (deltas : List (Option Bytes)) : Prop :=
  (2 ^ 64 - 1) / bs / 2 < n ∨ uint32Max < (diffData bs (prefersSparse bs n deltas) deltas).length

theorem encodePartial_emits (hn : 1 ≤ n) (deltas : List (Option Bytes)) :
    EmitsAll env (partialEmission bs dest i state n deltas)
      (encodePartial env bs dest i state n deltas) (DiffTooLarge bs n deltas) := by
  simp only [encodePartial, partialEmission]
  generalize byteDistance bs i state = byteOffset
  by_cases hfar : byteOffset < -2 ^ 31 ∨ 2 ^ 31 - 1 < byteOffset
  · rw [if_pos hfar, if_pos hfar]
    exact (emitLiteralRun_emits hn).or_failure
  rw [if_neg hfar, if_neg hfar]
  have hsparse : decide ((deltas.map (nonzeroCount bs)).sum < n * sparseThresholdPerBlock) =
      prefersSparse bs n deltas := rfl
  rw [hsparse]
  have hlarge : uint32Max < (diffData bs (prefersSparse bs n deltas) deltas).length →
      DiffTooLarge bs n deltas := .inr
  generalize diffData bs (prefersSparse bs n deltas) deltas = diff at hlarge ⊢
  rw [countEncFor_eq, byteOffsetEnc_eq, or_flags (code_lt n) (offsetCode_lt _) (Bool.toNat_lt _)]
  intro s
  refine ends_ite (fun h => .inr (.inl h)) fun _ => ?_
  apply (allocate_emits.weaken (fun _ _ h => .inl h)).bind
  intro _ s₁ h₁
  apply ((writeByte_emits _ s₁).weaken (fun _ _ h => .inl h)).bind
  intro _ s₂ h₂
  apply ((writeByteOffset_emits _ s₂).weaken (fun _ _ h => .inl h)).bind
  intro _ s₃ h₃
  apply ((writeCount_emits n s₃).weaken (fun _ _ h => .inl h)).bind
  intro _ s₄ h₄
  refine ends_ite (fun h => .inr (hlarge h)) fun _ => ?_
  apply ((writeU32Le_emits _ s₄).weaken (fun _ _ h => .inl h)).bind
  intro _ s₅ h₅
  refine (write_diff_emits _).mono (fun _ s₆ h₆ => ?_) (fun _ _ h => .inl h)
  simpa [copyAddBytes] using ((((h₁.trans h₂).trans h₃).trans h₄).trans h₅).trans h₆

/-- What the run that starts at block `i` puts on the streams. -/
def emission (bs : ℕ) (blocks : List BlockState) (dest : Bytes) (i : ℕ) (state : BlockState)
    (n : ℕ) : Emission :=
  match state.matchType with
  | .identity => { op := plainBytes opCopyIdentity n }
  | .relocate => relocateEmission bs dest i state n
  | .zero => { op := plainBytes opZero n }
  | .one => { op := plainBytes opOne n }
  | .partialMatch =>
    partialEmission bs dest i state n (((blocks.drop i).take n).map BlockState.delta)
  | .none => literalEmission bs dest i n

/-- A partial run whose diff data do not fit. -/
def RunTooLarge (bs : ℕ) (blocks : List BlockState) (i : ℕ) (state : BlockState) (n : ℕ) : Prop :=
  state.matchType = .partialMatch ∧
    DiffTooLarge bs n (((blocks.drop i).take n).map BlockState.delta)

theorem encodeOperation_emits (hn : 1 ≤ n) (blocks : List BlockState) :
    EmitsAll env (emission bs blocks dest i state n) (encodeOperation env bs blocks dest i state n)
      (RunTooLarge bs blocks i state n) := by
  intro s
  unfold emission encodeOperation RunTooLarge
  cases state.matchType with
  | identity | zero | one => exact (encodeCount_emits _ hn).all.or_failure s
  | none => exact (emitLiteralRun_emits hn).or_failure s
  | relocate => exact (encodeRelocate_emits hn).or_failure s
  | partialMatch =>
    exact (encodePartial_emits hn _ s).weaken (fun _ _ h => h.imp_right fun h => ⟨rfl, h⟩)

theorem one_le_extendRun (blocks : List BlockState) (i : ℕ) (joins : ℕ → BlockState → Bool)
    (fuel run : ℕ) : run ≤ extendRun blocks i joins fuel run := by
  induction fuel generalizing run with
  | zero => exact le_rfl
  | succ fuel ih =>
    rw [extendRun]
    split
    · exact le_rfl
    · split_ifs
      · exact (Nat.le_succ run).trans (ih (run + 1))
      · exact le_rfl

theorem one_le_runCount (bs : ℕ) (blocks : List BlockState) (i : ℕ) (state : BlockState) :
    1 ≤ runCount bs blocks i state := one_le_extendRun _ _ _ _ _

theorem encodeRun_emits (env : Env) (bs : ℕ) (blocks : List BlockState) (dest : Bytes) (i : ℕ)
    (state : BlockState) :
    Ends (encodeRun env bs blocks dest i state s)
      (fun n s' => n = runCount bs blocks i state ∧
        let e := emission bs blocks dest i state n
        Emits s s' e.op e.diff e.lit)
      (fun _ _ => env.Faulty ∨ RunTooLarge bs blocks i state (runCount bs blocks i state)) := by
  apply (encodeOperation_emits (one_le_runCount bs blocks i state) blocks s).bind
  intro _ s' h
  exact ⟨rfl, h⟩

end Operations

/-! ### Errors -/

/-- The encoder may fail with `e`: it is out of memory, or a writer fails so. -/
def Env.Raises (env : Env) (e : FsdError) : Prop := e = .outOfMemory ∨ ∃ n, env.writeFault n = some e

section Errors
variable {env : Env} {bs i : ℕ} {dest : Bytes}

theorem write_stops (w : Writer) (data : Bytes) : Stops env.Raises (write env w data) := by
  apply stops_get.bind
  intro s
  apply (stops_modify _).bind
  intro _
  cases hf : env.writeFault s.writes with
  | some e => exact stops_throw (.inr ⟨s.writes, hf⟩)
  | none => exact stops_modify _

theorem allocate_stops : Stops env.Raises (allocate env) := by
  apply stops_get.bind
  intro s
  apply (stops_modify _).bind
  intro _
  exact .ite (fun _ => stops_pure _) fun _ => stops_throw (.inl rfl)

theorem encodeCount_stops (opByte n : ℕ) : Stops env.Raises (encodeCount env opByte n) := by
  apply Stops.ite (fun _ => write_stops _ _) fun _ => ?_
  apply Stops.ite (fun _ => (write_stops _ _).bind fun _ => write_stops _ _) fun _ => ?_
  exact .ite (fun _ => (write_stops _ _).bind fun _ => write_stops _ _)
    fun _ => (write_stops _ _).bind fun _ => write_stops _ _

theorem emitLiteralRun_stops (n : ℕ) : Stops env.Raises (emitLiteralRun env bs dest i n) :=
  (encodeCount_stops _ n).bind fun _ => write_stops _ _

theorem writeCount_stops (n : ℕ) : Stops env.Raises (writeCount env n) :=
  .ite (fun _ => write_stops _ _) fun _ =>
    .ite (fun _ => write_stops _ _) fun _ => write_stops _ _

theorem encodeRelocate_stops (state : BlockState) (n : ℕ) :
    Stops env.Raises (encodeRelocate env bs dest i state n) := by
  apply Stops.ite (fun _ => emitLiteralRun_stops n) fun _ => ?_
  apply (write_stops _ _).bind
  intro _
  apply (writeCount_stops n).bind
  intro _
  exact .ite (fun _ => write_stops _ _) fun _ =>
    .ite (fun _ => write_stops _ _) fun _ => write_stops _ _

theorem writeByteOffset_stops (x : ℤ) : Stops env.Raises (writeByteOffset env x) := by
  apply Stops.ite (fun _ => write_stops _ _) fun _ => ?_
  apply Stops.ite
  · intro _
    apply (write_stops _ _).bind
    intro _
    exact (write_stops _ _).bind fun _ => write_stops _ _
  · exact fun _ => write_stops _ _

theorem encodePartial_stops (state : BlockState) (n : ℕ) (deltas : List (Option Bytes)) :
    Stops env.Raises (encodePartial env bs dest i state n deltas) := by
  apply Stops.ite (fun _ => emitLiteralRun_stops n) fun _ => ?_
  apply Stops.ite (fun _ => stops_throw (.inl rfl)) fun _ => ?_
  apply allocate_stops.bind
  intro _
  apply (write_stops _ _).bind
  intro _
  apply (writeByteOffset_stops _).bind
  intro _
  apply (writeCount_stops n).bind
  intro _
  apply Stops.ite (fun _ => stops_throw (.inl rfl)) fun _ => ?_
  exact (write_stops _ _).bind fun _ => write_stops _ _

theorem encodeOperation_stops (blocks : List BlockState) (state : BlockState) (n : ℕ) :
    Stops env.Raises (encodeOperation env bs blocks dest i state n) := by
  unfold encodeOperation
  cases state.matchType with
  | identity | zero | one => exact encodeCount_stops _ n
  | none => exact emitLiteralRun_stops n
  | relocate => exact encodeRelocate_stops state n
  | partialMatch => exact encodePartial_stops state n _

theorem encodeLoop_stops (blocks : List BlockState) (fuel i : ℕ) :
    Stops env.Raises (encodeLoop env bs blocks dest fuel i) := by
  induction fuel generalizing i with
  | zero => exact stops_pure ()
  | succ fuel ih =>
    unfold encodeLoop
    cases blocks[i]? with
    | none => exact stops_pure ()
    | some state =>
      apply Stops.bind
      · exact (encodeOperation_stops blocks state _).bind fun _ => stops_pure _
      · exact fun n => ih (i + n)

/-- Whatever the tracker holds, the encoder fails only with what fails around it, or because
the data of a run are too many. -/
theorem encode_stops (tracker : Tracker) : Stops env.Raises (encode env bs tracker dest) :=
  encodeLoop_stops _ _ _

end Errors

end Fsdiff.Encoder
