import Fsdiff.Data.Pread
import Fsdiff.Encoding.Codec

/-! `diff_buf`, store by store. The buffer of a partial run is allocated before its data are known,
with two bytes for each byte of the image; here every store into it is checked. -/
namespace Fsdiff.Encoder
open ByteString Exec Format Pread

/-- `diff_buf` and `diff_len`. -/
structure DiffBuf where
  bytes : Bytes
  len : ℕ

/-- A store past the end of the buffer, or a loop that goes on. -/
inductive FillFault where
  | overrun
  | outOfFuel

abbrev FillM := EStateM FillFault DiffBuf

/-- `memcpy(diff_buf + diff_len + ofs, data, ..)`, and `memset` likewise. -/
def storeAt (ofs : ℕ) (data : Bytes) : FillM Unit := do
  let b ← get
  if b.bytes.length < b.len + ofs + data.length then throw .overrun
  else set { b with bytes := overwrite b.bytes (b.len + ofs) data }

/-- `diff_len += n` -/
def advance (n : ℕ) : FillM Unit := modify fun b => { b with len := b.len + n }

/-- The `n` bytes at `delta + start`; behind the end of a short delta they count as zeros, as in
`deltaIsZero`. -/
def deltaSlice (delta : Option Bytes) (start n : ℕ) : Bytes :=
  (List.range' start n).map fun k => (delta.getD []).getD k 0

/-- The stores of one block of the dense format. -/
def denseStores (bs : ℕ) : Option Bytes → FillM Unit
  | some d =>
    if bs ≤ d.length then storeAt 0 (d.take bs)
    else do
      storeAt 0 d
      storeAt d.length (List.replicate (bs - d.length) 0)
  | none => storeAt 0 (List.replicate bs 0)

def denseFill (bs : ℕ) (delta : Option Bytes) : FillM Unit := do
  denseStores bs delta
  advance bs

/-- `encode_varint` into `varint_buf`, and from there into the buffer. -/
def varintFill (value : ℕ) : FillM Unit := do
  storeAt 0 (encodeVarint value)
  advance (encodeVarint value).length

/-- `if (add_len > 0 && delta)`: the bytes of a copy-add run. -/
def addFill (delta : Option Bytes) (addStart addLen : ℕ) : FillM Unit :=
  if 0 < addLen ∧ delta.isSome then do
    storeAt 0 (deltaSlice delta addStart addLen)
    advance addLen
  else pure ()

/-- `while (pos < block_size)`: one block of the sparse format. -/
def sparseFill (bs : ℕ) (delta : Option Bytes) : ℕ → ℕ → FillM Unit
  | 0, pos => if pos < bs then throw .outOfFuel else pure ()
  | fuel + 1, pos =>
    if pos < bs then do
      let addEnd := addRunEnd bs delta bs pos
      varintFill (addEnd - pos)
      addFill delta pos (addEnd - pos)
      if bs ≤ addEnd then pure ()
      else do
        let copyEnd := copyRunEnd bs delta bs addEnd
        varintFill (copyEnd - addEnd)
        sparseFill bs delta fuel copyEnd
    else pure ()

def blockFill (bs : ℕ) (sparse : Bool) (delta : Option Bytes) : FillM Unit :=
  if sparse then sparseFill bs delta bs 0 else denseFill bs delta

/-- `for (j = 0; j < run_count; j++)` in either format. -/
def fillDiffBuf (bs : ℕ) (sparse : Bool) : List (Option Bytes) → FillM Unit
  | [] => pure ()
  | delta :: rest => do
    blockFill bs sparse delta
    fillDiffBuf bs sparse rest

/-! ### Stores in bounds -/

/-- A buffer of `cap` bytes whose first `diff_len` bytes are `content`. -/
structure Holds (cap : ℕ) (content : Bytes) (b : DiffBuf) : Prop where
  cap_eq : b.bytes.length = cap
  len_eq : b.len = content.length
  take_eq : b.bytes.take b.len = content

/-- The code appends `data` to any buffer that has room for it. -/
def Appends (x : FillM Unit) (data : Bytes) : Prop :=
  ∀ cap content b, Holds cap content b → content.length + data.length ≤ cap →
    Ends (x b) (fun _ b' => Holds cap (content ++ data) b') (fun _ _ => False)

theorem appends_nil : Appends (pure ()) [] := by
  intro cap content b h _
  rwa [List.append_nil]

theorem Appends.seq {x y : FillM Unit} {d e : Bytes} (hx : Appends x d) (hy : Appends y e) :
    Appends (do x; y) (d ++ e) := by
  intro cap content b h hroom
  rw [List.length_append] at hroom
  apply (hx cap content b h (by omega)).bind
  intro _ b' h'
  rw [← List.append_assoc]
  exact hy cap (content ++ d) b' h' (by rw [List.length_append]; omega)

theorem storeAt_ends {ofs : ℕ} {data : Bytes} {b : DiffBuf}
    (h : b.len + (ofs + data.length) ≤ b.bytes.length) :
    Ends (storeAt ofs data b)
      (fun _ b' => b'.len = b.len ∧ b'.bytes.length = b.bytes.length ∧
        b'.bytes.take (b.len + (ofs + data.length)) = b.bytes.take (b.len + ofs) ++ data)
      (fun _ _ => False) := by
  rw [← add_assoc] at h ⊢
  exact ends_ite (fun hover => absurd hover (by omega))
    fun _ => ⟨rfl, length_overwrite h, take_overwrite (by omega)⟩

theorem appends_of_stores {x : FillM Unit} {data : Bytes} {n : ℕ} (hn : data.length = n)
    (h : ∀ b : DiffBuf, b.len + n ≤ b.bytes.length →
      Ends (x b) (fun _ b' => b'.len = b.len ∧ b'.bytes.length = b.bytes.length ∧
        b'.bytes.take (b.len + n) = b.bytes.take b.len ++ data) (fun _ _ => False)) :
    Appends (do x; advance n) data := by
  intro cap content b hb hroom
  obtain ⟨hcap, hlen, htake⟩ := hb
  apply (h b (by omega)).bind
  intro _ b' hpost
  obtain ⟨hlen', hcap', htake'⟩ := hpost
  refine ⟨hcap'.trans hcap, ?_, ?_⟩
  · change b'.len + n = (content ++ data).length
    rw [List.length_append]
    omega
  · change b'.bytes.take (b'.len + n) = content ++ data
    rw [hlen', htake', htake]

theorem storeAt_appends {data : Bytes} {n : ℕ} (hn : data.length = n) :
    Appends (do storeAt 0 data; advance n) data := by
  apply appends_of_stores hn
  intro b hroom
  have hstore := storeAt_ends (show b.len + (0 + data.length) ≤ b.bytes.length by omega)
  rwa [zero_add, add_zero, hn] at hstore

theorem varintFill_appends {value : ℕ} (h : value < 2 ^ 64) : Appends (varintFill value) (varint value) := by
  rw [varintFill, encodeVarint_eq h]
  exact storeAt_appends rfl

theorem denseFill_appends (bs : ℕ) (delta : Option Bytes) :
    Appends (denseFill bs delta) (denseData bs delta) := by
  cases delta with
  | none => exact storeAt_appends List.length_replicate
  | some d =>
    have hlen := length_denseData bs (some d)
    rw [denseFill, denseStores]
    split_ifs with hlong
    · rw [denseData, Nat.sub_eq_zero_of_le hlong, List.replicate_zero, List.append_nil] at hlen ⊢
      exact storeAt_appends hlen
    · apply appends_of_stores hlen
      intro b hroom
      apply (storeAt_ends (by omega)).bind
      intro _ b₁ hpost
      obtain ⟨hlen₁, hcap₁, htake₁⟩ := hpost
      have hzeros : d.length + (List.replicate (bs - d.length) (0 : UInt8)).length = bs := by
        rw [List.length_replicate]
        omega
      apply (storeAt_ends (by omega)).imp
      intro _ b₂ hpost
      obtain ⟨hlen₂, hcap₂, htake₂⟩ := hpost
      rw [zero_add, add_zero] at htake₁
      rw [hzeros, hlen₁, htake₁, List.append_assoc] at htake₂
      have hall : d.take bs = d := List.take_of_length_le (by omega)
      refine ⟨hlen₂.trans hlen₁, hcap₂.trans hcap₁, ?_⟩
      rw [htake₂, denseData, hall]

section Sparse
variable {bs : ℕ} {delta : Option Bytes}

theorem length_deltaSlice (delta : Option Bytes) (start n : ℕ) : (deltaSlice delta start n).length = n := by
  simp [deltaSlice]

theorem deltaSlice_eq_window {start n : ℕ} (h : WholeDelta bs delta) (hend : start + n ≤ bs)
    (hn : delta = none → n = 0) : deltaSlice delta start n = window (delta.getD []) start n := by
  cases delta with
  | none =>
    rw [hn rfl]
    rfl
  | some d =>
    have hlen : start + n ≤ d.length := by
      rw [h d rfl]
      exact hend
    apply List.ext_getElem
    · rw [length_deltaSlice, Option.getD_some, length_window hlen]
    · intro k hk _
      rw [length_deltaSlice] at hk
      simp [deltaSlice, window, List.getElem?_eq_getElem (show start + k < d.length by omega)]

theorem addFill_appends (addStart : ℕ) {addLen : ℕ} (hnone : delta = none → addLen = 0) :
    Appends (addFill delta addStart addLen) (deltaSlice delta addStart addLen) := by
  rw [addFill]
  split_ifs with h
  · exact storeAt_appends (length_deltaSlice delta addStart addLen)
  · have hzero : addLen = 0 := by
      cases delta with
      | none => exact hnone rfl
      | some d => simpa using h
    subst hzero
    exact appends_nil

/-- A block in the sparse format takes at most two bytes for each byte of the image. -/
theorem sparseFill_appends (delta : Option Bytes) (hbs : bs < 2 ^ 64) (fuel : ℕ) {pos : ℕ} (hp : pos ≤ bs)
    (hf : bs ≤ pos + fuel) :
    ∃ data, Appends (sparseFill bs delta fuel pos) data ∧ data.length ≤ 2 * (bs - pos) ∧
      (WholeDelta bs delta → data = sparseData bs delta fuel pos) := by
  induction fuel generalizing pos with
  | zero =>
    refine ⟨[], ?_, Nat.zero_le _, fun _ => rfl⟩
    rw [sparseFill, if_neg (by omega)]
    exact appends_nil
  | succ fuel ih =>
    by_cases hlt : pos < bs
    · have hge : pos ≤ addRunEnd bs delta bs pos := le_addRunEnd bs pos
      have hle : addRunEnd bs delta bs pos ≤ bs := addRunEnd_le bs hp
      have hnone : delta = none → addRunEnd bs delta bs pos - pos = 0 := by
        rintro rfl
        rw [addRunEnd_none, Nat.sub_self]
      have hslice := fun h : WholeDelta bs delta =>
        deltaSlice_eq_window h (show pos + (addRunEnd bs delta bs pos - pos) ≤ bs by omega) hnone
      have hvarint := varintFill_appends (show addRunEnd bs delta bs pos - pos < 2 ^ 64 by omega)
      have hadd := addFill_appends pos hnone
      rw [sparseFill, sparseData, if_pos hlt, if_pos hlt]
      dsimp only
      by_cases hfull : bs ≤ addRunEnd bs delta bs pos
      · rw [if_pos hfull, if_pos hfull]
        have hcost := cost_last (show 0 < addRunEnd bs delta bs pos - pos by omega)
        refine ⟨_, hvarint.seq (hadd.seq appends_nil), ?_, ?_⟩
        · rw [List.append_nil, List.length_append, length_deltaSlice]
          omega
        · intro h
          rw [List.append_nil, hslice h, encodeVarint_eq (by omega)]
      · rw [if_neg hfull, if_neg hfull]
        have hz := addRunEnd_isZero bs (by omega) (not_le.mp hfull)
        have hcopy := lt_copyRunEnd (show 0 < bs by omega) (not_le.mp hfull) hz
        have hend : copyRunEnd bs delta bs (addRunEnd bs delta bs pos) ≤ bs := copyRunEnd_le bs hle
        have hcost := cost_pair (addRunEnd bs delta bs pos - pos) (Nat.sub_pos_of_lt hcopy)
        obtain ⟨rest, hrest, hlen, hwhole⟩ := ih hend (by omega)
        have hcopied := varintFill_appends (show copyRunEnd bs delta bs (addRunEnd bs delta bs pos) -
          addRunEnd bs delta bs pos < 2 ^ 64 by omega)
        refine ⟨_, hvarint.seq (hadd.seq (hcopied.seq hrest)), ?_, ?_⟩
        · rw [List.length_append, List.length_append, List.length_append, length_deltaSlice]
          omega
        · intro h
          rw [hslice h, hwhole h, encodeVarint_eq (by omega), encodeVarint_eq (by omega),
            List.append_assoc]
    · refine ⟨[], ?_, Nat.zero_le _, fun _ => ?_⟩
      · rw [sparseFill, if_neg hlt]
        exact appends_nil
      · rw [sparseData, if_neg hlt]

end Sparse

/-! ### The buffer of a run -/

theorem blockFill_appends {bs : ℕ} (hbs : bs < 2 ^ 64) (sparse : Bool) (delta : Option Bytes) :
    ∃ data, Appends (blockFill bs sparse delta) data ∧ data.length ≤ 2 * bs ∧
      (WholeDelta bs delta → data = if sparse then sparseData bs delta bs 0 else denseData bs delta) := by
  cases sparse with
  | true => exact sparseFill_appends delta hbs bs (Nat.zero_le _) (by omega)
  | false =>
    refine ⟨_, denseFill_appends bs delta, ?_, fun _ => rfl⟩
    rw [length_denseData]
    omega

theorem fillDiffBuf_appends {bs : ℕ} (hbs : bs < 2 ^ 64) (sparse : Bool) (deltas : List (Option Bytes)) :
    ∃ data, Appends (fillDiffBuf bs sparse deltas) data ∧ data.length ≤ deltas.length * (2 * bs) ∧
      ((∀ delta ∈ deltas, WholeDelta bs delta) → data = diffData bs sparse deltas) := by
  induction deltas with
  | nil => exact ⟨[], appends_nil, Nat.zero_le _, fun _ => rfl⟩
  | cons delta rest ih =>
    obtain ⟨data, hdata, hlen, hwhole⟩ := ih
    obtain ⟨block, hblock, hle, heq⟩ := blockFill_appends hbs sparse delta
    refine ⟨block ++ data, hblock.seq hdata, ?_, ?_⟩
    · rw [List.length_append, List.length_cons, add_mul, one_mul]
      omega
    · intro h
      rw [heq (h delta List.mem_cons_self), hwhole fun x hx => h x (List.mem_cons_of_mem _ hx)]
      rfl

/-- The buffer of a run of partial blocks, in either format and on whatever `malloc` left in it:
no store leaves it, a sparse block takes at most two bytes for each of its own, and the length fits
its field. -/
theorem diffBuf_fits {bs : ℕ} (hbs : bs ≤ 2 ^ 24) {blocks : List BlockState} {i : ℕ}
    {state : BlockState} (hs : blocks[i]? = some state) (hty : state.matchType = .partialMatch)
    (sparse : Bool) (buf : Bytes) :
    let n := runCount bs blocks i state
    let deltas := ((blocks.drop i).take n).map BlockState.delta
    let maxDiffLen := n * bs * 2
    buf.length = maxDiffLen →
      (∀ delta ∈ deltas, ∃ data, Appends (sparseFill bs delta bs 0) data ∧ data.length ≤ 2 * bs) ∧
      Ends (fillDiffBuf bs sparse deltas ⟨buf, 0⟩)
        (fun _ b => b.bytes.length = maxDiffLen ∧ b.len ≤ maxDiffLen ∧ b.len ≤ uint32Max ∧
          ((∀ delta ∈ deltas, WholeDelta bs delta) → b.bytes.take b.len = diffData bs sparse deltas))
        (fun _ _ => False) ∧
      maxDiffLen ≤ uint32Max ∧ (diffData bs sparse deltas).length ≤ uint32Max := by
  intro n deltas maxDiffLen hbuf
  have h64 : bs < 2 ^ 64 := by omega
  have hlen : deltas.length = n := (isRun_runCount bs hs).length_deltas
  have hcap : n * (2 * bs) ≤ uint32Max :=
    (Nat.mul_le_mul_right _ (runCount_le_maxRun hty)).trans (maxRun_mul_le hbs)
  have hmax : maxDiffLen = n * (2 * bs) := by rw [mul_comm 2, ← mul_assoc]
  obtain ⟨data, hdata, hle, hwhole⟩ := fillDiffBuf_appends h64 sparse deltas
  rw [hlen] at hle
  refine ⟨?_, ?_, by omega, ?_⟩
  · intro delta _
    obtain ⟨block, hblock, hshort, -⟩ := sparseFill_appends delta h64 bs (Nat.zero_le _) (by omega)
    exact ⟨block, hblock, hshort⟩
  · apply (hdata maxDiffLen [] ⟨buf, 0⟩ ⟨hbuf, rfl, rfl⟩ (by rw [List.length_nil]; omega)).imp
    intro _ b hb
    have hblen := hb.len_eq
    rw [List.nil_append] at hblen
    exact ⟨hb.cap_eq, by omega, by omega, fun h => hb.take_eq.trans (hwhole h)⟩
  · have hdiff := length_diffData_le h64 sparse deltas
    rw [hlen] at hdiff
    omega

/-- Two partial blocks of four bytes, the second without a delta. -/
def partialPair : List BlockState :=
  [{ destIndex := 0, matchType := .partialMatch, delta := some [1, 0, 0, 2] },
    { destIndex := 1, srcIndex := 1, matchType := .partialMatch }]

/-- Seven of the sixteen bytes are used. -/
theorem diffBuf_fits_pair :
    runCount 4 partialPair 0 partialPair[0] = 2 ∧
      ∃ b, fillDiffBuf 4 true (partialPair.map BlockState.delta) ⟨List.replicate 16 0xAA, 0⟩ = .ok () b ∧
        b.len ≤ 16 ∧ b.bytes.take b.len = [1, 1, 2, 1, 2, 0, 4] := by
  have hrun : runCount 4 partialPair 0 partialPair[0] = 2 := by decide +kernel
  have hfits := diffBuf_fits (show 4 ≤ 2 ^ 24 by decide)
    (show partialPair[0]? = some partialPair[0] from rfl) rfl true (List.replicate 16 0xAA)
  rw [hrun] at hfits
  obtain ⟨-, hends, -⟩ := hfits rfl
  obtain ⟨_, b, hfill, -, hlen, -, hdata⟩ := hends.exists_ok
  refine ⟨hrun, b, hfill, hlen, (hdata ?_).trans (by decide +kernel)⟩
  intro delta hdelta d hd
  rcases List.mem_pair.mp hdelta with rfl | rfl
  · cases hd
    rfl
  · cases hd

end Fsdiff.Encoder
