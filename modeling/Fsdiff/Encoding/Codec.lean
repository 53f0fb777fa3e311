import Fsdiff.Encoding.DiffData
import Fsdiff.Encoding.RunLength
import Fsdiff.Patch.Refinement

/-! The encoder against the decoder. When the tracker tells the truth about the two
images, the emitted streams spell a script of the format that denotes the
destination, so that the decoder rebuilds it from them. -/
namespace Fsdiff.Encoder
open ByteString Exec Format Patch

/-- Where the source window of a partial match starts. -/
def windowPos (bs : ℕ) (b : BlockState) : ℤ := b.srcIndex * bs + b.byteOffset

/-- What the state of block `i` says about the two images holds. -/
def Truthful (bs : ℕ) (src dest : Bytes) (i : ℕ) (b : BlockState) : Prop :=
  match b.matchType with
  | .none => True
  | .zero => window dest (i * bs) bs = List.replicate bs 0x00
  | .one => window dest (i * bs) bs = List.replicate bs 0xFF
  | .identity => (i + 1) * bs ≤ src.length ∧ window dest (i * bs) bs = window src (i * bs) bs
  | .relocate =>
    (b.srcIndex + 1) * bs ≤ src.length ∧
      window dest (i * bs) bs = window src (b.srcIndex * bs) bs
  | .partialMatch =>
    0 ≤ windowPos bs b ∧ windowPos bs b + bs ≤ src.length ∧ WholeDelta bs b.delta ∧
      window dest (i * bs) bs =
        List.zipWith (· + ·) (window src (windowPos bs b).toNat bs) (deltaBytes bs b.delta)

/-- A truthful tracker of images in the range of the format. -/
structure Codable (bs : ℕ) (src dest : Bytes) (blocks : List BlockState) : Prop where
  bs_ge : 32 ≤ bs
  bs_le : bs ≤ 2 ^ 24
  count_lt : blocks.length < 2 ^ 32
  dest_len : dest.length = blocks.length * bs
  src_lt : src.length < 2 ^ 63
  truthful : ∀ i b, blocks[i]? = some b → Truthful bs src dest i b

/-- `op` in the widths `enc` is what the emission of a run puts on the streams, and it
denotes the `n` blocks of the destination from block `i` on. -/
structure Spells (bs : ℕ) (src dest : Bytes) (i n : ℕ) (em : Emission) (op : Op) (enc : Enc) :
    Prop where
  count_eq : op.count = n
  legal : Legal bs enc op
  op_eq : em.op = op.bytes enc
  diff_eq : em.diff = op.diffBytes
  lit_len : em.lit.length = op.litLen bs
  apply_eq : ∀ more, applyOperation bs src i (em.lit ++ more) op =
    some (window dest (i * bs) (n * bs), more)

/-- The blocks of one run: the first one and those that joined it. -/
structure IsRun (bs : ℕ) (blocks : List BlockState) (i : ℕ) (state : BlockState) (n : ℕ) : Prop where
  one_le : 1 ≤ n
  first : blocks[i]? = some state
  joins : ∀ k, 1 ≤ k → k < n → ∃ b, blocks[i + k]? = some b ∧ joinsRun bs i state k b = true

section Runs
variable {bs i n : ℕ} {src dest : Bytes} {blocks : List BlockState} {state : BlockState}

theorem isRun_runCount (bs : ℕ) (hs : blocks[i]? = some state) :
    IsRun bs blocks i state (runCount bs blocks i state) :=
  ⟨one_le_runCount _ _ _ _, hs, fun _ => runCount_joins⟩

theorem IsRun.block (h : IsRun bs blocks i state n) {k : ℕ} (hk : k < n) :
    ∃ b, blocks[i + k]? = some b ∧ b.matchType = state.matchType ∧
      (state.matchType = .relocate → relocateDistance (i + k) b = relocateDistance i state) ∧
      (state.matchType = .partialMatch → byteDistance bs (i + k) b = byteDistance bs i state) := by
  rcases Nat.eq_zero_or_pos k with rfl | hpos
  · exact ⟨state, h.first, rfl, fun _ => rfl, fun _ => rfl⟩
  · obtain ⟨b, hb, hjoin⟩ := h.joins k hpos hk
    refine ⟨b, hb, joinsRun_type hjoin, ?_, ?_⟩
    · intro hty
      rw [joinsRun_iff (by simp [hty])] at hjoin
      exact hjoin.2 hty
    · intro hty
      simp only [joinsRun, hty, Bool.and_eq_true, decide_eq_true_eq] at hjoin
      exact hjoin.2.2

theorem IsRun.end_le (h : IsRun bs blocks i state n) : i + n ≤ blocks.length := by
  have h1 := h.one_le
  obtain ⟨b, hb, -⟩ := h.block (show n - 1 < n by omega)
  obtain ⟨hlt, -⟩ := List.getElem?_eq_some_iff.mp hb
  omega

theorem Codable.run_le (h : Codable bs src dest blocks) (hr : IsRun bs blocks i state n) :
    i * bs + n * bs ≤ dest.length ∧ dest.length ≤ 2 ^ 56 := by
  have hend := hr.end_le
  have hcount := h.count_lt
  rw [h.dest_len, ← add_mul]
  refine ⟨Nat.mul_le_mul_right _ hend, ?_⟩
  calc blocks.length * bs ≤ 2 ^ 32 * 2 ^ 24 := Nat.mul_le_mul hcount.le h.bs_le
    _ = 2 ^ 56 := by norm_num

theorem Codable.run_max (h : Codable bs src dest blocks) (hr : IsRun bs blocks i state n) :
    n ≤ uint32Max := by
  have hend := hr.end_le
  have hcount := h.count_lt
  have : uint32Max = 2 ^ 32 - 1 := rfl
  omega

theorem spells_literal (h : Codable bs src dest blocks) (hr : IsRun bs blocks i state n) :
    Spells bs src dest i n (literalEmission bs dest i n) (.literal n)
      ⟨plainCountEnc n, .short⟩ := by
  obtain ⟨hle, hmax⟩ := h.run_le hr
  have hlit : (literalEmission bs dest i n).lit = window dest (i * bs) (n * bs) := by
    unfold literalEmission
    dsimp only
    rw [u64_of_lt (by omega), u64_of_lt (by omega)]
  have hlen : (window dest (i * bs) (n * bs)).length = n * bs := length_window hle
  refine ⟨rfl, ⟨hr.one_le, plainCountEnc_max (h.run_max hr), trivial⟩, rfl, rfl, ?_, ?_⟩
  · rw [hlit]
    exact hlen
  · intro more
    rw [hlit, applyOperation, if_pos (by rw [List.length_append]; omega),
      List.take_left' hlen, List.drop_left' hlen]

theorem legal_plain (h : Codable bs src dest blocks) (hr : IsRun bs blocks i state n) :
    1 ≤ n ∧ n ≤ (plainCountEnc n).max ∧ True :=
  ⟨hr.one_le, plainCountEnc_max (h.run_max hr), trivial⟩

theorem copyRange_eq {x : ℤ} {p len : ℕ} (hx : x = p) (hin : p + len ≤ src.length) :
    copyRange src x len = some (window src p len) := by
  subst hx
  rw [copyRange, if_pos ⟨by omega, by exact_mod_cast hin⟩, Int.toNat_natCast]

theorem spells_identity (h : Codable bs src dest blocks) (hr : IsRun bs blocks i state n)
    (hty : state.matchType = .identity) :
    Spells bs src dest i n { op := plainBytes opCopyIdentity n } (.copyIdentity n)
      ⟨plainCountEnc n, .short⟩ := by
  have hblock : ∀ k < n, (i + k + 1) * bs ≤ src.length ∧
      window dest ((i + k) * bs) bs = window src ((i + k) * bs) bs := by
    intro k hk
    obtain ⟨b, hb, hsame, -⟩ := hr.block hk
    simpa only [Truthful, hsame, hty] using h.truthful _ _ hb
  have hin : i * bs + n * bs ≤ src.length := by
    obtain ⟨hle, -⟩ := hblock (n - 1) (by have := hr.one_le; omega)
    rw [← add_mul]
    exact le_trans (Nat.mul_le_mul_right _ (by have := hr.one_le; omega)) hle
  have hsame : window dest (i * bs) (n * bs) = window src (i * bs) (n * bs) := by
    apply window_eq_of_blocks
    intro k hk
    rw [← add_mul]
    exact (hblock k hk).2
  refine ⟨rfl, legal_plain h hr, rfl, rfl, rfl, fun more => ?_⟩
  rw [applyOperation, copyRange_eq (by push_cast; rfl) hin, hsame]
  rfl

theorem spells_zero (h : Codable bs src dest blocks) (hr : IsRun bs blocks i state n)
    (hty : state.matchType = .zero) :
    Spells bs src dest i n { op := plainBytes opZero n } (.zero n) ⟨plainCountEnc n, .short⟩ := by
  have hsame : window dest (i * bs) (n * bs) = List.replicate (n * bs) 0x00 := by
    apply window_eq_replicate_of_blocks
    intro k hk
    obtain ⟨b, hb, hsame, -⟩ := hr.block hk
    rw [← add_mul]
    simpa only [Truthful, hsame, hty] using h.truthful _ _ hb
  refine ⟨rfl, legal_plain h hr, rfl, rfl, rfl, fun more => ?_⟩
  rw [applyOperation, hsame]
  rfl

theorem spells_one (h : Codable bs src dest blocks) (hr : IsRun bs blocks i state n)
    (hty : state.matchType = .one) :
    Spells bs src dest i n { op := plainBytes opOne n } (.one n) ⟨plainCountEnc n, .short⟩ := by
  have hsame : window dest (i * bs) (n * bs) = List.replicate (n * bs) 0xFF := by
    apply window_eq_replicate_of_blocks
    intro k hk
    obtain ⟨b, hb, hsame, -⟩ := hr.block hk
    rw [← add_mul]
    simpa only [Truthful, hsame, hty] using h.truthful _ _ hb
  refine ⟨rfl, legal_plain h hr, rfl, rfl, rfl, fun more => ?_⟩
  rw [applyOperation, hsame]
  rfl

/-! ### Relocations -/

theorem relocateDistance_eq {b : BlockState} (hs : b.srcIndex < 2 ^ 63) (hi : i < 2 ^ 63) :
    relocateDistance i b = b.srcIndex - i := by
  unfold relocateDistance
  rw [int64_natCast hs, int64_natCast hi, int64_of_range (by omega) (by omega)]

theorem signedOffset_natAbs (x : ℤ) : signedOffset (x < 0) x.natAbs = x := by
  unfold signedOffset
  by_cases hx : x < 0
  · rw [if_pos (by simpa using hx)]
    omega
  · rw [if_neg (by simpa using hx)]
    omega

/-- The source blocks of a relocated run are consecutive. -/
theorem IsRun.relocate_block (hr : IsRun bs blocks i state n) (h : Codable bs src dest blocks)
    (hty : state.matchType = .relocate) {k : ℕ} (hk : k < n) :
    (state.srcIndex + k + 1) * bs ≤ src.length ∧
      window dest ((i + k) * bs) bs = window src ((state.srcIndex + k) * bs) bs ∧
      relocateDistance i state = state.srcIndex - i := by
  have hbs := h.bs_ge
  have hsrc := h.src_lt
  have hend := hr.end_le
  have hcount := h.count_lt
  have hindex : ∀ b : BlockState, (b.srcIndex + 1) * bs ≤ src.length → b.srcIndex < 2 ^ 63 := by
    intro b hb
    have : (b.srcIndex + 1) * 1 ≤ (b.srcIndex + 1) * bs := Nat.mul_le_mul_left _ (by omega)
    omega
  obtain ⟨b, hb, hsame, hdist, -⟩ := hr.block hk
  have htrue := h.truthful _ _ hb
  have hfirst := h.truthful _ _ hr.first
  simp only [Truthful, hsame, hty] at htrue hfirst
  have hd₀ := relocateDistance_eq (hindex _ hfirst.1) (show i < 2 ^ 63 by omega)
  have hd := relocateDistance_eq (hindex _ htrue.1) (show i + k < 2 ^ 63 by omega)
  have hnext : b.srcIndex = state.srcIndex + k := by
    have hk := hdist hty
    rw [hd, hd₀] at hk
    clear hd hd₀
    omega
  rw [hnext] at htrue
  exact ⟨htrue.1, htrue.2, hd₀⟩

theorem exists_spelling_relocate (h : Codable bs src dest blocks) (hr : IsRun bs blocks i state n)
    (hty : state.matchType = .relocate) :
    ∃ op enc, Spells bs src dest i n (relocateEmission bs dest i state n) op enc := by
  have hn := hr.one_le
  obtain ⟨-, -, hdist⟩ := hr.relocate_block h hty hn
  unfold relocateEmission
  dsimp only
  split_ifs with hfar
  · exact ⟨_, _, spells_literal h hr⟩
  have hin : state.srcIndex * bs + n * bs ≤ src.length := by
    obtain ⟨hle, -⟩ := hr.relocate_block h hty (show n - 1 < n by omega)
    rw [← add_mul]
    exact le_trans (Nat.mul_le_mul_right _ (by omega)) hle
  have hsame : window dest (i * bs) (n * bs) = window src (state.srcIndex * bs) (n * bs) := by
    apply window_eq_of_blocks
    intro k hk
    rw [← add_mul, ← add_mul]
    exact (hr.relocate_block h hty hk).2.1
  refine ⟨.copyRelocate n (relocateDistance i state < 0) (relocateDistance i state).natAbs, _,
    rfl, legal_copyRelocate bs _ hn (h.run_max hr) (not_lt.mp hfar), rfl, rfl, rfl, fun more => ?_⟩
  have hpos : ((i : ℤ) + relocateDistance i state) * bs = ((state.srcIndex * bs : ℕ) : ℤ) := by
    rw [hdist]
    push_cast
    ring
  rw [applyOperation, signedOffset_natAbs, copyRange_eq hpos hin, hsame]
  rfl

/-! ### Partial matches -/

theorem byteDistance_eq {b : BlockState} (h0 : 0 ≤ windowPos bs b) (hp : windowPos bs b < 2 ^ 63)
    (hi : i * bs < 2 ^ 63) : byteDistance bs i b = windowPos bs b - (i * bs : ℕ) := by
  have hcast : ((i : ℤ) * bs) = ((i * bs : ℕ) : ℤ) := by push_cast; rfl
  unfold byteDistance
  rw [hcast, int64_natCast hi]
  change int64 (int64 (windowPos bs b) - _) = _
  rw [int64_of_range (by omega) hp, int64_of_range (by omega) (by omega)]

/-- The source windows of a partial run are adjacent. -/
theorem IsRun.partial_block (hr : IsRun bs blocks i state n) (h : Codable bs src dest blocks)
    (hty : state.matchType = .partialMatch) {k : ℕ} (hk : k < n) :
    ∃ b, blocks[i + k]? = some b ∧ windowPos bs b = windowPos bs state + (k * bs : ℕ) ∧
      0 ≤ windowPos bs state ∧ windowPos bs b + bs ≤ src.length ∧ WholeDelta bs b.delta ∧
      window dest ((i + k) * bs) bs =
        List.zipWith (· + ·) (window src (windowPos bs b).toNat bs) (deltaBytes bs b.delta) ∧
      byteDistance bs i state = windowPos bs state - (i * bs : ℕ) := by
  have hsrc := h.src_lt
  obtain ⟨hle, hmax⟩ := h.run_le hr
  have hkn : k * bs ≤ n * bs := Nat.mul_le_mul_right _ hk.le
  obtain ⟨b, hb, hsame, -, hdist⟩ := hr.block hk
  have htrue := h.truthful _ _ hb
  have hfirst := h.truthful _ _ hr.first
  simp only [Truthful, hsame, hty] at htrue hfirst
  obtain ⟨h0, hin, hwhole, hadd⟩ := htrue
  have hd₀ := byteDistance_eq (i := i) hfirst.1 (by omega) (by omega)
  have hd := byteDistance_eq (i := i + k) h0 (by omega) (by rw [add_mul]; omega)
  have hnext : windowPos bs b = windowPos bs state + (k * bs : ℕ) := by
    have hk := hdist hty
    rw [hd, hd₀, add_mul] at hk
    push_cast at hk ⊢
    linarith
  exact ⟨b, hb, hnext, hfirst.1, hin, hwhole, hadd, hd₀⟩

/-- A range that is, block by block, the source with a delta added. -/
theorem window_eq_zipWith (deltas : List (Option Bytes)) {p q : ℕ}
    (h : ∀ k delta, deltas[k]? = some delta → WholeDelta bs delta ∧
      p + k * bs + bs ≤ src.length ∧ window dest (q + k * bs) bs =
        List.zipWith (· + ·) (window src (p + k * bs) bs) (deltaBytes bs delta)) :
    window dest q (deltas.length * bs) =
      List.zipWith (· + ·) (window src p (deltas.length * bs))
        (deltas.flatMap (deltaBytes bs)) := by
  induction deltas generalizing p q with
  | nil => simp
  | cons delta rest ih =>
    obtain ⟨hwhole, hin, hfirst⟩ := h 0 delta rfl
    simp only [Nat.zero_mul, add_zero] at hin hfirst
    have hrest := ih (p := p + bs) (q := q + bs) ?_
    · rw [List.length_cons, add_mul, one_mul, add_comm _ bs, ← window_append, ← window_append,
        hfirst, hrest, List.flatMap_cons,
        List.zipWith_append (by rw [length_window hin, length_deltaBytes hwhole])]
    · intro k delta' hk
      have hnext := h (k + 1) delta' hk
      have hstep : ∀ x, x + (k + 1) * bs = x + bs + k * bs := by
        intro x
        ring
      rwa [hstep, hstep] at hnext

/-- The deltas of a partial run, each with its window. -/
theorem IsRun.deltas (hr : IsRun bs blocks i state n) (h : Codable bs src dest blocks)
    (hty : state.matchType = .partialMatch) {k : ℕ} {delta : Option Bytes}
    (hk : (((blocks.drop i).take n).map BlockState.delta)[k]? = some delta) :
    WholeDelta bs delta ∧ (windowPos bs state).toNat + k * bs + bs ≤ src.length ∧
      window dest (i * bs + k * bs) bs = List.zipWith (· + ·)
        (window src ((windowPos bs state).toNat + k * bs) bs) (deltaBytes bs delta) := by
  obtain ⟨b, hb, rfl⟩ : ∃ b, (window blocks i n)[k]? = some b ∧ b.delta = delta := by
    rw [List.getElem?_map, Option.map_eq_some_iff] at hk
    exact hk
  have hkn : k < n := by
    obtain ⟨hlt, -⟩ := List.getElem?_eq_some_iff.mp hb
    exact hlt.trans_le length_window_le
  obtain ⟨b', hb', hpos, h0, hin, hwhole, hadd, -⟩ := hr.partial_block h hty hkn
  obtain rfl : b' = b := by
    rw [getElem?_window hkn, hb'] at hb
    exact Option.some.inj hb
  have hnat : (windowPos bs b').toNat = (windowPos bs state).toNat + k * bs := by
    rw [hpos]
    omega
  rw [← hnat, ← add_mul]
  exact ⟨hwhole, by omega, hadd⟩

theorem IsRun.length_deltas (hr : IsRun bs blocks i state n) :
    (((blocks.drop i).take n).map BlockState.delta).length = n := by
  rw [List.length_map]
  exact length_window hr.end_le

/-- `max_run_for_format` keeps the diff data inside its length field. -/
theorem maxRun_mul_le {bs : ℕ} (hbs : bs ≤ 2 ^ 24) : maxRunForFormat bs * (2 * bs) ≤ uint32Max := by
  have hmax : uint32Max = 4294967295 := rfl
  unfold maxRunForFormat
  split_ifs with h0
  · omega
  · rw [mul_comm 2 bs]
    exact Nat.div_mul_le_self _ _

theorem not_diffTooLarge {deltas : List (Option Bytes)} (hge : 1 ≤ bs) (hbs : bs ≤ 2 ^ 24)
    (hlen : deltas.length = n) (hn : n ≤ maxRunForFormat bs) : ¬ DiffTooLarge bs n deltas := by
  have hmax := maxRunForFormat_le bs
  have h32 : uint32Max = 4294967295 := rfl
  intro hcase
  rcases hcase with hsize | hlong
  · have hdiv : (2 ^ 64 - 1) / 2 ^ 24 ≤ (2 ^ 64 - 1) / bs := Nat.div_le_div_left hbs (by omega)
    omega
  · have hle := length_diffData_le (show bs < 2 ^ 64 by omega) (prefersSparse bs n deltas) deltas
    have hcap := maxRun_mul_le hbs
    have hmul : n * (2 * bs) ≤ maxRunForFormat bs * (2 * bs) := Nat.mul_le_mul_right _ hn
    rw [hlen] at hle
    omega

theorem exists_spelling_partial (h : Codable bs src dest blocks) (hr : IsRun bs blocks i state n)
    (hty : state.matchType = .partialMatch) (hn : n ≤ maxRunForFormat bs) :
    ∃ op enc, Spells bs src dest i n
      (partialEmission bs dest i state n (((blocks.drop i).take n).map BlockState.delta)) op enc := by
  have hlarge := not_diffTooLarge (h.bs_ge.trans' (by decide)) h.bs_le hr.length_deltas hn
  have hdeltas := fun k delta => @IsRun.deltas _ _ _ _ _ _ _ hr h hty k delta
  have hlen := hr.length_deltas
  have hbs := h.bs_le
  have h1 := hr.one_le
  obtain ⟨b, -, -, h0, -, -, -, hdist⟩ := hr.partial_block h hty h1
  generalize ((blocks.drop i).take n).map BlockState.delta = deltas at hlarge hdeltas hlen ⊢
  have hwhole : ∀ delta ∈ deltas, WholeDelta bs delta := by
    intro delta hmem
    obtain ⟨k, hk⟩ := List.getElem?_of_mem hmem
    exact (hdeltas k delta hk).1
  unfold partialEmission
  dsimp only
  split_ifs with hfar
  · exact ⟨_, _, spells_literal h hr⟩
  rw [not_or, not_lt, not_lt] at hfar
  obtain ⟨hlo, hhi⟩ := byteEnc_range hfar.1 hfar.2
  have hbytes := encodedDiff_bytes (prefersSparse bs n deltas) hwhole (by omega)
  have hsize : (encodedDiff bs (prefersSparse bs n deltas) deltas).bytes.length ≤ uint32Max := by
    rw [hbytes]
    exact not_lt.mp fun hlong => hlarge (.inr hlong)
  have hfits := encodedDiff_fits (prefersSparse bs n deltas) hwhole
  have hin : (windowPos bs state).toNat + n * bs ≤ src.length := by
    obtain ⟨delta, hd⟩ : ∃ delta, deltas[n - 1]? = some delta :=
      ⟨_, List.getElem?_eq_getElem (by omega)⟩
    have hle := (hdeltas _ _ hd).2.1
    have hmul : (n - 1) * bs + bs = n * bs := by
      rw [← Nat.succ_mul, Nat.succ_eq_add_one, Nat.sub_add_cancel h1]
    omega
  have hsame := window_eq_zipWith deltas hdeltas
  rw [hlen] at hfits hsame
  refine ⟨.copyAdd n (byteDistance bs i state) (encodedDiff bs (prefersSparse bs n deltas) deltas),
    ⟨wideCountEnc n, byteEnc (byteDistance bs i state)⟩, rfl,
    ⟨h1, wideCountEnc_max (h.run_max hr), wideCountEnc_ne n, hlo, hhi, hsize, hfits⟩, ?_, hbytes.symm,
    rfl, fun more => ?_⟩
  · unfold copyAddBytes
    rw [← hbytes, ← encodedDiff_fmt bs deltas]
    rfl
  · have hpos : ((i : ℤ) * bs + byteDistance bs i state) = ((windowPos bs state).toNat : ℤ) := by
      rw [hdist, Int.toNat_of_nonneg h0]
      push_cast
      ring
    rw [applyOperation, copyRange_eq hpos hin, Option.map_some, applyDiff_encodedDiff _ hwhole
      (by rw [length_window hin, hlen]), hsame]
    rfl

/-- Every run the encoder forms is spelled by one legal operation that denotes it. -/
theorem exists_spelling (h : Codable bs src dest blocks) (hr : IsRun bs blocks i state n)
    (hn : state.matchType = .partialMatch → n ≤ maxRunForFormat bs) :
    ∃ op enc, Spells bs src dest i n (emission bs blocks dest i state n) op enc := by
  unfold emission
  cases hty : state.matchType with
  | identity => exact ⟨_, _, spells_identity h hr hty⟩
  | zero => exact ⟨_, _, spells_zero h hr hty⟩
  | one => exact ⟨_, _, spells_one h hr hty⟩
  | none => exact ⟨_, _, spells_literal h hr⟩
  | relocate => exact exists_spelling_relocate h hr hty
  | partialMatch => exact exists_spelling_partial h hr hty (hn hty)

end Runs

/-! ### Whole streams -/

/-- `script` with the literals `lits` denotes the destination from block `i` to
block `count`. -/
structure Compiles (bs : ℕ) (src dest : Bytes) (i count : ℕ) (script : Script) (lits : Bytes) :
    Prop where
  legal : ∀ x ∈ script, Legal bs x.2 x.1
  total_eq : i + totalCount (script.map Prod.fst) = count
  lit_len : lits.length = litLen bs (script.map Prod.fst)
  apply_eq : applyPatch bs src i lits (script.map Prod.fst) =
    some (window dest (i * bs) ((count - i) * bs))

section Streams
variable {bs : ℕ} {src dest : Bytes} {blocks : List BlockState} {env : Env}

theorem Compiles.cons {i n count : ℕ} {em : Emission} {op : Op} {enc : Enc} {script : Script}
    {lits : Bytes} (h : Compiles bs src dest (i + n) count script lits)
    (hop : Spells bs src dest i n em op enc) :
    Compiles bs src dest i count ((op, enc) :: script) (em.lit ++ lits) := by
  have htotal := h.total_eq
  have hn := hop.count_eq
  refine ⟨?_, ?_, ?_, ?_⟩
  · intro x hx
    rcases List.mem_cons.mp hx with rfl | hx
    · exact hop.legal
    · exact h.legal x hx
  · rw [List.map_cons, totalCount_cons, hn]
    omega
  · rw [List.map_cons, litLen_cons, List.length_append, hop.lit_len, h.lit_len]
  · have hjoin : window dest (i * bs) (n * bs) ++ window dest ((i + n) * bs) ((count - (i + n)) * bs) =
        window dest (i * bs) ((count - i) * bs) := by
      rw [add_mul, window_append, ← add_mul]
      congr 2
      omega
    rw [List.map_cons, applyPatch, hop.apply_eq]
    dsimp only
    rw [hn, h.apply_eq, Option.map_some, hjoin]

theorem compiles_nil (i : ℕ) : Compiles bs src dest i i [] [] := by
  refine ⟨?_, rfl, rfl, ?_⟩
  · intro x hx
    cases hx
  · simp [applyPatch]

/-- The encoding loop from block `i` on: it compiles the rest of the destination, or
a writer or `malloc` failed. -/
theorem encodeLoop_compiles (h : Codable bs src dest blocks) (fuel : ℕ) {i : ℕ} (s : Streams)
    (hi : i ≤ blocks.length) (hf : blocks.length ≤ i + fuel) :
    Ends (encodeLoop env bs blocks dest fuel i s)
      (fun _ s' => ∃ script lits, Emits s s' (opStream script) (diffStream script) lits ∧
        Compiles bs src dest i blocks.length script lits)
      (fun _ _ => env.Faulty) := by
  induction fuel generalizing i s with
  | zero =>
    obtain rfl : i = blocks.length := by omega
    exact ⟨[], [], .refl s, compiles_nil _⟩
  | succ fuel ih =>
    unfold encodeLoop
    cases hs : blocks[i]? with
    | none =>
      have hge := List.getElem?_eq_none_iff.mp hs
      obtain rfl : i = blocks.length := by omega
      exact ⟨[], [], .refl s, compiles_nil _⟩
    | some state =>
      have hr := isRun_runCount bs hs
      have hend := hr.end_le
      have hone := hr.one_le
      have hstep := encodeRun_emits (s := s) env bs blocks dest i state
      have hok : Ends (encodeRun env bs blocks dest i state s) _ (fun _ _ => env.Faulty) :=
        hstep.weaken fun _ _ hfail => hfail.elim id fun hlarge =>
          absurd hlarge.2 (not_diffTooLarge (h.bs_ge.trans' (by decide)) h.bs_le
            hr.length_deltas (runCount_le_maxRun hlarge.1))
      apply hok.bind
      intro n s₁ hpost
      obtain ⟨rfl, hemits⟩ := hpost
      apply (ih s₁ hend (by omega)).mono
      · intro _ s₂ hpost
        obtain ⟨script, lits, hemits₂, hcomp⟩ := hpost
        obtain ⟨op, enc, hop⟩ := exists_spelling h hr runCount_le_maxRun
        refine ⟨(op, enc) :: script, _, ?_, hcomp.cons hop⟩
        rw [opStream_cons, diffStream_cons, ← hop.op_eq, ← hop.diff_eq]
        exact hemits.trans hemits₂
      · exact fun _ _ hf => hf

/-- What `fsd_diff_files` puts into the patch file: the header and the three streams. -/
def patchFile (log2 destBlocks : ℕ) (s : Streams) : Bytes :=
  headerWrite destBlocks log2 s.op.length s.diff.length ++ (s.op ++ (s.diff ++ s.lit))

/-- An encoded tracker as a patch of the format. -/
theorem encode_compiles {tracker : Tracker} (h : Codable bs src dest tracker.blocks) :
    Ends (encode env bs tracker dest {})
      (fun _ s => ∃ script, s.op = opStream script ∧ s.diff = diffStream script ∧
        Compiles bs src dest 0 tracker.count script s.lit)
      (fun _ _ => env.Faulty) := by
  apply (encodeLoop_compiles h tracker.count {} (Nat.zero_le _) (Nat.le_add_left _ _)).mono
  · intro _ s hpost
    obtain ⟨script, lits, hemits, hcomp⟩ := hpost
    have hlit : s.lit = lits := hemits.lit_eq
    exact ⟨script, hemits.op_eq, hemits.diff_eq, hlit ▸ hcomp⟩
  · exact fun _ _ hf => hf

end Streams

/-- The decoder on a compiled patch with the literals it was compiled with. -/
theorem patchApply_compiled {log2 count : ℕ} (hlo : 5 ≤ log2) (hhi : log2 ≤ 24)
    (hcount : count < 2 ^ 32) {src dest : Bytes} (hdest : dest.length = count * 2 ^ log2)
    {script : Script} {s : Streams} (hop : s.op = opStream script) (hdiff : s.diff = diffStream script)
    (h : Compiles (2 ^ log2) src dest 0 count script s.lit) :
    Ends (patchApply (reliable src) (patchFile log2 count s))
      (fun _ o => o.written = dest ∧ o.opReads = List.range' headerSize s.op.length ∧
        o.diffReads = List.range' (headerSize + s.op.length) s.diff.length ∧
        o.litReads = List.range' (headerSize + s.op.length + s.diff.length) s.lit.length)
      (fun _ _ => False) := by
  have hbs : 2 ^ log2 ≤ 2 ^ 24 := Nat.pow_le_pow_right (by decide) hhi
  have htotal : totalCount (script.map Prod.fst) = count := by
    have := h.total_eq
    omega
  have hsize : totalCount (script.map Prod.fst) * 2 ^ log2 ≤ 2 ^ 62 := by
    rw [htotal]
    calc count * 2 ^ log2 ≤ 2 ^ 32 * 2 ^ 24 := Nat.mul_le_mul hcount.le hbs
      _ ≤ 2 ^ 62 := by norm_num
  have hfile : patchFile log2 count s = patchBytes log2 script s.lit := by
    rw [patchFile, patchBytes, htotal, hop, hdiff]
  have hdenotes : applyPatch (2 ^ log2) src 0 s.lit (script.map Prod.fst) = some dest := by
    rw [h.apply_eq, Nat.zero_mul, Nat.sub_zero, ← hdest, window_all]
  rw [hfile, hop, hdiff, h.lit_len]
  apply (patchApply_script src s.lit hlo hhi h.legal hsize).mono
  · intro _ o hpost
    obtain ⟨hout, hreads⟩ := hpost
    rw [hdenotes] at hout
    exact ⟨(Option.some.inj hout).symm, hreads⟩
  · intro _ _ hnone
    rw [hdenotes] at hnone
    cases hnone

/-- Codec correctness: the streams emitted for any truthful tracker decode to the
destination, every byte of each stream being read once and in order. Only a failing
writer or `malloc` stops the encoder. -/
theorem decode_encode (log2 : ℕ) (hlo : 5 ≤ log2) (hhi : log2 ≤ 24) (src dest : Bytes)
    (tracker : Tracker) (hcount : tracker.count < 2 ^ 32)
    (hdest : dest.length = tracker.count * 2 ^ log2) (hsrc : src.length < 2 ^ 63)
    (htrue : ∀ i b, tracker.get i = some b → Truthful (2 ^ log2) src dest i b) (env : Env) :
    Ends (encode env (2 ^ log2) tracker dest {})
      (fun _ s => ∃ c o, patchApply (reliable src) (patchFile log2 tracker.count s) = .ok c o ∧
        o.written = dest ∧ o.opReads = List.range' headerSize s.op.length ∧
        o.diffReads = List.range' (headerSize + s.op.length) s.diff.length ∧
        o.litReads = List.range' (headerSize + s.op.length + s.diff.length) s.lit.length)
      (fun _ _ => env.Faulty) := by
  have hge : 2 ^ 5 ≤ 2 ^ log2 := Nat.pow_le_pow_right (by decide) hlo
  have hle : 2 ^ log2 ≤ 2 ^ 24 := Nat.pow_le_pow_right (by decide) hhi
  have hcod : Codable (2 ^ log2) src dest tracker.blocks := ⟨hge, hle, hcount, hdest, hsrc, htrue⟩
  apply (encode_compiles hcod).mono
  · intro _ s hpost
    obtain ⟨script, hop, hdiff, hcomp⟩ := hpost
    exact (patchApply_compiled hlo hhi hcount hdest hop hdiff hcomp).exists_ok
  · exact fun _ _ hf => hf

/-- Two source blocks, and an image of a zero block, the first source block moved, a
window one byte before the second, and a block of its own. -/
def mixedSource : Bytes := List.replicate 32 1 ++ List.replicate 32 2

def mixedImage : Bytes :=
  List.replicate 32 0 ++ List.replicate 32 1 ++ (1 :: List.replicate 31 2) ++ List.replicate 32 9

def mixedTracker : Tracker where
  blocks := [{ destIndex := 0, matchType := .zero }, { destIndex := 1, matchType := .relocate },
    { destIndex := 2, matchType := .partialMatch, srcIndex := 1, byteOffset := -1 },
    { destIndex := 3 }]
  blockSize := 32
  bitmap := [0]

theorem decode_encode_mixedTracker :
    ∃ s c o, encode faultless 32 mixedTracker mixedImage {} = .ok () s ∧
      patchApply (reliable mixedSource) (patchFile 5 4 s) = .ok c o ∧ o.written = mixedImage := by
  have htrue : ∀ i b, mixedTracker.get i = some b → Truthful 32 mixedSource mixedImage i b := by
    intro i b h
    match i, h with
    | 0, rfl => exact (by decide : window mixedImage 0 32 = List.replicate 32 0x00)
    | 1, rfl => exact ⟨by decide, by decide⟩
    | 2, rfl => exact ⟨by decide, by decide, fun d hd => (by cases hd), by decide⟩
    | 3, rfl => trivial
  have hends := decode_encode 5 (by decide) (by decide) mixedSource mixedImage mixedTracker
    (by decide) (by simp [mixedImage, mixedTracker, Tracker.count])
    (by simp [mixedSource]) htrue faultless
  obtain ⟨_, s, hs, c, o, ho, hwritten, -⟩ :=
    (hends.weaken fun _ _ hf => not_faulty_faultless hf).exists_ok
  exact ⟨s, c, o, hs, ho, hwritten⟩

end Fsdiff.Encoder
