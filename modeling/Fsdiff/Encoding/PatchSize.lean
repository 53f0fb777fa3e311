import Fsdiff.Encoding.Codec
import Fsdiff.Encoding.Statistics

/-! How long the streams of an encoder get, and when two of them stay empty. -/
namespace Fsdiff.Encoder
open ByteString Exec Format

/-! ### One block of diff data -/

section Sparse
variable {bs : ℕ} {delta : Option Bytes}

/-- A length costs one byte, and one more for each 128 bytes it stands for. -/
theorem length_varint_le_div (n : ℕ) : (varint n).length ≤ n / 128 + 1 := by
  by_cases hn : n < 128
  · rw [varint_of_lt hn, List.length_singleton]
    omega
  · rw [varint_of_ge (not_lt.mp hn), List.length_cons]
    have := length_varint_le (show 0 < n / 128 by omega)
    omega

/-- A copy run of two bytes or more is stored in less than it covers. -/
theorem length_varint_lt {n : ℕ} (h : 2 ≤ n) : (varint n).length < n := by
  have := length_varint_le_div n
  omega

theorem addRunEnd_isZero_next (fuel : ℕ) {pos : ℕ} (hf : bs ≤ pos + fuel)
    (h : addRunEnd bs delta fuel pos + 1 < bs) :
    deltaIsZero delta (addRunEnd bs delta fuel pos + 1) = true := by
  induction fuel generalizing pos with
  | zero =>
    rw [addRunEnd] at h
    omega
  | succ fuel ih =>
    rw [addRunEnd] at h ⊢
    split_ifs at h ⊢ with hp hz
    · rw [Bool.and_eq_true, Bool.or_eq_true, decide_eq_true_eq] at hz
      exact hz.2.resolve_left (by omega)
    · exact ih (by omega) h
    · omega

theorem two_le_copyRun {pos : ℕ} (h : addRunEnd bs delta bs pos + 1 < bs) :
    addRunEnd bs delta bs pos + 2 ≤ copyRunEnd bs delta bs (addRunEnd bs delta bs pos) := by
  have hz := addRunEnd_isZero bs (Nat.le_add_left bs pos) (Nat.lt_of_succ_lt h)
  have hz' := addRunEnd_isZero_next bs (Nat.le_add_left bs pos) h
  generalize addRunEnd bs delta bs pos = e at h hz hz' ⊢
  obtain ⟨fuel, hfuel⟩ : ∃ fuel, bs = fuel + 2 := ⟨bs - 2, by omega⟩
  have htwo : copyRunEnd bs delta (fuel + 2) e = copyRunEnd bs delta fuel (e + 2) := by
    rw [copyRunEnd, if_pos (by omega), if_pos hz, copyRunEnd, if_pos h, if_pos hz']
  rw [show copyRunEnd bs delta bs e = copyRunEnd bs delta (fuel + 2) e by rw [← hfuel], htwo]
  exact le_copyRunEnd fuel (e + 2)

/-- The runs of a block cost one byte more than they cover, besides what long copy-add runs
cost: a copy run that another run follows saves the byte that the copy-add run before it took. -/
theorem length_sparseData_overhead (delta : Option Bytes) (hbs : bs < 2 ^ 64) (fuel : ℕ) {pos : ℕ}
    (hp : pos ≤ bs) :
    (sparseData bs delta fuel pos).length ≤ (bs - pos) + (bs - pos) / 128 + 1 := by
  induction fuel generalizing pos with
  | zero => exact Nat.zero_le _
  | succ fuel ih =>
    by_cases hlt : pos < bs
    · have hge : pos ≤ addRunEnd bs delta bs pos := le_addRunEnd bs pos
      have hle : addRunEnd bs delta bs pos ≤ bs := addRunEnd_le bs hp
      have hwin := length_window_le (s := delta.getD []) (p := pos) (n := addRunEnd bs delta bs pos - pos)
      have hadd := length_varint_le_div (addRunEnd bs delta bs pos - pos)
      rw [sparseData, if_pos hlt]
      dsimp only
      split_ifs with hfull
      · rw [List.length_append, encodeVarint_eq (by omega)]
        omega
      · have hz := addRunEnd_isZero bs (by omega) (not_le.mp hfull)
        have hcopy := lt_copyRunEnd (show 0 < bs by omega) (not_le.mp hfull) hz
        have hend : copyRunEnd bs delta bs (addRunEnd bs delta bs pos) ≤ bs := copyRunEnd_le bs hle
        have hone := length_varint_le (Nat.sub_pos_of_lt hcopy)
        rw [List.length_append, List.length_append, List.length_append, encodeVarint_eq (by omega),
          encodeVarint_eq (by omega)]
        by_cases hlast : copyRunEnd bs delta bs (addRunEnd bs delta bs pos) = bs
        · have hnil : sparseData bs delta fuel bs = [] := by
            cases fuel with
            | zero => rfl
            | succ fuel => rw [sparseData, if_neg (lt_irrefl bs)]
          rw [hlast] at hone ⊢
          rw [hnil, List.length_nil]
          omega
        · have hroom : addRunEnd bs delta bs pos + 1 < bs := by omega
          have htwo := two_le_copyRun hroom
          have hsave := length_varint_lt (Nat.le_sub_of_add_le' htwo)
          have hrest := ih hend
          omega
    · rw [sparseData, if_neg hlt]
      exact Nat.zero_le _

theorem length_diffData_overhead (hbs : bs < 2 ^ 64) (sparse : Bool) (deltas : List (Option Bytes)) :
    (diffData bs sparse deltas).length ≤ deltas.length * (bs + bs / 128 + 1) := by
  rw [diffData, List.length_flatMap]
  have hsum := List.sum_le_card_nsmul (deltas.map fun delta =>
    (if sparse = true then sparseData bs delta bs 0 else denseData bs delta).length)
    (bs + bs / 128 + 1) ?_
  · simpa using hsum
  · intro n hn
    obtain ⟨delta, -, rfl⟩ := List.mem_map.mp hn
    split_ifs
    · exact length_sparseData_overhead delta hbs bs (Nat.zero_le _)
    · rw [length_denseData]
      omega

theorem encodeVarint_ne_nil (value : ℕ) : encodeVarint value ≠ [] := by
  unfold encodeVarint encodeVarintLoop
  split_ifs <;> exact List.cons_ne_nil _ _

theorem sparseData_ne_nil (hbs : 0 < bs) (delta : Option Bytes) : sparseData bs delta bs 0 ≠ [] := by
  obtain ⟨fuel, rfl⟩ : ∃ fuel, bs = fuel + 1 := ⟨bs - 1, by omega⟩
  rw [sparseData, if_pos hbs]
  dsimp only
  split_ifs <;> simp [encodeVarint_ne_nil]

theorem diffData_ne_nil (hbs : 0 < bs) (sparse : Bool) {deltas : List (Option Bytes)}
    (h : deltas ≠ []) : diffData bs sparse deltas ≠ [] := by
  obtain ⟨delta, rest, rfl⟩ := List.exists_cons_of_ne_nil h
  intro hnil
  have hfirst := List.flatMap_eq_nil_iff.mp hnil delta List.mem_cons_self
  cases sparse with
  | false =>
    have hlen : (denseData bs delta).length = 0 := congrArg List.length hfirst
    rw [length_denseData] at hlen
    omega
  | true => exact sparseData_ne_nil hbs delta hfirst

end Sparse

/-! ### One run -/

section Runs
variable {env : Env} {bs i n : ℕ} {blocks : List BlockState} {dest : Bytes} {state : BlockState}

theorem length_plainBytes_le (t n : ℕ) : (plainBytes t n).length ≤ 5 := by
  have := length_count_bytes_le (plainCountEnc n) n
  rw [plainBytes, List.length_cons]
  omega

theorem length_copyAddBytes_le (n : ℕ) (byteOffset : ℤ) (fmt k : ℕ) :
    (copyAddBytes n byteOffset fmt k).length ≤ 13 := by
  have hcount := length_count_bytes_le (wideCountEnc n) n
  have hwidth : (byteEnc byteOffset).byteOffsetWidth ≤ 4 := by cases byteEnc byteOffset <;> decide
  simp only [copyAddBytes, List.length_cons, List.length_append, length_leBytes]
  omega

/-- Everything that a run puts on the streams. -/
def Emission.size (e : Emission) : ℕ := e.op.length + e.diff.length + e.lit.length

theorem literalEmission_size_le (bs : ℕ) (dest : Bytes) (i n : ℕ) :
    (literalEmission bs dest i n).size ≤ n * bs + 5 := by
  have hop := length_plainBytes_le opLiteral n
  have hlit := length_window_le (s := dest) (p := u64 (i * bs)) (n := u64 (n * bs))
  have hwrap : u64 (n * bs) ≤ n * bs := Nat.mod_le _ _
  simp only [Emission.size, literalEmission, List.length_nil]
  omega

theorem partialEmission_size_le (hbs : bs < 2 ^ 64) (dest : Bytes) (i : ℕ) (state : BlockState)
    {deltas : List (Option Bytes)} (hn : deltas.length ≤ n) :
    (partialEmission bs dest i state n deltas).size ≤ n * (bs + bs / 128 + 1) + 13 := by
  rw [partialEmission]
  dsimp only
  generalize byteDistance bs i state = byteOffset
  by_cases hfar : byteOffset < -2 ^ 31 ∨ 2 ^ 31 - 1 < byteOffset
  · have hlit := literalEmission_size_le bs dest i n
    have hle : n * bs ≤ n * (bs + bs / 128 + 1) := Nat.mul_le_mul_left n (by omega)
    rw [if_pos hfar]
    omega
  · have hdiff := length_diffData_overhead hbs (prefersSparse bs n deltas) deltas
    have hle := Nat.mul_le_mul_right (bs + bs / 128 + 1) hn
    rw [if_neg hfar]
    generalize diffData bs (prefersSparse bs n deltas) deltas = diff at hdiff ⊢
    have hop := length_copyAddBytes_le n byteOffset (prefersSparse bs n deltas).toNat diff.length
    simp only [Emission.size, List.length_nil]
    omega

theorem relocateEmission_size_le (bs : ℕ) (dest : Bytes) (i : ℕ) (state : BlockState) (n : ℕ) :
    (relocateEmission bs dest i state n).size ≤ n * bs + 13 := by
  rw [relocateEmission]
  generalize relocateDistance i state = offset
  by_cases hfar : 0xFFFFFFFF < offset.natAbs
  · have hlit := literalEmission_size_le bs dest i n
    rw [if_pos hfar]
    omega
  · have hop := length_bytes_le (.copyRelocate n (offset < 0) offset.natAbs)
      ⟨wideCountEnc n, relocateEnc offset.natAbs⟩
    rw [if_neg hfar]
    simp only [Emission.size, List.length_nil]
    omega

/-- A run takes what its blocks take, what the lengths inside its diff data take, and one
operation. -/
theorem emission_size_le (hbs : bs < 2 ^ 64) (blocks : List BlockState) (dest : Bytes) (i : ℕ)
    (state : BlockState) (hn : 1 ≤ n) :
    (emission bs blocks dest i state n).size ≤ n * (bs + bs / 128 + 14) := by
  have hroom : n * (bs + bs / 128 + 1) + 13 ≤ n * (bs + bs / 128 + 14) := by
    rw [show bs + bs / 128 + 14 = bs + bs / 128 + 1 + 13 by rfl, Nat.mul_add n _ 13]
    omega
  have hle : n * bs ≤ n * (bs + bs / 128 + 1) := Nat.mul_le_mul_left n (by omega)
  have hplain (t : ℕ) : (Emission.mk (plainBytes t n) [] []).size ≤ n * bs + 5 := by
    have := length_plainBytes_le t n
    simp only [Emission.size, List.length_nil]
    omega
  unfold emission
  cases state.matchType with
  | identity => exact (hplain _).trans (by omega)
  | zero => exact (hplain _).trans (by omega)
  | one => exact (hplain _).trans (by omega)
  | none => exact (literalEmission_size_le bs dest i n).trans (by omega)
  | relocate => exact (relocateEmission_size_le bs dest i state n).trans (by omega)
  | partialMatch =>
    apply (partialEmission_size_le hbs dest i state _).trans hroom
    rw [List.length_map]
    exact List.length_take_le n _

/-- Every block is in one run. -/
theorem sum_runCount {fuel : ℕ} (hi : i ≤ blocks.length) (hf : blocks.length ≤ i + fuel) :
    ((runs bs blocks fuel i).map fun r => runCount bs blocks r.1 r.2).sum = blocks.length - i := by
  induction fuel generalizing i with
  | zero =>
    have hend : blocks.length - i = 0 := by omega
    rw [hend]
    rfl
  | succ fuel ih =>
    unfold runs
    cases hb : blocks[i]? with
    | none =>
      have hend := List.getElem?_eq_none_iff.mp hb
      have hzero : blocks.length - i = 0 := by omega
      rw [hzero]
      rfl
    | some first =>
      have hone := one_le_runCount bs blocks i first
      have hle : i + runCount bs blocks i first ≤ blocks.length := runCount_le hb
      simp only [List.map_cons, List.sum_cons]
      rw [ih hle (by omega)]
      omega

end Runs

/-! ### The streams -/

section Streams
variable {env : Env} {bs : ℕ} {t : Tracker} {dest : Bytes} {s : Streams}

/-- The three streams together take the size of the image, and a few bytes for each block. -/
theorem encode_size_le (hbs : bs < 2 ^ 64) (h : encode env bs t dest {} = .ok () s) :
    s.op.length + s.diff.length + s.lit.length ≤ t.count * (bs + bs / 128 + 14) := by
  have hemits := encodeLoop_emits h
  have hop := hemits.op_eq
  have hdiff := hemits.diff_eq
  have hlit := hemits.lit_eq
  rw [List.nil_append] at hop hdiff hlit
  have hsum : ((runs bs t.blocks t.count 0).map fun r => runCount bs t.blocks r.1 r.2).sum = t.count :=
    sum_runCount (Nat.zero_le t.blocks.length) (Nat.le_add_left t.count 0)
  calc s.op.length + s.diff.length + s.lit.length
      = ((runs bs t.blocks t.count 0).map fun r => (runEmission bs t.blocks dest r).size).sum := by
        rw [hop, hdiff, hlit, List.length_flatMap, List.length_flatMap, List.length_flatMap,
          ← List.sum_map_add, ← List.sum_map_add]
        rfl
    _ ≤ ((runs bs t.blocks t.count 0).map fun r =>
          runCount bs t.blocks r.1 r.2 * (bs + bs / 128 + 14)).sum := by
        apply List.sum_le_sum
        intro r _
        exact emission_size_le hbs _ _ _ _ (one_le_runCount bs t.blocks r.1 r.2)
    _ = t.count * (bs + bs / 128 + 14) := by
        rw [List.sum_map_mul_right, hsum]

/-- Operations that say all about a block by themselves. -/
def Bare (ty : MatchType) : Prop := ty ≠ .none ∧ ty ≠ .partialMatch

theorem emission_no_data {i n : ℕ} {blocks : List BlockState} {state : BlockState}
    (hbare : Bare state.matchType) (hreach : Reachable bs i state) :
    (emission bs blocks dest i state n).diff = [] ∧ (emission bs blocks dest i state n).lit = [] := by
  unfold emission
  cases hty : state.matchType with
  | identity | zero | one => exact ⟨rfl, rfl⟩
  | relocate =>
    have hnear := (far_iff_not_reachable bs hty).not.mpr (not_not.mpr hreach)
    simp only [relocateEmission]
    rw [if_neg hnear]
    exact ⟨rfl, rfl⟩
  | partialMatch => exact absurd hty hbare.2
  | none => exact absurd hty hbare.1

/-- A run of other blocks has diff data, or literal data if it is out of reach. -/
theorem emission_data {i n : ℕ} {blocks : List BlockState} {state : BlockState} (hbs : 0 < bs)
    (hn : 1 ≤ n) (hblocks : i + n ≤ blocks.length) (hdest : (i + n) * bs ≤ dest.length)
    (hlen : dest.length < 2 ^ 64) (hdata : ¬ Bare state.matchType) :
    (emission bs blocks dest i state n).diff ≠ [] ∨ (emission bs blocks dest i state n).lit ≠ [] := by
  have hliteral (hop : operationOf bs i state = opLiteral) :
      (emission bs blocks dest i state n).lit ≠ [] := by
    have hl : (emission bs blocks dest i state n).lit.length = _ := length_emission_lit hdest hlen
    rw [if_pos hop] at hl
    intro hnil
    rw [hnil, List.length_nil] at hl
    exact absurd hl.symm (Nat.mul_pos hn hbs).ne'
  by_cases hop : operationOf bs i state = opLiteral
  · exact .inr (hliteral hop)
  · rw [operationOf_eq_literal_iff, not_or, not_not] at hop
    obtain ⟨hnone, hreach⟩ := hop
    have hty : state.matchType = .partialMatch := by
      by_contra hp
      exact hdata ⟨hnone, hp⟩
    have hnear := (byteFar_iff_not_reachable hty).not.mpr (not_not.mpr hreach)
    have hne : ((blocks.drop i).take n).map BlockState.delta ≠ [] := by
      rw [← List.length_pos_iff, List.length_map, List.length_take, List.length_drop]
      omega
    unfold emission
    simp only [hty, partialEmission]
    rw [if_neg hnear]
    exact .inl (diffData_ne_nil hbs _ hne)

theorem exists_run_of_block {blocks : List BlockState} {j : ℕ} {b : BlockState} (bs : ℕ)
    (hb : blocks[j]? = some b) :
    ∃ r ∈ runs bs blocks blocks.length 0, r.2.matchType = b.matchType := by
  obtain ⟨hlt, -⟩ := List.getElem?_eq_some_iff.mp hb
  obtain ⟨i, state, hi, hs, hle, hcover⟩ := exists_runHead bs hlt
  obtain ⟨k, rfl⟩ := Nat.exists_eq_add_of_le hle
  obtain ⟨b', hb', hty, -⟩ := (isRun_runCount bs hs).block (show k < runCount bs blocks i state by omega)
  rw [hb] at hb'
  cases hb'
  exact ⟨(i, state), mem_runs_of_runHead hi hs, hty.symm⟩

/-- The two data streams stay empty only if every block needs no data. -/
theorem no_data_iff (hbs : 0 < bs) (h : encode env bs t dest {} = .ok () s)
    (hdest : t.count * bs ≤ dest.length) (hlen : dest.length < 2 ^ 64)
    (hreach : ∀ i b, t.get i = some b → b.matchType = .relocate → Reachable bs i b) :
    s.diff = [] ∧ s.lit = [] ↔ ∀ i b, t.get i = some b → Bare b.matchType := by
  have hemits := encodeLoop_emits h
  have hdiff := hemits.diff_eq
  have hlit := hemits.lit_eq
  rw [List.nil_append] at hdiff hlit
  rw [hdiff, hlit, List.flatMap_eq_nil_iff, List.flatMap_eq_nil_iff]
  constructor
  · rintro ⟨hd, hl⟩ i b hb
    by_contra hdata
    obtain ⟨r, hr, hty⟩ := exists_run_of_block bs hb
    have hle : r.1 + runCount bs t.blocks r.1 r.2 ≤ t.blocks.length := runCount_le (mem_runs hr)
    have hin := (Nat.mul_le_mul_right bs hle).trans hdest
    rcases emission_data hbs (one_le_runCount bs t.blocks r.1 r.2) hle hin hlen (hty ▸ hdata) with hne | hne
    · exact hne (hd r hr)
    · exact hne (hl r hr)
  · intro hbare
    have hnone : ∀ r ∈ runs bs t.blocks t.count 0,
        (runEmission bs t.blocks dest r).diff = [] ∧ (runEmission bs t.blocks dest r).lit = [] := by
      intro r hr
      have hget := mem_runs hr
      have hr := hbare r.1 r.2 hget
      apply emission_no_data hr
      unfold Reachable
      cases hty : r.2.matchType with
      | relocate =>
        have := hreach r.1 r.2 hget hty
        rwa [Reachable, hty] at this
      | partialMatch => exact absurd hty hr.2
      | _ => trivial
    exact ⟨fun r hr => (hnone r hr).1, fun r hr => (hnone r hr).2⟩

end Streams

end Fsdiff.Encoder
