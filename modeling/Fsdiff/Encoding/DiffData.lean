import Fsdiff.Encoding.OperationEncoder
import Fsdiff.Format.Operation

/-! The diff data of a partial run, dense or sparse, as diffs of the format: they
fit their blocks, stay within two bytes for each byte of the image, and mean the
addition of the deltas. -/
namespace Fsdiff.Encoder
open ByteString Format

/-! ### Varints -/

theorem encodeVarintLoop_eq (fuel : ℕ) {value : ℕ} (h : value < 128 ^ (fuel + 1)) :
    encodeVarintLoop fuel value = varint value := by
  have hand : ∀ v, v &&& 0x7F = v % 128 := fun v => by
    change v &&& (2 ^ 7 - 1) = _
    rw [Nat.and_two_pow_sub_one_eq_mod]
  induction fuel generalizing value with
  | zero =>
    rw [encodeVarintLoop, varint_of_lt (by omega), hand, Nat.mod_eq_of_lt (by omega)]
  | succ fuel ih =>
    unfold encodeVarintLoop
    split_ifs with hge
    · have hlow : value % 128 ||| 0x80 = value % 128 + 128 := by
        rw [Nat.or_comm, Nat.add_comm]
        exact (Nat.two_pow_add_eq_or_of_lt (i := 7) (show value % 128 < 2 ^ 7 by omega) 1).symm
      rw [varint_of_ge hge, hand, hlow, Nat.shiftRight_eq_div_pow, ih]
      · rw [pow_succ] at h
        exact Nat.div_lt_of_lt_mul (by omega)
    · rw [varint_of_lt (by omega), hand, Nat.mod_eq_of_lt (by omega)]

/-- `encode_varint` writes the shortest spelling of any `size_t`. -/
theorem encodeVarint_eq {value : ℕ} (h : value < 2 ^ 64) : encodeVarint value = varint value :=
  encodeVarintLoop_eq 9 (h.trans (by decide))

/-! ### Runs of one block -/

section Runs
variable {bs : ℕ} {delta : Option Bytes}

theorem le_addRunEnd (fuel pos : ℕ) : pos ≤ addRunEnd bs delta fuel pos := by
  induction fuel generalizing pos with
  | zero => exact le_rfl
  | succ fuel ih =>
    unfold addRunEnd
    split_ifs
    · exact le_rfl
    · exact (Nat.le_succ pos).trans (ih (pos + 1))
    · exact le_rfl

theorem addRunEnd_le (fuel : ℕ) {pos : ℕ} (h : pos ≤ bs) : addRunEnd bs delta fuel pos ≤ bs := by
  induction fuel generalizing pos with
  | zero => exact h
  | succ fuel ih =>
    unfold addRunEnd
    split_ifs with hlt
    · exact h
    · exact ih hlt
    · exact h

theorem addRunEnd_isZero (fuel : ℕ) {pos : ℕ} (hf : bs ≤ pos + fuel)
    (h : addRunEnd bs delta fuel pos < bs) :
    deltaIsZero delta (addRunEnd bs delta fuel pos) = true := by
  induction fuel generalizing pos with
  | zero =>
    rw [addRunEnd] at h
    omega
  | succ fuel ih =>
    unfold addRunEnd at h ⊢
    split_ifs at h ⊢ with hlt hzero
    · rw [Bool.and_eq_true] at hzero
      exact hzero.1
    · exact ih (by omega) h
    · omega

theorem addRunEnd_none (fuel pos : ℕ) : addRunEnd bs none fuel pos = pos := by
  cases fuel with
  | zero => rfl
  | succ fuel => simp [addRunEnd, deltaIsZero]

theorem copyRunEnd_le (fuel : ℕ) {pos : ℕ} (h : pos ≤ bs) : copyRunEnd bs delta fuel pos ≤ bs := by
  induction fuel generalizing pos with
  | zero => exact h
  | succ fuel ih =>
    unfold copyRunEnd
    split_ifs with hlt
    · exact ih hlt
    · exact h
    · exact h

theorem le_copyRunEnd (fuel pos : ℕ) : pos ≤ copyRunEnd bs delta fuel pos := by
  induction fuel generalizing pos with
  | zero => exact le_rfl
  | succ fuel ih =>
    unfold copyRunEnd
    split_ifs
    · exact (Nat.le_succ pos).trans (ih (pos + 1))
    · exact le_rfl
    · exact le_rfl

theorem copyRunEnd_isZero (fuel : ℕ) {pos k : ℕ} (hk : pos ≤ k)
    (hlt : k < copyRunEnd bs delta fuel pos) : deltaIsZero delta k = true := by
  induction fuel generalizing pos with
  | zero =>
    rw [copyRunEnd] at hlt
    omega
  | succ fuel ih =>
    unfold copyRunEnd at hlt
    split_ifs at hlt with hin hzero
    · rcases Nat.eq_or_lt_of_le hk with rfl | hk
      · exact hzero
      · exact ih hk hlt
    · omega
    · omega

theorem lt_copyRunEnd {fuel pos : ℕ} (hf : 0 < fuel) (h : pos < bs)
    (hz : deltaIsZero delta pos = true) : pos < copyRunEnd bs delta fuel pos := by
  obtain ⟨fuel, rfl⟩ := Nat.exists_eq_add_of_le' hf
  unfold copyRunEnd
  rw [if_pos h, if_pos hz]
  exact le_copyRunEnd fuel (pos + 1)

end Runs

/-! ### Sparse blocks -/

/-- The runs that the sparse loop finds from `pos` on. -/
def sparseRuns (bs : ℕ) (delta : Option Bytes) : ℕ → ℕ → Runs
  | 0, _ => []
  | fuel + 1, pos =>
    if pos < bs then
      let addEnd := addRunEnd bs delta bs pos
      let add := window (delta.getD []) pos (addEnd - pos)
      if bs ≤ addEnd then [(add, none)]
      else
        let copyEnd := copyRunEnd bs delta bs addEnd
        (add, some (copyEnd - addEnd)) :: sparseRuns bs delta fuel copyEnd
    else []

/-- A delta covers its block, or is missing. -/
def WholeDelta (bs : ℕ) (delta : Option Bytes) : Prop := ∀ d ∈ delta, d.length = bs

/-- The bytes that a delta adds; a missing one adds zeros. -/
def deltaBytes (bs : ℕ) (delta : Option Bytes) : Bytes := delta.getD (List.replicate bs 0)

section Sparse
variable {bs : ℕ} {delta : Option Bytes}

theorem length_deltaBytes (h : WholeDelta bs delta) : (deltaBytes bs delta).length = bs := by
  cases delta with
  | none => exact List.length_replicate
  | some d => exact h d rfl

theorem length_window_deltaBytes (h : WholeDelta bs delta) (pos : ℕ) {e : ℕ} (he : e ≤ bs) :
    (window (deltaBytes bs delta) pos (e - pos)).length = e - pos := by
  rw [window, List.length_take, List.length_drop, length_deltaBytes h]
  omega

theorem window_deltaBytes_add {pos n : ℕ} (hn : delta = none → n = 0) :
    window (delta.getD []) pos n = window (deltaBytes bs delta) pos n := by
  cases delta with
  | none =>
    rw [hn rfl, window_zero, window_zero]
  | some d => rfl

theorem deltaBytes_isZero (h : WholeDelta bs delta) {k : ℕ} (hk : k < bs)
    (hz : deltaIsZero delta k = true) : (deltaBytes bs delta)[k]? = some 0 := by
  cases delta with
  | none => exact List.getElem?_replicate_of_lt hk
  | some d =>
    have hlen : k < d.length := by rw [h d rfl]; exact hk
    have hd : d.getD k 0 = 0 := by simpa [deltaIsZero] using hz
    rw [List.getD_eq_getElem?_getD, List.getElem?_eq_getElem hlen, Option.getD_some] at hd
    exact List.getElem?_eq_some_iff.mpr ⟨hlen, hd⟩

theorem window_deltaBytes_copy (h : WholeDelta bs delta) {pos fuel : ℕ} (hp : pos ≤ bs) :
    window (deltaBytes bs delta) pos (copyRunEnd bs delta fuel pos - pos) =
      List.replicate (copyRunEnd bs delta fuel pos - pos) 0 := by
  have hle : copyRunEnd bs delta fuel pos ≤ bs := copyRunEnd_le fuel hp
  apply window_eq_replicate
  intro k hk
  exact deltaBytes_isZero h (by omega) (copyRunEnd_isZero fuel (Nat.le_add_right pos k)
    (show pos + k < copyRunEnd bs delta fuel pos by omega))

/-- One pass of the sparse loop: an add run, and a copy run behind it unless the
block is full. -/
theorem sparseRuns_succ (h : WholeDelta bs delta) (fuel : ℕ) {pos : ℕ} (hp : pos < bs) :
    ∃ addEnd, pos ≤ addEnd ∧ addEnd ≤ bs ∧
      (addEnd = bs ∧
        sparseRuns bs delta (fuel + 1) pos =
          [(window (deltaBytes bs delta) pos (addEnd - pos), none)] ∧
        sparseData bs delta (fuel + 1) pos = encodeVarint (addEnd - pos) ++
          window (deltaBytes bs delta) pos (addEnd - pos) ∨
      ∃ copyEnd, addEnd < copyEnd ∧ copyEnd ≤ bs ∧
        window (deltaBytes bs delta) addEnd (copyEnd - addEnd) =
          List.replicate (copyEnd - addEnd) 0 ∧
        sparseRuns bs delta (fuel + 1) pos =
          (window (deltaBytes bs delta) pos (addEnd - pos), some (copyEnd - addEnd)) ::
            sparseRuns bs delta fuel copyEnd ∧
        sparseData bs delta (fuel + 1) pos = encodeVarint (addEnd - pos) ++
          window (deltaBytes bs delta) pos (addEnd - pos) ++
            (encodeVarint (copyEnd - addEnd) ++ sparseData bs delta fuel copyEnd)) := by
  have hge : pos ≤ addRunEnd bs delta bs pos := le_addRunEnd bs pos
  have hle : addRunEnd bs delta bs pos ≤ bs := addRunEnd_le bs hp.le
  have hadd : window (delta.getD []) pos (addRunEnd bs delta bs pos - pos) =
      window (deltaBytes bs delta) pos (addRunEnd bs delta bs pos - pos) := by
    apply window_deltaBytes_add
    rintro rfl
    rw [addRunEnd_none, Nat.sub_self]
  refine ⟨addRunEnd bs delta bs pos, hge, hle, ?_⟩
  rw [sparseRuns, sparseData, if_pos hp, if_pos hp]
  dsimp only
  rw [hadd]
  by_cases hfull : bs ≤ addRunEnd bs delta bs pos
  · rw [if_pos hfull, if_pos hfull]
    exact .inl ⟨by omega, rfl, rfl⟩
  · rw [if_neg hfull, if_neg hfull]
    have hz := addRunEnd_isZero bs (by omega) (not_le.mp hfull)
    have hlt : addRunEnd bs delta bs pos < copyRunEnd bs delta bs (addRunEnd bs delta bs pos) :=
      lt_copyRunEnd (by omega) (not_le.mp hfull) hz
    exact .inr ⟨_, hlt, copyRunEnd_le bs hle, window_deltaBytes_copy h hle, rfl, rfl⟩

theorem sparseData_eq (h : WholeDelta bs delta) (hbs : bs < 2 ^ 64) (fuel pos : ℕ) :
    sparseData bs delta fuel pos = (sparseRuns bs delta fuel pos).flatMap runBytes := by
  induction fuel generalizing pos with
  | zero => rfl
  | succ fuel ih =>
    by_cases hp : pos < bs
    · obtain ⟨e, hge, hle, ⟨rfl, hruns, hdata⟩ | ⟨c, hlt, hc, -, hruns, hdata⟩⟩ :=
        sparseRuns_succ h fuel hp
      · rw [hruns, hdata, encodeVarint_eq (by omega)]
        simp [runBytes, length_window_deltaBytes h pos le_rfl]
      · rw [hruns, hdata, ih, encodeVarint_eq (by omega), encodeVarint_eq (by omega)]
        simp [runBytes, length_window_deltaBytes h pos hle]
    · rw [sparseData, sparseRuns, if_neg hp, if_neg hp]
      rfl

theorem sparseRuns_tiles (h : WholeDelta bs delta) (fuel : ℕ) {pos : ℕ} (hp : pos ≤ bs)
    (hf : bs ≤ pos + fuel) : Tiles (bs - pos) (sparseRuns bs delta fuel pos) := by
  induction fuel generalizing pos with
  | zero =>
    change bs - pos = 0
    omega
  | succ fuel ih =>
    by_cases hlt : pos < bs
    · obtain ⟨e, hge, hle, ⟨rfl, hruns, -⟩ | ⟨c, hec, hc, -, hruns, -⟩⟩ := sparseRuns_succ h fuel hlt
      · rw [hruns]
        exact ⟨by omega, length_window_deltaBytes h pos le_rfl, rfl⟩
      · rw [hruns, Tiles, length_window_deltaBytes h pos hle]
        refine ⟨by omega, by omega, by omega, ?_⟩
        rw [show bs - pos - (e - pos + (c - e)) = bs - c by omega]
        exact ih hc (by omega)
    · rw [sparseRuns, if_neg hlt]
      change bs - pos = 0
      omega

theorem cost_last {add : ℕ} (h : 0 < add) : (varint add).length + add ≤ 2 * add := by
  have := length_varint_le h
  omega

/-- A copy run is never empty, so a pair of runs costs at most two bytes for each
byte it covers. -/
theorem cost_pair (add : ℕ) {copy : ℕ} (h : 0 < copy) :
    (varint add).length + add + (varint copy).length ≤ 2 * (add + copy) := by
  have hcopy := length_varint_le h
  rcases Nat.eq_zero_or_pos add with rfl | hadd
  · have hzero : (varint 0).length = 1 := by decide
    omega
  · have := length_varint_le hadd
    omega

/-- Whatever the delta holds, and however much of it there is. -/
theorem length_sparseData_le (delta : Option Bytes) (hbs : bs < 2 ^ 64) (fuel : ℕ) {pos : ℕ} (hp : pos ≤ bs) :
    (sparseData bs delta fuel pos).length ≤ 2 * (bs - pos) := by
  induction fuel generalizing pos with
  | zero => exact Nat.zero_le _
  | succ fuel ih =>
    by_cases hlt : pos < bs
    · have hge : pos ≤ addRunEnd bs delta bs pos := le_addRunEnd bs pos
      have hle : addRunEnd bs delta bs pos ≤ bs := addRunEnd_le bs hp
      have hwin := length_window_le (s := delta.getD []) (p := pos) (n := addRunEnd bs delta bs pos - pos)
      rw [sparseData, if_pos hlt]
      dsimp only
      split_ifs with hfull
      · have hcost := cost_last (show 0 < addRunEnd bs delta bs pos - pos by omega)
        rw [List.length_append, encodeVarint_eq (by omega)]
        omega
      · have hz := addRunEnd_isZero bs (by omega) (not_le.mp hfull)
        have hcopy := lt_copyRunEnd (show 0 < bs by omega) (not_le.mp hfull) hz
        have hend : copyRunEnd bs delta bs (addRunEnd bs delta bs pos) ≤ bs := copyRunEnd_le bs hle
        have hcost := cost_pair (addRunEnd bs delta bs pos - pos) (Nat.sub_pos_of_lt hcopy)
        have hrest := ih hend
        rw [List.length_append, List.length_append, List.length_append, encodeVarint_eq (by omega),
          encodeVarint_eq (by omega)]
        omega
    · rw [sparseData, if_neg hlt]
      exact Nat.zero_le _

theorem zipWith_add_replicate_zero (s : Bytes) {n : ℕ} (h : s.length = n) :
    List.zipWith (· + ·) s (List.replicate n 0) = s := by
  subst h
  induction s with
  | nil => rfl
  | cons b s ih =>
    rw [List.length_cons, List.replicate_succ, List.zipWith_cons_cons, ih, UInt8.add_zero]

/-- Adding and copying by turns adds the whole delta. -/
theorem applyRuns_sparseRuns (h : WholeDelta bs delta) (fuel : ℕ) {pos : ℕ} (hp : pos ≤ bs)
    (hf : bs ≤ pos + fuel) {src : Bytes} (hs : src.length = bs) :
    applyRuns (src.drop pos) (sparseRuns bs delta fuel pos) =
      List.zipWith (· + ·) (src.drop pos) ((deltaBytes bs delta).drop pos) := by
  have hd := length_deltaBytes h
  induction fuel generalizing pos with
  | zero =>
    rw [List.drop_eq_nil_of_le (by omega), sparseRuns]
    rfl
  | succ fuel ih =>
    by_cases hlt : pos < bs
    · obtain ⟨e, hge, hle, ⟨rfl, hruns, -⟩ | ⟨c, hec, hc, hzero, hruns, -⟩⟩ :=
        sparseRuns_succ h fuel hlt
      · have hall : window (deltaBytes e delta) pos (e - pos) = (deltaBytes e delta).drop pos :=
          List.take_of_length_le (by rw [List.length_drop]; omega)
        rw [hruns, hall]
        simp [applyRuns, hd, hs, List.take_of_length_le]
      · have hadd := length_window_deltaBytes h pos hle
        have hsplit : ∀ s : Bytes, s.drop pos = window s pos (e - pos) ++
            (window s e (c - e) ++ s.drop c) := by
          intro s
          rw [window_append_drop hec.le, window_append_drop hge]
        have hsrc : ∀ q n, q + n ≤ bs → (window src q n).length = n := by
          intro q n hq
          exact length_window (by omega)
        have hdrop : (src.drop pos).drop (e - pos) = src.drop e := by
          rw [List.drop_drop, Nat.add_sub_cancel' hge]
        rw [hruns, applyRuns, hadd, Option.getD_some, hdrop, List.drop_drop,
          Nat.add_sub_cancel' hec.le, ih hc (by omega), List.append_assoc]
        change List.zipWith _ (window src pos (e - pos)) _ ++ (window src e (c - e) ++ _) = _
        rw [hsplit src, hsplit (deltaBytes bs delta),
          List.zipWith_append (by rw [hadd, hsrc _ _ (by omega)]), hzero,
          List.zipWith_append (by rw [List.length_replicate, hsrc _ _ (by omega)]),
          zipWith_add_replicate_zero _ (hsrc _ _ (by omega))]
    · rw [sparseRuns, if_neg hlt, List.drop_eq_nil_of_le (by omega)]
      rfl

end Sparse

/-! ### Runs of blocks -/

/-- The diff of the format that `diff_buf` holds. -/
def encodedDiff (bs : ℕ) (sparse : Bool) (deltas : List (Option Bytes)) : Diff :=
  if sparse then .sparse (deltas.map fun delta => sparseRuns bs delta bs 0)
  else .dense (deltas.flatMap (deltaBytes bs))

section Blocks
variable {bs : ℕ} {deltas : List (Option Bytes)}

theorem denseData_eq {delta : Option Bytes} (h : WholeDelta bs delta) :
    denseData bs delta = deltaBytes bs delta := by
  cases delta with
  | none => rfl
  | some d =>
    have hd : d.length = bs := h d rfl
    simp [denseData, deltaBytes, ← hd]

theorem encodedDiff_fmt (bs : ℕ) (deltas : List (Option Bytes)) (sparse : Bool) :
    (encodedDiff bs sparse deltas).fmt = sparse.toNat := by
  cases sparse <;> rfl

theorem encodedDiff_bytes (sparse : Bool) (h : ∀ delta ∈ deltas, WholeDelta bs delta)
    (hbs : bs < 2 ^ 64) : (encodedDiff bs sparse deltas).bytes = diffData bs sparse deltas := by
  cases sparse with
  | false =>
    change deltas.flatMap (deltaBytes bs) = deltas.flatMap fun delta => denseData bs delta
    exact List.flatMap_congr fun delta hd => (denseData_eq (h delta hd)).symm
  | true =>
    change (deltas.map fun delta => sparseRuns bs delta bs 0).flatMap (·.flatMap runBytes) =
      deltas.flatMap fun delta => sparseData bs delta bs 0
    rw [List.flatMap_map]
    exact List.flatMap_congr fun delta hd => (sparseData_eq (h delta hd) hbs bs 0).symm

theorem length_flatMap_deltaBytes (h : ∀ delta ∈ deltas, WholeDelta bs delta) :
    (deltas.flatMap (deltaBytes bs)).length = deltas.length * bs := by
  rw [List.length_flatMap, List.map_congr_left fun delta hd => length_deltaBytes (h delta hd)]
  simp

theorem encodedDiff_fits (sparse : Bool) (h : ∀ delta ∈ deltas, WholeDelta bs delta) :
    (encodedDiff bs sparse deltas).Fits bs deltas.length := by
  cases sparse with
  | false => exact length_flatMap_deltaBytes h
  | true =>
    refine ⟨List.length_map _, ?_⟩
    intro runs hruns
    obtain ⟨delta, hd, rfl⟩ := List.mem_map.mp hruns
    exact sparseRuns_tiles (h delta hd) bs (Nat.zero_le _) (by omega)

theorem length_denseData (bs : ℕ) (delta : Option Bytes) : (denseData bs delta).length = bs := by
  cases delta with
  | none => exact List.length_replicate
  | some d =>
    simp only [denseData, List.length_append, List.length_take, List.length_replicate]
    omega

/-- Two bytes for each byte of the image, the bound that `max_run_for_format` and
`max_diff_len` rest on. -/
theorem length_diffData_le (hbs : bs < 2 ^ 64) (sparse : Bool) (deltas : List (Option Bytes)) :
    (diffData bs sparse deltas).length ≤ deltas.length * (2 * bs) := by
  rw [diffData, List.length_flatMap]
  have hsum := List.sum_le_card_nsmul (deltas.map fun delta =>
    (if sparse = true then sparseData bs delta bs 0 else denseData bs delta).length) (2 * bs) ?_
  · simpa using hsum
  · intro n hn
    obtain ⟨delta, -, rfl⟩ := List.mem_map.mp hn
    split_ifs
    · exact length_sparseData_le delta hbs bs (Nat.zero_le _)
    · rw [length_denseData]
      omega

theorem applySparse_sparseRuns (h : ∀ delta ∈ deltas, WholeDelta bs delta) {src : Bytes}
    (hs : src.length = deltas.length * bs) :
    applySparse bs src (deltas.map fun delta => sparseRuns bs delta bs 0) =
      List.zipWith (· + ·) src (deltas.flatMap (deltaBytes bs)) := by
  induction deltas generalizing src with
  | nil => simp [applySparse]
  | cons delta rest ih =>
    have hd := h delta List.mem_cons_self
    rw [List.length_cons, add_mul, one_mul] at hs
    have htake : (src.take bs).length = bs := by
      rw [List.length_take]
      omega
    have hruns := applyRuns_sparseRuns hd bs (Nat.zero_le _) (by omega) htake
    rw [List.drop_zero, List.drop_zero] at hruns
    rw [List.map_cons, applySparse, hruns, ih (fun x hx => h x (List.mem_cons_of_mem _ hx))
      (by rw [List.length_drop]; omega), List.flatMap_cons,
      ← List.zipWith_append (by rw [htake, length_deltaBytes hd]), List.take_append_drop]

theorem applyDiff_encodedDiff (sparse : Bool) (h : ∀ delta ∈ deltas, WholeDelta bs delta)
    {src : Bytes} (hs : src.length = deltas.length * bs) :
    applyDiff bs src (encodedDiff bs sparse deltas) =
      List.zipWith (· + ·) src (deltas.flatMap (deltaBytes bs)) := by
  cases sparse with
  | false => rfl
  | true => exact applySparse_sparseRuns h hs

end Blocks

end Fsdiff.Encoder
