import Fsdiff.Patch.Fields

/-! The two diff formats of `COPY_ADD` on one block: the decoder's in-place
additions compute what the specification says about dense and sparse data. -/
namespace Fsdiff.Patch
open ByteString Exec Format

/-- Add `diff` to `buf`, in place, from position `pos` on. -/
def addAt : Bytes → ℕ → Bytes → Bytes
  | buf, _, [] => buf
  | buf, pos, d :: ds => addAt (buf.set pos (buf.getD pos 0 + d)) (pos + 1) ds

@[simp] theorem length_addAt (buf : Bytes) (pos : ℕ) (diff : Bytes) :
    (addAt buf pos diff).length = buf.length := by
  induction diff generalizing buf pos with
  | nil => rfl
  | cons d ds ih => simp [addAt, ih]

theorem addAt_snoc (buf : Bytes) (pos : ℕ) (diff : Bytes) (v : UInt8) :
    addAt buf pos (diff ++ [v]) = (addAt buf pos diff).set (pos + diff.length)
      ((addAt buf pos diff).getD (pos + diff.length) 0 + v) := by
  induction diff generalizing buf pos with
  | nil => rfl
  | cons d ds ih =>
    rw [List.cons_append, addAt, ih, addAt, List.length_cons, add_right_comm, add_assoc]

/-- In place or pointwise: only the stretch under `diff` changes. -/
theorem addAt_eq (buf : Bytes) (pos : ℕ) (diff : Bytes) (h : pos + diff.length ≤ buf.length) :
    addAt buf pos diff = buf.take pos ++
      (List.zipWith (· + ·) ((buf.drop pos).take diff.length) diff ++
        buf.drop (pos + diff.length)) := by
  induction diff generalizing buf pos with
  | nil => simp [addAt]
  | cons d ds ih =>
    rw [List.length_cons] at h
    have hpos : pos < buf.length := by omega
    have hset : (buf.take pos ++ [buf[pos]]).set pos (buf[pos] + d) =
        buf.take pos ++ [buf[pos] + d] := by
      rw [List.set_append_right _ _ (List.length_take_le _ _), List.length_take,
        min_eq_left hpos.le, Nat.sub_self, List.set_cons_zero]
    rw [addAt, ih _ _ (by rw [List.length_set]; omega), List.drop_eq_getElem_cons hpos,
      List.drop_set_of_lt (by omega), List.drop_set_of_lt (by omega), List.take_set,
      List.take_succ_eq_append_getElem hpos, List.getD_eq_getElem _ _ hpos, List.length_cons,
      List.take_succ_cons, List.zipWith_cons_cons, hset, List.append_assoc, add_right_comm pos 1,
      add_assoc pos]
    rfl

section Blocks
variable {patch : Bytes} {L : Layout patch} {r : Region} {s : Output}

theorem window_concat {p k : ℕ} {b : UInt8} (h : patch[p + k]? = some b) :
    window patch p (k + 1) = window patch p k ++ [b] := by
  obtain ⟨hlt, rfl⟩ := List.getElem?_eq_some_iff.mp h
  rw [← window_append, window_succ hlt, window_zero]
  rfl

theorem logReads_concat (p k : ℕ) (st : Stream) :
    (s.logReads (List.range' p k) st).logReads [p + k] st =
      s.logReads (List.range' p (k + 1)) st := by
  rw [Output.logReads_append, List.range'_1_concat]

theorem logReads_range' (p j k : ℕ) (st : Stream) :
    (s.logReads (List.range' p j) st).logReads (List.range' (p + j) k) st =
      s.logReads (List.range' p (j + k)) st := by
  rw [Output.logReads_append, List.range'_append_1]

theorem denseBlock_adds (hr : r.Inside L) {blk : ℕ} {buf : Bytes} (hbuf : buf.length = L.blockSize)
    (hfit : blk * L.blockSize + L.blockSize ≤ r.hi - r.lo) (hlt : blk * L.blockSize < 2 ^ 64) :
    Ends (denseBlock L r blk buf s)
      (fun buf' s' => buf' = addAt buf 0 (window patch (r.lo + blk * L.blockSize) L.blockSize) ∧
        s' = s.logReads (List.range' (r.lo + blk * L.blockSize) L.blockSize) r.stream)
      (fun _ _ => False) := by
  have hb := L.blockSize_ge
  rw [denseBlock, u64_of_lt hlt]
  refine ends_ite (fun h => absurd h (by omega)) fun _ => ?_
  refine Ends.iterM_zero (fun k buf' s' =>
    buf' = addAt buf 0 (window patch (r.lo + blk * L.blockSize) k) ∧
      s' = s.logReads (List.range' (r.lo + blk * L.blockSize) k) r.stream) _ buf s ?_ ?_
  · intro k _ _ hk hpost
    obtain ⟨rfl, rfl⟩ := hpost
    apply (readByte_ends hr (by omega) (by omega)).bind
    intro v s₁ hpost
    obtain ⟨hv, rfl⟩ := hpost
    have hwin : (window patch (r.lo + blk * L.blockSize) k).length = k := by
      have hhi := L.hi_le r.stream
      have hin := hr.2
      exact length_window (by omega)
    apply (bufAdd_ends v (by rw [length_addAt]; omega)).imp
    intro _ _ hpost
    obtain ⟨rfl, rfl⟩ := hpost
    refine ⟨?_, logReads_concat _ _ _⟩
    rw [window_concat hv, addAt_snoc, hwin, zero_add]
  · simp [addAt]

/-- All the bytes of a copy-add run are read; those behind the end of the block are dropped. -/
theorem addRun_adds (hr : r.Inside L) (addLen : ℕ) {t : SparseState}
    (hbuf : t.buf.length = L.blockSize) (hlo : r.lo ≤ t.cursor) (hend : t.cursor + addLen ≤ r.hi)
    (hout : t.outPos ≤ L.blockSize) :
    Ends (addRun L r addLen t s)
      (fun t' s' => t' = ⟨t.cursor + addLen, min (t.outPos + addLen) L.blockSize,
          addAt t.buf t.outPos ((window patch t.cursor addLen).take (L.blockSize - t.outPos))⟩ ∧
        s' = s.logReads (List.range' t.cursor addLen) r.stream)
      (fun _ _ => False) := by
  refine Ends.iterM_zero (fun k t' s' => t' = ⟨t.cursor + k, min (t.outPos + k) L.blockSize,
      addAt t.buf t.outPos ((window patch t.cursor k).take (L.blockSize - t.outPos))⟩ ∧
    s' = s.logReads (List.range' t.cursor k) r.stream) addLen t s ?_ ?_
  · intro k _ _ hk hpost
    obtain ⟨rfl, rfl⟩ := hpost
    apply (readByte_ends hr (by dsimp only; omega) (by dsimp only; omega)).bind
    intro v s₁ hpost
    obtain ⟨hv, rfl⟩ := hpost
    have hwin : (window patch t.cursor k).length = k := by
      have hhi := L.hi_le r.stream
      have hin := hr.2
      exact length_window (by omega)
    dsimp only
    rw [window_concat hv]
    apply ends_ite
    · intro hlt
      have hpos : min (t.outPos + k) L.blockSize = t.outPos + k := by omega
      have hnext : min (t.outPos + (k + 1)) L.blockSize = t.outPos + k + 1 := by omega
      have hlast : (window patch t.cursor k ++ [v]).length ≤ L.blockSize - t.outPos := by
        rw [List.length_append, List.length_singleton, hwin]
        omega
      rw [hpos, hnext]
      apply (bufAdd_ends v (by rw [length_addAt]; omega)).bind
      intro _ _ hpost
      obtain ⟨rfl, rfl⟩ := hpost
      refine ⟨?_, logReads_concat _ _ _⟩
      rw [List.take_of_length_le hlast, addAt_snoc, hwin, List.take_of_length_le (by omega)]
      rfl
    · intro hfull
      have hpos : min (t.outPos + (k + 1)) L.blockSize = min (t.outPos + k) L.blockSize := by omega
      rw [hpos, List.take_append_of_le_length (by omega)]
      exact ⟨rfl, logReads_concat _ _ _⟩
  · simp [addAt, hout]

theorem applyRuns_after_add {buf diff : Bytes} {pos copyLen : ℕ} {rest : Runs}
    (h : pos + diff.length ≤ buf.length) :
    (addAt buf pos diff).take (pos + diff.length + copyLen) ++
        applyRuns ((addAt buf pos diff).drop (pos + diff.length + copyLen)) rest =
      buf.take pos ++ applyRuns (buf.drop pos) ((diff, some copyLen) :: rest) := by
  have hz : (List.zipWith (· + ·) ((buf.drop pos).take diff.length) diff).length = diff.length := by
    simp only [List.length_zipWith, List.length_take, List.length_drop]
    omega
  have hp : (buf.take pos).length = pos := by
    rw [List.length_take]
    omega
  rw [addAt_eq _ _ _ h, applyRuns]
  generalize List.zipWith (· + ·) ((buf.drop pos).take diff.length) diff = sums at hz
  have hsplit : pos + diff.length + copyLen =
      (buf.take pos).length + (sums.length + copyLen) := by
    rw [hp, hz, add_assoc]
  rw [hsplit, List.take_length_add_append, List.take_length_add_append,
    List.drop_length_add_append, List.drop_length_add_append]
  simp only [List.append_assoc, List.drop_drop, Option.getD_some]

/-! ### Runs in the stream

A list of runs need not be in its shortest spelling, and its last run may be longer than what
is left of the block. -/

/-- A base-128 spelling that `read_varint` takes. -/
structure Numeral (p : Bytes) (n : ℕ) : Prop where
  isVarint : IsVarint p
  value : varintValue p = n
  length_le : p.length ≤ 10
  lt : n < 2 ^ 64

/-- A copy-add run, with the copy run that follows unless the block is full. -/
inductive SpellsRun : Bytes → Bytes × Option ℕ → Prop
  | last {addLen diff : Bytes} (hadd : Numeral addLen diff.length) :
      SpellsRun (addLen ++ diff) (diff, none)
  | copy {addLen diff copyLen : Bytes} {n : ℕ} (hadd : Numeral addLen diff.length)
      (hcopy : Numeral copyLen n) : SpellsRun (addLen ++ diff ++ copyLen) (diff, some n)

/-- The cumulative length reaches or exceeds `n` in the last run, and not before. -/
def Reaches : ℕ → Runs → Prop
  | n, [] => n = 0
  | n, (diff, none) :: rest => 0 < n ∧ n ≤ diff.length ∧ rest = []
  | n, (diff, some copy) :: rest => diff.length < n ∧ Reaches (n - (diff.length + copy)) rest

/-- No copy run passes the end, and none is empty behind an empty copy-add run. -/
def CopiesFit : ℕ → Runs → Prop
  | _, [] => True
  | _, (_, none) :: _ => True
  | n, (diff, some copy) :: rest =>
    0 < diff.length + copy ∧ diff.length + copy ≤ n ∧ CopiesFit (n - (diff.length + copy)) rest

theorem numeral_varint {n : ℕ} (h : n < 2 ^ 64) : Numeral (varint n) n := by
  obtain ⟨hvarint, hvalue⟩ := isVarint_varint n
  exact ⟨hvarint, hvalue, length_varint_le_of_lt (k := 9) (h.trans (by decide)), h⟩

theorem Numeral.length_pos {p : Bytes} {n : ℕ} (h : Numeral p n) : 0 < p.length := by
  cases p with
  | nil => exact h.isVarint.elim
  | cons b p => exact Nat.succ_pos _

theorem Numeral.parses {p : Bytes} {n : ℕ} (h : Numeral p n) (hr : r.Inside L) {ptr : ℕ}
    (hlo : r.lo ≤ ptr) (hend : ptr + p.length ≤ r.hi) (hocc : OccursAt patch ptr p) :
    Parses r.stream ptr p n (readVarint L r ptr) := by
  have hread := readVarint_isVarint hr h.isVarint hlo hend hocc h.length_le (h.value.symm ▸ h.lt)
  rwa [h.value] at hread

/-- Runs that tile a block are runs that end with it. -/
theorem reaches_of_tiles {n : ℕ} {runs : Runs} (h : Tiles n runs) : Reaches n runs ∧ CopiesFit n runs := by
  induction runs generalizing n with
  | nil => exact ⟨h, trivial⟩
  | cons run rest ih =>
    obtain ⟨diff, _ | copy⟩ := run
    · exact ⟨⟨h.1, h.2.1.ge, h.2.2⟩, trivial⟩
    · obtain ⟨hlt, hpos, hle, hrest⟩ := h
      obtain ⟨hreach, hfit⟩ := ih hrest
      exact ⟨⟨hlt, hreach⟩, hpos, hle, hfit⟩

theorem spells_of_tiles {n : ℕ} {runs : Runs} (hn : n < 2 ^ 64) (h : Tiles n runs) :
    List.Forall₂ SpellsRun (runs.map runBytes) runs := by
  induction runs generalizing n with
  | nil => exact List.Forall₂.nil
  | cons run rest ih =>
    obtain ⟨diff, _ | copy⟩ := run
    · obtain ⟨-, hlen, rfl⟩ := h
      have hadd : Numeral (varint diff.length) diff.length := numeral_varint (by omega)
      have hlast := SpellsRun.last hadd
      refine List.Forall₂.cons ?_ List.Forall₂.nil
      simpa only [runBytes, Option.map_none, Option.getD_none, List.append_nil] using hlast
    · obtain ⟨hlt, -, hle, hrest⟩ := h
      have hadd : Numeral (varint diff.length) diff.length := numeral_varint (by omega)
      exact List.Forall₂.cons (SpellsRun.copy hadd (numeral_varint (by omega))) (ih (by omega) hrest)

/-- What a pass of the loop does behind its copy-add run. -/
def sparseTail (L : Layout patch) (r : Region) (fuel addLen : ℕ) (t : SparseState) :
    Dec SparseState :=
  if L.blockSize ≤ t.outPos then pure t
  else do
    let (copyLen, cursor) ← readVarint L r t.cursor
    if L.blockSize - t.outPos < copyLen then fail .corruptData
    else if addLen = 0 ∧ copyLen = 0 ∧ t.outPos + copyLen < L.blockSize then fail .corruptData
    else sparseLoop L r fuel ⟨cursor, t.outPos + copyLen, t.buf⟩

/-- The copy-add run of a pass: its length and its bytes are read, and added as far as the
block goes. -/
theorem sparseLoop_adds (hr : r.Inside L) {addLen diff : Bytes} {t : SparseState} (fuel : ℕ)
    (hadd : Numeral addLen diff.length) (hbuf : t.buf.length = L.blockSize)
    (hopen : t.outPos < L.blockSize) (hlo : r.lo ≤ t.cursor)
    (hend : t.cursor + (addLen ++ diff).length ≤ r.hi)
    (hocc : OccursAt patch t.cursor (addLen ++ diff)) {Q : SparseState → Output → Prop}
    {E : Stop → Output → Prop}
    (h : Ends (sparseTail L r fuel diff.length
        ⟨t.cursor + (addLen ++ diff).length, min (t.outPos + diff.length) L.blockSize,
          addAt t.buf t.outPos (diff.take (L.blockSize - t.outPos))⟩
        (s.logReads (List.range' t.cursor (addLen ++ diff).length) r.stream)) Q E) :
    Ends (sparseLoop L r (fuel + 1) t s) Q E := by
  rw [List.length_append] at hend h
  rw [occursAt_append] at hocc
  obtain ⟨hlen, hbytes⟩ := hocc
  apply ends_ite
  · intro _
    apply ((hadd.parses hr hlo (by omega) hlen s).of_total).bind
    intro _ _ hpost
    obtain ⟨rfl, rfl⟩ := hpost
    refine ends_ite (fun h => absurd h (by omega)) fun _ => ?_
    have hrun := addRun_adds (t := ⟨t.cursor + addLen.length, t.outPos, t.buf⟩)
      (s := s.logReads (List.range' t.cursor addLen.length) r.stream)
      hr diff.length hbuf (by dsimp only; omega) (by dsimp only; omega) hopen.le
    apply hrun.of_total.bind
    intro _ _ hpost
    obtain ⟨rfl, rfl⟩ := hpost
    dsimp only
    rw [hbytes.window_eq, logReads_range', add_assoc]
    exact h
  · exact fun hout => absurd hopen hout

theorem sparseTail_copies (hr : r.Inside L) {copyLen : Bytes} {n : ℕ} {t : SparseState}
    (fuel addLen : ℕ) (hcopy : Numeral copyLen n) (hopen : t.outPos < L.blockSize)
    (hlo : r.lo ≤ t.cursor) (hend : t.cursor + copyLen.length ≤ r.hi)
    (hocc : OccursAt patch t.cursor copyLen) {Q : SparseState → Output → Prop}
    {E : Stop → Output → Prop}
    (hbad : ¬ (0 < addLen + n ∧ t.outPos + n ≤ L.blockSize) → ∀ s', E (.fail .corruptData) s')
    (h : 0 < addLen + n → t.outPos + n ≤ L.blockSize →
      Ends (sparseLoop L r fuel ⟨t.cursor + copyLen.length, t.outPos + n, t.buf⟩
        (s.logReads (List.range' t.cursor copyLen.length) r.stream)) Q E) :
    Ends (sparseTail L r fuel addLen t s) Q E := by
  refine ends_ite (fun hfull => absurd hfull (not_le.mpr hopen)) fun _ => ?_
  apply ((hcopy.parses hr hlo hend hocc s).of_total).bind
  intro _ _ hpost
  obtain ⟨rfl, rfl⟩ := hpost
  refine ends_ite (fun hlong => hbad (by omega) _) fun hfits => ?_
  refine ends_ite (fun hempty => hbad (by omega) _) fun hmoves => ?_
  exact h (by omega) (by omega)

theorem addAt_fills {buf diff : Bytes} {pos : ℕ} (hpos : pos ≤ buf.length)
    (h : buf.length - pos ≤ diff.length) :
    addAt buf pos (diff.take (buf.length - pos)) = buf.take pos ++ applyRuns (buf.drop pos) [(diff, none)] := by
  have hlen : (diff.take (buf.length - pos)).length = buf.length - pos := by
    rw [List.length_take]
    omega
  have hall : (buf.drop pos).take diff.length = buf.drop pos :=
    List.take_of_length_le (by rw [List.length_drop]; omega)
  have hsame : (buf.drop pos).take (buf.length - pos) = buf.drop pos :=
    List.take_of_length_le (by rw [List.length_drop])
  have hend : buf.drop (pos + (buf.length - pos)) = [] := List.drop_eq_nil_of_le (by omega)
  have hcut : List.zipWith (· + ·) (buf.drop pos) diff =
      List.zipWith (· + ·) (buf.drop pos) (diff.take (buf.length - pos)) := by
    rw [List.zipWith_eq_zipWith_take_min, List.length_drop, min_eq_left h, hsame]
  rw [addAt_eq _ _ _ (by rw [hlen]; omega), hlen, hsame, hend, applyRuns, hall, hcut]
  simp only [applyRuns, Option.getD_none, List.take_zero, List.append_nil]

/-- Runs that end with the block decode to what they denote, the last one cut at the end of the
block if it is a copy-add run; other runs are corrupt. -/
theorem sparseLoop_runs (hr : r.Inside L) {ps : List Bytes} {runs : Runs}
    (hspell : List.Forall₂ SpellsRun ps runs) {fuel : ℕ} {t : SparseState}
    (hbuf : t.buf.length = L.blockSize) (hout : t.outPos ≤ L.blockSize)
    (hreach : Reaches (L.blockSize - t.outPos) runs) (hfuel : runs.length ≤ fuel)
    (hlo : r.lo ≤ t.cursor) (hend : t.cursor + ps.flatten.length ≤ r.hi)
    (hocc : OccursAt patch t.cursor ps.flatten) :
    Ends (sparseLoop L r fuel t s)
      (fun t' s' => CopiesFit (L.blockSize - t.outPos) runs ∧
        t' = ⟨t.cursor + ps.flatten.length, L.blockSize,
          t.buf.take t.outPos ++ applyRuns (t.buf.drop t.outPos) runs⟩ ∧
        s' = s.logReads (List.range' t.cursor ps.flatten.length) r.stream)
      (fun e _ => ¬ CopiesFit (L.blockSize - t.outPos) runs ∧ e = .fail .corruptData) := by
  induction hspell generalizing fuel t s with
  | nil =>
    have hfull : t.outPos = L.blockSize := by
      simp only [Reaches] at hreach
      omega
    have hdone : sparseLoop L r fuel t = pure t := by
      cases fuel <;> rw [sparseLoop, if_neg (by omega)]
    rw [hdone]
    refine ⟨trivial, ?_, by simp⟩
    obtain ⟨cursor, outPos, buf⟩ := t
    dsimp only at hfull hbuf
    simp [applyRuns, hfull, ← hbuf]
  | @cons p run ps rest hrun hrest ih =>
    rw [List.length_cons] at hfuel
    obtain ⟨fuel, rfl⟩ : ∃ n, fuel = n + 1 := ⟨fuel - 1, by omega⟩
    rw [List.flatten_cons, occursAt_append] at hocc
    rw [List.flatten_cons, List.length_append] at hend ⊢
    obtain ⟨hocc₁, hocc₃⟩ := hocc
    cases hrun with
    | @last addLen diff hadd =>
      obtain ⟨hopen, hle, rfl⟩ := hreach
      cases hrest
      apply sparseLoop_adds hr fuel hadd hbuf (by omega) hlo (by omega) hocc₁
      have hfull : min (t.outPos + diff.length) L.blockSize = L.blockSize := by omega
      rw [hfull]
      refine ends_ite (fun _ => ?_) fun h => absurd le_rfl h
      refine ⟨trivial, ?_, by simp⟩
      rw [← hbuf, addAt_fills (by omega) (by omega)]
      simp
    | @copy addLen diff copyLen n hadd hcopy =>
      obtain ⟨hlt, hreach⟩ := hreach
      rw [occursAt_append] at hocc₁
      obtain ⟨hocc₁, hocc₂⟩ := hocc₁
      rw [List.length_append] at hend hocc₃ ⊢
      rw [← add_assoc] at hocc₃
      apply sparseLoop_adds hr fuel hadd hbuf (by omega) hlo (by omega) hocc₁
      have hpos : min (t.outPos + diff.length) L.blockSize = t.outPos + diff.length := by omega
      rw [hpos, List.take_of_length_le (by omega)]
      generalize (addLen ++ diff).length = head at hend hocc₂ hocc₃
      apply sparseTail_copies hr fuel diff.length hcopy (by dsimp only; omega) (by dsimp only; omega)
        (by dsimp only; omega) hocc₂
      · intro hbad _
        refine ⟨fun hfit => hbad ⟨hfit.1, ?_⟩, rfl⟩
        have hle := hfit.2.1
        dsimp only
        omega
      intro hmoves hle
      dsimp only at hle ⊢
      have hleft : L.blockSize - (t.outPos + diff.length + n) =
          L.blockSize - t.outPos - (diff.length + n) := by omega
      have hbuf' : (addAt t.buf t.outPos diff).length = L.blockSize := by simpa using hbuf
      have hloop := ih (s := ((s.logReads (List.range' t.cursor head) r.stream).logReads
          (List.range' (t.cursor + head) copyLen.length) r.stream))
        (t := ⟨t.cursor + head + copyLen.length, t.outPos + diff.length + n,
          addAt t.buf t.outPos diff⟩)
        hbuf' (by dsimp only; omega) (by dsimp only; rwa [hleft])
        (Nat.le_of_succ_le_succ hfuel) (by dsimp only; omega) (by dsimp only; omega) hocc₃
      dsimp only at hloop
      rw [hleft] at hloop
      refine hloop.mono ?_ (fun e s' h => ⟨fun hfit => h.1 hfit.2.2, h.2⟩)
      intro _ _ hpost
      obtain ⟨hfit, rfl, rfl⟩ := hpost
      refine ⟨⟨by omega, by omega, hfit⟩, ?_, ?_⟩
      · rw [applyRuns_after_add (by omega), add_assoc t.cursor, add_assoc t.cursor]
      · rw [logReads_range', logReads_range', add_assoc head]

theorem length_le_flatten {ps : List Bytes} {runs : Runs} (h : List.Forall₂ SpellsRun ps runs) :
    runs.length ≤ ps.flatten.length := by
  induction h with
  | nil => exact le_rfl
  | cons hrun _ ih =>
    rw [List.length_cons, List.flatten_cons, List.length_append]
    cases hrun with
    | last hadd =>
      have := hadd.length_pos
      rw [List.length_append]
      omega
    | copy hadd hcopy =>
      have := hcopy.length_pos
      rw [List.length_append]
      omega

theorem sparseBlock_runs (hr : r.Inside L) {ps : List Bytes} {runs : Runs}
    (hspell : List.Forall₂ SpellsRun ps runs) {cursor : ℕ} {buf : Bytes}
    (hbuf : buf.length = L.blockSize) (hreach : Reaches L.blockSize runs) (hlo : r.lo ≤ cursor)
    (hend : cursor + ps.flatten.length ≤ r.hi) (hocc : OccursAt patch cursor ps.flatten) :
    Ends (sparseBlock L r cursor buf s)
      (fun t s' => CopiesFit L.blockSize runs ∧ t.cursor = cursor + ps.flatten.length ∧
        t.buf = applyRuns buf runs ∧
        s' = s.logReads (List.range' cursor ps.flatten.length) r.stream)
      (fun e _ => ¬ CopiesFit L.blockSize runs ∧ e = .fail .corruptData) := by
  have hlen := length_le_flatten hspell
  apply (sparseLoop_runs (t := ⟨cursor, 0, buf⟩) hr hspell hbuf (Nat.zero_le _) hreach (by omega) hlo
    hend hocc).imp
  intro _ _ hpost
  obtain ⟨hfit, rfl, rfl⟩ := hpost
  exact ⟨hfit, rfl, rfl, rfl⟩

theorem sparseBlock_tiles (hr : r.Inside L) {runs : Runs} {cursor : ℕ} {buf : Bytes}
    (hbuf : buf.length = L.blockSize) (htile : Tiles L.blockSize runs) (hlo : r.lo ≤ cursor)
    (hend : cursor + (runs.flatMap runBytes).length ≤ r.hi)
    (hocc : OccursAt patch cursor (runs.flatMap runBytes)) :
    Ends (sparseBlock L r cursor buf s)
      (fun t s' => t.cursor = cursor + (runs.flatMap runBytes).length ∧ t.buf = applyRuns buf runs ∧
        s' = s.logReads (List.range' cursor (runs.flatMap runBytes).length) r.stream)
      (fun _ _ => False) := by
  have hb := L.blockSize_le
  obtain ⟨hreach, hfit⟩ := reaches_of_tiles htile
  rw [List.flatMap_def] at hend hocc ⊢
  exact (sparseBlock_runs hr (spells_of_tiles (by omega) htile) hbuf hreach hlo hend hocc).mono
    (fun _ _ h => h.2) (fun _ _ h => h.1 hfit)

end Blocks

end Fsdiff.Patch
