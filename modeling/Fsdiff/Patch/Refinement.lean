import Fsdiff.Patch.Blocks

/-! The decoder against the specification: on any operations of the format, spelled
in any legal way, `fsd_patch_apply` computes `apply_patch`. One lemma per operation
says when it completes, what it writes and how far it moves; a run is the
concatenation of these. -/
namespace Fsdiff.Patch
open ByteString Exec Format

section Operations
variable {src patch : Bytes} {L : Layout patch} {s : Output} {c : Cursors} {e : Enc} {op : Op}

/-- The next operation of the patch is `op`, spelled with `e`. -/
structure Placed (L : Layout patch) (e : Enc) (op : Op) (c : Cursors) : Prop where
  legal : Legal L.blockSize e op
  op_ge : headerSize ≤ c.opPtr
  op_le : c.opPtr + (op.bytes e).length ≤ L.opEnd
  op_occurs : OccursAt patch c.opPtr (op.bytes e)
  diff_ge : L.opEnd ≤ c.diffPtr
  diff_le : c.diffPtr + op.diffBytes.length ≤ L.diffEnd
  diff_occurs : OccursAt patch c.diffPtr op.diffBytes
  lit_ge : L.diffEnd ≤ c.litPtr
  dest_le : c.destBlock + op.count ≤ L.destBlocks
  image_le : L.destBlocks * L.blockSize ≤ 2 ^ 62

def Cursors.after (L : Layout patch) (e : Enc) (op : Op) (c : Cursors) : Cursors :=
  ⟨c.opPtr + (op.bytes e).length, c.diffPtr + op.diffBytes.length,
    c.litPtr + op.litLen L.blockSize, c.destBlock + op.count⟩

/-- The operation wrote what it denotes and read its own bytes of each stream. -/
def Done (src : Bytes) (L : Layout patch) (e : Enc) (op : Op) (c : Cursors) (s : Output)
    (c' : Cursors) (s' : Output) : Prop :=
  c' = c.after L e op ∧ ∃ out,
    applyOperation L.blockSize src c.destBlock (patch.drop c.litPtr) op =
      some (out, patch.drop c'.litPtr) ∧
    Grows s s' out (List.range' c.opPtr (op.bytes e).length)
      (List.range' c.diffPtr op.diffBytes.length)
      (List.range' c.litPtr (op.litLen L.blockSize))

/-- The operation has no meaning here: it leaves the source or the literals. -/
def Undefined (src : Bytes) (L : Layout patch) (op : Op) (c : Cursors) : Prop :=
  applyOperation L.blockSize src c.destBlock (patch.drop c.litPtr) op = none

/-- An operation whose count follows the first byte, up to its `switch`. -/
theorem applyOp_counted (h : Placed L e op c) (hop : op.type ≠ opCopyAdd)
    (rest : Bytes) (hfields : op.fields e = e.count.bytes op.count ++ rest)
    (hlow : e.count = .inline → op.flags e = op.count - 1)
    {Q : Cursors → Output → Prop} {E : Stop → Output → Prop}
    (hk : Ends (applyCounted (reliable src) L (op.firstByte e) op.count
        (c.opPtr + 1 + (e.count.bytes op.count).length) c
        (s.logReads (List.range' c.opPtr (1 + (e.count.bytes op.count).length)) .op)) Q E) :
    Ends (applyOp (reliable src) L c s) Q E := by
  obtain ⟨htype, hcount, -, -, hbits⟩ := firstByte_fields h.legal
  have hle := h.op_le
  have hge := h.op_ge
  have hdest := h.dest_le
  have hocc := h.op_occurs
  rw [Op.bytes, occursAt_cons, hfields, occursAt_append] at hocc
  rw [Op.bytes, hfields, List.length_cons, List.length_append] at hle
  apply ((readByte_ends opRegion_inside hge (show c.opPtr < L.opEnd by omega)).of_total).bind
  intro b _ hpost
  obtain ⟨hb, rfl⟩ := hpost
  obtain rfl : b = op.firstByte e := Option.some.inj (hb.symm.trans hocc.1)
  refine ends_ite (fun h4 => absurd (htype.symm.trans h4) hop) fun _ => ?_
  have hparse := readCount_parses (L := L) hcount (fun he => hbits.trans (hlow he)) h.legal.1
    h.legal.2.1 (by omega) (by omega) hocc.2.1
  apply ((hparse _).of_total).bind
  intro _ _ hpost
  obtain ⟨rfl, rfl⟩ := hpost
  refine ends_ite (fun h => absurd h (by omega)) fun _ => ?_
  change Ends (applyCounted _ _ _ _ _ _
    ((s.logReads (List.range' c.opPtr 1) .op).logReads (List.range' (c.opPtr + 1) _) .op)) _ _
  rw [logReads_range']
  exact hk

/-- The branch of a `switch` that writes `out` and reads nothing more of the
operation stream is the whole operation. -/
theorem done_of_counted (op : Op) {out : Bytes} {n : ℕ} {s' : Output} {lits : List ℕ}
    (hfields : op.fields e = e.count.bytes n) (hdiff : op.diffBytes = [])
    (happly : applyOperation L.blockSize src c.destBlock (patch.drop c.litPtr) op =
      some (out, patch.drop (c.litPtr + op.litLen L.blockSize)))
    (hlits : lits = List.range' c.litPtr (op.litLen L.blockSize))
    (hg : Grows (s.logReads (List.range' c.opPtr (1 + (e.count.bytes n).length)) .op) s' out [] []
      lits) :
    Done src L e op c s ⟨c.opPtr + 1 + (e.count.bytes n).length, c.diffPtr,
      c.litPtr + op.litLen L.blockSize, c.destBlock + op.count⟩ s' := by
  have hlen : (op.bytes e).length = 1 + (e.count.bytes n).length := by
    rw [Op.bytes, hfields, List.length_cons, add_comm]
  refine ⟨?_, out, happly, ?_⟩
  · rw [Cursors.after, hlen, hdiff, List.length_nil, add_zero, ← add_assoc]
  · rw [hlen, hdiff, ← hlits]
    simpa using (grows_logReads_op s _).trans hg

theorem applyOp_copyIdentity {n : ℕ} (h : Placed L e (.copyIdentity n) c) :
    Ends (applyOp (reliable src) L c s) (Done src L e (.copyIdentity n) c s)
      (fun _ _ => Undefined src L (.copyIdentity n) c) := by
  have hdest : c.destBlock + n ≤ L.destBlocks := h.dest_le
  have htype : opTypeOf ((Op.copyIdentity n).firstByte e) = 0 := (firstByte_fields h.legal).1
  refine applyOp_counted h (by simp [Op.type, opCopyIdentity, opCopyAdd]) []
    (List.append_nil _).symm (fun he => if_pos he) ?_
  rw [applyCounted, htype]
  refine ((forBlocks_copyIdentity h.legal.1 hdest).weaken
    (fun _ s' hout => ?_)).bind ?_
  · exact congrArg (Option.map _) hout
  · intro _ s' hpost
    obtain ⟨out, hout, hg⟩ := hpost
    exact ends_pure.mpr (done_of_counted (.copyIdentity n) rfl rfl
      (congrArg (Option.map _) hout) rfl hg)

/-- The two operations that write constant blocks. -/
private theorem applyOp_fills {n : ℕ} {v : UInt8} (h : Placed L e op c)
    (hcount : op.count = n) (hop : op.type ≠ opCopyAdd) (hfields : op.fields e = e.count.bytes n)
    (hflags : e.count = .inline → op.flags e = n - 1) (hdiff : op.diffBytes = [])
    (hlit : op.litLen L.blockSize = 0)
    (hswitch : ∀ p, applyCounted (reliable src) L (op.firstByte e) n p c =
      (do
        forBlocks n fun _ => writeBlock (reliable src) (List.replicate L.blockSize v)
        pure ⟨p, c.diffPtr, c.litPtr, c.destBlock + n⟩ : Dec Cursors))
    (happly : ∀ lits, applyOperation L.blockSize src c.destBlock lits op =
      some (List.replicate (n * L.blockSize) v, lits)) :
    Ends (applyOp (reliable src) L c s) (Done src L e op c s)
      (fun _ _ => Undefined src L op c) := by
  subst hcount
  refine applyOp_counted h hop [] (by rw [hfields, List.append_nil]) hflags ?_
  rw [hswitch]
  apply ((forBlocks_fills _ v).of_total).bind
  intro _ s' hg
  have hd : Done src L e op c s _ s' := done_of_counted op hfields hdiff
    (by rw [happly, hlit, add_zero]) (by rw [hlit]; rfl) hg
  rw [hlit, add_zero] at hd
  exact ends_pure.mpr hd

theorem applyOp_zero {n : ℕ} (h : Placed L e (.zero n) c) :
    Ends (applyOp (reliable src) L c s) (Done src L e (.zero n) c s)
      (fun _ _ => Undefined src L (.zero n) c) := by
  have htype : opTypeOf ((Op.zero n).firstByte e) = 2 := (firstByte_fields h.legal).1
  refine applyOp_fills (v := 0x00) h rfl (by simp [Op.type, opZero, opCopyAdd]) rfl
    (fun he => if_pos he) rfl rfl (fun p => ?_) fun _ => rfl
  rw [applyCounted, htype]
  rfl

theorem applyOp_one {n : ℕ} (h : Placed L e (.one n) c) :
    Ends (applyOp (reliable src) L c s) (Done src L e (.one n) c s)
      (fun _ _ => Undefined src L (.one n) c) := by
  have htype : opTypeOf ((Op.one n).firstByte e) = 3 := (firstByte_fields h.legal).1
  refine applyOp_fills (v := 0xFF) h rfl (by simp [Op.type, opOne, opCopyAdd]) rfl
    (fun he => if_pos he) rfl rfl (fun p => ?_) fun _ => rfl
  rw [applyCounted, htype]
  rfl

theorem applyOp_literal {n : ℕ} (h : Placed L e (.literal n) c) :
    Ends (applyOp (reliable src) L c s) (Done src L e (.literal n) c s)
      (fun _ _ => Undefined src L (.literal n) c) := by
  have htype : opTypeOf ((Op.literal n).firstByte e) = 5 := (firstByte_fields h.legal).1
  have hn : 1 ≤ n := h.legal.1
  have hpos : 0 < n * L.blockSize := Nat.mul_pos hn (lt_of_lt_of_le (by decide) L.blockSize_ge)
  refine applyOp_counted h (by simp [Op.type, opLiteral, opCopyAdd]) []
    (List.append_nil _).symm (fun he => if_pos he) ?_
  rw [applyCounted, htype]
  refine ((iterM_writeLiteral n hn h.lit_ge).weaken
    (fun _ s' hout => ?_)).bind ?_
  · rw [Undefined, applyOperation, if_neg]
    rw [List.length_drop]
    omega
  · intro p s' hpost
    obtain ⟨rfl, hle, hg⟩ := hpost
    refine ends_pure.mpr (done_of_counted (.literal n) rfl rfl ?_ rfl hg)
    rw [applyOperation, if_pos (by rw [List.length_drop]; omega), List.drop_drop]
    rfl

theorem signedOffset_abs_le {negative : Bool} {distance : ℕ} (h : distance ≤ uint32Max) :
    |signedOffset negative distance| ≤ 2 ^ 32 - 1 := by
  have hd : (distance : ℤ) ≤ 2 ^ 32 - 1 := by
    have : distance ≤ 2 ^ 32 - 1 := h
    omega
  cases negative with
  | false => rwa [signedOffset, if_neg (by decide), abs_of_nonneg (by omega)]
  | true => rwa [signedOffset, if_pos rfl, abs_neg, abs_of_nonneg (by omega)]

theorem applyOp_copyRelocate {n distance : ℕ} {negative : Bool}
    (h : Placed L e (.copyRelocate n negative distance) c) :
    Ends (applyOp (reliable src) L c s) (Done src L e (.copyRelocate n negative distance) c s)
      (fun _ _ => Undefined src L (.copyRelocate n negative distance) c) := by
  have hdest : c.destBlock + n ≤ L.destBlocks := h.dest_le
  obtain ⟨htype, -, hoff, hlow, -⟩ := firstByte_fields h.legal
  obtain ⟨hn, -, hinline, hfit⟩ := h.legal
  have hocc := h.op_occurs
  have hle := h.op_le
  have hge := h.op_ge
  rw [Op.bytes, occursAt_cons, Op.fields, occursAt_append] at hocc
  simp only [Op.bytes, Op.fields, List.length_cons, List.length_append, length_leBytes] at hle
  have hwide : distance ≤ uint32Max := by
    have hw : 256 ^ e.offset.relocateWidth ≤ 2 ^ 32 := by cases e.offset <;> decide
    have : uint32Max = 2 ^ 32 - 1 := rfl
    omega
  refine applyOp_counted h (by simp [Op.type, opCopyRelocate, opCopyAdd])
    (leBytes e.offset.relocateWidth distance) rfl (fun he => absurd he hinline) ?_
  rw [applyCounted, show opTypeOf ((Op.copyRelocate n negative distance).firstByte e) = 1 from htype]
  have hcode := offset_code_lt e.offset
  have hneg := Bool.toNat_lt negative
  have hparse := readRelocateOffset_parses (L := L) negative
    (by rw [hoff, Op.flags]; omega) (by rw [hlow, Op.flags]; omega) hfit (by omega) (by omega) hocc.2.2
  apply ((hparse _).of_total).bind
  intro _ _ hpost
  obtain ⟨rfl, rfl⟩ := hpost
  dsimp only [Op.count]
  rw [add_assoc c.opPtr, logReads_range']
  refine ((forBlocks_copyRelocate hn hdest (signedOffset_abs_le hwide)).weaken
    (fun _ s' hout => ?_)).bind ?_
  · exact congrArg (Option.map _) hout
  · intro _ s' hpost
    obtain ⟨out, hout, hg⟩ := hpost
    have hlen : ((Op.copyRelocate n negative distance).bytes e).length =
        1 + (e.count.bytes n).length + (leBytes e.offset.relocateWidth distance).length := by
      simp only [Op.bytes, Op.fields, List.length_cons, List.length_append]
      omega
    refine ends_pure.mpr ⟨?_, out, congrArg (Option.map _) hout, ?_⟩
    · rw [Cursors.after, hlen, add_assoc c.opPtr]
      rfl
    · rw [hlen]
      simpa [Op.diffBytes, Op.litLen] using (grows_logReads_op s _).trans hg

theorem byteOffset_int32 {w : OffsetEnc} {byteOffset : ℤ}
    (hl : -2 ^ (8 * w.byteOffsetWidth - 1) ≤ byteOffset)
    (hu : byteOffset < 2 ^ (8 * w.byteOffsetWidth - 1)) :
    -2 ^ 31 ≤ byteOffset ∧ byteOffset < 2 ^ 31 := by
  cases w <;> simp only [OffsetEnc.byteOffsetWidth] at hl hu <;> norm_num at hl hu <;> omega

theorem count_code_ne {w : CountEnc} (h : w ≠ .inline) : w.code ≠ 3 := by
  cases w with
  | inline => exact absurd rfl h
  | _ => decide

theorem applyOp_copyAdd {n : ℕ} {byteOffset : ℤ} {diff : Diff}
    (h : Placed L e (.copyAdd n byteOffset diff) c) :
    Ends (applyOp (reliable src) L c s) (Done src L e (.copyAdd n byteOffset diff) c s)
      (fun _ _ => Undefined src L (.copyAdd n byteOffset diff) c) := by
  have hdest : c.destBlock + n ≤ L.destBlocks := h.dest_le
  obtain ⟨htype, hcount, hoff, hlow, -⟩ := firstByte_fields h.legal
  obtain ⟨hn, hmax, hinline, hl, hu, hlen32, hfits⟩ := h.legal
  have hcode := offset_code_lt e.offset
  have hfmt : diff.fmt ≤ 1 := by cases diff <;> simp [Diff.fmt]
  have hge := h.op_ge
  have hle := h.op_le
  have hocc := h.op_occurs
  rw [Op.bytes, occursAt_cons, Op.fields, List.append_assoc, occursAt_append, occursAt_append] at hocc
  obtain ⟨hocc₀, hocc₁, hocc₂, hocc₃⟩ := hocc
  simp only [Op.bytes, Op.fields, List.length_cons, List.length_append, length_leBytes] at hle
  simp only [length_leBytes] at hocc₂ hocc₃
  have hlen : ((Op.copyAdd n byteOffset diff).bytes e).length =
      1 + (e.offset.byteOffsetWidth + ((e.count.bytes n).length + 4)) := by
    simp only [Op.bytes, Op.fields, List.length_cons, List.length_append, length_leBytes]
    omega
  apply ((readByte_ends opRegion_inside hge (show c.opPtr < L.opEnd by omega)).of_total).bind
  intro b _ hpost
  obtain ⟨hb, rfl⟩ := hpost
  obtain rfl : b = _ := Option.some.inj (hb.symm.trans hocc₀)
  refine ends_ite (fun _ => ?_) fun h4 => absurd htype h4
  refine ends_ite (fun h3 => absurd (hcount.symm.trans h3) (count_code_ne hinline)) fun _ => ?_
  have hparse₁ := readByteOffset_parses (L := L) (by rw [hoff, Op.flags]; omega) hl hu (by omega)
    (by omega) hocc₁
  apply ((hparse₁ _).of_total).bind
  intro _ _ hpost
  obtain ⟨rfl, rfl⟩ := hpost
  dsimp only
  rw [length_leBytes]
  have hparse₂ := readCopyAddCount_parses (L := L)
    (c.opPtr + 1 + e.offset.byteOffsetWidth) hcount hinline hn hmax (by omega)
    (by change _ + (e.count.bytes n).length ≤ _; omega) hocc₂
  apply ((hparse₂ _).of_total).bind
  intro _ _ hpost
  obtain ⟨rfl, rfl⟩ := hpost
  dsimp only [Op.count]
  refine ends_ite (fun h => absurd h (by omega)) fun _ => ?_
  have hparse₃ := readLe_parses (L := L) (k := 4) (n := diff.bytes.length)
    (lt_of_le_of_lt hlen32 (by decide)) (by omega) (by omega) hocc₃
  apply ((hparse₃ _).of_total).bind
  intro _ _ hpost
  obtain ⟨rfl, rfl⟩ := hpost
  have hdiff : c.diffPtr + diff.bytes.length ≤ L.diffEnd := h.diff_le
  refine ends_ite (fun h => absurd h (not_lt.mpr hdiff)) fun _ => ?_
  obtain ⟨hl32, hu32⟩ := byteOffset_int32 hl hu
  have hin : CopyAddInside L ⟨.diff, c.diffPtr, c.diffPtr + diff.bytes.length⟩ c.destBlock n
      byteOffset := ⟨⟨h.diff_ge, hdiff⟩, rfl, hn, hdest, h.image_le, hl32, hu32⟩
  rw [show lowBitOf _ = diff.fmt by rw [hlow, Op.flags]; omega]
  apply ((iterM_diff hin hfits rfl h.diff_occurs).weaken
    (fun _ s' hout => congrArg (Option.map _) hout)).bind
  intro _ s' hpost
  obtain ⟨copied, hcopy, hg⟩ := hpost
  refine ends_pure.mpr ⟨?_, _, congrArg (Option.map _) hcopy, ?_⟩
  · rw [Cursors.after, hlen, length_leBytes]
    simp only [Op.diffBytes, Op.litLen, Op.count, add_assoc, add_zero]
  · have hlog : [c.opPtr] ++ (List.range' (c.opPtr + 1) e.offset.byteOffsetWidth ++
        (List.range' (c.opPtr + 1 + e.offset.byteOffsetWidth) (e.count.bytes n).length ++
        List.range' (c.opPtr + 1 + e.offset.byteOffsetWidth + (e.count.bytes n).length) 4)) =
        List.range' c.opPtr ((Op.copyAdd n byteOffset diff).bytes e).length := by
      rw [hlen, ← List.range'_append_1, ← List.range'_append_1, ← List.range'_append_1]
      rfl
    rw [length_leBytes, show L.opRegion.stream = .op from rfl, Output.logReads_append,
      Output.logReads_append, Output.logReads_append, hlog] at hg
    simpa [Op.diffBytes, Op.litLen] using (grows_logReads_op s _).trans hg

theorem applyOp_done (src : Bytes) (h : Placed L e op c) :
    Ends (applyOp (reliable src) L c s) (Done src L e op c s)
      (fun _ _ => Undefined src L op c) := by
  cases op with
  | copyIdentity n => exact applyOp_copyIdentity h
  | copyRelocate n negative distance => exact applyOp_copyRelocate h
  | zero n => exact applyOp_zero h
  | one n => exact applyOp_one h
  | copyAdd n byteOffset diff => exact applyOp_copyAdd h
  | literal n => exact applyOp_literal h

end Operations

/-! ### Runs -/

section Runs
variable {src patch : Bytes} {L : Layout patch} {s : Output} {c : Cursors}

/-- What is left of the patch is the rest of a script. -/
structure Ready (L : Layout patch) (script : Script) (c : Cursors) : Prop where
  legal : ∀ x ∈ script, Legal L.blockSize x.2 x.1
  op_ge : headerSize ≤ c.opPtr
  op_end : c.opPtr + (opStream script).length = L.opEnd
  op_occurs : OccursAt patch c.opPtr (opStream script)
  diff_ge : L.opEnd ≤ c.diffPtr
  diff_end : c.diffPtr + (diffStream script).length = L.diffEnd
  diff_occurs : OccursAt patch c.diffPtr (diffStream script)
  lit_ge : L.diffEnd ≤ c.litPtr
  dest_end : c.destBlock + totalCount (script.map Prod.fst) = L.destBlocks
  image_le : L.destBlocks * L.blockSize ≤ 2 ^ 62

/-- The first operation is next, and behind it the rest of the script. -/
theorem Ready.cons {op : Op} {e : Enc} {script : Script} (h : Ready L ((op, e) :: script) c) :
    Placed L e op c ∧ Ready L script (c.after L e op) := by
  have hop := h.op_end
  have hdiff := h.diff_end
  have hdest := h.dest_end
  have hocc := h.op_occurs
  have hdocc := h.diff_occurs
  rw [opStream_cons, List.length_append] at hop
  rw [diffStream_cons, List.length_append] at hdiff
  rw [List.map_cons, totalCount_cons] at hdest
  dsimp only at hdest
  rw [opStream_cons, occursAt_append] at hocc
  rw [diffStream_cons, occursAt_append] at hdocc
  have hge := h.op_ge
  have hdge := h.diff_ge
  have hlge := h.lit_ge
  constructor
  · exact ⟨h.legal (op, e) List.mem_cons_self, hge, by omega, hocc.1, hdge, by omega, hdocc.1, hlge,
      by omega, h.image_le⟩
  · refine ⟨fun x hx => h.legal x (List.mem_cons_of_mem _ hx), ?_, ?_, hocc.2, ?_, ?_, hdocc.2, ?_, ?_,
      h.image_le⟩
    all_goals simp only [Cursors.after]
    all_goals omega

theorem Ready.running {op : Op} {e : Enc} {script : Script} (h : Ready L ((op, e) :: script) c) :
    Running L c := by
  have hp := h.cons.1
  have hone := hp.legal.1
  have hdest := hp.dest_le
  have hle := hp.op_le
  rw [Op.bytes, List.length_cons] at hle
  exact ⟨by omega, by omega⟩

/-- A run over a script: it completes exactly when the script has a meaning, writes
that meaning, and reads every byte of its operations, diffs and literals in order. -/
theorem opLoop_script (src : Bytes) (fuel : ℕ) {script : Script} (h : Ready L script c)
    (hf : script.length ≤ fuel) :
    Ends (opLoop (reliable src) L fuel c s)
      (fun c' s' =>
        c' = ⟨L.opEnd, L.diffEnd, c.litPtr + litLen L.blockSize (script.map Prod.fst), L.destBlocks⟩ ∧
        ∃ out,
        applyPatch L.blockSize src c.destBlock (patch.drop c.litPtr) (script.map Prod.fst) =
          some out ∧
        Grows s s' out (List.range' c.opPtr (opStream script).length)
          (List.range' c.diffPtr (diffStream script).length)
          (List.range' c.litPtr (litLen L.blockSize (script.map Prod.fst))))
      (fun _ _ => applyPatch L.blockSize src c.destBlock (patch.drop c.litPtr)
        (script.map Prod.fst) = none) := by
  induction script generalizing fuel c s with
  | nil =>
    have hop : c.opPtr = L.opEnd := h.op_end
    have hdiff : c.diffPtr = L.diffEnd := h.diff_end
    have hdest : c.destBlock = L.destBlocks := h.dest_end
    have hr : ¬ Running L c := fun hr => absurd hr.2 (by omega)
    have hdone : opLoop (reliable src) L fuel c = pure c := by
      cases fuel <;> rw [opLoop, if_neg hr]
    rw [hdone]
    refine ends_pure.mpr ⟨?_, [], rfl, Grows.refl s⟩
    rw [← hop, ← hdiff, ← hdest]
    rfl
  | cons x script ih =>
    obtain ⟨op, e⟩ := x
    obtain ⟨fuel, rfl⟩ : ∃ k, fuel = k + 1 := ⟨fuel - 1, by rw [List.length_cons] at hf; omega⟩
    refine ends_ite (fun _ => ?_) fun hr => absurd h.running hr
    refine ((applyOp_done src h.cons.1).weaken (fun _ s' hun => ?_)).bind ?_
    · rw [List.map_cons, applyPatch, show applyOperation _ _ _ _ _ = none from hun]
    · intro _ s₁ hpost
      obtain ⟨rfl, out, happly, hg⟩ := hpost
      have hrest : ∀ o, (applyPatch L.blockSize src c.destBlock (patch.drop c.litPtr)
          ((op :: script.map Prod.fst))) = o ↔ (applyPatch L.blockSize src (c.after L e op).destBlock
            (patch.drop (c.after L e op).litPtr) (script.map Prod.fst)).map (out ++ ·) = o := by
        intro o
        rw [applyPatch, happly]
        rfl
      refine (ih (s := s₁) fuel h.cons.2 (by rw [List.length_cons] at hf; omega)).mono ?_ ?_
      · intro _ s' hpost
        obtain ⟨rfl, outs, hout, hg'⟩ := hpost
        refine ⟨?_, out ++ outs, ?_, ?_⟩
        · rw [List.map_cons, litLen_cons, Cursors.after, add_assoc]
        · rw [List.map_cons, hrest, hout]
          rfl
        · rw [opStream_cons, diffStream_cons, List.map_cons, litLen_cons, List.length_append, List.length_append,
            ← List.range'_append_1, ← List.range'_append_1, ← List.range'_append_1]
          exact hg.trans hg'
      · intro _ s' hnone
        rw [List.map_cons, hrest, hnone]
        rfl

end Runs

/-! ### Whole patches -/

section Patches
variable {log2 : ℕ} {script : Script} {lits src : Bytes}

theorem patchLayout_of_header {patch : Bytes} {h : Header} (hr : headerReadMemory patch = .ok h)
    (hd : h.destBlocks ≤ int64Max / h.blockSize)
    (hs : headerSize + h.opStreamLen + h.diffStreamLen ≤ patch.length) :
    patchLayout patch = .ok ⟨h, hd, hs⟩ := by
  rw [patchLayout, hr]
  dsimp only
  rw [dif_neg (not_lt.mpr hd), dif_neg (by omega), dif_neg (by omega), dif_neg (by omega)]

/-- A spelled script passes the checks on the header, and its streams are where the
decoder looks for them. -/
theorem patchLayout_patchBytes (lits : Bytes) (hlo : 5 ≤ log2) (hhi : log2 ≤ 24)
    (hlegal : ∀ x ∈ script, Legal (2 ^ log2) x.2 x.1)
    (hsize : totalCount (script.map Prod.fst) * 2 ^ log2 ≤ 2 ^ 62) :
    ∃ L : Layout (patchBytes log2 script lits), patchLayout (patchBytes log2 script lits) = .ok L ∧
      L.blockSize = 2 ^ log2 ∧ Ready L script L.start ∧
      (patchBytes log2 script lits).drop L.start.litPtr = lits ∧
      L.opEnd = headerSize + (opStream script).length ∧
      L.diffEnd = L.opEnd + (diffStream script).length := by
  obtain ⟨hop, hdiff⟩ := length_streams_le hlegal
  have hbs : 32 ≤ 2 ^ log2 := Nat.pow_le_pow_right (n := 2) (by decide) hlo
  have htotal : totalCount (script.map Prod.fst) * 32 ≤ 2 ^ 62 :=
    (Nat.mul_le_mul_left _ hbs).trans hsize
  have hread := headerReadMemory_headerWrite (totalCount (script.map Prod.fst)) log2
    (opStream script).length (diffStream script).length
    (opStream script ++ (diffStream script ++ lits)) hlo hhi (by omega) (by omega) (by omega)
  have hcap : totalCount (script.map Prod.fst) ≤ int64Max / 2 ^ log2 := by
    rw [Nat.le_div_iff_mul_le (by omega)]
    exact hsize.trans (by decide)
  have hlen : (patchBytes log2 script lits).length =
      headerSize + ((opStream script).length + ((diffStream script).length + lits.length)) := by
    simp [patchBytes]
  let L : Layout (patchBytes log2 script lits) :=
    ⟨⟨log2, totalCount (script.map Prod.fst), (opStream script).length, (diffStream script).length,
      hlo, hhi⟩, hcap, by rw [hlen]; dsimp only; omega⟩
  have hpre : patchBytes log2 script lits = (headerWrite (totalCount (script.map Prod.fst)) log2
      (opStream script).length (diffStream script).length ++ opStream script) ++
        (diffStream script ++ lits) := by
    simp [patchBytes]
  have hdocc := occursAt_middle (headerWrite (totalCount (script.map Prod.fst)) log2
      (opStream script).length (diffStream script).length ++ opStream script) (diffStream script) lits
  rw [← hpre, List.length_append, length_headerWrite] at hdocc
  have hoocc := occursAt_middle (headerWrite (totalCount (script.map Prod.fst)) log2
      (opStream script).length (diffStream script).length) (opStream script) (diffStream script ++ lits)
  rw [length_headerWrite] at hoocc
  refine ⟨L, ?_, rfl, ⟨hlegal, le_rfl, rfl, hoocc, le_rfl, rfl, hdocc, le_rfl, Nat.zero_add _, hsize⟩,
    ?_, rfl, rfl⟩
  · exact patchLayout_of_header hread hcap L.streams_le
  · change (patchBytes log2 script lits).drop
      (headerSize + (opStream script).length + (diffStream script).length) = lits
    rw [hpre, ← List.append_assoc]
    refine List.drop_left' ?_
    simp only [List.length_append, length_headerWrite]

/-- The decoder on a spelled script: success with the denotation and every stream
byte read once and in order, or a defined error where there is no denotation. -/
theorem patchApply_script (src lits : Bytes) (hlo : 5 ≤ log2) (hhi : log2 ≤ 24)
    (hlegal : ∀ x ∈ script, Legal (2 ^ log2) x.2 x.1)
    (hsize : totalCount (script.map Prod.fst) * 2 ^ log2 ≤ 2 ^ 62) :
    Ends (patchApply (reliable src) (patchBytes log2 script lits))
      (fun _ s => applyPatch (2 ^ log2) src 0 lits (script.map Prod.fst) = some s.written ∧
        s.opReads = List.range' headerSize (opStream script).length ∧
        s.diffReads = List.range' (headerSize + (opStream script).length) (diffStream script).length ∧
        s.litReads = List.range'
          (headerSize + (opStream script).length + (diffStream script).length)
          (litLen (2 ^ log2) (script.map Prod.fst)))
      (fun _ _ => applyPatch (2 ^ log2) src 0 lits (script.map Prod.fst) = none) := by
  obtain ⟨L, hL, hbs, hready, hlits, hopEnd, hdiffEnd⟩ :=
    patchLayout_patchBytes lits hlo hhi hlegal hsize
  have hfuel : script.length ≤ L.header.opStreamLen := by
    have hlen : L.header.opStreamLen = (opStream script).length := by
      have : L.opEnd = headerSize + L.header.opStreamLen := rfl
      omega
    rw [hlen]
    exact length_le_opStream script
  have hrun := opLoop_script (s := {}) src _ hready hfuel
  rw [hlits, hbs] at hrun
  have happly : patchApply (reliable src) (patchBytes log2 script lits) =
      applyOps (reliable src) L {} := by rw [patchApply, hL]
  rw [happly]
  apply (hrun.weaken (fun _ _ h => h)).bind
  intro _ s hpost
  obtain ⟨rfl, out, hout, hg⟩ := hpost
  refine ends_ite (fun h => absurd rfl h) fun _ => ends_pure.mpr ?_
  have hw : s.written = out := hg.written
  refine ⟨by rw [hw]; exact hout, hg.opReads, ?_, ?_⟩
  · rw [← hopEnd]
    exact hg.diffReads
  · rw [← hopEnd, ← hdiffEnd]
    exact hg.litReads

/-- `fsd_patch_apply` succeeds on a patch of the format exactly when every range it
refers to is inside the source, and then writes what `apply_patch` denotes. -/
theorem patchApply_refines_applyPatch (log2 : ℕ) (hlo : 5 ≤ log2) (hhi : log2 ≤ 24)
    (script : Script) (hlegal : ∀ x ∈ script, Legal (2 ^ log2) x.2 x.1)
    (hsize : totalCount (script.map Prod.fst) * 2 ^ log2 ≤ 2 ^ 62) (lits : Bytes)
    (hlits : lits.length = litLen (2 ^ log2) (script.map Prod.fst)) (src : Bytes) :
    ((∃ c s, patchApply (reliable src) (patchBytes log2 script lits) = .ok c s) ↔
      RangesInside (2 ^ log2) src 0 (script.map Prod.fst)) ∧
    ∀ c s, patchApply (reliable src) (patchBytes log2 script lits) = .ok c s →
      applyPatch (2 ^ log2) src 0 lits (script.map Prod.fst) = some s.written := by
  have hends := patchApply_script src lits hlo hhi hlegal hsize
  have hsome := applyPatch_isSome_iff (2 ^ log2) src (script.map Prod.fst) 0 lits
  refine ⟨⟨?_, ?_⟩, fun c s h => (hends.of_ok h).1⟩
  · rintro ⟨c, s, h⟩
    refine (hsome.mp ?_).1
    rw [(hends.of_ok h).1]
    rfl
  · intro hin
    cases hr : patchApply (reliable src) (patchBytes log2 script lits) with
    | ok c s => exact ⟨c, s, rfl⟩
    | error e s =>
      have hdef := hsome.mpr ⟨hin, hlits.ge⟩
      rw [hends.of_error hr] at hdef
      cases hdef

/-- Widths that the bundled encoder never chooses: a four-byte count and distance for
a relocation by minus zero, and a sparse block whose last run is a copy-add run. -/
def wideScript : Script :=
  [(.copyRelocate 2 true 0, ⟨.four, .long⟩),
    (.copyAdd 1 (-1) (.sparse [[([], some 30), ([7, 9], none)]]), ⟨.two, .middle⟩),
    (.literal 1, ⟨.inline, .short⟩)]

theorem patchApply_refines_wideScript :
    ∃ c s, patchApply (reliable (List.replicate 96 5))
        (patchBytes 5 wideScript (List.replicate 32 1)) = .ok c s ∧
      applyPatch 32 (List.replicate 96 5) 0 (List.replicate 32 1) (wideScript.map Prod.fst) =
        some s.written := by
  obtain ⟨hiff, hden⟩ := patchApply_refines_applyPatch 5 (by decide) (by decide) wideScript
    (by decide) (by decide) (List.replicate 32 1) (by decide) (List.replicate 96 5)
  obtain ⟨c, s, h⟩ := hiff.mpr (by
    simp [wideScript, RangesInside, Op.range, Op.count, signedOffset])
  exact ⟨c, s, h, hden c s h⟩

end Patches

end Fsdiff.Patch
