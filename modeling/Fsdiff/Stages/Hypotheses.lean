import Fsdiff.Core.Crc32
import Fsdiff.Core.HashTable
import Fsdiff.Data.LeastByKey
import Fsdiff.Fs.Walk
import Fsdiff.Stages.Fsmap

/-! `fsd_fsmap_stage_build_index`: a block of the destination that lies in one extent of a file
is looked for where the source has the same bytes of the file of the same path. Allocations
succeed. Logical positions are below `2^46` and physical ones inside the images, so of the
sums only `phys_lo + bs - 1` may wrap. -/
namespace Fsdiff.Stages
open ByteString Exec ExtFs

/-! ### Source files -/

/-- `src_file_t` -/
structure SrcFile where
  path : Bytes
  size : ℕ
  ext : List Extent
  deriving DecidableEq, Repr

/-- The path table of the stage: `path_hash` leads from the CRC of a path to indices of
`src_files`. -/
structure SrcTable where
  pathHash : HashTable
  srcFiles : List SrcFile

def SrcTable.create : SrcTable := ⟨HashTable.create 16384, []⟩

/-- `src_walk_cb` -/
def srcWalkCb : FileCb SrcTable := fun t r =>
  if r.extents.length = 0 then (t, false)
  else
    ({ pathHash := t.pathHash.insert (crc32 r.path) t.srcFiles.length
       srcFiles := t.srcFiles ++ [⟨r.path, r.fileSize, r.extents⟩] }, false)

/-- `src_file_find` -/
def srcFileFind (t : SrcTable) (path : Bytes) : Option SrcFile :=
  let crc := crc32 path
  (t.pathHash.lookup crc).findSome? fun e =>
    if e.crc32 ≠ crc ∨ t.srcFiles.length ≤ e.blockIndex then none
    else
      match t.srcFiles[e.blockIndex]? with
      | some f => if f.path = path then some f else none
      | none => none

/-- `src_map_range` -/
def srcMapRange (f : SrcFile) (fsBlockSize logicalByte len : ℕ) : Option ℕ :=
  f.ext.findSome? fun x =>
    let extLo := x.logical * fsBlockSize
    let extBytes := x.count * fsBlockSize
    if extLo ≤ logicalByte ∧ logicalByte + len ≤ extLo + extBytes then
      some (x.physical * fsBlockSize + (logicalByte - extLo))
    else none

/-! ### Hypotheses -/

/-- What `dest_walk_cb` keeps between its calls. -/
structure DestWalk where
  hyps : List Hypothesis := []
  filesNoSrcPath : ℕ := 0
  deriving DecidableEq, Repr

section Dest
variable (bs srcSize destFsBs srcFsBs : ℕ) (table : SrcTable) (t : Tracker)

def extentCandidates (x : Extent) : List (ℕ × ℕ) :=
  let physLo := x.physical * destFsBs
  let physHi := physLo + x.count * destFsBs
  let first := u64 (physLo + bs - 1) / bs
  let last := physHi / bs
  (List.range' first (last - first)).map fun b => (b, x.logical * destFsBs + (b * bs - physLo))

/-- The loops of `dest_walk_cb`; `looked` is what was found for the path, once it was looked
up. -/
def destLoop (path : Bytes) : DestWalk → Option (Option SrcFile) → List (ℕ × ℕ) → DestWalk
  | ctx, _, [] => ctx
  | ctx, looked, (b, logicalByte) :: rest =>
    if t.count ≤ b ∨ t.isUnmatched b = false then destLoop path ctx looked rest
    else
      let sf := looked.getD (srcFileFind table path)
      match sf with
      | none => if looked = none then { ctx with filesNoSrcPath := ctx.filesNoSrcPath + 1 } else ctx
      | some f =>
        match srcMapRange f srcFsBs logicalByte bs with
        | none => destLoop path ctx (some sf) rest
        | some srcPos =>
          if srcSize < srcPos + bs then destLoop path ctx (some sf) rest
          else destLoop path { ctx with hyps := ctx.hyps ++ [⟨b, srcPos⟩] } (some sf) rest

/-- `dest_walk_cb` -/
def destWalkCb : FileCb DestWalk := fun ctx r =>
  (destLoop bs srcSize srcFsBs table t r.path ctx none (r.extents.flatMap (extentCandidates bs destFsBs)),
    false)

/-- `hyp_cmp` -/
def hypCmp (a b : Hypothesis) : ℤ :=
  if a.destBlock ≠ b.destBlock then if a.destBlock < b.destBlock then -1 else 1
  else if a.srcPos < b.srcPos then -1 else if b.srcPos < a.srcPos then 1 else 0

/-- `qsort` and the loop behind it, which drops hypotheses for the block kept last. -/
def sortHyps (hyps : List Hypothesis) : List Hypothesis :=
  if 1 < hyps.length then
    LeastByKey.keepFirst Hypothesis.destBlock (hyps.mergeSort fun a b => decide (hypCmp a b ≤ 0))
  else hyps

end Dest

/-- `fsd_fsmap_stage_build_index` -/
def fsmapStageBuildIndex (bs : ℕ) (src dest : Bytes) (t : Tracker) : Except FsdError (List Hypothesis) :=
  match extfsOpen src, extfsOpen dest with
  | .error _, _ => .ok []
  | .ok _, .error _ => .ok []
  | .ok srcFs, .ok destFs =>
    match extfsWalk srcFs .ample srcWalkCb .create with
    | .error _ _ => .error .outOfMemory
    | .ok _ ws =>
      match extfsWalk destFs .ample
          (destWalkCb bs src.length destFs.blockSize srcFs.blockSize ws.user t) {} with
      | .error _ _ => .error .outOfMemory
      | .ok _ wd => .ok (sortHyps wd.user.hyps)

/-! ### Path table -/

section Table
variable {table : SrcTable} {path : Bytes} {f : SrcFile}

/-- What the table was made of, and that each file of it is in the chain of its path. -/
structure SrcTable.Lists (table : SrcTable) (reports : List Report) : Prop where
  buckets_pos : 0 < table.pathHash.buckets.length
  srcFiles_eq : table.srcFiles =
    (reports.filter (·.extents ≠ [])).map fun r => ⟨r.path, r.fileSize, r.extents⟩
  chained : ∀ i f, table.srcFiles[i]? = some f → table.pathHash.Chained ⟨crc32 f.path, i⟩

theorem SrcTable.lists_create : SrcTable.create.Lists [] :=
  ⟨HashTable.length_buckets_create _, rfl, by simp [SrcTable.create]⟩

theorem SrcTable.Lists.srcWalkCb {reports : List Report} (h : table.Lists reports) (r : Report) :
    (srcWalkCb table r).1.Lists (reports ++ [r]) := by
  unfold Stages.srcWalkCb
  by_cases hr : r.extents = []
  · rw [if_pos (by rw [hr]; rfl)]
    refine ⟨h.buckets_pos, ?_, h.chained⟩
    rw [h.srcFiles_eq]
    simp [hr]
  · rw [if_neg (by simpa using hr)]
    refine ⟨by simpa using h.buckets_pos, ?_, ?_⟩
    · simp [h.srcFiles_eq, hr]
    · intro i f hf
      dsimp only at hf ⊢
      by_cases hi : i < table.srcFiles.length
      · rw [List.getElem?_append_left hi] at hf
        exact (h.chained i f hf).insert _ _
      · rw [List.getElem?_append_right (not_lt.mp hi)] at hf
        obtain ⟨hlt, rfl⟩ := List.getElem?_eq_some_iff.mp hf
        have hi' : i = table.srcFiles.length := by
          simp at hlt
          omega
        subst hi'
        simpa using HashTable.chained_insert h.buckets_pos (crc32 r.path) _

theorem SrcTable.Lists.foldl {reports : List Report} (h : table.Lists reports) (l : List Report) :
    (l.foldl (fun u r => (Stages.srcWalkCb u r).1) table).Lists (reports ++ l) := by
  induction l generalizing table reports with
  | nil => simpa using h
  | cons r l ih => simpa using ih (h.srcWalkCb r)

theorem srcFileFind_some (h : srcFileFind table path = some f) : f ∈ table.srcFiles ∧ f.path = path := by
  obtain ⟨e, -, he⟩ := List.exists_of_findSome?_eq_some h
  split_ifs at he
  cases hf : table.srcFiles[e.blockIndex]? with
  | none => simp [hf] at he
  | some f' =>
    simp only [hf] at he
    split_ifs at he with hpath
    cases he
    exact ⟨List.mem_of_getElem? hf, hpath⟩

/-- A path that collides with others is found nevertheless. -/
theorem SrcTable.Lists.exists_find {reports : List Report} (h : table.Lists reports)
    (hf : f ∈ table.srcFiles) : ∃ f', srcFileFind table f.path = some f' := by
  obtain ⟨i, hi⟩ := List.mem_iff_getElem?.mp hf
  have hlt : i < table.srcFiles.length := (List.getElem?_eq_some_iff.mp hi).1
  have hmem := (h.chained i f hi).mem_lookup
  apply Option.isSome_iff_exists.mp
  unfold srcFileFind
  dsimp only at hmem ⊢
  rw [List.findSome?_isSome_iff]
  refine ⟨_, hmem, ?_⟩
  rw [if_neg (by simpa using hlt)]
  simp [hi]

end Table

/-! ### Positions -/

/-- The `len` bytes of an image from `pos` on are those of a file from `logicalByte` on, in one
of its extents. -/
def Holds (fsBs : ℕ) (exts : List Extent) (logicalByte len pos : ℕ) : Prop :=
  ∃ x ∈ exts, x.logical * fsBs ≤ logicalByte ∧ logicalByte + len ≤ (x.logical + x.count) * fsBs ∧
    pos = x.physical * fsBs + (logicalByte - x.logical * fsBs)

section Positions
variable {bs fsBs b L p : ℕ} {x : Extent} {exts : List Extent}

theorem srcMapRange_some {f : SrcFile} (h : srcMapRange f fsBs L bs = some p) :
    Holds fsBs f.ext L bs p := by
  obtain ⟨x, hx, he⟩ := List.exists_of_findSome?_eq_some h
  dsimp only at he
  split_ifs at he with hin
  have hmul : (x.logical + x.count) * fsBs = x.logical * fsBs + x.count * fsBs := Nat.add_mul _ _ _
  refine ⟨x, hx, hin.1, ?_, (Option.some.inj he).symm⟩
  rw [hmul]
  exact hin.2

theorem exists_srcMapRange {f : SrcFile} (h : Holds fsBs f.ext L bs p) :
    ∃ p', srcMapRange f fsBs L bs = some p' := by
  obtain ⟨x, hx, hlo, hhi, -⟩ := h
  have hin : x.logical * fsBs ≤ L ∧ L + bs ≤ x.logical * fsBs + x.count * fsBs := by
    rw [Nat.add_mul] at hhi
    exact ⟨hlo, hhi⟩
  apply Option.isSome_iff_exists.mp
  unfold srcMapRange
  rw [List.findSome?_isSome_iff]
  exact ⟨x, hx, by simp [hin]⟩

theorem Holds.le_length {image : Bytes} {fs : Extfs image} (h : Holds fs.blockSize exts L bs p)
    (hin : ∀ x ∈ exts, x.Inside fs.blockCount) : p + bs ≤ image.length := by
  obtain ⟨x, hx, hlo, hhi, rfl⟩ := h
  have hend : x.physical * fs.blockSize + x.count * fs.blockSize ≤ image.length := by
    calc
      _ = (x.physical + x.count) * fs.blockSize := (Nat.add_mul _ _ _).symm
      _ ≤ fs.blockCount * fs.blockSize := Nat.mul_le_mul_right _ (hin x hx).2.2
      _ ≤ image.length / fs.blockSize * fs.blockSize := Nat.mul_le_mul_right _ fs.blocks_fit
      _ ≤ image.length := Nat.div_mul_le_self _ _
  rw [Nat.add_mul] at hhi
  omega

/-- The blocks between `first` and `last` are those that lie in the physical range. Where
`phys_lo + bs - 1` wraps, a block is larger than the image and there are none. -/
theorem mem_extentCandidates (hbs : 0 < bs) (hhi : (x.physical + x.count) * fsBs ≤ int64Max) :
    (b, L) ∈ extentCandidates bs fsBs x ↔ Holds fsBs [x] L bs (b * bs) := by
  have hphys : (x.physical + x.count) * fsBs = x.physical * fsBs + x.count * fsBs := Nat.add_mul _ _ _
  have hlog : (x.logical + x.count) * fsBs = x.logical * fsBs + x.count * fsBs := Nat.add_mul _ _ _
  have hlast : b < (x.physical * fsBs + x.count * fsBs) / bs ↔
      b * bs + bs ≤ x.physical * fsBs + x.count * fsBs := by
    rw [← Nat.succ_le_iff, Nat.le_div_iff_mul_le hbs, Nat.succ_mul]
  have hfirst : b * bs + bs ≤ x.physical * fsBs + x.count * fsBs →
      (u64 (x.physical * fsBs + bs - 1) / bs ≤ b ↔ x.physical * fsBs ≤ b * bs) := by
    intro hfit
    have hwrap : u64 (x.physical * fsBs + bs - 1) = x.physical * fsBs + bs - 1 := by
      apply u64_of_lt
      unfold int64Max at hhi
      omega
    rw [hwrap, ← Nat.lt_succ_iff, Nat.div_lt_iff_lt_mul hbs, Nat.succ_mul]
    omega
  simp only [extentCandidates, List.mem_map, List.mem_range'_1, Prod.mk.injEq, Holds,
    List.mem_singleton, exists_eq_left, hlog]
  constructor
  · rintro ⟨b', hb', rfl, rfl⟩
    have hfit := hlast.mp (by omega)
    have hlo := (hfirst hfit).mp hb'.1
    omega
  · rintro ⟨hlo, hL, hpos⟩
    have hfit : b * bs + bs ≤ x.physical * fsBs + x.count * fsBs := by omega
    have hge := (hfirst hfit).mpr (by omega)
    have hlt := hlast.mpr hfit
    exact ⟨b, by omega, rfl, by omega⟩

theorem holds_iff_exists : Holds fsBs exts L bs p ↔ ∃ x ∈ exts, Holds fsBs [x] L bs p := by
  simp [Holds]

theorem mem_candidates (hbs : 0 < bs) (hhi : ∀ x ∈ exts, (x.physical + x.count) * fsBs ≤ int64Max) :
    (b, L) ∈ exts.flatMap (extentCandidates bs fsBs) ↔ Holds fsBs exts L bs (b * bs) := by
  rw [List.mem_flatMap, holds_iff_exists]
  apply exists_congr
  intro x
  apply and_congr_right
  intro hx
  exact mem_extentCandidates hbs (hhi x hx)

end Positions

/-! ### What the destination walk generates -/

section Generated
variable (bs srcSize destFsBs srcFsBs : ℕ) (table : SrcTable) (t : Tracker)

def candidateHyp (path : Bytes) (c : ℕ × ℕ) : Option Hypothesis :=
  if t.count ≤ c.1 ∨ t.isUnmatched c.1 = false then none
  else
    (srcFileFind table path).bind fun f => (srcMapRange f srcFsBs c.2 bs).bind fun srcPos =>
      if srcSize < srcPos + bs then none else some ⟨c.1, srcPos⟩

def reportHyps (r : Report) : List Hypothesis :=
  (r.extents.flatMap (extentCandidates bs destFsBs)).filterMap
    (candidateHyp bs srcSize srcFsBs table t r.path)

variable {bs srcSize destFsBs srcFsBs table t}

/-- Looking the path up once, and giving up on the file if that fails, changes nothing about
the hypotheses. -/
theorem destLoop_hyps {path : Bytes} {looked : Option (Option SrcFile)}
    (hl : looked = none ∨ looked = some (srcFileFind table path)) (l : List (ℕ × ℕ))
    (ctx : DestWalk) :
    (destLoop bs srcSize srcFsBs table t path ctx looked l).hyps =
      ctx.hyps ++ l.filterMap (candidateHyp bs srcSize srcFsBs table t path) := by
  induction l generalizing ctx looked with
  | nil => simp [destLoop]
  | cons c l ih =>
    obtain ⟨b, L⟩ := c
    unfold destLoop
    by_cases hskip : t.count ≤ b ∨ t.isUnmatched b = false
    · have hnone : candidateHyp bs srcSize srcFsBs table t path (b, L) = none := if_pos hskip
      rw [if_pos hskip, List.filterMap_cons_none hnone]
      exact ih hl ctx
    have hfound : looked.getD (srcFileFind table path) = srcFileFind table path := by
      rcases hl with rfl | rfl <;> rfl
    have hcand : ∀ c : ℕ × ℕ, srcFileFind table path = none →
        candidateHyp bs srcSize srcFsBs table t path c = none := by
      intro c hnone
      simp [candidateHyp, hnone]
    rw [if_neg hskip]
    dsimp only
    rw [hfound]
    cases hfind : srcFileFind table path with
    | none =>
      have hall : ((b, L) :: l).filterMap (candidateHyp bs srcSize srcFsBs table t path) = [] := by
        rw [List.filterMap_eq_nil_iff]
        exact fun c _ => hcand c hfind
      rw [hall, List.append_nil]
      dsimp only
      split_ifs <;> rfl
    | some f =>
      have hone : candidateHyp bs srcSize srcFsBs table t path (b, L) =
          (srcMapRange f srcFsBs L bs).bind fun srcPos =>
            if srcSize < srcPos + bs then none else some ⟨b, srcPos⟩ := by
        rw [candidateHyp, if_neg hskip, hfind]
        rfl
      have hnext : some (some f) = some (srcFileFind table path) := by rw [hfind]
      dsimp only
      cases hmap : srcMapRange f srcFsBs L bs with
      | none =>
        rw [hmap] at hone
        rw [List.filterMap_cons_none hone]
        exact ih (.inr hnext) ctx
      | some srcPos =>
        rw [hmap] at hone
        dsimp only [Option.bind_some] at hone ⊢
        split_ifs at hone ⊢ with hout
        · rw [List.filterMap_cons_none hone]
          exact ih (.inr hnext) ctx
        · rw [List.filterMap_cons_some hone, ih (.inr hnext), List.append_assoc]
          rfl

theorem foldl_destWalkCb_hyps (l : List Report) (ctx : DestWalk) :
    (l.foldl (fun u r => (destWalkCb bs srcSize destFsBs srcFsBs table t u r).1) ctx).hyps =
      ctx.hyps ++ l.flatMap (reportHyps bs srcSize destFsBs srcFsBs table t) := by
  induction l generalizing ctx with
  | nil => simp
  | cons r l ih =>
    rw [List.foldl_cons, ih, List.flatMap_cons, ← List.append_assoc]
    congr 1
    exact destLoop_hyps (.inl rfl) _ _

theorem mem_reportHyps (hbs : 0 < bs) {r : Report} {h : Hypothesis}
    (hhi : ∀ x ∈ r.extents, (x.physical + x.count) * destFsBs ≤ int64Max) :
    h ∈ reportHyps bs srcSize destFsBs srcFsBs table t r ↔
      (h.destBlock < t.count ∧ t.isUnmatched h.destBlock = true ∧ h.srcPos + bs ≤ srcSize) ∧
        ∃ f L, srcFileFind table r.path = some f ∧
          Holds destFsBs r.extents L bs (h.destBlock * bs) ∧
          srcMapRange f srcFsBs L bs = some h.srcPos := by
  simp only [reportHyps, List.mem_filterMap, Prod.exists, mem_candidates hbs hhi, candidateHyp]
  constructor
  · rintro ⟨b, L, hL, he⟩
    split_ifs at he with hskip
    simp only [Option.bind_eq_some_iff] at he
    obtain ⟨f, hf, p, hp, he⟩ := he
    split_ifs at he with hout
    cases he
    simp only [not_or, not_le, Bool.not_eq_false] at hskip
    exact ⟨⟨hskip.1, hskip.2, not_lt.mp hout⟩, f, L, hf, hL, hp⟩
  · rintro ⟨⟨hlt, hun, hfit⟩, f, L, hf, hL, hp⟩
    refine ⟨h.destBlock, L, hL, ?_⟩
    rw [if_neg (by simp [hlt, hun])]
    simp [hf, hp, not_lt.mpr hfit]

end Generated

/-! ### Sorting -/

theorem hypCmp_le_iff (a b : Hypothesis) :
    hypCmp a b ≤ 0 ↔ LeastByKey.Le Hypothesis.destBlock Hypothesis.srcPos a b := by
  unfold hypCmp LeastByKey.Le
  split_ifs <;> omega

theorem sortHyps_eq (hyps : List Hypothesis) :
    sortHyps hyps = LeastByKey.leastByKey Hypothesis.destBlock Hypothesis.srcPos hyps := by
  unfold sortHyps LeastByKey.leastByKey
  simp only [hypCmp_le_iff]
  split_ifs with h
  · rfl
  · match hyps, h with
    | [], _ => simp [LeastByKey.keepFirst]
    | [x], _ => simp [LeastByKey.keepFirst, LeastByKey.dropRepeats]
    | _ :: _ :: _, h => simp at h

theorem Hypothesis.eq_of_parts (a b : Hypothesis) (hd : a.destBlock = b.destBlock)
    (hs : a.srcPos = b.srcPos) : a = b := by
  cases a
  cases b
  simp_all

/-! ### Soundness and completeness -/

/-- The destination has in its block `b`, and the source from `p` on, the same bytes of the
same path, each in one extent. -/
def SamePlace (destFsBs srcFsBs bs : ℕ) (destReports srcReports : List Report) (b p : ℕ) : Prop :=
  ∃ r ∈ destReports, ∃ s ∈ srcReports, r.path = s.path ∧
    ∃ L, Holds destFsBs r.extents L bs (b * bs) ∧ Holds srcFsBs s.extents L bs p

section Index
variable {src dest : Bytes} {srcFs : Extfs src} {destFs : Extfs dest} {bs : ℕ} {t : Tracker}

theorem exists_walk {image : Bytes} {σ : Type} (hsize : image.length ≤ int64Max) (fs : Extfs image)
    (cb : FileCb σ) (user : σ) :
    ∃ w, extfsWalk fs .ample cb user = .ok () w ∧
      w.user = (w.events.map Event.report).foldl (fun u r => (cb u r).1) user ∧
      ∀ r ∈ w.events.map Event.report, ∀ x ∈ r.extents, x.Inside fs.blockCount := by
  have hsound := (extfsWalk_sound fs .ample cb hsize user).weaken
    (fun _ _ hf => not_outOfMemory_ample hf)
  obtain ⟨_, w, hrun, ⟨turns, h⟩, -⟩ := hsound.exists_ok
  refine ⟨w, hrun, (extfsWalk_user hsize user).of_ok hrun, ?_⟩
  intro r hr
  obtain ⟨e, he, rfl⟩ := List.mem_map.mp hr
  exact h.inside e he

theorem blocks_le_int64Max (hdest : dest.length ≤ int64Max) {x : Extent}
    (hx : x.Inside destFs.blockCount) : (x.physical + x.count) * destFs.blockSize ≤ int64Max := by
  calc
    _ ≤ destFs.blockCount * destFs.blockSize := Nat.mul_le_mul_right _ hx.2.2
    _ ≤ dest.length / destFs.blockSize * destFs.blockSize := Nat.mul_le_mul_right _ destFs.blocks_fit
    _ ≤ dest.length := Nat.div_mul_le_self _ _
    _ ≤ int64Max := hdest

variable {srcReports destReports : List Report} {table : SrcTable}

/-- A hypothesis that is generated names the same place twice. -/
theorem generated_sound (hbs : 0 < bs) (hdest : dest.length ≤ int64Max) (htable : table.Lists srcReports)
    (hin : ∀ r ∈ destReports, ∀ x ∈ r.extents, x.Inside destFs.blockCount) {h : Hypothesis}
    (hh : h ∈ destReports.flatMap
      (reportHyps bs src.length destFs.blockSize srcFs.blockSize table t)) :
    h.destBlock < t.count ∧ t.isUnmatched h.destBlock = true ∧ h.srcPos + bs ≤ src.length ∧
      SamePlace destFs.blockSize srcFs.blockSize bs destReports srcReports h.destBlock h.srcPos := by
  obtain ⟨r, hr, hh⟩ := List.mem_flatMap.mp hh
  obtain ⟨⟨hlt, hun, hfit⟩, f, L, hfind, hL, hmap⟩ :=
    (mem_reportHyps hbs fun x hx => blocks_le_int64Max hdest (hin r hr x hx)).mp hh
  obtain ⟨hf, hpath⟩ := srcFileFind_some hfind
  rw [htable.srcFiles_eq] at hf
  obtain ⟨s, hs, rfl⟩ := List.mem_map.mp hf
  have hs' := (List.mem_filter.mp hs).1
  exact ⟨hlt, hun, hfit, r, hr, s, hs', hpath.symm, L, hL, srcMapRange_some hmap⟩

/-- If no path is reported twice, a block that lies in the same place of both has a
hypothesis. -/
theorem generated_complete (hbs : 0 < bs) (hdest : dest.length ≤ int64Max)
    (htable : table.Lists srcReports)
    (hin : ∀ r ∈ destReports, ∀ x ∈ r.extents, x.Inside destFs.blockCount)
    (hsrcIn : ∀ s ∈ srcReports, ∀ x ∈ s.extents, x.Inside srcFs.blockCount)
    (hnodup : (srcReports.map Report.path).Nodup) {b p : ℕ} (hlt : b < t.count)
    (hun : t.isUnmatched b = true)
    (h : SamePlace destFs.blockSize srcFs.blockSize bs destReports srcReports b p) :
    ∃ q, (⟨b, q⟩ : Hypothesis) ∈ destReports.flatMap
      (reportHyps bs src.length destFs.blockSize srcFs.blockSize table t) := by
  obtain ⟨r, hr, s, hs, hpath, L, hL, hp⟩ := h
  have hne : s.extents ≠ [] := by
    obtain ⟨x, hx, -⟩ := hp
    exact List.ne_nil_of_mem hx
  have hmem : (⟨s.path, s.fileSize, s.extents⟩ : SrcFile) ∈ table.srcFiles := by
    rw [htable.srcFiles_eq]
    exact List.mem_map.mpr ⟨s, List.mem_filter.mpr ⟨hs, by simpa using hne⟩, rfl⟩
  obtain ⟨f, hfind⟩ := htable.exists_find hmem
  obtain ⟨hf, hfpath⟩ := srcFileFind_some hfind
  -- the file that is found is the report itself, as it is the only one of its path
  have hext : f.ext = s.extents := by
    rw [htable.srcFiles_eq] at hf
    obtain ⟨s', hs', rfl⟩ := List.mem_map.mp hf
    have heq : s' = s :=
      List.inj_on_of_nodup_map hnodup (List.mem_filter.mp hs').1 hs hfpath
    rw [heq]
  rw [← hext] at hp
  obtain ⟨q, hq⟩ := exists_srcMapRange hp
  have hfit : q + bs ≤ src.length := by
    have hholds := srcMapRange_some hq
    rw [hext] at hholds
    exact hholds.le_length (hsrcIn s hs)
  have hfind' : srcFileFind table r.path = some f := by
    rw [hpath]
    exact hfind
  refine ⟨q, List.mem_flatMap.mpr ⟨r, hr, ?_⟩⟩
  rw [mem_reportHyps hbs fun x hx => blocks_le_int64Max hdest (hin r hr x hx)]
  exact ⟨⟨hlt, hun, hfit⟩, f, L, hfind', hL, hq⟩

theorem fsmapStageBuildIndex_eq {ws : Walk SrcTable} {wd : Walk DestWalk}
    (hopenSrc : extfsOpen src = .ok srcFs) (hopenDest : extfsOpen dest = .ok destFs)
    (hws : extfsWalk srcFs .ample srcWalkCb .create = .ok () ws)
    (hwd : extfsWalk destFs .ample
      (destWalkCb bs src.length destFs.blockSize srcFs.blockSize ws.user t) {} = .ok () wd) :
    fsmapStageBuildIndex bs src dest t = .ok (sortHyps wd.user.hyps) := by
  unfold fsmapStageBuildIndex
  simp only [hopenSrc, hopenDest, hws, hwd]

end Index

/-- The hypotheses about two images that open are sorted by block, without repetition. Each is
about an unmatched block that lies in the same place of the same path as the window of the
source it names; and if the source walk reports no path twice, each such block has one. Of the
pairs that the destination walk generates the least position of each block is kept, so neither
the order nor the number of times in which they come matters, nor the order of the reports. -/
theorem fsmapStageBuildIndex_sound_complete {src dest : Bytes} (hsrc : src.length ≤ int64Max)
    (hdest : dest.length ≤ int64Max) {srcFs : Extfs src} {destFs : Extfs dest}
    (hopenSrc : extfsOpen src = .ok srcFs) (hopenDest : extfsOpen dest = .ok destFs) {bs : ℕ}
    (hbs : 0 < bs) (t : Tracker) :
    ∃ ws wd hyps, extfsWalk srcFs .ample srcWalkCb .create = .ok () ws ∧
      extfsWalk destFs .ample
        (destWalkCb bs src.length destFs.blockSize srcFs.blockSize ws.user t) {} = .ok () wd ∧
      fsmapStageBuildIndex bs src dest t = .ok hyps ∧
      hyps.Pairwise (·.destBlock < ·.destBlock) ∧
      (∀ h ∈ hyps, h.destBlock < t.count ∧ t.isUnmatched h.destBlock = true ∧
        h.srcPos + bs ≤ src.length ∧
        SamePlace destFs.blockSize srcFs.blockSize bs (wd.events.map Event.report)
          (ws.events.map Event.report) h.destBlock h.srcPos) ∧
      (((ws.events.map Event.report).map Report.path).Nodup → ∀ b p, b < t.count →
        t.isUnmatched b = true →
        SamePlace destFs.blockSize srcFs.blockSize bs (wd.events.map Event.report)
          (ws.events.map Event.report) b p →
        ∃! h, h ∈ hyps ∧ h.destBlock = b) ∧
      (∀ h, h ∈ hyps ↔ h ∈ wd.user.hyps ∧
        ∀ h' ∈ wd.user.hyps, h'.destBlock = h.destBlock → h.srcPos ≤ h'.srcPos) ∧
      (∀ pairs : List Hypothesis, (∀ h, h ∈ pairs ↔ h ∈ wd.user.hyps) → sortHyps pairs = hyps) ∧
      (∀ reports : List Report, reports.Perm (wd.events.map Event.report) →
        sortHyps (reports.foldl (fun u r => (destWalkCb bs src.length destFs.blockSize
          srcFs.blockSize ws.user t u r).1) {}).hyps = hyps) := by
  obtain ⟨ws, hws, hwsUser, hwsIn⟩ := exists_walk hsrc srcFs srcWalkCb .create
  obtain ⟨wd, hwd, hwdUser, hwdIn⟩ := exists_walk hdest destFs
    (destWalkCb bs src.length destFs.blockSize srcFs.blockSize ws.user t) {}
  have htable : ws.user.Lists (ws.events.map Event.report) := by
    rw [hwsUser]
    exact SrcTable.lists_create.foldl _
  have hgen : wd.user.hyps = (wd.events.map Event.report).flatMap
      (reportHyps bs src.length destFs.blockSize srcFs.blockSize ws.user t) := by
    rw [hwdUser, foldl_destWalkCb_hyps]
    rfl
  have hmem : ∀ h, h ∈ sortHyps wd.user.hyps ↔
      LeastByKey.IsLeast Hypothesis.destBlock Hypothesis.srcPos wd.user.hyps h := by
    intro h
    rw [sortHyps_eq]
    exact LeastByKey.mem_leastByKey Hypothesis.eq_of_parts
  have hsorted : (sortHyps wd.user.hyps).Pairwise (·.destBlock < ·.destBlock) := by
    rw [sortHyps_eq]
    exact LeastByKey.pairwise_leastByKey _ _ _
  have hcongr : ∀ pairs : List Hypothesis, (∀ h, h ∈ pairs ↔ h ∈ wd.user.hyps) →
      sortHyps pairs = sortHyps wd.user.hyps := by
    intro pairs h
    rw [sortHyps_eq, sortHyps_eq]
    exact LeastByKey.leastByKey_congr Hypothesis.eq_of_parts h
  refine ⟨ws, wd, _, hws, hwd, fsmapStageBuildIndex_eq hopenSrc hopenDest hws hwd, hsorted, ?_, ?_,
    hmem, hcongr, ?_⟩
  · intro h hh
    have hh' := ((hmem h).mp hh).1
    rw [hgen] at hh'
    exact generated_sound hbs hdest htable hwdIn hh'
  · intro hnodup b p hlt hun hplace
    obtain ⟨q, hq⟩ := generated_complete hbs hdest htable hwdIn hwsIn hnodup hlt hun hplace
    rw [← hgen] at hq
    obtain ⟨h, hh, hkey, -⟩ := LeastByKey.exists_leastByKey Hypothesis.destBlock
      Hypothesis.srcPos hq
    rw [← sortHyps_eq] at hh
    refine ⟨h, ⟨hh, hkey⟩, ?_⟩
    rintro h' ⟨hh', hkey'⟩
    exact LeastByKey.eq_of_key_eq hsorted hh' hh (hkey'.trans hkey.symm)
  · intro reports hperm
    apply hcongr
    intro h
    rw [foldl_destWalkCb_hyps, hgen]
    exact (hperm.flatMap_right _).mem_iff

/-- In the small filesystem, compared with itself, block 6 has the data of `/a`. -/
theorem fsmapStageBuildIndex_sampleImage :
    ∃ t hyps, Tracker.create 7 1024 = .ok t ∧
      fsmapStageBuildIndex 1024 sampleImage sampleImage t = .ok hyps ∧
      hyps.Pairwise (·.destBlock < ·.destBlock) ∧ ∃! h, h ∈ hyps ∧ h.destBlock = 6 := by
  obtain ⟨fs, hopen⟩ := exists_open_sampleImage
  obtain ⟨t, ht⟩ := Tracker.exists_create (show 0 < 7 by decide) (show 0 < 1024 by decide)
  obtain ⟨hinv, hcount, -, hblocks⟩ := Tracker.create_spec ht
  have hun : t.isUnmatched 6 = true := by
    obtain ⟨b, hb⟩ := Tracker.exists_get (show 6 < t.count by omega)
    rw [hinv.isUnmatched_iff hb, hblocks 6 b hb]
  have hsize : sampleImage.length ≤ int64Max := by decide +kernel
  obtain ⟨ws, wd, hyps, hws, hwd, hbuild, hsorted, -, hcomplete, -⟩ :=
    fsmapStageBuildIndex_sound_complete hsize hsize hopen hopen (show 0 < 1024 by decide) t
  have hbs := of_sampleImage hopen (fun fs => fs.blockSize = 1024) (by decide +kernel)
  have hbs : fs.blockSize = 1024 := of_decide_eq_true hbs
  have hreports := of_sampleImage hopen (fun fs =>
    (stateOf (extfsWalk fs .ample srcWalkCb .create)).any fun ws =>
      ((ws.events.map Event.report).map Report.path).Nodup ∧
      (ws.events.map Event.report).head? = some ⟨[slash, 0x61], 3, 1024, [⟨0, 6, 1⟩]⟩ ∧
      (Tracker.create 7 1024).toOption.any fun t =>
        (stateOf (extfsWalk fs .ample
          (destWalkCb 1024 sampleImage.length fs.blockSize fs.blockSize ws.user t) {})).any fun wd =>
          (wd.events.map Event.report).head? = some ⟨[slash, 0x61], 3, 1024, [⟨0, 6, 1⟩]⟩)
    (by decide +kernel)
  rw [hws, ht] at hreports
  obtain ⟨hpaths, hsrc, hdest⟩ := of_decide_eq_true hreports
  simp only [Except.toOption, Option.any_some, hwd, stateOf] at hdest
  have hdest := of_decide_eq_true hdest
  refine ⟨t, hyps, ht, hbuild, hsorted, hcomplete hpaths 6 6144 (by omega) hun ?_⟩
  have hholds : Holds fs.blockSize [⟨0, 6, 1⟩] 0 1024 6144 := by simp [Holds, hbs]
  exact ⟨_, List.mem_of_mem_head? hdest, _, List.mem_of_mem_head? hsrc, rfl, 0, hholds, hholds⟩

/-! ### The index of the stage -/

/-- Whatever the images are, no hypothesis is out of bounds. -/
theorem fsmapStageBuildIndex_bounds {src dest : Bytes} (hsrc : src.length ≤ int64Max)
    (hdest : dest.length ≤ int64Max) {bs : ℕ} (hbs : 0 < bs) {t : Tracker} {hyps : List Hypothesis}
    (hbuild : fsmapStageBuildIndex bs src dest t = .ok hyps) {h : Hypothesis} (hh : h ∈ hyps) :
    h.destBlock < dest.length / bs ∧ h.srcPos + bs ≤ src.length := by
  cases hopenSrc : extfsOpen src with
  | error e =>
    simp only [fsmapStageBuildIndex, hopenSrc] at hbuild
    cases hbuild
    cases hh
  | ok srcFs =>
    cases hopenDest : extfsOpen dest with
    | error e =>
      simp only [fsmapStageBuildIndex, hopenSrc, hopenDest] at hbuild
      cases hbuild
      cases hh
    | ok destFs =>
      obtain ⟨ws, hws, hwsUser, -⟩ := exists_walk hsrc srcFs srcWalkCb .create
      obtain ⟨wd, hwd, hwdUser, hwdIn⟩ := exists_walk hdest destFs
        (destWalkCb bs src.length destFs.blockSize srcFs.blockSize ws.user t) {}
      have htable : ws.user.Lists (ws.events.map Event.report) := by
        rw [hwsUser]
        exact SrcTable.lists_create.foldl _
      rw [fsmapStageBuildIndex_eq hopenSrc hopenDest hws hwd] at hbuild
      cases hbuild
      rw [sortHyps_eq] at hh
      have hgen := LeastByKey.mem_of_mem_leastByKey hh
      rw [hwdUser, foldl_destWalkCb_hyps] at hgen
      obtain ⟨-, -, hfit, r, hr, -, -, -, L, hL, -⟩ := generated_sound hbs hdest htable hwdIn hgen
      have hend := hL.le_length (hwdIn r hr)
      refine ⟨?_, hfit⟩
      rw [← Nat.succ_le_iff, Nat.le_div_iff_mul_le hbs, Nat.succ_mul]
      exact hend

/-- The index that the stage works with; a block size of zero is refused when it is created. -/
def FsmapIndex.ofImages {src dest : Bytes} (hsrc : src.length ≤ int64Max)
    (hdest : dest.length ≤ int64Max) (bs : ℕ) : FsmapIndex bs src.length (dest.length / bs) :=
  if hbs : 0 < bs then
    { build := fsmapStageBuildIndex bs src dest
      destBlock_lt := fun _ _ hbuild _ hh => (fsmapStageBuildIndex_bounds hsrc hdest hbs hbuild hh).1
      srcPos_le := fun _ _ hbuild _ hh => (fsmapStageBuildIndex_bounds hsrc hdest hbs hbuild hh).2 }
  else .inactive bs src.length (dest.length / bs)

end Fsdiff.Stages
