import Fsdiff.Types

/-! The 32-byte BKDF header: `bkdf_header.c`. -/
namespace Fsdiff
open ByteString

/-- `fsd_header_t` as `fsd_header_read_memory` fills it. The block size range is
part of the type; the magic, version and reserved fields are constants of the
format once a header has been accepted. -/
structure Header where
  blockSizeLog2 : ℕ
  destBlocks : ℕ
  opStreamLen : ℕ
  diffStreamLen : ℕ
  five_le_log2 : 5 ≤ blockSizeLog2
  log2_le : blockSizeLog2 ≤ 24
  deriving DecidableEq

/-- `1ULL << header.block_size_log2` -/
def Header.blockSize (h : Header) : ℕ := 2 ^ h.blockSizeLog2

theorem five_le_smallLog2 : 5 ≤ 5 := le_rfl

theorem smallLog2_le : 5 ≤ 24 := by decide

def smallHeader (destBlocks opStreamLen diffStreamLen : ℕ) : Header :=
  ⟨5, destBlocks, opStreamLen, diffStreamLen, five_le_smallLog2, smallLog2_le⟩

def magic : Bytes := [0x42, 0x4B, 0x44, 0x46]

def formatVersion : UInt8 := 1

/-- `fsd_header_write`: the bytes handed to `fwrite`. -/
def headerWrite (destBlocks blockSizeLog2 opStreamLen diffStreamLen : ℕ) : Bytes :=
  magic ++ [formatVersion, UInt8.ofNat blockSizeLog2, 0, 0] ++
    leBytes 8 destBlocks ++ leBytes 8 opStreamLen ++ leBytes 8 diffStreamLen

/-- `fsd_header_read_memory`. An empty mapping has no data pointer; it is shorter
than a header and gives the same code. -/
def headerReadMemory (data : Bytes) : Except FsdError Header :=
  if data.length < headerSize then .error .invalidArg
  else if window data 0 4 ≠ magic then .error .badMagic
  else if data.getD 4 0 ≠ formatVersion then .error .badVersion
  else
    let log2 := (data.getD 5 0).toNat
    if h : 5 ≤ log2 ∧ log2 ≤ 24 then
      if data.getD 6 0 ≠ 0 ∨ data.getD 7 0 ≠ 0 then .error .corruptData
      else .ok ⟨log2, leNat (window data 8 8), leNat (window data 16 8), leNat (window data 24 8),
        h.1, h.2⟩
    else .error .badBlockSize

/-- `fsd_header_read`: the first 32 bytes of the file, then the same checks. -/
def headerRead (file : Bytes) : Except FsdError Header :=
  if file.length < headerSize then .error .truncated
  else headerReadMemory (window file 0 headerSize)

theorem Header.blockSize_ge (h : Header) : 32 ≤ h.blockSize :=
  Nat.pow_le_pow_right (n := 2) (by decide) h.five_le_log2

theorem Header.blockSize_le (h : Header) : h.blockSize ≤ 2 ^ 24 :=
  Nat.pow_le_pow_right (n := 2) (by decide) h.log2_le

@[simp] theorem length_headerWrite (d l o f : ℕ) : (headerWrite d l o f).length = headerSize := by
  simp [headerWrite, magic, headerSize]

theorem headerReadMemory_length {data : Bytes} {h : Header} (hr : headerReadMemory data = .ok h) :
    headerSize ≤ data.length := by
  by_contra hl
  rw [headerReadMemory, if_pos (not_le.mp hl)] at hr
  cases hr

/-- The file reader and the memory reader accept the same header. -/
theorem headerRead_of_headerReadMemory {data : Bytes} {h : Header}
    (hr : headerReadMemory data = .ok h) : headerRead data = .ok h := by
  have hl := headerReadMemory_length hr
  have hw : ∀ p n, p + n ≤ headerSize → window (window data 0 headerSize) p n = window data p n := by
    intro p n hpn
    rw [window_window hpn, zero_add]
  have hg : ∀ k < headerSize, (window data 0 headerSize).getD k 0 = data.getD k 0 := by
    intro k hk
    rw [List.getD_eq_getElem?_getD, getElem?_window hk, zero_add, List.getD_eq_getElem?_getD]
  have hw32 : (window data 0 headerSize).length = headerSize := length_window (by omega)
  rw [← hr, headerRead, if_neg (not_lt.mpr hl), headerReadMemory, headerReadMemory,
    if_neg (not_lt.mpr hl), if_neg (by omega)]
  simp only [hw 0 4 (by decide), hg 4 (by decide), hg 5 (by decide), hg 6 (by decide),
    hg 7 (by decide), hw 8 8 (by decide), hw 16 8 (by decide), hw 24 8 (by decide)]

theorem headerWrite_lengths (d l o f : ℕ) (rest : Bytes) :
    window (headerWrite d l o f ++ rest) 16 8 = leBytes 8 o ∧
      window (headerWrite d l o f ++ rest) 24 8 = leBytes 8 f := by
  constructor
  · simp [headerWrite, magic, window]
  · simp [headerWrite, magic, window, List.drop_append, List.drop_eq_nil_of_le]

/-- Reading back a written header, whatever follows it. -/
theorem headerReadMemory_headerWrite (d l o f : ℕ) (rest : Bytes) (hl : 5 ≤ l) (hu : l ≤ 24)
    (hd : d < 2 ^ 64) (ho : o < 2 ^ 64) (hf : f < 2 ^ 64) :
    headerReadMemory (headerWrite d l o f ++ rest) = .ok ⟨l, d, o, f, hl, hu⟩ := by
  have hlen : ¬ (headerWrite d l o f ++ rest).length < headerSize := by simp
  have hlog : (UInt8.ofNat l).toNat = l := by
    rw [UInt8.toNat_ofNat']
    omega
  have hfield : ∀ n < 2 ^ 64, leNat (leBytes 8 n) = n := fun n hn => leNat_leBytes_of_lt hn
  have h8 : window (headerWrite d l o f ++ rest) 8 8 = leBytes 8 d := by
    simp [headerWrite, magic, window]
  obtain ⟨h16, h24⟩ := headerWrite_lengths d l o f rest
  have h4 : window (headerWrite d l o f ++ rest) 0 4 = magic := by
    simp [headerWrite, magic, window]
  have hb : (headerWrite d l o f ++ rest).getD 4 0 = formatVersion ∧
      (headerWrite d l o f ++ rest).getD 5 0 = UInt8.ofNat l ∧
      (headerWrite d l o f ++ rest).getD 6 0 = 0 ∧ (headerWrite d l o f ++ rest).getD 7 0 = 0 := by
    simp [headerWrite, magic]
  obtain ⟨hb4, hb5, hb6, hb7⟩ := hb
  rw [headerReadMemory, if_neg hlen]
  simp only [h4, hb4, hb5, hb6, hb7, h8, h16, h24, hfield d hd, hfield o ho, hfield f hf, hlog,
    hl, hu, ne_eq, not_true_eq_false, if_false, or_self, and_self, dite_true]

end Fsdiff
