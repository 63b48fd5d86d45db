import NvmeVirt.Csd.HostMemory
import NvmeVirt.Lib.Loops
import NvmeVirt.Lib.Regions

/-!
# Distribution of the edges

Before the first iteration the host program writes the outdegree table to every
device and splits each edge block into one portion for each device.  Files are
copied through a buffer of eight sectors.  The copy loop passes the number of
bytes that remain through a helper with `int` parameters, so a portion of
`2 ^ 31` bytes makes the count negative.
-/

namespace NvmeVirt.Csd

open Function NvmeVirt.Regions

def SECTOR_SIZE : ℕ := 512
def NUM_SECTORS : ℕ := 8

/-- `buffer_size`, in bytes. -/
def bufferSize : ℕ := SECTOR_SIZE * NUM_SECTORS

/-! ## Reading files and writing devices -/

/-- `min` of the host program, for two `int`s. -/
def minInt (x y : BitVec 32) : BitVec 32 :=
  if x.slt y then x else y

/-- An `int` where a `size_t` is expected. -/
def toSize (n : BitVec 32) : ℕ :=
  (n.signExtend 64).toNat

/-- Number of bytes that `fread` reads. -/
def freadCount (count : ℕ) (file : List UInt8) : ℕ :=
  min count file.length

/-- The buffer after `fread`; bytes beyond the end of the file stay. -/
def fread (buffer : ℕ → UInt8) (count : ℕ) (file : List UInt8) : ℕ → UInt8 :=
  fun i => (file.take count).getD i (buffer i)

/-- `struct nvme_user_io`, without the fields that are always zero. -/
structure NvmeUserIo where
  opcode : ℕ
  nblocks : ℕ
  addr : ℕ → UInt8
  slba : ℕ

/-- `setup_nvme_command`; the number of blocks is zero-based. -/
def setupNvmeCommand (buffer : ℕ → UInt8) (opcode slba : ℕ) : NvmeUserIo where
  opcode := opcode
  nblocks := NUM_SECTORS - 1
  addr := buffer
  slba := slba

/-- The effect of a command on the storage of a device: opcode 1 writes, the
read command leaves the storage alone. -/
def nvmeIoSubmit (disk : ℕ → UInt8) (io : NvmeUserIo) : ℕ → UInt8 :=
  if io.opcode = 0x01 then
    fun address =>
      if io.slba * SECTOR_SIZE ≤ address ∧
          address < io.slba * SECTOR_SIZE + (io.nblocks + 1) * SECTOR_SIZE then
        io.addr (address - io.slba * SECTOR_SIZE)
      else disk address
  else disk

/-- What the copy loops change: the buffer, the rest of the file, the storage
of the device and the offset behind the last chunk. -/
structure CopyLoop where
  buffer : ℕ → UInt8
  file : List UInt8
  disk : ℕ → UInt8
  offset : ℕ

/-- Body of both copy loops. -/
def copyChunk (base count : ℕ) (loop : CopyLoop) : CopyLoop where
  buffer := fun _ => 0
  file := loop.file.drop count
  disk := nvmeIoSubmit loop.disk
    (setupNvmeCommand (fread loop.buffer count loop.file) 0x01
      ((base + loop.offset) / SECTOR_SIZE))
  offset := loop.offset + bufferSize

/-- The loop over the outdegree file. -/
def copyFile (base : ℕ) (loop : CopyLoop) : CopyLoop :=
  if 0 < freadCount bufferSize loop.file then
    copyFile base (copyChunk base bufferSize loop)
  else loop
termination_by loop.file.length
decreasing_by
  simp only [copyChunk, List.length_drop]
  simp only [freadCount, bufferSize, SECTOR_SIZE, NUM_SECTORS] at *
  omega

/-- `int bytes = min(buffer_size, remaining)`. -/
def chunkBytes (remaining : ℕ) : ℕ :=
  toSize (minInt (BitVec.ofNat 32 bufferSize) (BitVec.ofNat 32 remaining))

/-- The loop over one portion of an edge block; `none` when `fread` writes past
the end of the buffer. -/
def copyPortion (base remaining : ℕ) (loop : CopyLoop) : Option CopyLoop :=
  if 0 < remaining then
    if freadCount (chunkBytes remaining) loop.file ≤ bufferSize then
      copyPortion base (remaining - bufferSize)
        (copyChunk base (chunkBytes remaining) loop)
    else none
  else some loop
termination_by remaining
decreasing_by
  simp only [bufferSize, SECTOR_SIZE, NUM_SECTORS]
  omega

/-! ## All devices -/

/-- The storage of the devices and the tables of the host program. -/
structure CsdsData where
  buffer : ℕ → UInt8
  disk : ℕ → ℕ → UInt8
  edgeBlockBaseSlba : ℕ → ℕ
  edgeBlocksSlba : ℕ → ℕ → ℕ → ℕ
  edgeBlocksLength : ℕ → ℕ → ℕ → ℕ

/-- Write the outdegree table, which starts at address 0, to one device. -/
def writeOutdegrees (outdegrees : List UInt8) (data : CsdsData) (csd : ℕ) :
    CsdsData :=
  let loop := copyFile 0 ⟨data.buffer, outdegrees, data.disk csd, 0⟩
  { data with
    buffer := loop.buffer
    disk := update data.disk csd loop.disk
    edgeBlockBaseSlba := update data.edgeBlockBaseSlba csd (0 + loop.offset) }

/-- Bytes of one portion of an edge block; the first devices take the
remaining edges. -/
def portionLength (edgeBlockSize numCsds csd : ℕ) : ℕ :=
  let numEdge := edgeBlockSize / EDGE_SIZE
  EDGE_SIZE * (numEdge / numCsds + if csd < numEdge % numCsds then 1 else 0)

def setEntry (table : ℕ → ℕ → ℕ → ℕ) (block : ℕ × ℕ) (csd value : ℕ) :
    ℕ → ℕ → ℕ → ℕ :=
  fun i j k => if (i, j) = block ∧ k = csd then value else table i j k

/-- The tables after a portion is copied. -/
def recordPortion (block : ℕ × ℕ) (csd : ℕ) (data : CsdsData)
    (loop : CopyLoop) : CsdsData :=
  let base := data.edgeBlockBaseSlba csd
  { data with
    buffer := loop.buffer
    disk := update data.disk csd loop.disk
    edgeBlocksSlba := setEntry data.edgeBlocksSlba block csd base
    edgeBlockBaseSlba :=
      update data.edgeBlockBaseSlba csd (base + loop.offset) }

/-- Write the portion of one device. -/
def writePortion (block : ℕ × ℕ) (state : CsdsData × List UInt8) (csd : ℕ) :
    Option (CsdsData × List UInt8) :=
  let data := state.1
  (copyPortion (data.edgeBlockBaseSlba csd)
      (data.edgeBlocksLength block.1 block.2 csd)
      ⟨data.buffer, state.2, data.disk csd, 0⟩).map fun loop =>
    (recordPortion block csd data loop, loop.file)

/-- The loop that divides an edge block into portions. -/
def setLengths (numCsds : ℕ) (block : ℕ × ℕ) (edgeBlockSize : ℕ)
    (data : CsdsData) : CsdsData :=
  { data with
    edgeBlocksLength := (List.range numCsds).foldl
      (fun table csd => setEntry table block csd
        (portionLength edgeBlockSize numCsds csd)) data.edgeBlocksLength }

/-- Divide one edge block and write its portions. -/
def writeBlock (numCsds : ℕ) (files : ℕ → ℕ → List UInt8) (data : CsdsData)
    (block : ℕ × ℕ) : Option CsdsData :=
  let file := files block.1 block.2
  ((List.range numCsds).foldlM (writePortion block)
    (setLengths numCsds block file.length data, file)).map Prod.fst

/-- Edge blocks in the order of the two loops. -/
def blockOrder (numPartitions : ℕ) : List (ℕ × ℕ) :=
  List.range numPartitions ×ˢ List.range numPartitions

/-- The part of `init_csds_data` that writes to the devices. -/
def initCsdsStorage (numCsds numPartitions : ℕ) (outdegrees : List UInt8)
    (files : ℕ → ℕ → List UInt8) (data : CsdsData) : Option CsdsData :=
  (blockOrder numPartitions).foldlM (writeBlock numCsds files)
    ((List.range numCsds).foldl (writeOutdegrees outdegrees) data)

/-! ## Copy loops -/

theorem sectorSize_dvd_bufferSize : SECTOR_SIZE ∣ bufferSize :=
  ⟨NUM_SECTORS, rfl⟩

theorem toSize_ofNat {n : ℕ} (hlt : n < 2 ^ 31) :
    toSize (BitVec.ofNat 32 n) = n := by
  have hword : (BitVec.ofNat 32 n).toNat = n := by
    rw [BitVec.toNat_ofNat]
    omega
  have hmsb : (BitVec.ofNat 32 n).msb = false := by
    rw [BitVec.msb_eq_decide, hword, decide_eq_false_iff_not]
    omega
  rw [toSize, BitVec.signExtend_eq_setWidth_of_msb_false hmsb,
    BitVec.toNat_setWidth, hword]
  omega

theorem toInt_ofNat_of_lt {n : ℕ} (hlt : n < 2 ^ 31) :
    (BitVec.ofNat 32 n).toInt = n := by
  rw [BitVec.toInt_ofNat']
  simp only [Int.bmod]
  omega

/-- Below the limit the helper computes the minimum. -/
theorem chunkBytes_of_lt {remaining : ℕ} (hlt : remaining < 2 ^ 31) :
    chunkBytes remaining = min bufferSize remaining := by
  have hbuffer : bufferSize < 2 ^ 31 := by decide
  rw [chunkBytes, minInt]
  by_cases hle : bufferSize < remaining
  · rw [if_pos, toSize_ofNat hbuffer, min_eq_left hle.le]
    rw [BitVec.slt_iff_toInt_lt, toInt_ofNat_of_lt hbuffer,
      toInt_ofNat_of_lt hlt]
    exact_mod_cast hle
  · rw [if_neg, toSize_ofNat hlt, min_eq_right (by omega)]
    rw [BitVec.slt_iff_toInt_lt, toInt_ofNat_of_lt hbuffer,
      toInt_ofNat_of_lt hlt]
    exact_mod_cast hle

/-- From `2 ^ 31` on the count turns negative, which is a huge `size_t`. -/
theorem le_chunkBytes {remaining : ℕ} (hle : 2 ^ 31 ≤ remaining)
    (hlt : remaining < 2 ^ 31 + bufferSize) :
    2 ^ 31 ≤ chunkBytes remaining := by
  have hbuffer : bufferSize = 4096 := rfl
  have hword : (BitVec.ofNat 32 remaining).toNat = remaining := by
    rw [BitVec.toNat_ofNat]
    omega
  have hmsb : (BitVec.ofNat 32 remaining).msb = true := by
    rw [BitVec.msb_eq_decide, hword, decide_eq_true_eq]
    omega
  have hneg : (BitVec.ofNat 32 remaining).toInt < 0 := by
    rw [BitVec.toInt_neg_iff, hword]
    omega
  rw [chunkBytes, minInt, if_neg]
  · rw [toSize, BitVec.toNat_signExtend, if_pos hmsb]
    omega
  · rw [BitVec.slt_iff_toInt_lt, toInt_ofNat_of_lt (by omega)]
    omega

/-- A write command stores one buffer. -/
theorem nvmeIoSubmit_write (disk buffer : ℕ → UInt8) (slba address : ℕ) :
    nvmeIoSubmit disk (setupNvmeCommand buffer 0x01 slba) address =
      if slba * SECTOR_SIZE ≤ address ∧
          address < slba * SECTOR_SIZE + bufferSize then
        buffer (address - slba * SECTOR_SIZE)
      else disk address := by
  have hopcode : (setupNvmeCommand buffer 0x01 slba).opcode = 0x01 := rfl
  have hblocks : (setupNvmeCommand buffer 0x01 slba).nblocks + 1 =
      NUM_SECTORS := rfl
  rw [nvmeIoSubmit, if_pos hopcode, hblocks, bufferSize,
    Nat.mul_comm SECTOR_SIZE]
  rfl

section Copies

variable {base : ℕ} {loop : CopyLoop}

/-- The storage after a chunk. -/
theorem copyChunk_disk (halign : SECTOR_SIZE ∣ base + loop.offset)
    (count address : ℕ) :
    (copyChunk base count loop).disk address =
      if base + loop.offset ≤ address ∧
          address < base + loop.offset + bufferSize then
        fread loop.buffer count loop.file (address - (base + loop.offset))
      else loop.disk address := by
  refine (nvmeIoSubmit_write _ _ _ _).trans ?_
  rw [Nat.div_mul_cancel halign]

/-- A chunk is stored at the offset and changes nothing below it. -/
theorem readRange_copyChunk (halign : SECTOR_SIZE ∣ base + loop.offset)
    {count : ℕ} (hcount : count ≤ bufferSize)
    (hfile : count ≤ loop.file.length) :
    readRange (copyChunk base count loop).disk (base + loop.offset) count =
      loop.file.take count := by
  apply List.ext_getElem
  · rw [List.length_take, min_eq_left hfile]
    simp [readRange]
  intro k hk hk'
  rw [List.length_take] at hk'
  simp only [readRange, List.getElem_map, List.getElem_range,
    copyChunk_disk halign]
  rw [if_pos ⟨by omega, by omega⟩, fread, Nat.add_sub_cancel_left,
    List.getD_eq_getElem _ _ (by simpa using hk')]

theorem copyChunk_frame (halign : SECTOR_SIZE ∣ base + loop.offset)
    (count : ℕ) {address : ℕ} (haddress : address < base + loop.offset) :
    (copyChunk base count loop).disk address = loop.disk address := by
  rw [copyChunk_disk halign, if_neg (by omega)]

/-- Only the bytes of the file count. -/
theorem copyChunk_min (base count : ℕ) (loop : CopyLoop) :
    copyChunk base (min count loop.file.length) loop =
      copyChunk base count loop := by
  rcases le_total count loop.file.length with hle | hle
  · rw [min_eq_left hle]
  · have hfread : fread loop.buffer loop.file.length loop.file =
        fread loop.buffer count loop.file := by
      funext i
      simp only [fread, List.take_length, List.take_of_length_le hle]
    simp only [copyChunk, min_eq_right hle, hfread, List.drop_length,
      List.drop_eq_nil_of_le hle]

end Copies

/-- What a copy loop achieves: `count` bytes of the file stand at the offset,
and nothing below the offset has changed. -/
structure Copied (base count : ℕ) (loop loop' : CopyLoop) : Prop where
  file : loop'.file = loop.file.drop count
  aligned : SECTOR_SIZE ∣ base + loop'.offset
  offset : loop.offset + count ≤ loop'.offset
  stored : readRange loop'.disk (base + loop.offset) count =
    loop.file.take count
  frame : ∀ address < base + loop.offset,
    loop'.disk address = loop.disk address

theorem Copied.zero {base : ℕ} {loop : CopyLoop}
    (halign : SECTOR_SIZE ∣ base + loop.offset) :
    Copied base 0 loop loop where
  file := rfl
  aligned := halign
  offset := le_rfl
  stored := rfl
  frame := fun _ _ => rfl

/-- One chunk followed by the rest of the loop. -/
theorem Copied.chunk {base count rest : ℕ} {loop loop' : CopyLoop}
    (halign : SECTOR_SIZE ∣ base + loop.offset) (hcount : count ≤ bufferSize)
    (hrest : rest = 0 ∨ count = bufferSize)
    (hfile : count ≤ loop.file.length)
    (hcopied : Copied base rest (copyChunk base count loop) loop') :
    Copied base (count + rest) loop loop' where
  file := by
    rw [hcopied.file, copyChunk, List.drop_drop]
  aligned := hcopied.aligned
  offset := by
    have hoffset := hcopied.offset
    simp only [copyChunk] at hoffset
    omega
  stored := by
    have hfirst : readRange loop'.disk (base + loop.offset) count =
        loop.file.take count := by
      rw [← readRange_copyChunk halign hcount hfile]
      apply readRange_congr
      intro address _ hlt
      apply hcopied.frame
      simp only [copyChunk]
      omega
    rw [readRange_add, hfirst, List.take_add]
    congr 1
    rcases hrest with rfl | rfl
    · rw [List.take_zero]
      rfl
    · have hsecond := hcopied.stored
      simp only [copyChunk, ← Nat.add_assoc] at hsecond
      exact hsecond
  frame := by
    intro address haddress
    rw [hcopied.frame address (by simp only [copyChunk]; omega)]
    exact copyChunk_frame halign count haddress

theorem aligned_copyChunk {base : ℕ} {loop : CopyLoop}
    (halign : SECTOR_SIZE ∣ base + loop.offset) (count : ℕ) :
    SECTOR_SIZE ∣ base + (copyChunk base count loop).offset := by
  rw [copyChunk, ← Nat.add_assoc]
  exact Nat.dvd_add halign sectorSize_dvd_bufferSize

/-- A portion below the limit is copied as a whole. -/
theorem copyPortion_of_lt (base remaining : ℕ) (loop : CopyLoop)
    (halign : SECTOR_SIZE ∣ base + loop.offset) (hlt : remaining < 2 ^ 31)
    (hfile : remaining ≤ loop.file.length) :
    ∃ loop', copyPortion base remaining loop = some loop' ∧
      Copied base remaining loop loop' := by
  induction remaining, loop using copyPortion.induct base with
  | case1 remaining loop hpos hfits ih =>
      have hbytes := chunkBytes_of_lt hlt
      have hcount : chunkBytes remaining ≤ loop.file.length := by
        rw [hbytes]
        exact (min_le_right _ _).trans hfile
      obtain ⟨loop', hrun, hcopied⟩ := ih
        (aligned_copyChunk halign _) (by omega) (by
          simp only [copyChunk, List.length_drop, hbytes]
          omega)
      refine ⟨loop', ?_, ?_⟩
      · rw [copyPortion, if_pos hpos, if_pos hfits, hrun]
      · have hsum : chunkBytes remaining + (remaining - bufferSize) =
            remaining := by
          rw [hbytes]
          omega
        rw [← hsum]
        exact hcopied.chunk halign (by rw [hbytes]; exact min_le_left _ _)
          (by omega) hcount
  | case2 remaining loop hpos hover =>
      refine absurd ?_ hover
      rw [chunkBytes_of_lt hlt]
      exact (min_le_left _ _).trans (min_le_left _ _)
  | case3 remaining loop hdone =>
      obtain rfl : remaining = 0 := by omega
      refine ⟨loop, ?_, Copied.zero halign⟩
      rw [copyPortion, if_neg hdone]

/-- A portion from the limit on overruns the buffer. -/
theorem copyPortion_overrun (base remaining : ℕ) (loop : CopyLoop)
    (hle : 2 ^ 31 ≤ remaining) (hfile : remaining ≤ loop.file.length) :
    copyPortion base remaining loop = none := by
  have hbuffer : bufferSize = 4096 := rfl
  induction remaining, loop using copyPortion.induct base with
  | case1 remaining loop hpos hfits ih =>
      have hcount : chunkBytes remaining ≤ bufferSize := by
        simp only [freadCount] at hfits
        omega
      have hagain : 2 ^ 31 + bufferSize ≤ remaining := by
        by_contra hlt
        have := le_chunkBytes hle (by omega)
        omega
      rw [copyPortion, if_pos hpos, if_pos hfits]
      apply ih (by omega)
      simp only [copyChunk, List.length_drop]
      omega
  | case2 remaining loop hpos hover =>
      rw [copyPortion, if_pos hpos, if_neg hover]
  | case3 remaining loop hdone => omega

/-- The outdegree file is copied as a whole. -/
theorem copyFile_copied (base : ℕ) (loop : CopyLoop)
    (halign : SECTOR_SIZE ∣ base + loop.offset) :
    Copied base loop.file.length loop (copyFile base loop) := by
  induction loop using copyFile.induct base with
  | case1 loop hpos ih =>
      rw [copyFile, if_pos hpos]
      have hcopied := ih (aligned_copyChunk halign _)
      rw [← copyChunk_min] at hcopied ⊢
      have hlength : min bufferSize loop.file.length +
          (copyChunk base (min bufferSize loop.file.length)
            loop).file.length = loop.file.length := by
        simp only [copyChunk, List.length_drop]
        omega
      have hchunk := hcopied.chunk halign (min_le_left _ _) (by
        simp only [copyChunk, List.length_drop]
        omega) (min_le_right _ _)
      rwa [hlength] at hchunk
  | case2 loop hdone =>
      rw [copyFile, if_neg hdone]
      have hempty : loop.file.length = 0 := by
        simp only [freadCount, bufferSize, SECTOR_SIZE, NUM_SECTORS] at hdone
        omega
      rw [hempty]
      exact Copied.zero halign

/-! ## Portions of a block -/

/-- Where the portion of a device starts in the file of a block. -/
def portionStart (edgeBlockSize numCsds csd : ℕ) : ℕ :=
  EDGE_SIZE * partitionStart (edgeBlockSize / EDGE_SIZE) numCsds csd

/-- The bytes of a block that belong to one device. -/
def portion (contents : List UInt8) (numCsds csd : ℕ) : List UInt8 :=
  slice contents (portionStart contents.length numCsds csd)
    (portionStart contents.length numCsds (csd + 1))

theorem portionStart_succ (edgeBlockSize numCsds csd : ℕ) :
    portionStart edgeBlockSize numCsds (csd + 1) =
      portionStart edgeBlockSize numCsds csd +
        portionLength edgeBlockSize numCsds csd := by
  simp only [portionStart, portionLength, partitionStart, ← Nat.mul_add,
    Nat.add_mul, one_mul]
  congr 1
  by_cases hcsd : csd < edgeBlockSize / EDGE_SIZE % numCsds
  · rw [if_pos hcsd]
    omega
  · rw [if_neg hcsd]
    omega

theorem portionStart_mono (edgeBlockSize numCsds : ℕ) :
    Monotone (portionStart edgeBlockSize numCsds) := fun _ _ hle =>
  Nat.mul_le_mul_left EDGE_SIZE (partitionStart_mono _ _ hle)

theorem portionStart_zero (edgeBlockSize numCsds : ℕ) :
    portionStart edgeBlockSize numCsds 0 = 0 := by
  rw [portionStart, partitionStart_zero, mul_zero]

theorem portionStart_last (edgeBlockSize : ℕ) {numCsds : ℕ}
    (hpos : 0 < numCsds) :
    portionStart edgeBlockSize numCsds numCsds =
      EDGE_SIZE * (edgeBlockSize / EDGE_SIZE) := by
  rw [portionStart, partitionStart_last _ _ hpos]

theorem portionStart_le {edgeBlockSize numCsds csd : ℕ} (hcsd : csd ≤ numCsds)
    (hpos : 0 < numCsds) :
    portionStart edgeBlockSize numCsds csd ≤ edgeBlockSize := by
  calc portionStart edgeBlockSize numCsds csd
      ≤ portionStart edgeBlockSize numCsds numCsds :=
        portionStart_mono _ _ hcsd
    _ = EDGE_SIZE * (edgeBlockSize / EDGE_SIZE) := portionStart_last _ hpos
    _ ≤ edgeBlockSize := Nat.mul_div_le _ _

theorem portion_eq (contents : List UInt8) (numCsds csd : ℕ) :
    portion contents numCsds csd =
      (contents.drop (portionStart contents.length numCsds csd)).take
        (portionLength contents.length numCsds csd) := by
  rw [portion, slice, portionStart_succ, Nat.add_sub_cancel_left]

theorem length_portion (contents : List UInt8) {numCsds csd : ℕ}
    (hcsd : csd < numCsds) : (portion contents numCsds csd).length =
      portionLength contents.length numCsds csd := by
  have hle : portionStart contents.length numCsds (csd + 1) ≤
      contents.length := portionStart_le hcsd (by omega)
  rw [portionStart_succ] at hle
  rw [portion_eq, List.length_take, List.length_drop]
  omega

/-- The portions of all devices make up a file of whole edges. -/
theorem flatMap_portion {contents : List UInt8} {numCsds : ℕ}
    (hpos : 0 < numCsds) (hedges : EDGE_SIZE ∣ contents.length) :
    (List.range numCsds).flatMap (portion contents numCsds) = contents := by
  refine (flatMap_slice contents (portionStart_mono _ _)
    (portionStart_zero _ _) numCsds).trans ?_
  rw [portionStart_last _ hpos, Nat.mul_div_cancel' hedges, List.take_length]

/-- The first device has the longest portion. -/
theorem portionLength_le_zero (edgeBlockSize numCsds csd : ℕ) :
    portionLength edgeBlockSize numCsds csd ≤
      portionLength edgeBlockSize numCsds 0 := by
  apply Nat.mul_le_mul_left
  split_ifs <;> omega

theorem portionLength_balanced (edgeBlockSize numCsds csd csd' : ℕ) :
    portionLength edgeBlockSize numCsds csd ≤
      portionLength edgeBlockSize numCsds csd' + EDGE_SIZE := by
  simp only [portionLength]
  rw [← Nat.mul_succ]
  apply Nat.mul_le_mul_left
  split_ifs <;> omega

theorem setLengths_apply (numCsds : ℕ) (block : ℕ × ℕ) (edgeBlockSize : ℕ)
    (data : CsdsData) (i j k : ℕ) :
    (setLengths numCsds block edgeBlockSize data).edgeBlocksLength i j k =
      if (i, j) = block ∧ k < numCsds then
        portionLength edgeBlockSize numCsds k
      else data.edgeBlocksLength i j k := by
  have hloop : ∀ count : ℕ, (List.range count).foldl
      (fun table csd => setEntry table block csd
        (portionLength edgeBlockSize numCsds csd)) data.edgeBlocksLength
        i j k =
      if (i, j) = block ∧ k < count then
        portionLength edgeBlockSize numCsds k
      else data.edgeBlocksLength i j k := by
    intro count
    induction count with
    | zero => simp
    | succ count ih =>
        rw [List.range_succ, List.foldl_append, List.foldl_cons,
          List.foldl_nil, setEntry, ih]
        by_cases hblock : (i, j) = block
        · rcases lt_trichotomy k count with hlt | rfl | hgt
          · simp [hblock, hlt, hlt.ne, Nat.lt_succ_of_lt hlt]
          · simp [hblock]
          · simp [hblock, hgt.ne', hgt.not_gt,
              show ¬ k < count + 1 by omega]
        · simp [hblock]
  exact hloop numCsds

end NvmeVirt.Csd
