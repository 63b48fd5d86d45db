import NvmeVirt.Kv.KvFtl

/-!
# Decoding a batch

`__do_perform_kv_batch` copies the payload of a batch into a buffer and takes
the key and the value of each sub-command out of it.  Sizes come from the
attributes at the start of the buffer, and the position of a sub-command is the
sum of the sizes before it, rounded up to 64 bytes.  Nothing is checked against
the length of the buffer, the number of attributes or the arrays that the copies
go to.
-/

namespace NvmeVirt.Kv

/-! ## The code -/

/-- A value stored in an `int`. -/
def int32 (value : ℤ) : ℤ := (value + 2 ^ 31) % 2 ^ 32 - 2 ^ 31

/-- An `int` converted to `size_t`, as `memcpy` takes it. -/
def sizeOfInt (value : ℤ) : ℕ := (value % 2 ^ 64).toNat

def maxSubCmd : ℕ := 8

/-- Bytes of `struct sub_cmd_attribute` and of `struct batch_cmd_head`. -/
def attributeSize : ℕ := 16

def batchHeadSize : ℕ := 512

/-- The arrays `key` and `value`. -/
def keyRoom : ℕ := 20

def valueRoom : ℕ := 4097

/-- `((len - 1) / ALIGN_LEN + 1) * ALIGN_LEN`. -/
def alignLen (len : ℤ) : ℤ :=
  int32 (int32 ((int32 (len - 1)).tdiv 64 + 1) * 64)

/-- The memory from the start of the buffer on, before it and behind it. -/
abbrev Payload := ℤ → UInt8

section Attributes

variable (payload : Payload) (i : ℕ)

def attrOpcode : UInt8 := payload (attributeSize * i)

def attrKeySize : ℕ := (payload (attributeSize * i + 1)).toNat

def attrValueSize : ℕ :=
  (payload (attributeSize * i + 4)).toNat +
    2 ^ 8 * (payload (attributeSize * i + 5)).toNat +
    2 ^ 16 * (payload (attributeSize * i + 6)).toNat +
    2 ^ 24 * (payload (attributeSize * i + 7)).toNat

end Attributes

/-- A sub-command that is passed on to `__do_perform_kv_batched_io`: the index
of its attributes, and where in the buffer its key and its value are copied
from. -/
structure SubCommand where
  index : ℕ
  opcode : UInt8
  keyLen : ℤ
  valLen : ℤ
  keyAt : ℤ
  valueAt : ℤ
  deriving DecidableEq

/-- The loop over the sub-commands. -/
def batchLoop (payload : Payload) : ℕ → ℕ → ℤ → List SubCommand
  | 0, _, _ => []
  | rounds + 1, i, payloadOffset =>
      let keyLen : ℤ := attrKeySize payload i
      let valLen := int32 (attrValueSize payload i)
      let subLen := int32 (int32 (alignLen keyLen + alignLen valLen) + 64)
      let subPayload := batchHeadSize + payloadOffset
      ⟨i, attrOpcode payload i, keyLen, valLen, subPayload,
          subPayload + alignLen keyLen⟩ ::
        batchLoop payload rounds (i + 1) (int32 (payloadOffset + subLen))

/-- `struct nvme_kv_batch_command`: the count in `rsvd4`, and `value_len`. -/
structure BatchCommand where
  subCmdCnt : UInt8
  valueLen : UInt32

/-- `cmd_value_length`, the size of the buffer. -/
def BatchCommand.length (cmd : BatchCommand) : ℕ := (cmd.valueLen <<< 2).toNat

/-- `__do_perform_kv_batch`: the sub-commands that it carries out. -/
def doPerformKvBatch (cmd : BatchCommand) (payload : Payload) :
    List SubCommand :=
  batchLoop payload cmd.subCmdCnt.toNat 0 64

/-! ## Staying in bounds -/

/-- A `memcpy` out of a buffer of `length` bytes, to an array of `room`
bytes. -/
def CopyInBounds (length : ℕ) (start len : ℤ) (room : ℕ) : Prop :=
  sizeOfInt len ≤ room ∧
    (sizeOfInt len = 0 ∨ 0 ≤ start ∧ start + sizeOfInt len ≤ length)

/-- What is read for a sub-command, and what its copies write, is in bounds. -/
structure SubCommand.InBounds (length : ℕ) (sub : SubCommand) : Prop where
  index_lt : sub.index < maxSubCmd
  attr : attributeSize * sub.index + 8 ≤ length
  key : CopyInBounds length sub.keyAt sub.keyLen keyRoom
  value : CopyInBounds length sub.valueAt sub.valLen valueRoom

/-- A size rounded up to 64 bytes; a size of zero takes 64 bytes, too. -/
def alignedSize (size : ℕ) : ℕ := ((size - 1) / 64 + 1) * 64

/-- Where a sub-command starts behind the attributes. -/
def subOffset (payload : Payload) : ℕ → ℕ
  | 0 => 64
  | i + 1 => subOffset payload i + alignedSize (attrKeySize payload i) +
      alignedSize (attrValueSize payload i) + 64

/-- The sub-command has attributes in the buffer, a key of at most 20 and a
value of at most 4097 bytes, and both end in the buffer. -/
structure SubFits (payload : Payload) (length i : ℕ) : Prop where
  index_lt : i < 8
  attr : 16 * i + 8 ≤ length
  keySize_le : attrKeySize payload i ≤ 20
  valueSize_le : attrValueSize payload i ≤ 4097
  key : attrKeySize payload i = 0 ∨
    512 + subOffset payload i + attrKeySize payload i ≤ length
  value : attrValueSize payload i = 0 ∨
    512 + subOffset payload i + alignedSize (attrKeySize payload i) +
      attrValueSize payload i ≤ length

section Decoder

variable {payload : Payload} {length i : ℕ}

theorem int32_of_range {value : ℤ} (hlow : -2 ^ 31 ≤ value)
    (hhigh : value < 2 ^ 31) : int32 value = value := by
  rw [int32]
  omega

theorem sizeOfInt_natCast {size : ℕ} (hsize : size < 2 ^ 64) :
    sizeOfInt size = size := by
  rw [sizeOfInt]
  omega

/-- A negative length is a huge size. -/
theorem sizeOfInt_int32 {size : ℕ} (hsize : size < 2 ^ 32) :
    sizeOfInt (int32 size) = size ∨ 2 ^ 63 ≤ sizeOfInt (int32 size) := by
  rw [sizeOfInt, int32]
  omega

theorem attrValueSize_lt (payload : Payload) (i : ℕ) :
    attrValueSize payload i < 2 ^ 32 := by
  have hlow := (payload (attributeSize * i + 4)).toNat_lt
  have hsecond := (payload (attributeSize * i + 5)).toNat_lt
  have hthird := (payload (attributeSize * i + 6)).toNat_lt
  have hhigh := (payload (attributeSize * i + 7)).toNat_lt
  rw [attrValueSize]
  omega

theorem attrKeySize_lt (payload : Payload) (i : ℕ) :
    attrKeySize payload i < 2 ^ 8 :=
  (payload (attributeSize * i + 1)).toNat_lt

theorem alignLen_natCast {size : ℕ} (hsize : size ≤ 2 ^ 30) :
    alignLen size = alignedSize size := by
  cases size with
  | zero => rfl
  | succ size =>
      have hdiv : size / 64 ≤ size := Nat.div_le_self _ _
      have hpred : int32 (((size + 1 : ℕ) : ℤ) - 1) = size := by
        rw [int32_of_range] <;> omega
      have hshare : ((size : ℤ)).tdiv 64 = ((size / 64 : ℕ) : ℤ) := by
        rw [Int.tdiv_eq_ediv_of_nonneg (Int.natCast_nonneg size)]
        rfl
      have hsucc : int32 (((size / 64 : ℕ) : ℤ) + 1) = (size / 64 : ℕ) + 1 := by
        rw [int32_of_range] <;> omega
      rw [alignLen, hpred, hshare, hsucc, int32_of_range (by omega) (by omega),
        alignedSize, Nat.add_sub_cancel]
      push_cast
      rfl

theorem alignedSize_le (size : ℕ) : alignedSize size ≤ size + 64 := by
  rw [alignedSize]
  omega

/-- The bound for the position of a sub-command, while all fit. -/
theorem subOffset_succ_le (hoffset : subOffset payload i ≤ 64 + 4352 * i)
    (hfits : SubFits payload length i) :
    subOffset payload (i + 1) ≤ 64 + 4352 * (i + 1) := by
  have hkey := hfits.keySize_le
  have hvalue := hfits.valueSize_le
  have halignKey := alignedSize_le (attrKeySize payload i)
  have halignValue := alignedSize_le (attrValueSize payload i)
  rw [subOffset]
  omega

/-- The sub-command that the loop makes of attributes and a position. -/
def decoded (payload : Payload) (i : ℕ) (payloadOffset : ℤ) : SubCommand :=
  ⟨i, attrOpcode payload i, attrKeySize payload i,
    int32 (attrValueSize payload i), batchHeadSize + payloadOffset,
    batchHeadSize + payloadOffset + alignLen (attrKeySize payload i)⟩

theorem copyInBounds_natCast {start size room : ℕ} (hsize : size < 2 ^ 64) :
    CopyInBounds length start size room ↔
      size ≤ room ∧ (size = 0 ∨ start + size ≤ length) := by
  rw [CopyInBounds, sizeOfInt_natCast hsize]
  omega

/-- A sub-command at its position stays in bounds exactly if it fits. -/
theorem decoded_inBounds_iff :
    (decoded payload i (subOffset payload i)).InBounds length ↔
      SubFits payload length i := by
  have hkeySize := attrKeySize_lt payload i
  have hvalueSize := attrValueSize_lt payload i
  have halign : alignLen (attrKeySize payload i) =
      alignedSize (attrKeySize payload i) := alignLen_natCast (by omega)
  have hstart : (decoded payload i (subOffset payload i)).keyAt =
      ((512 + subOffset payload i : ℕ) : ℤ) := by
    simp [decoded, batchHeadSize]
  have hvalueAt : (decoded payload i (subOffset payload i)).valueAt =
      ((512 + subOffset payload i + alignedSize (attrKeySize payload i) : ℕ) :
        ℤ) := by
    simp [decoded, batchHeadSize, halign]
  have hkey : CopyInBounds length
      (decoded payload i (subOffset payload i)).keyAt
      (attrKeySize payload i) keyRoom ↔
        attrKeySize payload i ≤ keyRoom ∧ (attrKeySize payload i = 0 ∨
          512 + subOffset payload i + attrKeySize payload i ≤ length) := by
    rw [hstart]
    exact copyInBounds_natCast (by omega)
  constructor
  · intro hbounds
    -- a size that fits is not negative
    have hsmall : attrValueSize payload i ≤ 4097 := by
      have hroom := hbounds.value.1
      rcases sizeOfInt_int32 hvalueSize with heq | hhuge
      · exact heq ▸ hroom
      · exact absurd (hhuge.trans hroom) (by norm_num [valueRoom])
    have hvalLen : (decoded payload i (subOffset payload i)).valLen =
        attrValueSize payload i := int32_of_range (by omega) (by omega)
    have hvalue := hbounds.value
    rw [hvalueAt, hvalLen, copyInBounds_natCast (by omega)] at hvalue
    have hkey := hkey.mp hbounds.key
    exact ⟨hbounds.index_lt, hbounds.attr, hkey.1, hsmall, hkey.2, hvalue.2⟩
  · intro hfits
    have hsmall := hfits.valueSize_le
    have hvalLen : (decoded payload i (subOffset payload i)).valLen =
        attrValueSize payload i := int32_of_range (by omega) (by omega)
    refine ⟨hfits.index_lt, hfits.attr,
      hkey.mpr ⟨hfits.keySize_le, hfits.key⟩, ?_⟩
    rw [hvalueAt, hvalLen, copyInBounds_natCast (by omega)]
    exact ⟨hsmall, hfits.value⟩

/-- The position of the next sub-command, in the arithmetic of the code. -/
theorem nextOffset_eq (hoffset : subOffset payload i ≤ 64 + 4352 * i)
    (hfits : SubFits payload length i) :
    int32 (subOffset payload i + int32 (int32
        (alignLen (attrKeySize payload i) +
          alignLen (int32 (attrValueSize payload i))) + 64)) =
      subOffset payload (i + 1) := by
  have hkey := hfits.keySize_le
  have hvalue := hfits.valueSize_le
  have hindex := hfits.index_lt
  have halignKey := alignedSize_le (attrKeySize payload i)
  have halignValue := alignedSize_le (attrValueSize payload i)
  have hvalLen : int32 (attrValueSize payload i) = attrValueSize payload i :=
    int32_of_range (by omega) (by omega)
  have hsizes : int32 ((alignedSize (attrKeySize payload i) : ℤ) +
      alignedSize (attrValueSize payload i)) =
        alignedSize (attrKeySize payload i) +
          alignedSize (attrValueSize payload i) :=
    int32_of_range (by omega) (by omega)
  have hsubLen : int32 ((alignedSize (attrKeySize payload i) : ℤ) +
      alignedSize (attrValueSize payload i) + 64) =
        alignedSize (attrKeySize payload i) +
          alignedSize (attrValueSize payload i) + 64 :=
    int32_of_range (by omega) (by omega)
  rw [hvalLen, alignLen_natCast (by omega), alignLen_natCast (by omega), hsizes,
    hsubLen, int32_of_range (by omega) (by omega), subOffset]
  push_cast
  ring

/-- The loop from a sub-command on, at its position. -/
theorem batchLoop_inBounds_iff (payload : Payload) (length rounds i : ℕ)
    (hoffset : subOffset payload i ≤ 64 + 4352 * i) :
    (∀ sub ∈ batchLoop payload rounds i (subOffset payload i),
        sub.InBounds length) ↔
      ∀ j < rounds, SubFits payload length (i + j) := by
  induction rounds generalizing i with
  | zero => simp [batchLoop]
  | succ rounds ih =>
      rw [batchLoop, List.forall_mem_cons]
      by_cases hfits : SubFits payload length i
      · rw [nextOffset_eq hoffset hfits, ih (i + 1)
          (subOffset_succ_le hoffset hfits)]
        constructor
        · rintro ⟨-, hrest⟩ j hj
          cases j with
          | zero => exact hfits
          | succ j =>
              rw [show i + (j + 1) = i + 1 + j by omega]
              exact hrest j (by omega)
        · intro hall
          refine ⟨decoded_inBounds_iff.mpr hfits, fun j hj => ?_⟩
          rw [show i + 1 + j = i + (j + 1) by omega]
          exact hall (j + 1) (by omega)
      · refine iff_of_false ?_ ?_
        · rintro ⟨hfirst, -⟩
          exact hfits (decoded_inBounds_iff.mp hfirst)
        · intro hall
          exact hfits (hall 0 (Nat.succ_pos rounds))

end Decoder

/-- For every command and every content of the buffer and of the memory around
it: the decoder stays in bounds exactly if all sub-commands fit. -/
theorem batch_in_bounds_iff (cmd : BatchCommand) (payload : Payload) :
    (∀ sub ∈ doPerformKvBatch cmd payload, sub.InBounds cmd.length) ↔
      ∀ i < cmd.subCmdCnt.toNat, SubFits payload cmd.length i := by
  have hloop := batchLoop_inBounds_iff payload cmd.length
    cmd.subCmdCnt.toNat 0 le_rfl
  simp only [Nat.zero_add] at hloop
  exact hloop

/-- A batch of one sub-command with a key of 255 bytes in a buffer of one
page: the key is copied to an array of 20 bytes. -/
theorem long_key_overruns :
    let cmd : BatchCommand := ⟨1, 1024⟩
    let payload : Payload := fun address => if address = 1 then 255 else 0
    cmd.length = 4096 ∧
      doPerformKvBatch cmd payload = [⟨0, 0, 255, 0, 576, 832⟩] ∧
      ¬ ∀ sub ∈ doPerformKvBatch cmd payload, sub.InBounds cmd.length := by
  intro cmd payload
  have hdecoded : doPerformKvBatch cmd payload =
      [⟨0, 0, 255, 0, 576, 832⟩] := by decide
  refine ⟨by decide, hdecoded, ?_⟩
  rw [hdecoded, List.forall_mem_singleton]
  intro hbounds
  exact absurd hbounds.key.1 (by decide)

end NvmeVirt.Kv
