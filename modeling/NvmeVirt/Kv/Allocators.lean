import NvmeVirt.Kv.Extents
import NvmeVirt.Lib.Interleaving

/-!
# The allocators

The append-only allocator gives out the bytes behind those given out before, and
the bitmap allocator units of 1024 bytes in the first half of the storage and of
4096 bytes in the second half.  Neither ever reports that there is no room, and
`kv_store` writes at offset zero if an allocation fails.  As long as the
requests fit, the extents lie in the storage and apart from each other.
-/

namespace NvmeVirt.Kv

open NvmeVirt.Interleaving

/-! ## The append-only allocator -/

/-- `append_only_allocate` on its static variable `latest`. -/
def appendOnlyNext (latest length : ℕ) : ℕ × ℕ :=
  (latest, (latest + length) % 2 ^ 64)

theorem appendOnlyAllocate_eq (ftl : KvFtl) (length : ℕ) :
    appendOnlyAllocate ftl length =
      ((appendOnlyNext ftl.latest length).1,
        { ftl with latest := (appendOnlyNext ftl.latest length).2 }) := rfl

/-! ## The bitmap allocator -/

/-- `bitmap_find_next_zero_area` for an area of one bit. -/
abbrev FindNextZero := (ℕ → Bool) → ℕ → ℕ → ℕ

/-- The first zero bit at or after the start, or a value from the size on if
there is none. -/
structure FindsNextZero (find : FindNextZero) : Prop where
  first : ∀ bits size start, find bits size start < size →
    start ≤ find bits size start ∧ bits (find bits size start) = false ∧
      ∀ i, start ≤ i → i < find bits size start → bits i = true
  full : ∀ bits size start, size ≤ find bits size start →
    ∀ i, start ≤ i → i < size → bits i = true

/-- One of the two bitmaps of `bitmap.c`. -/
structure UnitBitmap where
  nbits : ℕ
  bits : ℕ → Bool
  lastPos : ℕ

/-- Find a zero bit from the last position on, set it and move on. -/
def UnitBitmap.take (find : FindNextZero) (units : UnitBitmap) :
    ℕ × UnitBitmap :=
  let off := find units.bits units.nbits units.lastPos
  let lastPos := (off + 1) % 2 ^ 64
  (off, { units with
    bits := Function.update units.bits off true
    lastPos := if units.nbits < lastPos then 0 else lastPos })

structure BitmapAllocator where
  devSize : ℕ
  small : UnitBitmap
  large : UnitBitmap

def largeLength : ℕ := 4096

/-- Bits of the arrays `small_bitmap` and `large_bitmap`. -/
def smallBitmapBits : ℕ := 600000 * 64

def largeBitmapBits : ℕ := 300000 * 64

/-- `bitmap_allocator_init`; `bitmap_zero` overruns an array that is too short.
-/
def bitmapAllocatorInit (size : ℕ) : Option BitmapAllocator :=
  let smallNbits := size / 2 / smallLength
  let largeNbits := size / 2 / largeLength
  if smallNbits ≤ smallBitmapBits ∧ largeNbits ≤ largeBitmapBits then
    some ⟨size, ⟨smallNbits, fun _ => false, 0⟩,
      ⟨largeNbits, fun _ => false, 0⟩⟩
  else none

/-- `bitmap_allocate`. -/
def bitmapAllocate (find : FindNextZero) (alloc : BitmapAllocator)
    (length : ℕ) : ℕ × BitmapAllocator :=
  if smallLength < length then
    let (off, large) := alloc.large.take find
    ((alloc.devSize / 2 + off * largeLength) % 2 ^ 64, { alloc with large })
  else
    let (off, small) := alloc.small.take find
    (off * smallLength % 2 ^ 64, { alloc with small })

/-! ## Storing new values -/

/-- The state of an allocator, the storage, and the extents given out, the last
one first. -/
structure Space (σ : Type) where
  alloc : σ
  storage : ℕ → UInt8
  extents : List (ℕ × ℕ)

section Space

variable {σ : Type} (allocate : σ → ℕ → ℕ × σ)

/-- The allocation and the copy that `kv_store` makes for a new key, through
`allocate_mem_offset` or `allocate_mem_offset_by_length`. -/
def storeNew (value : List UInt8) (st : Space σ) : Space σ :=
  let (offset, alloc) := allocate st.alloc value.length
  { alloc
    storage := writeBytes st.storage (allocatedOffset offset) value
    extents := (offset, value.length) :: st.extents }

/-- What is asked of an allocation: its extent lies in the storage and apart
from all earlier ones, or it returns -1, and then no byte is written. -/
def AllocationOk (devSize : ℕ) (value : List UInt8) (st : Space σ) : Prop :=
  let offset := (allocate st.alloc value.length).1
  (offset ≠ 2 ^ 64 - 1 → offset + value.length ≤ devSize ∧
      ∀ extent ∈ st.extents,
        Apart extent.1 extent.2 offset value.length) ∧
    (offset = 2 ^ 64 - 1 →
      (storeNew allocate value st).storage = st.storage)

/-- The allocations of a run. -/
def AllocationsOk (devSize : ℕ) (values : List (List UInt8))
    (st : Space σ) : Prop :=
  Meets (fun value st => some (storeNew allocate value st))
    (AllocationOk allocate devSize) values st

variable {allocate}

theorem allocationOk_of_extent {devSize : ℕ} {value : List UInt8}
    {st : Space σ} {offset : ℕ}
    (hoffset : (allocate st.alloc value.length).1 = offset)
    (hfits : offset + value.length ≤ devSize) (hdev : devSize < 2 ^ 64)
    (hapart : ∀ extent ∈ st.extents,
      Apart extent.1 extent.2 offset value.length) :
    AllocationOk allocate devSize value st := by
  refine ⟨fun _ => ?_, fun hfailed => ?_⟩
  · rw [hoffset]
    exact ⟨hfits, hapart⟩
  · -- only an empty value fits at the last offset
    have hnil : value = [] := by
      rw [← List.length_eq_zero_iff]
      omega
    subst hnil
    funext address
    exact writeBytes_outside (by simp only [List.length_nil]; omega)

/-- A run keeps what each request that is in order keeps. -/
theorem allocationsOk_of_invariant {devSize : ℕ}
    (invariant : List (List UInt8) → Space σ → Prop)
    (hok : ∀ value rest st, invariant (value :: rest) st →
      AllocationOk allocate devSize value st)
    (hnext : ∀ value rest st, invariant (value :: rest) st →
      invariant rest (storeNew allocate value st))
    {values : List (List UInt8)} {st : Space σ} (hst : invariant values st) :
    AllocationsOk allocate devSize values st := by
  induction values generalizing st with
  | nil => trivial
  | cons value rest ih =>
      exact ⟨hok value rest st hst, ih (hnext value rest st hst)⟩

end Space

/-! ## Append-only runs -/

/-- The bytes still to be stored fit behind the extents given out. -/
structure AppendRoom (devSize : ℕ) (values : List (List UInt8))
    (st : Space ℕ) : Prop where
  room : st.alloc + (values.map List.length).sum ≤ devSize
  before : ∀ extent ∈ st.extents, extent.1 + extent.2 ≤ st.alloc

theorem appendOnly_allocationsOk {devSize : ℕ} (hdev : devSize < 2 ^ 64)
    (storage : ℕ → UInt8) {values : List (List UInt8)}
    (hfits : (values.map List.length).sum ≤ devSize) :
    AllocationsOk appendOnlyNext devSize values ⟨0, storage, []⟩ := by
  refine allocationsOk_of_invariant (AppendRoom devSize) ?_ ?_
    ⟨by simpa using hfits, by simp⟩
  · intro value rest st hst
    have hroom := hst.room
    rw [List.map_cons, List.sum_cons] at hroom
    have hoffset : (appendOnlyNext st.alloc value.length).1 = st.alloc := rfl
    exact allocationOk_of_extent hoffset (by omega) hdev
      fun extent hextent => .inl (hst.before extent hextent)
  · intro value rest st hst
    have hroom := hst.room
    rw [List.map_cons, List.sum_cons] at hroom
    have hlatest : (storeNew appendOnlyNext value st).alloc =
        st.alloc + value.length := Nat.mod_eq_of_lt (by omega)
    refine ⟨by rw [hlatest]; omega, fun extent hextent => ?_⟩
    rw [hlatest]
    rcases List.mem_cons.mp hextent with rfl | hearlier
    · exact le_rfl
    · exact (hst.before extent hearlier).trans (Nat.le_add_right _ _)

/-! ## Bitmap runs -/

/-- The first `count` units are taken, and the search goes on behind them. -/
structure UnitBitmap.Taken (units : UnitBitmap) (count : ℕ) : Prop where
  bits_eq : ∀ i, units.bits i = decide (i < count)
  lastPos_eq : units.lastPos = count

section Bitmaps

variable {find : FindNextZero}

theorem UnitBitmap.Taken.take (hfind : FindsNextZero find)
    {units : UnitBitmap} {count : ℕ} (htaken : units.Taken count)
    (hroom : count < units.nbits) (hnbits : units.nbits < 2 ^ 64) :
    (units.take find).1 = count ∧
      (units.take find).2.nbits = units.nbits ∧
      (units.take find).2.Taken (count + 1) := by
  have hzero : units.bits count = false := by simp [htaken.bits_eq]
  have hoff : find units.bits units.nbits units.lastPos = count := by
    rw [htaken.lastPos_eq]
    have hlt : find units.bits units.nbits count < units.nbits := by
      by_contra hfull
      have hone := hfind.full units.bits units.nbits count
        (Nat.le_of_not_lt hfull) count le_rfl hroom
      rw [hzero] at hone
      cases hone
    obtain ⟨hle, -, hbefore⟩ := hfind.first units.bits units.nbits count hlt
    by_contra hne
    have hone := hbefore count le_rfl (by omega)
    rw [hzero] at hone
    cases hone
  refine ⟨hoff, rfl, fun i => ?_, ?_⟩
  · simp only [UnitBitmap.take, hoff, Function.update_apply]
    split
    · simp [*]
    · rw [htaken.bits_eq, decide_eq_decide]
      omega
  · simp only [UnitBitmap.take, hoff]
    rw [Nat.mod_eq_of_lt (by omega), if_neg (by omega)]

/-- A unit of one of the two halves. -/
def UnitExtent (start size count : ℕ) (extent : ℕ × ℕ) : Prop :=
  ∃ j < count, extent.1 = start + j * size ∧ extent.2 ≤ size

theorem UnitExtent.mono {start size count : ℕ} {extent : ℕ × ℕ}
    (hunit : UnitExtent start size count extent) :
    UnitExtent start size (count + 1) extent := by
  obtain ⟨j, hj, hextent⟩ := hunit
  exact ⟨j, by omega, hextent⟩

theorem UnitExtent.new {start size length : ℕ} (count : ℕ)
    (hlength : length ≤ size) :
    UnitExtent start size (count + 1) (start + count * size, length) :=
  ⟨count, Nat.lt_succ_self _, rfl, hlength⟩

/-- The units given out end where the next one starts. -/
theorem UnitExtent.end_le {start size count : ℕ} {extent : ℕ × ℕ}
    (hunit : UnitExtent start size count extent) :
    extent.1 + extent.2 ≤ start + count * size := by
  obtain ⟨j, hj, heq, hle⟩ := hunit
  have hmul : (j + 1) * size ≤ count * size := Nat.mul_le_mul_right _ hj
  rw [Nat.succ_mul] at hmul
  omega

theorem UnitExtent.start_le {start size count : ℕ} {extent : ℕ × ℕ}
    (hunit : UnitExtent start size count extent) : start ≤ extent.1 := by
  obtain ⟨j, -, heq, -⟩ := hunit
  omega

/-- Requests of the small and of the large units. -/
def isSmall (value : List UInt8) : Bool := value.length ≤ smallLength

def isLarge (value : List UInt8) : Bool := smallLength < value.length

/-- The units taken so far, and room for the values to come. -/
structure BitmapRoom (devSize : ℕ) (values : List (List UInt8))
    (st : Space BitmapAllocator) (small large : ℕ) : Prop where
  devSize_eq : st.alloc.devSize = devSize
  smallNbits : st.alloc.small.nbits = devSize / 2 / smallLength
  largeNbits : st.alloc.large.nbits = devSize / 2 / largeLength
  smallTaken : st.alloc.small.Taken small
  largeTaken : st.alloc.large.Taken large
  smallRoom : small + values.countP isSmall ≤ devSize / 2 / smallLength
  largeRoom : large + values.countP isLarge ≤ devSize / 2 / largeLength
  lengths : ∀ value ∈ values, value.length ≤ largeLength
  extents : ∀ extent ∈ st.extents,
    UnitExtent 0 smallLength small extent ∨
      UnitExtent (devSize / 2) largeLength large extent

/-- A unit that is still free lies in its half of the storage. -/
theorem unit_end_le {half size count : ℕ} (hsize : 0 < size)
    (hroom : count < half / size) : count * size + size ≤ half := by
  have hle := (Nat.le_div_iff_mul_le hsize).mp hroom
  rwa [Nat.succ_mul] at hle

theorem nbits_lt {devSize : ℕ} (hdev : devSize < 2 ^ 64) (size : ℕ) :
    devSize / 2 / size < 2 ^ 64 :=
  ((Nat.div_le_self _ _).trans (Nat.div_le_self _ _)).trans_lt hdev

theorem bitmapAllocate_small (find : FindNextZero) (alloc : BitmapAllocator)
    {length : ℕ} (hsmall : length ≤ smallLength) :
    bitmapAllocate find alloc length =
      ((alloc.small.take find).1 * smallLength % 2 ^ 64,
        { alloc with small := (alloc.small.take find).2 }) :=
  if_neg (Nat.not_lt.mpr hsmall)

theorem bitmapAllocate_large (find : FindNextZero) (alloc : BitmapAllocator)
    {length : ℕ} (hlarge : smallLength < length) :
    bitmapAllocate find alloc length =
      ((alloc.devSize / 2 + (alloc.large.take find).1 * largeLength) % 2 ^ 64,
        { alloc with large := (alloc.large.take find).2 }) :=
  if_pos hlarge

section Requests

variable {devSize small large : ℕ} {value : List UInt8}
  {rest : List (List UInt8)} {st : Space BitmapAllocator}
  (hfind : FindsNextZero find) (hdev : devSize < 2 ^ 64)
  (hst : BitmapRoom devSize (value :: rest) st small large)
include hfind hdev hst

/-- A small request gets the next small unit. -/
theorem BitmapRoom.storeSmall (hsmall : value.length ≤ smallLength) :
    AllocationOk (bitmapAllocate find) devSize value st ∧
      BitmapRoom devSize rest (storeNew (bitmapAllocate find) value st)
        (small + 1) large := by
  have hisSmall : isSmall value = true := decide_eq_true hsmall
  have hisLarge : ¬ isLarge value = true := by simp [isLarge, hsmall]
  have hsmallRoom := hst.smallRoom
  have hlargeRoom := hst.largeRoom
  rw [List.countP_cons_of_pos hisSmall] at hsmallRoom
  rw [List.countP_cons_of_neg hisLarge] at hlargeRoom
  have hunit : small * smallLength + smallLength ≤ devSize / 2 :=
    unit_end_le (by decide) (by omega)
  obtain ⟨hoff, hnbits, htaken⟩ := UnitBitmap.Taken.take hfind hst.smallTaken
    (by rw [hst.smallNbits]; omega)
    (by rw [hst.smallNbits]; exact nbits_lt hdev _)
  have hallocate : bitmapAllocate find st.alloc value.length =
      (0 + small * smallLength,
        { st.alloc with small := (st.alloc.small.take find).2 }) := by
    rw [bitmapAllocate_small find st.alloc hsmall, hoff,
      Nat.mod_eq_of_lt (by omega), Nat.zero_add]
  constructor
  · refine allocationOk_of_extent (congrArg Prod.fst hallocate) (by omega) hdev
      fun extent hextent => ?_
    rcases hst.extents extent hextent with hold | hold
    · exact .inl hold.end_le
    · have hstart := hold.start_le
      exact .inr (by omega)
  · simp only [storeNew, hallocate]
    refine ⟨hst.devSize_eq, hnbits.trans hst.smallNbits, hst.largeNbits,
      htaken, hst.largeTaken, by omega, hlargeRoom,
      fun other hother => hst.lengths other (List.mem_cons_of_mem _ hother),
      fun extent hextent => ?_⟩
    rcases List.mem_cons.mp hextent with rfl | hearlier
    · exact .inl (UnitExtent.new small hsmall)
    · exact (hst.extents extent hearlier).imp_left UnitExtent.mono

/-- A large request gets the next large unit. -/
theorem BitmapRoom.storeLarge (hlarge : smallLength < value.length) :
    AllocationOk (bitmapAllocate find) devSize value st ∧
      BitmapRoom devSize rest (storeNew (bitmapAllocate find) value st)
        small (large + 1) := by
  have hisSmall : ¬ isSmall value = true := by simp [isSmall, hlarge]
  have hisLarge : isLarge value = true := decide_eq_true hlarge
  have hlength := hst.lengths value List.mem_cons_self
  have hsmallRoom := hst.smallRoom
  have hlargeRoom := hst.largeRoom
  rw [List.countP_cons_of_neg hisSmall] at hsmallRoom
  rw [List.countP_cons_of_pos hisLarge] at hlargeRoom
  have hunit : large * largeLength + largeLength ≤ devSize / 2 :=
    unit_end_le (by decide) (by omega)
  have hsmallEnd : small * smallLength ≤ devSize / 2 :=
    (Nat.le_div_iff_mul_le (by decide)).mp (by omega)
  obtain ⟨hoff, hnbits, htaken⟩ := UnitBitmap.Taken.take hfind hst.largeTaken
    (by rw [hst.largeNbits]; omega)
    (by rw [hst.largeNbits]; exact nbits_lt hdev _)
  have hallocate : bitmapAllocate find st.alloc value.length =
      (devSize / 2 + large * largeLength,
        { st.alloc with large := (st.alloc.large.take find).2 }) := by
    rw [bitmapAllocate_large find st.alloc hlarge, hoff]
    refine Prod.ext ?_ rfl
    rw [hst.devSize_eq]
    exact Nat.mod_eq_of_lt (by omega)
  constructor
  · refine allocationOk_of_extent (congrArg Prod.fst hallocate) (by omega) hdev
      fun extent hextent => ?_
    rcases hst.extents extent hextent with hold | hold
    · have hend := hold.end_le
      exact .inl (by omega)
    · exact .inl hold.end_le
  · simp only [storeNew, hallocate]
    refine ⟨hst.devSize_eq, hst.smallNbits, hnbits.trans hst.largeNbits,
      hst.smallTaken, htaken, hsmallRoom, by omega,
      fun other hother => hst.lengths other (List.mem_cons_of_mem _ hother),
      fun extent hextent => ?_⟩
    rcases List.mem_cons.mp hextent with rfl | hearlier
    · exact .inr (UnitExtent.new large hlength)
    · exact (hst.extents extent hearlier).imp_right UnitExtent.mono

end Requests

theorem bitmap_allocationsOk (hfind : FindsNextZero find) {devSize : ℕ}
    (hdev : devSize < 2 ^ 64) (storage : ℕ → UInt8)
    {values : List (List UInt8)}
    (hlengths : ∀ value ∈ values, value.length ≤ largeLength)
    {alloc : BitmapAllocator}
    (hinit : bitmapAllocatorInit devSize = some alloc)
    (hsmall : values.countP isSmall ≤ devSize / 2 / smallLength)
    (hlarge : values.countP isLarge ≤ devSize / 2 / largeLength) :
    AllocationsOk (bitmapAllocate find) devSize values
      ⟨alloc, storage, []⟩ := by
  have hfresh : ∀ nbits, (⟨nbits, fun _ => false, 0⟩ : UnitBitmap).Taken 0 :=
    fun _ => ⟨fun _ => rfl, rfl⟩
  have hstart : BitmapRoom devSize values ⟨alloc, storage, []⟩ 0 0 := by
    rw [bitmapAllocatorInit] at hinit
    split at hinit
    · cases hinit
      exact ⟨rfl, rfl, rfl, hfresh _, hfresh _, by omega, by omega, hlengths,
        fun _ hextent => absurd hextent List.not_mem_nil⟩
    · cases hinit
  refine allocationsOk_of_invariant
    (fun values st => ∃ small large, BitmapRoom devSize values st small large)
    ?_ ?_ ⟨0, 0, hstart⟩
  · rintro value rest st ⟨small, large, hst⟩
    rcases Nat.lt_or_ge smallLength value.length with hlt | hle
    · exact (BitmapRoom.storeLarge hfind hdev hst hlt).1
    · exact (BitmapRoom.storeSmall hfind hdev hst hle).1
  · rintro value rest st ⟨small, large, hst⟩
    rcases Nat.lt_or_ge smallLength value.length with hlt | hle
    · exact ⟨_, _, (BitmapRoom.storeLarge hfind hdev hst hlt).2⟩
    · exact ⟨_, _, (BitmapRoom.storeSmall hfind hdev hst hle).2⟩

end Bitmaps

/-- `bitmap_find_next_zero_area` as in the kernel: with no zero bit it returns
the end of the area behind the bitmap. -/
def findNextZeroArea : FindNextZero := fun bits size start =>
  ((List.range' start (size - start)).find? fun i => !bits i).getD (size + 1)

theorem findsNextZero_findNextZeroArea : FindsNextZero findNextZeroArea := by
  constructor
  · intro bits size start hlt
    rw [findNextZeroArea] at hlt ⊢
    cases hfind : (List.range' start (size - start)).find? fun i => !bits i with
    | none =>
        rw [hfind, Option.getD_none] at hlt
        omega
    | some off =>
        rw [Option.getD_some]
        have hmem := List.mem_range'_1.mp (List.mem_of_find?_eq_some hfind)
        refine ⟨hmem.1, by simpa using List.find?_some hfind, ?_⟩
        intro i hle hlt
        obtain ⟨-, before, after, hsplit, hbefore⟩ :=
          List.find?_eq_some_iff_append.mp hfind
        have hi : i ∈ before := by
          have hmemAll : i ∈ List.range' start (size - start) :=
            List.mem_range'_1.mpr ⟨hle, by omega⟩
          have hsorted : (List.range' start (size - start)).Pairwise (· < ·) :=
            List.pairwise_lt_range'
          rw [hsplit] at hmemAll hsorted
          rcases List.mem_append.mp hmemAll with hbefore | hrest
          · exact hbefore
          · rcases List.mem_cons.mp hrest with rfl | hafter
            · exact absurd hlt (lt_irrefl i)
            · have hcons := (List.pairwise_append.mp hsorted).2.1
              exact absurd ((List.pairwise_cons.mp hcons).1 i hafter)
                (by omega)
        simpa using hbefore i hi
  · intro bits size start hfull i hle hlt
    rw [findNextZeroArea] at hfull
    cases hfind : (List.range' start (size - start)).find? fun i => !bits i with
    | none =>
        have hall := List.find?_eq_none.mp hfind i
          (List.mem_range'_1.mpr ⟨hle, by omega⟩)
        simpa using hall
    | some off =>
        rw [hfind, Option.getD_some] at hfull
        have hmem := List.mem_range'_1.mp (List.mem_of_find?_eq_some hfind)
        omega

/-! ## Both allocators -/

/-- For every device size and every sequence of values: the allocations are in
order with the append-only allocator if the values fit on the device, and with
the bitmap allocator, whose bitmaps fit their arrays, if there are as many units
of either kind as values for it. -/
theorem allocations_in_order {find : FindNextZero}
    (hfind : FindsNextZero find) {devSize : ℕ} (hdev : devSize < 2 ^ 64)
    (storage : ℕ → UInt8) (values : List (List UInt8)) :
    ((values.map List.length).sum ≤ devSize →
        AllocationsOk appendOnlyNext devSize values ⟨0, storage, []⟩) ∧
      ((∀ value ∈ values, value.length ≤ largeLength) →
        ∀ alloc, bitmapAllocatorInit devSize = some alloc →
          values.countP isSmall ≤ devSize / 2 / smallLength →
          values.countP isLarge ≤ devSize / 2 / largeLength →
            AllocationsOk (bitmapAllocate find) devSize values
              ⟨alloc, storage, []⟩) :=
  ⟨fun hfits => appendOnly_allocationsOk hdev storage hfits,
    fun hlengths _ hinit hsmall hlarge =>
      bitmap_allocationsOk hfind hdev storage hlengths hinit hsmall hlarge⟩

/-- Two small values and a large one on a device of 16 KiB. -/
theorem allocations_in_order_16k :
    ∃ (large : List UInt8) (alloc : BitmapAllocator), large.length = 4096 ∧
      bitmapAllocatorInit (2 ^ 14) = some alloc ∧
      AllocationsOk appendOnlyNext (2 ^ 14) [[1], large, [3]]
        ⟨0, fun _ => 0, []⟩ ∧
      AllocationsOk (bitmapAllocate findNextZeroArea) (2 ^ 14)
        [[1], large, [3]] ⟨alloc, fun _ => 0, []⟩ := by
  obtain ⟨large, hlength⟩ : ∃ large : List UInt8, large.length = 4096 :=
    ⟨List.replicate 4096 2, List.length_replicate⟩
  obtain ⟨happend, hbitmap⟩ := allocations_in_order
    findsNextZero_findNextZeroArea (by norm_num : 2 ^ 14 < 2 ^ 64)
    (fun _ => 0) [[1], large, [3]]
  have hinit : bitmapAllocatorInit (2 ^ 14) = some
      ⟨2 ^ 14, ⟨8, fun _ => false, 0⟩, ⟨2, fun _ => false, 0⟩⟩ := rfl
  refine ⟨large, _, hlength, hinit, happend ?_, hbitmap ?_ _ hinit ?_ ?_⟩
  · simp [hlength]
  · simp [hlength, largeLength]
  · simp [hlength, isSmall, smallLength]
  · simp [hlength, isLarge, smallLength, largeLength]

/-- On a device of 4096 bytes, the second value of the append-only allocator is
given the bytes behind the end of the device. -/
theorem append_only_runs_over :
    let first : List UInt8 := List.replicate 4096 1
    let st : Space ℕ := ⟨0, fun _ => 0, []⟩
    (appendOnlyNext (storeNew appendOnlyNext first st).alloc 1).1 = 4096 ∧
      ¬ AllocationsOk appendOnlyNext 4096 [first, [2]] st := by
  intro first st
  have hlength : first.length = 4096 := List.length_replicate
  have hoffset :
      (appendOnlyNext (storeNew appendOnlyNext first st).alloc 1).1 = 4096 := by
    simp [storeNew, appendOnlyNext, hlength, st]
  refine ⟨hoffset, fun hall => ?_⟩
  obtain ⟨-, hsecond, -⟩ := hall
  have hfits := (hsecond.1 (by
    show (appendOnlyNext (storeNew appendOnlyNext first st).alloc 1).1 ≠ _
    rw [hoffset]
    norm_num)).1
  change (appendOnlyNext (storeNew appendOnlyNext first st).alloc 1).1 + 1 ≤
    4096 at hfits
  rw [hoffset] at hfits
  omega

end NvmeVirt.Kv
