import NvmeVirt.Csd.EdgeBuffer

/-!
# The vertex buffer of a device

The vertex buffer caches partitions of the vertex values by their number and
version.  A miss evicts units from the head of the list until the partition
fits, and stores as much of it as the buffer can hold.  A hit returns 0, even if
the partition was too large to be stored as a whole.
-/

namespace NvmeVirt.Csd

open Interleaving

structure VertexBufferUnit where
  size : ℤ
  pid : ℤ
  version : ℤ
  deriving DecidableEq

structure VertexBuffer where
  units : List VertexBufferUnit
  size : ℤ
  capacity : ℤ
  totalAccessCnt : ℤ
  hitCnt : ℤ
  deriving DecidableEq

def vertexBufferInit (vertexBufferSize : ℤ) : VertexBuffer where
  units := []
  size := 0
  capacity := vertexBufferSize
  totalAccessCnt := 0
  hitCnt := 0

/-- The units and the bytes that are left when a partition is to be stored. -/
def evictUnits (capacity size : ℤ) :
    List VertexBufferUnit → ℤ → List VertexBufferUnit × ℤ
  | [], held => ([], held)
  | unit :: rest, held =>
      if capacity < longLong (held + size) then
        evictUnits capacity size rest (longLong (held - unit.size))
      else (unit :: rest, held)

def evictPartition (buf : VertexBuffer) (size : ℤ) : VertexBuffer :=
  { buf with
    units := (evictUnits buf.capacity size buf.units buf.size).1
    size := (evictUnits buf.capacity size buf.units buf.size).2 }

/-- The unit of a partition. -/
def isPartition (pid version : ℤ) (unit : VertexBufferUnit) : Bool :=
  unit.pid = pid ∧ unit.version = version

/-- The cached bytes of a partition, or -1. -/
def getPartitionSize (buf : VertexBuffer) (pid version : ℤ) : ℤ :=
  match buf.units.find? (isPartition pid version) with
  | none => -1
  | some unit => unit.size

/-- Appends a unit to the list. -/
def VertexBuffer.addTail (buf : VertexBuffer) (unit : VertexBufferUnit) :
    VertexBuffer :=
  { buf with
    units := buf.units ++ [unit]
    size := longLong (buf.size + unit.size) }

/-- The counters of an access. -/
def VertexBuffer.count (buf : VertexBuffer) (hits total : ℤ) : VertexBuffer :=
  { buf with
    hitCnt := longLong (buf.hitCnt + pages hits)
    totalAccessCnt := longLong (buf.totalAccessCnt + pages total) }

/-- `access_partition`.  `allocated` says whether `kmalloc` returned memory for
the unit of a miss. -/
def accessPartition (buf : VertexBuffer) (pid version size : ℤ)
    (allocated : Bool) : ℤ × VertexBuffer :=
  if size = 0 then (0, buf)
  else
    let currSize := getPartitionSize buf pid version
    if currSize = -1 then
      let buf := evictPartition buf size
      if !allocated then (-1, buf)
      else
        (size, (buf.count 0 size).addTail
          ⟨min size buf.capacity, pid, version⟩)
    else (0, buf.count currSize currSize)

/-- The number and the version of each unit. -/
def VertexBuffer.keys (buf : VertexBuffer) : List (ℤ × ℤ) :=
  buf.units.map fun unit => (unit.pid, unit.version)

/-- The buffer accounts for its bytes, holds no partition twice and no more than
its capacity. -/
structure VertexBuffer.Sound (buf : VertexBuffer) : Prop where
  size_eq : buf.size = (buf.units.map VertexBufferUnit.size).sum
  keys_nodup : buf.keys.Nodup
  nonneg : 0 ≤ buf.size
  le_capacity : buf.size ≤ buf.capacity

/-- The invariant of a buffer of the given size. -/
structure VertexBuffer.Inv (vertexBufferSize : ℤ) (buf : VertexBuffer) : Prop
    extends buf.Sound where
  sizes_nonneg : ∀ unit ∈ buf.units, 0 ≤ unit.size
  capacity_eq : buf.capacity = vertexBufferSize

section Evict

variable {capacity size held : ℤ} {units : List VertexBufferUnit}

/-- Eviction makes room from the head of the list. -/
theorem evictUnits_room (hsize : 0 ≤ size)
    (hunits : ∀ unit ∈ units, 0 ≤ unit.size)
    (hheld : held = (units.map VertexBufferUnit.size).sum)
    (hle : held ≤ capacity) (hfits : held + size ≤ longMax) :
    let left := (evictUnits capacity size units held).1
    let held' := (evictUnits capacity size units held).2
    left <:+ units ∧ held' = (left.map VertexBufferUnit.size).sum ∧
      (left = [] ∨ held' + size ≤ capacity) := by
  induction units generalizing held with
  | nil => exact ⟨List.suffix_rfl, hheld, .inl rfl⟩
  | cons unit rest ih =>
      have hunit := hunits unit List.mem_cons_self
      have hrest : ∀ other ∈ rest, 0 ≤ other.size :=
        fun other hother => hunits other (List.mem_cons_of_mem _ hother)
      have hrestSum : 0 ≤ (rest.map VertexBufferUnit.size).sum :=
        List.sum_nonneg (by simpa using hrest)
      rw [List.map_cons, List.sum_cons] at hheld
      have hsum : longLong (held + size) = held + size :=
        longLong_eq (by unfold longMax; omega) hfits
      have hdiff : longLong (held - unit.size) = held - unit.size :=
        longLong_eq (by unfold longMax; omega) (by omega)
      rw [evictUnits, hsum, hdiff]
      split
      · obtain ⟨hsuffix, hsum', hroom⟩ := ih hrest
          (show held - unit.size = _ by omega) (by omega) (by omega)
        exact ⟨hsuffix.trans (List.suffix_cons _ _), hsum', hroom⟩
      · rename_i hroom
        refine ⟨List.suffix_rfl, ?_, .inr (not_lt.mp hroom)⟩
        rw [List.map_cons, List.sum_cons]
        exact hheld

/-- When the tested sum wraps, nothing is evicted. -/
theorem evictUnits_overflow (hcapacity : 0 ≤ capacity) (hheld : held ≤ longMax)
    (hsize : size ≤ longMax) (hoverflow : longMax < held + size) :
    evictUnits capacity size units held = (units, held) := by
  cases units with
  | nil => rfl
  | cons unit rest =>
      have hneg := longLong_neg_of_overflow hheld hsize hoverflow
      rw [evictUnits, if_neg (by omega)]

end Evict

/-- A call of `access_partition`. -/
structure VertexCall where
  pid : ℤ
  version : ℤ
  size : ℤ
  allocated : Bool

namespace VertexCall

def perform (call : VertexCall) (buf : VertexBuffer) : ℤ × VertexBuffer :=
  accessPartition buf call.pid call.version call.size call.allocated

/-- The size is a `long long` and not negative. -/
def Typed (call : VertexCall) : Prop := 0 ≤ call.size ∧ call.size ≤ longMax

instance (call : VertexCall) : Decidable call.Typed :=
  inferInstanceAs (Decidable (_ ∧ _))

/-- The bytes of the request that the buffer does not hold. -/
def missing (call : VertexCall) (buf : VertexBuffer) : ℤ :=
  max 0 (call.size - max 0 (getPartitionSize buf call.pid call.version))

/-- The call returns the bytes that were missing and leaves a sound buffer. -/
def Exact (call : VertexCall) (buf : VertexBuffer) : Prop :=
  (call.perform buf).1 = call.missing buf ∧ (call.perform buf).2.Sound

/-- A hit asks for no more than is cached.  A miss gets memory for its unit, and
the sum of the eviction test does not wrap. -/
def Covered (call : VertexCall) (buf : VertexBuffer) : Prop :=
  call.size ≠ 0 →
    if getPartitionSize buf call.pid call.version = -1 then
      call.allocated ∧ buf.size + call.size ≤ longMax
    else call.size ≤ getPartitionSize buf call.pid call.version

instance (call : VertexCall) (buf : VertexBuffer) :
    Decidable (call.Covered buf) :=
  inferInstanceAs (Decidable (_ → ite _ _ _))

end VertexCall

def vertexStep (call : VertexCall) (buf : VertexBuffer) : Option VertexBuffer :=
  some (call.perform buf).2

section Access

variable {vertexBufferSize : ℤ} {buf : VertexBuffer} {pid version : ℤ}

theorem getPartitionSize_eq_neg_one (hbuf : buf.Inv vertexBufferSize) :
    getPartitionSize buf pid version = -1 ↔ (pid, version) ∉ buf.keys := by
  have hkeys : (pid, version) ∉ buf.keys ↔
      buf.units.find? (isPartition pid version) = none := by
    simp [VertexBuffer.keys, isPartition]
  rw [hkeys, getPartitionSize]
  rcases hfind : buf.units.find? (isPartition pid version) with _ | unit
  · simp
  · have := hbuf.sizes_nonneg unit (List.mem_of_find?_eq_some hfind)
    simp
    omega

theorem getPartitionSize_nonneg (hbuf : buf.Inv vertexBufferSize)
    (hhit : getPartitionSize buf pid version ≠ -1) :
    0 ≤ getPartitionSize buf pid version := by
  rw [getPartitionSize] at hhit ⊢
  split at hhit
  · exact absurd rfl hhit
  next unit hfind =>
    exact hbuf.sizes_nonneg unit (List.mem_of_find?_eq_some hfind)

theorem VertexBuffer.Inv.count (hbuf : buf.Inv vertexBufferSize)
    (hits total : ℤ) : (buf.count hits total).Inv vertexBufferSize :=
  ⟨⟨hbuf.size_eq, hbuf.keys_nodup, hbuf.nonneg, hbuf.le_capacity⟩,
    hbuf.sizes_nonneg, hbuf.capacity_eq⟩

/-- Inserting a unit for which there is room. -/
theorem VertexBuffer.Inv.addTail (hbuf : buf.Inv vertexBufferSize)
    (hmax : vertexBufferSize ≤ longMax) {unit : VertexBufferUnit}
    (hkey : (unit.pid, unit.version) ∉ buf.keys) (hnonneg : 0 ≤ unit.size)
    (hroom : buf.size + unit.size ≤ buf.capacity) :
    (buf.addTail unit).Inv vertexBufferSize := by
  have hbufSize := hbuf.nonneg
  have hcapacity := hbuf.capacity_eq
  have hsize : (buf.addTail unit).size = buf.size + unit.size :=
    longLong_eq (by unfold longMax; omega) (by omega)
  refine ⟨⟨?_, ?_, ?_, ?_⟩, ?_, hcapacity⟩
  · rw [hsize, hbuf.size_eq]
    simp [VertexBuffer.addTail]
  · rw [VertexBuffer.keys, VertexBuffer.addTail, List.map_append]
    exact hbuf.keys_nodup.append (List.nodup_singleton _) (by simpa using hkey)
  · rw [hsize]
    omega
  · rw [hsize]
    exact hroom
  · intro other hother
    rw [VertexBuffer.addTail, List.mem_append, List.mem_singleton] at hother
    rcases hother with hold | rfl
    · exact hbuf.sizes_nonneg other hold
    · exact hnonneg

/-- Eviction keeps the invariant, and leaves room or an empty buffer. -/
theorem evictPartition_room (hbuf : buf.Inv vertexBufferSize) {size : ℤ}
    (hsize : 0 ≤ size) (hfits : buf.size + size ≤ longMax) :
    (evictPartition buf size).Inv vertexBufferSize ∧
      (evictPartition buf size).keys.Sublist buf.keys ∧
      ((evictPartition buf size).size = 0 ∨
        (evictPartition buf size).size + size ≤ buf.capacity) := by
  have hle := hbuf.le_capacity
  obtain ⟨hsuffix, hsum, hroom⟩ := @evictUnits_room buf.capacity size buf.size
    buf.units hsize hbuf.sizes_nonneg hbuf.size_eq hle hfits
  change (evictPartition buf size).units <:+ buf.units at hsuffix
  change (evictPartition buf size).size =
    ((evictPartition buf size).units.map VertexBufferUnit.size).sum at hsum
  change (evictPartition buf size).units = [] ∨
    (evictPartition buf size).size + size ≤ buf.capacity at hroom
  have hunits : ∀ unit ∈ (evictPartition buf size).units, 0 ≤ unit.size :=
    fun unit hunit => hbuf.sizes_nonneg unit (hsuffix.subset hunit)
  have hnonneg : 0 ≤ (evictPartition buf size).size := by
    rw [hsum]
    apply List.sum_nonneg
    simpa using hunits
  have hkeys : (evictPartition buf size).keys.Sublist buf.keys :=
    hsuffix.sublist.map _
  have hempty : (evictPartition buf size).size = 0 ∨
      (evictPartition buf size).size + size ≤ buf.capacity := by
    rcases hroom with hempty | hroom
    · rw [hempty] at hsum
      exact .inl hsum
    · exact .inr hroom
  refine ⟨⟨⟨hsum, hbuf.keys_nodup.sublist hkeys, hnonneg, ?_⟩, hunits,
    hbuf.capacity_eq⟩, hkeys, hempty⟩
  change (evictPartition buf size).size ≤ buf.capacity
  have hcapacity := hbuf.nonneg.trans hle
  rcases hempty with hzero | hroom <;> omega

variable (hbuf : buf.Inv vertexBufferSize) (hpos : 0 ≤ vertexBufferSize)
  (hmax : vertexBufferSize ≤ longMax)
include hbuf hpos hmax

/-- A miss for which there is memory makes room and stores what fits. -/
theorem miss_inv {size : ℤ} (hsize : 0 < size)
    (hmiss : (pid, version) ∉ buf.keys) (hfits : buf.size + size ≤ longMax) :
    (((evictPartition buf size).count 0 size).addTail
      ⟨min size buf.capacity, pid, version⟩).Inv vertexBufferSize := by
  obtain ⟨hevicted, hkeys, hroom⟩ := evictPartition_room hbuf hsize.le hfits
  refine (hevicted.count 0 size).addTail hmax (fun hmem => hmiss
    (hkeys.subset hmem)) (le_min hsize.le (hbuf.capacity_eq ▸ hpos)) ?_
  change (evictPartition buf size).size + min size buf.capacity ≤ buf.capacity
  -- an empty buffer holds any unit, as units are clamped to its capacity
  rcases hroom with hzero | hroom
  · rw [hzero, zero_add]
    exact min_le_right _ _
  · have := min_le_left size buf.capacity
    omega

/-- A miss whose sum wraps overruns the buffer. -/
theorem miss_overflow {size : ℤ} (hsize : size ≤ longMax)
    (hoverflow : longMax < buf.size + size) :
    ¬ (((evictPartition buf size).count 0 size).addTail
      ⟨min size buf.capacity, pid, version⟩).Sound := by
  intro hsound
  have hcapacity := hbuf.capacity_eq
  have hnonneg := hbuf.nonneg
  have hle := hbuf.le_capacity
  have hevict : (evictPartition buf size).size = buf.size := by
    change (evictUnits buf.capacity size buf.units buf.size).2 = _
    rw [evictUnits_overflow (by omega) (by omega) hsize hoverflow]
  have hlow : 0 ≤ longLong ((evictPartition buf size).size +
    min size buf.capacity) := hsound.nonneg
  have hhigh : longLong ((evictPartition buf size).size +
    min size buf.capacity) ≤ buf.capacity := hsound.le_capacity
  rw [hevict] at hlow hhigh
  have hstored : buf.capacity < buf.size + min size buf.capacity := by
    rcases min_choice size buf.capacity with hmin | hmin <;> omega
  by_cases hwrap : longMax < buf.size + min size buf.capacity
  · have := longLong_neg_of_overflow (hle.trans (hcapacity ▸ hmax))
      ((min_le_left size buf.capacity).trans hsize) hwrap
    omega
  · rw [longLong_eq (by unfold longMax; omega) (not_lt.mp hwrap)] at hhigh
    omega

theorem perform_covered {call : VertexCall} (htyped : call.Typed)
    (hcovered : call.Covered buf) :
    (call.perform buf).1 = call.missing buf ∧
      (call.perform buf).2.Inv vertexBufferSize := by
  obtain ⟨pid, version, size, allocated⟩ := call
  obtain ⟨hnonneg, -⟩ : 0 ≤ size ∧ size ≤ longMax := htyped
  simp only [VertexCall.perform, VertexCall.missing]
  by_cases hzero : size = 0
  · rw [accessPartition, if_pos hzero, hzero]
    exact ⟨(max_eq_left (by omega)).symm, hbuf⟩
  have hcovered := hcovered hzero
  rw [accessPartition, if_neg hzero]
  split at hcovered
  next hmiss =>
    obtain ⟨rfl, hfits⟩ : allocated = true ∧ buf.size + size ≤ longMax := hcovered
    have hmiss : getPartitionSize buf pid version = -1 := hmiss
    rw [hmiss]
    refine ⟨?_, miss_inv hbuf hpos hmax
      (lt_of_le_of_ne hnonneg (Ne.symm hzero))
      ((getPartitionSize_eq_neg_one hbuf).mp hmiss) hfits⟩
    change size = max 0 (size - max 0 (-1))
    omega
  next hhit =>
    have hhit : getPartitionSize buf pid version ≠ -1 := hhit
    have hle : size ≤ getPartitionSize buf pid version := hcovered
    dsimp only
    rw [if_neg hhit]
    exact ⟨(max_eq_left (by omega)).symm, hbuf.count _ _⟩

theorem exact_iff_covered {call : VertexCall} (htyped : call.Typed) :
    call.Exact buf ↔ call.Covered buf := by
  constructor
  · rintro ⟨hreturned, hsound⟩ hzero
    obtain ⟨pid, version, size, allocated⟩ := call
    obtain ⟨hnonneg, hsizeMax⟩ : 0 ≤ size ∧ size ≤ longMax := htyped
    have hzero : size ≠ 0 := hzero
    simp only [VertexCall.perform, VertexCall.missing] at hreturned hsound
    rw [accessPartition, if_neg hzero] at hreturned hsound
    dsimp only at hreturned hsound ⊢
    split
    next hmiss =>
      rw [if_pos hmiss] at hreturned hsound
      cases allocated with
      | false =>
          have hfailed : (-1 : ℤ) = _ := hreturned
          have := le_max_left 0 (size - max 0 (getPartitionSize buf pid version))
          omega
      | true =>
          refine ⟨rfl, ?_⟩
          by_contra hoverflow
          exact miss_overflow hbuf hpos hmax hsizeMax (not_le.mp hoverflow) hsound
    next hhit =>
      rw [if_neg hhit] at hreturned
      have hcurr := getPartitionSize_nonneg hbuf hhit
      rw [max_eq_right hcurr] at hreturned
      have hcached := le_max_right 0 (size - getPartitionSize buf pid version)
      have hreturned : (0 : ℤ) =
        max 0 (size - getPartitionSize buf pid version) := hreturned
      omega
  · intro hcovered
    obtain ⟨hreturned, hinv⟩ := perform_covered hbuf hpos hmax htyped hcovered
    exact ⟨hreturned, hinv.toSound⟩

end Access

/-- Every access of a run returns the bytes that were missing and leaves a sound
buffer if and only if no hit asks for more than is cached, and every miss gets
memory for its unit and does not make the sum of the eviction test wrap. -/
theorem vertex_accesses_exact {vertexBufferSize : ℤ}
    (hpos : 0 ≤ vertexBufferSize) (hmax : vertexBufferSize ≤ longMax)
    {calls : List VertexCall} (hcalls : ∀ call ∈ calls, call.Typed) :
    Meets vertexStep VertexCall.Exact calls (vertexBufferInit vertexBufferSize)
      ↔ Meets vertexStep VertexCall.Covered calls
        (vertexBufferInit vertexBufferSize) := by
  have hinit : (vertexBufferInit vertexBufferSize).Inv vertexBufferSize :=
    ⟨⟨rfl, List.nodup_nil, le_rfl, hpos⟩, by simp [vertexBufferInit], rfl⟩
  refine meets_iff_meets vertexStep ?_ ?_ hinit (meets_of_forall _ hcalls _)
  · intro call buf hbuf htyped
    exact exact_iff_covered hbuf hpos hmax htyped
  · intro call buf hbuf htyped hcovered
    exact (perform_covered hbuf hpos hmax htyped hcovered).2

/-- Two versions of a partition in turn. -/
theorem vertex_accesses_exact_versions :
    Meets vertexStep VertexCall.Exact
      [⟨0, 0, 8192, true⟩, ⟨0, 0, 4096, true⟩, ⟨0, 1, 12288, true⟩]
      (vertexBufferInit 8192) :=
  (vertex_accesses_exact (by decide) (by decide) (by decide)).mpr (by decide)

/-- A partition that exceeds the buffer is read for the second time. -/
theorem vertex_accesses_clamped :
    ¬ Meets vertexStep VertexCall.Exact
      [⟨0, 0, 12288, true⟩, ⟨0, 0, 12288, true⟩] (vertexBufferInit 8192) := by
  rintro ⟨-, ⟨hreturned, -⟩, -⟩
  exact absurd hreturned (by decide)

end NvmeVirt.Csd
