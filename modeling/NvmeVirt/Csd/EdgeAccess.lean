import NvmeVirt.Csd.EdgeBuffer

/-!
# Runs of the edge buffer

Every access puts its block at the tail of the list after the block's old unit
is gone.  With partial eviction room is made on every access, so the buffer
stays within its capacity as long as the sum that the eviction loop tests does
not wrap.  Without it a hit makes no room, and a demand access that finds its
block partly prefetched grows the buffer by the missing part.
-/

namespace NvmeVirt.Csd

open Interleaving

/-- The invariant of the buffer under the given parameters. -/
structure EdgeBuffer.Inv (params : EvictionParams) (buf : EdgeBuffer) : Prop
    extends buf.Accounted where
  capacity_eq : buf.capacity = params.edgeBufferSize
  size_le : buf.size ≤ buf.capacity

section Access

variable {params : EvictionParams} {buf : EdgeBuffer} {r c : ℤ}

theorem getEdgeBlockSize_eq_neg_one (hbuf : buf.Accounted) :
    getEdgeBlockSize buf r c = -1 ↔ (r, c) ∉ buf.blocks := by
  have hblocks : (r, c) ∉ buf.blocks ↔
      buf.units.find? (isBlock r c) = none := by
    simp [EdgeBuffer.blocks, isBlock]
  rw [hblocks, getEdgeBlockSize]
  rcases hfind : buf.units.find? (isBlock r c) with _ | unit
  · simp
  · have := hbuf.sizes_nonneg unit (List.mem_of_find?_eq_some hfind)
    simp
    omega

/-- The cached bytes of a block, of which an absent one has none. -/
def cachedBytes (buf : EdgeBuffer) (r c : ℤ) : ℤ :=
  if getEdgeBlockSize buf r c = -1 then 0 else getEdgeBlockSize buf r c

theorem cachedBytes_of_not_mem (hbuf : buf.Accounted)
    (hblock : (r, c) ∉ buf.blocks) : cachedBytes buf r c = 0 :=
  if_pos ((getEdgeBlockSize_eq_neg_one hbuf).mpr hblock)

theorem cachedBytes_of_mem (hbuf : buf.Accounted)
    (hblock : (r, c) ∈ buf.blocks) :
    cachedBytes buf r c = getEdgeBlockSize buf r c :=
  if_neg ((getEdgeBlockSize_eq_neg_one hbuf).not.mpr (not_not.mpr hblock))

/-- A bound of the units of a block is one of its cached bytes. -/
theorem cachedBytes_of_units {property : ℤ → Prop} (hzero : property 0)
    (hunits : ∀ unit ∈ buf.units, unit.r = r → unit.c = c →
      property unit.size) : property (cachedBytes buf r c) := by
  rw [cachedBytes]
  split
  · exact hzero
  next hhit =>
    rw [getEdgeBlockSize] at hhit ⊢
    split at hhit
    · exact absurd rfl hhit
    next unit hfind =>
      have hblock : unit.r = r ∧ unit.c = c := by
        simpa [isBlock] using List.find?_some hfind
      exact hunits unit (List.mem_of_find?_eq_some hfind) hblock.1 hblock.2

theorem cachedBytes_nonneg (hbuf : buf.Accounted) : 0 ≤ cachedBytes buf r c :=
  cachedBytes_of_units le_rfl fun unit hunit _ _ => hbuf.sizes_nonneg unit hunit

theorem invalidateEdgeBlock_of_not_mem (hblock : (r, c) ∉ buf.blocks) :
    invalidateEdgeBlock buf r c = buf := by
  have hfind : buf.units.find? (isBlock r c) = none := by
    simpa [EdgeBuffer.blocks, isBlock] using hblock
  rw [invalidateEdgeBlock, hfind]

theorem getElem?_findIdx {unit : EdgeBufferUnit}
    (hfind : buf.units.find? (isBlock r c) = some unit) :
    buf.units[buf.units.findIdx (isBlock r c)]? = some unit := by
  rw [← List.find?_eq_getElem?_findIdx, hfind]

theorem invalidateEdgeBlock_evictsTo (hbuf : buf.Accounted)
    (hmax : buf.size ≤ longMax) :
    buf.EvictsTo (invalidateEdgeBlock buf r c) := by
  rw [invalidateEdgeBlock]
  rcases hfind : buf.units.find? (isBlock r c) with _ | unit
  · exact ⟨hbuf, rfl, le_rfl, .refl _⟩
  · have hunit := getElem?_findIdx hfind
    refine ⟨hbuf.delete hmax hunit, rfl, ?_, blocks_delete_sublist _ _ _⟩
    have := hbuf.sizes_nonneg unit (List.mem_of_getElem? hunit)
    rw [hbuf.size_delete hmax hunit]
    omega

theorem not_mem_blocks_invalidate (hbuf : buf.Accounted) :
    (r, c) ∉ (invalidateEdgeBlock buf r c).blocks := by
  rw [invalidateEdgeBlock]
  rcases hfind : buf.units.find? (isBlock r c) with _ | unit
  · simpa [EdgeBuffer.blocks, isBlock] using hfind
  · obtain ⟨front, back, hsplit, hlength⟩ := exists_split (getElem?_findIdx hfind)
    have hunit : unit.r = r ∧ unit.c = c := by
      simpa [isBlock] using List.find?_some hfind
    have hnodup := hbuf.blocks_nodup
    rw [EdgeBuffer.blocks, hsplit, List.map_append, List.map_cons,
      List.nodup_middle, List.nodup_cons, hunit.1, hunit.2] at hnodup
    change (r, c) ∉ (buf.units.eraseIdx _).map fun unit => (unit.r, unit.c)
    rw [hlength, hsplit, eraseIdx_split, List.map_append]
    exact hnodup.1

theorem EdgeBuffer.Accounted.count (hbuf : buf.Accounted) (hits total : ℤ) :
    (buf.count hits total).Accounted :=
  ⟨hbuf.size_eq, hbuf.sizes_nonneg, hbuf.blocks_nodup⟩

theorem EdgeBuffer.EvictsTo.count {buf' : EdgeBuffer} (hbuf : buf.EvictsTo buf')
    (hits total : ℤ) : buf.EvictsTo (buf'.count hits total) :=
  ⟨hbuf.accounted.count hits total, hbuf.capacity_eq, hbuf.size_le,
    hbuf.blocks_sublist⟩

theorem EdgeBuffer.Accounted.addTail (hbuf : buf.Accounted)
    {unit : EdgeBufferUnit} (hblock : (unit.r, unit.c) ∉ buf.blocks)
    (hnonneg : 0 ≤ unit.size) (hfits : buf.size + unit.size ≤ longMax) :
    (buf.addTail unit).Accounted ∧
      (buf.addTail unit).size = buf.size + unit.size := by
  have hbufSize := hbuf.size_nonneg
  have hsize : (buf.addTail unit).size = buf.size + unit.size :=
    longLong_eq (by unfold longMax; omega) hfits
  refine ⟨⟨?_, ?_, ?_⟩, hsize⟩
  · rw [hsize, EdgeBuffer.addTail, hbuf.size_eq]
    simp
  · intro other hother
    rw [EdgeBuffer.addTail, List.mem_append, List.mem_singleton] at hother
    rcases hother with hother | rfl
    · exact hbuf.sizes_nonneg other hother
    · exact hnonneg
  · rw [EdgeBuffer.blocks, EdgeBuffer.addTail, List.map_append]
    exact hbuf.blocks_nodup.append (List.nodup_singleton _)
      (by simpa using hblock)

end Access

/-- The buffer an access inserts its unit into: without the block's old unit,
and after eviction.  A hit evicts under partial eviction only. -/
def prepare (params : EvictionParams) (buf : EdgeBuffer) (aggregated : ℤ → Bool)
    (unit : EdgeBufferUnit) (isPrefetch : ℤ) : EdgeBuffer :=
  if params.partialEdgeEviction ∨ (unit.r, unit.c) ∉ buf.blocks then
    (evictEdgeBlock params (invalidateEdgeBlock buf unit.r unit.c) aggregated
      unit isPrefetch).2
  else invalidateEdgeBlock buf unit.r unit.c

section Prepare

variable {buf : EdgeBuffer} {size isPrefetch : ℤ}

/-- A demand access counts the cached bytes of its block as hits, and returns
the others. -/
theorem access_demand (params : EvictionParams) (aggregated : ℤ → Bool)
    (r c : ℤ) (hbuf : buf.Accounted) (hsize : 0 < size)
    (hmax : size ≤ longMax) :
    accessEdgeBlock params buf aggregated r c size 0 true =
      (longLong (size - cachedBytes buf r c),
        ((prepare params buf aggregated (insertedUnit buf r c size 0) 0).count
          (cachedBytes buf r c) size).addTail (insertedUnit buf r c size 0)) := by
  by_cases hblock : (r, c) ∈ buf.blocks
  · have hhit := (getEdgeBlockSize_eq_neg_one hbuf).not.mpr (not_not.mpr hblock)
    rw [cachedBytes_of_mem hbuf hblock]
    cases hwhole : params.partialEdgeEviction <;>
      simp [accessEdgeBlock, prepare, insertedUnit, hsize.ne', hhit, hblock,
        hwhole]
  · have hmiss := (getEdgeBlockSize_eq_neg_one hbuf).mpr hblock
    rw [cachedBytes_of_not_mem hbuf hblock, sub_zero,
      longLong_eq (by unfold longMax; omega) hmax]
    simp [accessEdgeBlock, prepare, insertedUnit, hsize.ne', hmiss, hblock,
      invalidateEdgeBlock_of_not_mem hblock]

/-- A prefetch takes what is free after eviction; a hit without partial eviction
takes nothing. -/
theorem access_prefetch (params : EvictionParams) (aggregated : ℤ → Bool)
    (r c : ℤ) (hbuf : buf.Accounted) (hsize : size ≠ 0)
    (hprefetch : isPrefetch ≠ 0) :
    let unit := insertedUnit buf r c size isPrefetch
    let buf' := prepare params buf aggregated unit isPrefetch
    ∃ room, (accessEdgeBlock params buf aggregated r c size isPrefetch true).2 =
      buf'.addTail { unit with size := min unit.size room } ∧
      room = if params.partialEdgeEviction ∨ (r, c) ∉ buf.blocks then
        longLong (buf'.capacity - buf'.size) else 0 := by
  intro unit buf'
  by_cases hevicts : params.partialEdgeEviction ∨ (r, c) ∉ buf.blocks
  · refine ⟨longLong (buf'.capacity - buf'.size), ?_, (if_pos hevicts).symm⟩
    have hbuf' : buf' = (evictEdgeBlock params (invalidateEdgeBlock buf r c)
        aggregated unit isPrefetch).2 := if_pos hevicts
    by_cases hblock : (r, c) ∈ buf.blocks
    · have hhit := (getEdgeBlockSize_eq_neg_one hbuf).not.mpr
        (not_not.mpr hblock)
      have hwhole := hevicts.resolve_right (not_not.mpr hblock)
      simp [accessEdgeBlock, hbuf', unit, hsize, hhit, hwhole, hprefetch,
        evictEdgeBlock]
    · have hmiss := (getEdgeBlockSize_eq_neg_one hbuf).mpr hblock
      simp [accessEdgeBlock, hbuf', unit, hsize, hmiss, hprefetch,
        evictEdgeBlock, invalidateEdgeBlock_of_not_mem hblock]
  · have hbuf' : buf' = invalidateEdgeBlock buf r c := if_neg hevicts
    refine ⟨0, ?_, (if_neg hevicts).symm⟩
    simp only [not_or, not_not, Bool.not_eq_true] at hevicts
    have hhit := (getEdgeBlockSize_eq_neg_one hbuf).not.mpr
      (not_not.mpr hevicts.2)
    simp [accessEdgeBlock, hbuf', unit, hsize, hhit, hevicts.1, hprefetch]

theorem prepare_hit {params : EvictionParams} (aggregated : ℤ → Bool)
    (hwhole : params.partialEdgeEviction = false) {unit : EdgeBufferUnit}
    (hblock : (unit.r, unit.c) ∈ buf.blocks) :
    prepare params buf aggregated unit isPrefetch =
      invalidateEdgeBlock buf unit.r unit.c := by
  rw [prepare, if_neg (by simpa [hwhole] using hblock)]

theorem demand_size (params : EvictionParams) (aggregated : ℤ → Bool)
    (r c : ℤ) (hbuf : buf.Accounted) (hsize : 0 < size)
    (hmax : size ≤ longMax) :
    (accessEdgeBlock params buf aggregated r c size 0 true).2.size =
      longLong ((prepare params buf aggregated (insertedUnit buf r c size 0)
        0).size + min size buf.capacity) := by
  rw [access_demand params aggregated r c hbuf hsize hmax]
  rfl

variable {params : EvictionParams} (aggregated : ℤ → Bool) (r c : ℤ)
  (hbuf : buf.Inv params) (hcapacity : params.edgeBufferSize ≤ longMax)
include hbuf hcapacity

theorem invalidate_evictsTo :
    buf.EvictsTo (invalidateEdgeBlock buf r c) :=
  invalidateEdgeBlock_evictsTo hbuf.toAccounted
    (hbuf.size_le.trans (hbuf.capacity_eq ▸ hcapacity))

theorem prepare_evictsTo (isPrefetch : ℤ) {unit : EdgeBufferUnit}
    (hnonneg : 0 ≤ unit.size) (hunit : unit.size ≤ buf.capacity) :
    (invalidateEdgeBlock buf unit.r unit.c).EvictsTo
      (prepare params buf aggregated unit isPrefetch) := by
  have hinvalidate := invalidate_evictsTo unit.r unit.c hbuf hcapacity
  have hcapacity' := hinvalidate.capacity_eq
  rw [prepare]
  split
  · refine evictLoop_evictsTo params aggregated isPrefetch _
      hinvalidate.accounted ?_ ?_ hnonneg ?_
    · rwa [hcapacity', hbuf.capacity_eq]
    · exact hcapacity' ▸ hinvalidate.size_le.trans hbuf.size_le
    · exact hcapacity' ▸ hunit
  · exact ⟨hinvalidate.accounted, rfl, le_rfl, .refl _⟩

theorem prepare_room {unit : EdgeBufferUnit} (hnonneg : 0 ≤ unit.size)
    (hunit : unit.size ≤ buf.capacity)
    (hevicts : params.partialEdgeEviction ∨ (unit.r, unit.c) ∉ buf.blocks)
    (hfits : (invalidateEdgeBlock buf unit.r unit.c).size + unit.size ≤
      longMax) :
    (prepare params buf aggregated unit 0).size + unit.size ≤ buf.capacity := by
  have hinvalidate := invalidate_evictsTo unit.r unit.c hbuf hcapacity
  have hcapacity' := hinvalidate.capacity_eq
  rw [prepare, if_pos hevicts, ← hcapacity']
  refine evictLoop_room params aggregated _ hinvalidate.accounted ?_ ?_ hnonneg
    ?_ hfits le_rfl
  · rwa [hcapacity', hbuf.capacity_eq]
  · exact hcapacity' ▸ hinvalidate.size_le.trans hbuf.size_le
  · exact hcapacity' ▸ hunit

/-- When the tested sum wraps, nothing is evicted. -/
theorem prepare_overflow (unit : EdgeBufferUnit) (hnonneg : 0 ≤ buf.capacity)
    (hunit : unit.size ≤ buf.capacity)
    (hoverflow : longMax <
      (invalidateEdgeBlock buf unit.r unit.c).size + unit.size) :
    prepare params buf aggregated unit isPrefetch =
      invalidateEdgeBlock buf unit.r unit.c := by
  have hinvalidate := invalidate_evictsTo unit.r unit.c hbuf hcapacity
  have hmax : buf.capacity ≤ longMax := hbuf.capacity_eq ▸ hcapacity
  have hneg := longLong_neg_of_overflow
    ((hinvalidate.size_le.trans hbuf.size_le).trans hmax) (hunit.trans hmax)
    hoverflow
  rw [prepare]
  split
  · exact evictLoop_of_fits _ _ _ _
      (hneg.le.trans (hinvalidate.capacity_eq ▸ hnonneg))
  · rfl

/-- Inserting a unit for which there is room. -/
theorem inv_addTail {prepared : EdgeBuffer} {unit : EdgeBufferUnit}
    (hprepared : (invalidateEdgeBlock buf unit.r unit.c).EvictsTo prepared)
    (hnonneg : 0 ≤ unit.size)
    (hroom : prepared.size + unit.size ≤ buf.capacity) :
    (prepared.addTail unit).Inv params := by
  have hinvalidate := invalidate_evictsTo unit.r unit.c hbuf hcapacity
  have hblock : (unit.r, unit.c) ∉ prepared.blocks := fun hmem =>
    not_mem_blocks_invalidate hbuf.toAccounted
      (hprepared.blocks_sublist.subset hmem)
  obtain ⟨haccounted, hsize⟩ := hprepared.accounted.addTail hblock hnonneg
    (hroom.trans (hbuf.capacity_eq ▸ hcapacity))
  have hcapacity' : (prepared.addTail unit).capacity = buf.capacity :=
    hprepared.capacity_eq.trans hinvalidate.capacity_eq
  refine ⟨haccounted, hcapacity'.trans hbuf.capacity_eq, ?_⟩
  rw [hsize, hcapacity']
  exact hroom

theorem demand_inv (hpos : 0 ≤ buf.capacity) (hsize : 0 < size)
    (hmax : size ≤ longMax)
    (hroom : (prepare params buf aggregated (insertedUnit buf r c size 0)
      0).size + min size buf.capacity ≤ buf.capacity) :
    (accessEdgeBlock params buf aggregated r c size 0 true).2.Inv params := by
  have hnonneg : 0 ≤ (insertedUnit buf r c size 0).size := le_min hsize.le hpos
  have hprepare := prepare_evictsTo aggregated hbuf hcapacity 0 hnonneg
    (min_le_right size buf.capacity)
  rw [access_demand params aggregated r c hbuf.toAccounted hsize hmax]
  exact inv_addTail hbuf hcapacity (hprepare.count _ _) hnonneg hroom

theorem prefetch_inv (hpos : 0 ≤ buf.capacity) (hsize : 0 < size)
    (hprefetch : isPrefetch ≠ 0) :
    (accessEdgeBlock params buf aggregated r c size isPrefetch true).2.Inv
      params := by
  have hnonneg : 0 ≤ (insertedUnit buf r c size isPrefetch).size :=
    le_min hsize.le hpos
  have hprepare := prepare_evictsTo aggregated hbuf hcapacity isPrefetch
    hnonneg (min_le_right size buf.capacity)
  have hinvalidate := invalidate_evictsTo r c hbuf hcapacity
  obtain ⟨room, haccess, hroom⟩ := access_prefetch params aggregated r c
    hbuf.toAccounted hsize.ne' hprefetch
  have hprepareNonneg := hprepare.accounted.size_nonneg
  have hprepareSize := hprepare.size_le.trans
    (hinvalidate.size_le.trans hbuf.size_le)
  have hprepareCapacity := hprepare.capacity_eq.trans hinvalidate.capacity_eq
  have hmax : buf.capacity ≤ longMax := hbuf.capacity_eq ▸ hcapacity
  -- in both cases the room is not negative and no larger than the free space
  have hfree : 0 ≤ room ∧ room ≤ buf.capacity - (prepare params buf aggregated
      (insertedUnit buf r c size isPrefetch) isPrefetch).size := by
    rw [hroom]
    split
    · rw [hprepareCapacity, longLong_eq (by unfold longMax; omega) (by omega)]
      exact ⟨sub_nonneg.mpr hprepareSize, le_rfl⟩
    · exact ⟨le_rfl, sub_nonneg.mpr hprepareSize⟩
  rw [haccess]
  refine inv_addTail hbuf hcapacity hprepare (le_min hnonneg hfree.1) ?_
  have := min_le_right (insertedUnit buf r c size isPrefetch).size room
  dsimp only
  omega

end Prepare

/-- A call on the buffer.  An access comes with the values of `done_partition`
and `pr_reverse` at the time of the call. -/
inductive EdgeCall where
  | access (aggregated : ℤ → Bool) (prReverse : Bool)
      (r c size isPrefetch : ℤ) (allocated : Bool)
  | invalidate (r c : ℤ)
  | invalidateFifo
  | destroy

def EdgeCall.perform (params : EvictionParams) (buf : EdgeBuffer) :
    EdgeCall → EdgeBuffer
  | .access aggregated prReverse r c size isPrefetch allocated =>
      (accessEdgeBlock params { buf with prReverse := prReverse } aggregated r c
        size isPrefetch allocated).2
  | .invalidate r c => invalidateEdgeBlock buf r c
  | .invalidateFifo => invalidateEdgeBlockFifo buf
  | .destroy => edgeBufferDestroy buf

def callStep (params : EvictionParams) (call : EdgeCall) (buf : EdgeBuffer) :
    Option EdgeBuffer :=
  some (call.perform params buf)

/-- The sizes of an access are those of a `long long`. -/
def EdgeCall.Typed : EdgeCall → Prop
  | .access _ _ _ _ size _ _ => 0 ≤ size ∧ size ≤ longMax
  | _ => True

/-- A demand access for which the bytes of the other blocks and its own do not
add up to more than a `long long` holds. -/
def EdgeCall.Fits (call : EdgeCall) (buf : EdgeBuffer) : Prop :=
  match call with
  | .access _ _ r c size isPrefetch allocated =>
      isPrefetch = 0 → size ≠ 0 → allocated →
        (invalidateEdgeBlock buf r c).size + min size buf.capacity ≤ longMax
  | _ => True

/-- A demand access to a cached block for which the free space and the block's
own bytes suffice. -/
def EdgeCall.HitFits (call : EdgeCall) (buf : EdgeBuffer) : Prop :=
  match call with
  | .access _ _ r c size isPrefetch allocated =>
      isPrefetch = 0 → size ≠ 0 → allocated → (r, c) ∈ buf.blocks →
        (invalidateEdgeBlock buf r c).size + min size buf.capacity ≤
          buf.capacity
  | _ => True

/-- The accesses the device makes: a demand access asks for the whole block, a
prefetch for at least what is cached and at most the whole block. -/
def EdgeCall.AsMade (edgeBlockLen : ℤ → ℤ → ℤ) (call : EdgeCall)
    (buf : EdgeBuffer) : Prop :=
  match call with
  | .access _ _ r c size isPrefetch _ =>
      if isPrefetch = 0 then size = edgeBlockLen r c
      else max 0 (getEdgeBlockSize buf r c) ≤ size ∧ size ≤ edgeBlockLen r c
  | _ => True

instance (call : EdgeCall) : Decidable call.Typed :=
  match call with
  | .access _ _ _ _ size _ _ =>
      inferInstanceAs (Decidable (0 ≤ size ∧ size ≤ longMax))
  | .invalidate _ _ | .invalidateFifo | .destroy => .isTrue trivial

instance (call : EdgeCall) (buf : EdgeBuffer) : Decidable (call.Fits buf) :=
  match call with
  | .access _ _ _ _ size isPrefetch allocated => inferInstanceAs
      (Decidable (isPrefetch = 0 → size ≠ 0 → allocated → _ ≤ longMax))
  | .invalidate _ _ | .invalidateFifo | .destroy => .isTrue trivial

instance (call : EdgeCall) (buf : EdgeBuffer) : Decidable (call.HitFits buf) :=
  match call with
  | .access _ _ r c size isPrefetch allocated => inferInstanceAs
      (Decidable (isPrefetch = 0 → size ≠ 0 → allocated →
        (r, c) ∈ buf.blocks → _ ≤ buf.capacity))
  | .invalidate _ _ | .invalidateFifo | .destroy => .isTrue trivial

instance (edgeBlockLen : ℤ → ℤ → ℤ) (call : EdgeCall) (buf : EdgeBuffer) :
    Decidable (call.AsMade edgeBlockLen buf) :=
  match call with
  | .access _ _ r c size isPrefetch _ => inferInstanceAs
      (Decidable (if isPrefetch = 0 then size = edgeBlockLen r c
        else max 0 (getEdgeBlockSize buf r c) ≤ size ∧
          size ≤ edgeBlockLen r c))
  | .invalidate _ _ | .invalidateFifo | .destroy => .isTrue trivial

/-- The buffer accounts for its bytes and holds no more than its capacity. -/
structure EdgeBuffer.WithinCapacity (buf : EdgeBuffer) : Prop
    extends buf.Accounted where
  nonneg : 0 ≤ buf.size
  le_capacity : buf.size ≤ buf.capacity

section Runs

variable {params : EvictionParams} {buf : EdgeBuffer}

theorem edgeBufferInit_inv (hpos : 0 ≤ params.edgeBufferSize) :
    (edgeBufferInit params).Inv params :=
  ⟨⟨rfl, by simp [edgeBufferInit], List.nodup_nil⟩, rfl, hpos⟩

theorem EdgeBuffer.EvictsTo.inv {buf' : EdgeBuffer} (hevicts : buf.EvictsTo buf')
    (hbuf : buf.Inv params) : buf'.Inv params := by
  refine ⟨hevicts.accounted, hevicts.capacity_eq.trans hbuf.capacity_eq, ?_⟩
  rw [hevicts.capacity_eq]
  exact hevicts.size_le.trans hbuf.size_le

theorem invalidateEdgeBlockFifo_evictsTo (hbuf : buf.Accounted)
    (hmax : buf.size ≤ longMax) :
    buf.EvictsTo (invalidateEdgeBlockFifo buf) := by
  rw [invalidateEdgeBlockFifo]
  rcases hunits : buf.units with _ | ⟨unit, rest⟩
  · exact ⟨hbuf, rfl, le_rfl, .refl _⟩
  · have hunit : buf.units[0]? = some unit := by rw [hunits]; rfl
    refine ⟨hbuf.delete hmax hunit, rfl, ?_, blocks_delete_sublist _ _ _⟩
    have := hbuf.sizes_nonneg unit (List.mem_of_getElem? hunit)
    rw [hbuf.size_delete hmax hunit]
    omega

theorem edgeBufferDestroy_inv (hbuf : buf.Inv params)
    (hpos : 0 ≤ params.edgeBufferSize) : (edgeBufferDestroy buf).Inv params :=
  ⟨⟨rfl, by simp [edgeBufferDestroy], List.nodup_nil⟩, hbuf.capacity_eq,
    hbuf.capacity_eq ▸ hpos⟩

theorem EdgeBuffer.Inv.reverse (hbuf : buf.Inv params) (prReverse : Bool) :
    { buf with prReverse := prReverse }.Inv params :=
  ⟨⟨hbuf.size_eq, hbuf.sizes_nonneg, hbuf.blocks_nodup⟩, hbuf.capacity_eq,
    hbuf.size_le⟩

theorem size_invalidate_reverse (buf : EdgeBuffer) (prReverse : Bool)
    (r c : ℤ) :
    (invalidateEdgeBlock { buf with prReverse := prReverse } r c).size =
      (invalidateEdgeBlock buf r c).size := by
  rw [invalidateEdgeBlock, invalidateEdgeBlock]
  cases buf.units.find? (isBlock r c) <;> rfl

variable (hbuf : buf.Inv params) (hpos : 0 ≤ params.edgeBufferSize)
  (hmax : params.edgeBufferSize ≤ longMax)
include hbuf hpos hmax

/-- A call keeps the invariant when its sum does not wrap and, without partial
eviction, a hit has room. -/
theorem perform_inv {call : EdgeCall} (htyped : call.Typed)
    (hfits : call.Fits buf)
    (hhit : params.partialEdgeEviction = false → call.HitFits buf) :
    (call.perform params buf).Inv params := by
  have hsize : buf.size ≤ longMax :=
    hbuf.size_le.trans (hbuf.capacity_eq ▸ hmax)
  cases call with
  | invalidate r c => exact (invalidate_evictsTo r c hbuf hmax).inv hbuf
  | invalidateFifo =>
      exact (invalidateEdgeBlockFifo_evictsTo hbuf.toAccounted hsize).inv hbuf
  | destroy => exact edgeBufferDestroy_inv hbuf hpos
  | access aggregated prReverse r c size isPrefetch allocated =>
      have hreverse := hbuf.reverse prReverse
      rw [EdgeCall.perform]
      by_cases hzero : size = 0
      · simpa [accessEdgeBlock, hzero] using hreverse
      cases allocated with
      | false => simpa [accessEdgeBlock, hzero] using hreverse
      | true =>
          have hcapacity : 0 ≤ buf.capacity := hbuf.capacity_eq ▸ hpos
          have hsizePos : 0 < size := lt_of_le_of_ne htyped.1 (Ne.symm hzero)
          by_cases hprefetch : isPrefetch = 0
          · subst hprefetch
            have hfits := hfits rfl hzero rfl
            rw [← size_invalidate_reverse buf prReverse] at hfits
            have hnonneg : 0 ≤ min size buf.capacity :=
              le_min hsizePos.le hcapacity
            refine demand_inv aggregated r c hreverse hmax hcapacity hsizePos
              htyped.2 ?_
            by_cases hevicts : params.partialEdgeEviction ∨ (r, c) ∉ buf.blocks
            · exact prepare_room aggregated hreverse hmax hnonneg
                (min_le_right _ _) hevicts hfits
            · simp only [not_or, not_not, Bool.not_eq_true] at hevicts
              rw [prepare_hit aggregated hevicts.1 hevicts.2]
              change (invalidateEdgeBlock _ r c).size + _ ≤ _
              rw [size_invalidate_reverse]
              exact hhit hevicts.1 rfl hzero rfl hevicts.2
          · exact prefetch_inv aggregated r c hreverse hmax hcapacity hsizePos
              hprefetch

/-- A demand access whose sum wraps leaves a negative size. -/
theorem perform_overflow {call : EdgeCall} (htyped : call.Typed)
    (hnonneg : 0 ≤ (call.perform params buf).size) : call.Fits buf := by
  cases call with
  | invalidate _ _ => trivial
  | invalidateFifo => trivial
  | destroy => trivial
  | access aggregated prReverse r c size isPrefetch allocated =>
      rintro rfl hzero rfl
      by_contra hoverflow
      rw [not_le, ← size_invalidate_reverse buf prReverse] at hoverflow
      have hreverse := hbuf.reverse prReverse
      have hcapacity : 0 ≤ buf.capacity := hbuf.capacity_eq ▸ hpos
      have hsizePos : 0 < size := lt_of_le_of_ne htyped.1 (Ne.symm hzero)
      have hcapacityMax : buf.capacity ≤ longMax := hbuf.capacity_eq ▸ hmax
      have hneg := longLong_neg_of_overflow
        (((invalidate_evictsTo r c hreverse hmax).size_le.trans
          hreverse.size_le).trans hcapacityMax)
        ((min_le_right size buf.capacity).trans hcapacityMax) hoverflow
      rw [EdgeCall.perform, demand_size params aggregated r c
        hreverse.toAccounted hsizePos htyped.2,
        prepare_overflow aggregated hreverse hmax _ hcapacity
          (min_le_right _ _) hoverflow] at hnonneg
      exact absurd hnonneg (not_le.mpr hneg)

/-- Without partial eviction, a hit that has no room overruns the buffer. -/
theorem perform_overrun (hwhole : params.partialEdgeEviction = false)
    {call : EdgeCall} (htyped : call.Typed) (hfits : call.Fits buf)
    (hsize : (call.perform params buf).size ≤ params.edgeBufferSize) :
    call.HitFits buf := by
  cases call with
  | invalidate _ _ => trivial
  | invalidateFifo => trivial
  | destroy => trivial
  | access aggregated prReverse r c size isPrefetch allocated =>
      rintro rfl hzero rfl hblock
      have hfits := hfits rfl hzero rfl
      rw [← size_invalidate_reverse buf prReverse] at hfits ⊢
      have hreverse := hbuf.reverse prReverse
      have hcapacity : 0 ≤ buf.capacity := hbuf.capacity_eq ▸ hpos
      have hsizePos : 0 < size := lt_of_le_of_ne htyped.1 (Ne.symm hzero)
      have hsum : 0 ≤ (invalidateEdgeBlock
            { buf with prReverse := prReverse } r c).size +
          min size buf.capacity :=
        add_nonneg (invalidate_evictsTo r c hreverse
          hmax).accounted.size_nonneg (le_min hsizePos.le hcapacity)
      rw [EdgeCall.perform, demand_size params aggregated r c
        hreverse.toAccounted hsizePos htyped.2, prepare_hit aggregated hwhole hblock]
        at hsize
      change longLong ((invalidateEdgeBlock _ r c).size + _) ≤ _ at hsize
      rw [longLong_eq (by unfold longMax; omega) hfits,
        ← hbuf.capacity_eq] at hsize
      exact hsize

end Runs

/-- With partial eviction, the buffer accounts for its bytes and stays within
its capacity through a whole run exactly if no demand access makes the sum of
the eviction test wrap. -/
theorem partial_eviction_within_capacity {params : EvictionParams}
    (hwhole : params.partialEdgeEviction = true)
    (hpos : 0 ≤ params.edgeBufferSize) (hmax : params.edgeBufferSize ≤ longMax)
    {calls : List EdgeCall} (hcalls : ∀ call ∈ calls, call.Typed) :
    Always (callStep params) EdgeBuffer.WithinCapacity calls
        (edgeBufferInit params) ↔
      Meets (callStep params) EdgeCall.Fits calls (edgeBufferInit params) := by
  have hwithin : ∀ buf : EdgeBuffer, buf.Inv params → buf.WithinCapacity :=
    fun buf hbuf => ⟨hbuf.toAccounted, hbuf.toAccounted.size_nonneg, hbuf.size_le⟩
  refine always_iff_meets (callStep params) hwithin ?_ ?_
    (edgeBufferInit_inv hpos) (meets_of_forall (callStep params) hcalls _)
  · intro call buf hbuf htyped hfits
    exact perform_inv hbuf hpos hmax htyped hfits (by simp [hwhole])
  · intro call buf hbuf htyped hwithin
    exact perform_overflow hbuf hpos hmax htyped hwithin.nonneg

/-- A demand access to a block. -/
def demandAccess (r c size : ℤ) : EdgeCall :=
  .access (fun _ => false) false r c size 0 true

theorem partial_eviction_within_capacity_pages :
    Always (callStep ⟨8192, "FIFO", true⟩) EdgeBuffer.WithinCapacity
      [demandAccess 0 0 8192, demandAccess 0 1 4096]
      (edgeBufferInit ⟨8192, "FIFO", true⟩) :=
  (partial_eviction_within_capacity (by decide) (by decide) (by decide)
    (by decide)).mpr
    (by decide)

/-- Two blocks of 2^62 bytes in a buffer of the default capacity. -/
theorem partial_eviction_wraps :
    ¬ Always (callStep ⟨longMax, "FIFO", true⟩) EdgeBuffer.WithinCapacity
      [demandAccess 0 0 (2 ^ 62), demandAccess 0 1 (2 ^ 62)]
      (edgeBufferInit ⟨longMax, "FIFO", true⟩) := by
  rintro ⟨-, -, hlast⟩
  exact absurd hlast.nonneg (by decide)

/-- Without partial eviction, the calls of the device keep the buffer within its
capacity exactly if every demand access to a cached block finds room for the
part that is missing. -/
theorem whole_eviction_within_capacity {params : EvictionParams}
    (hwhole : params.partialEdgeEviction = false)
    (hpos : 0 ≤ params.edgeBufferSize) (hmax : params.edgeBufferSize ≤ longMax)
    {edgeBlockLen : ℤ → ℤ → ℤ} (hlen : ∀ r c, 0 ≤ edgeBlockLen r c)
    (hlenMax : ∀ r c, edgeBlockLen r c ≤ longMax) {calls : List EdgeCall}
    (hcalls : Meets (callStep params)
      (fun call buf => call.AsMade edgeBlockLen buf ∧ call.Fits buf) calls
      (edgeBufferInit params)) :
    Always (callStep params) (fun buf => buf.size ≤ params.edgeBufferSize ∧
        ∀ unit ∈ buf.units, 0 ≤ unit.size) calls (edgeBufferInit params) ↔
      Meets (callStep params) EdgeCall.HitFits calls (edgeBufferInit params)
    := by
  have htyped : ∀ call buf, EdgeCall.AsMade edgeBlockLen call buf →
      call.Typed := by
    intro call buf hmade
    cases call with
    | access _ _ r c size isPrefetch _ =>
        rw [EdgeCall.AsMade] at hmade
        split at hmade
        · rw [hmade]
          exact ⟨hlen r c, hlenMax r c⟩
        · exact ⟨(le_max_left 0 _).trans hmade.1, hmade.2.trans (hlenMax r c)⟩
    | invalidate _ _ => trivial
    | invalidateFifo => trivial
    | destroy => trivial
  have hbounded : ∀ buf : EdgeBuffer, buf.Inv params →
      buf.size ≤ params.edgeBufferSize ∧ ∀ unit ∈ buf.units, 0 ≤ unit.size :=
    fun buf hbuf => ⟨hbuf.capacity_eq ▸ hbuf.size_le, hbuf.sizes_nonneg⟩
  refine always_iff_meets (callStep params) hbounded ?_ ?_
    (edgeBufferInit_inv hpos) hcalls
  · intro call buf hbuf hmade hhit
    exact perform_inv hbuf hpos hmax (htyped call buf hmade.1) hmade.2
      fun _ => hhit
  · intro call buf hbuf hmade hbounded
    exact perform_overrun hbuf hpos hmax hwhole (htyped call buf hmade.1)
      hmade.2 hbounded.1

/-- A prefetch of a block that belongs to the next iteration. -/
def futurePrefetch (r c size : ℤ) : EdgeCall :=
  .access (fun _ => false) false r c size 1 true

theorem whole_eviction_within_capacity_pages :
    Always (callStep ⟨8192, "FIFO", false⟩)
      (fun buf => buf.size ≤ 8192 ∧ ∀ unit ∈ buf.units, 0 ≤ unit.size)
      [demandAccess 0 0 8192, futurePrefetch 0 1 4096, demandAccess 0 1 8192]
      (edgeBufferInit ⟨8192, "FIFO", false⟩) :=
  (whole_eviction_within_capacity (by decide) (by decide) (by decide)
    (fun _ _ => by decide : ∀ _ _ : ℤ, (0 : ℤ) ≤ 8192) (fun _ _ => by decide)
    (by decide)).mpr (by decide)

/-- A block that is half prefetched beside another block grows past the
capacity when it is read. -/
theorem whole_eviction_overruns :
    Meets (callStep ⟨8192, "FIFO", false⟩)
        (EdgeCall.AsMade fun _ c => if c = 0 then 4096 else 8192)
        [demandAccess 0 0 4096, futurePrefetch 0 1 4096, demandAccess 0 1 8192]
        (edgeBufferInit ⟨8192, "FIFO", false⟩) ∧
      ¬ Always (callStep ⟨8192, "FIFO", false⟩)
        (fun buf => buf.size ≤ 8192 ∧ ∀ unit ∈ buf.units, 0 ≤ unit.size)
        [demandAccess 0 0 4096, futurePrefetch 0 1 4096, demandAccess 0 1 8192]
        (edgeBufferInit ⟨8192, "FIFO", false⟩) := by
  decide

end NvmeVirt.Csd
