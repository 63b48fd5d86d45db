import NvmeVirt.Csd.CacheStatistics
import NvmeVirt.Lib.Rounding

/-!
# Prefetching a block

A prefetch extends the cached part of a block by what the remaining time allows.
It does so by an access, which removes the block's unit and inserts a new one of
the room that eviction finds.  Without partial eviction a hit does not look for
room, so that the new unit is empty.

Times and sizes are integers, the ratios between them are doubles.  The rounding
of the doubles is a parameter: `binary64` is the one of the machine, and exact
arithmetic is another one.
-/

namespace NvmeVirt.Csd

open Interleaving Rounding

/-- The rounding of a `double`.  The results here are far from the bounds of the
exponent. -/
def binary64 : FloatRounding 53 := .nearest 53 (by decide)

/-- `struct PROC_EDGE`, with the fields that prefetching reads. -/
structure PrefetchTask where
  r : ℤ
  c : ℤ
  iter : ℤ
  edgeBlockLen : ℤ
  nsecsTarget : ℤ
  isFvc : Bool
  isPrefetching : ℤ
  deriving DecidableEq

/-- The edge buffer with the data about the blocks prefetched last. -/
structure PrefetchBuffer extends EdgeBuffer where
  prefetchedR : ℤ
  prefetchedC : ℤ
  prefetchedIter : ℤ
  prefetchedPriority : ℤ
  prefetchedSize : ℤ
  totalPrefetchCnt : ℤ
  prefetchHitCnt : ℤ
  prefetchPriorityCnt : ℕ → ℤ
  prefetchBlockCntArr : ℕ → ℤ
  emaAggr : ℤ
  aggrStartTime : ℤ → ℤ

/-- The prefetch data at the start, beside the given edge buffer. -/
def PrefetchBuffer.fresh (buf : EdgeBuffer) : PrefetchBuffer where
  toEdgeBuffer := buf
  prefetchedR := -1
  prefetchedC := -1
  prefetchedIter := -1
  prefetchedPriority := -1
  prefetchedSize := 0
  totalPrefetchCnt := 0
  prefetchHitCnt := 0
  prefetchPriorityCnt := fun _ => 0
  prefetchBlockCntArr := fun _ => 0
  emaAggr := 0
  aggrStartTime := fun _ => -1

/-- The value of an `unsigned long long` expression. -/
def unsignedLong (value : ℤ) : ℤ := value % 2 ^ 64

/-- The conversion of a `double` to `long long`, which cuts off the fraction. -/
def truncate (value : ℚ) : ℤ := if 0 ≤ value then ⌊value⌋ else ⌈value⌉

section Doubles

variable (fl : FloatRounding 53)

/-- `1.0 * part / whole` -/
def quotient (part whole : ℤ) : ℚ :=
  fl.round (fl.round part / fl.round whole)

/-- `(long long) (whole * ratio)` -/
def scaled (whole : ℤ) (ratio : ℚ) : ℤ :=
  truncate (fl.round (fl.round whole * ratio))

/-- The share of a transfer for which there is time.  A quotient by zero is
infinite and cut to 1 like any other that exceeds it. -/
def edgeIoRatio (edgeProcTime edgeIoTime : ℤ) : ℚ :=
  if edgeIoTime = 0 then 1 else min (quotient fl edgeProcTime edgeIoTime) 1

/-- The bytes of a block that are cached after a prefetch. -/
def prefetchSize (edgeBlockLen sizeInCache : ℤ) (ratio : ℚ) : ℤ :=
  min (longLong (sizeInCache + scaled fl edgeBlockLen ratio))
    (longLong edgeBlockLen)

end Doubles

/-- The last bits of a quotient are lost. -/
example : scaled binary64 110000 (quotient binary64 12288 45056) = 29999 ∧
    scaled (.exact 53) 110000 (quotient (.exact 53) 12288 45056) = 30000 := by
  decide +kernel

/-- `prefetch_edge_block`: the pages that have been added, the time that is left,
and the buffer. -/
def prefetchEdgeBlock (fl : FloatRounding 53) (params : EvictionParams)
    (aggregated : ℤ → Bool) (buf : PrefetchBuffer) (task : PrefetchTask)
    (edgeProcTime isPrefetch : ℤ) (allocated : Bool) :
    ℤ × ℤ × PrefetchBuffer :=
  if task.edgeBlockLen = 0 ∨ edgeProcTime ≤ 0 then (0, edgeProcTime, buf)
  else if unsignedLong (getEdgeBlockSize buf.toEdgeBuffer task.r task.c) =
      task.edgeBlockLen then (0, edgeProcTime, buf)
  else
    let sizeInCacheOld := cachedBytes buf.toEdgeBuffer task.r task.c
    let edgeIoTime := longLong task.nsecsTarget
    let ratio := edgeIoRatio fl edgeProcTime edgeIoTime
    let missing := unsignedLong (task.edgeBlockLen - sizeInCacheOld)
    let sizeInCache := prefetchSize fl task.edgeBlockLen sizeInCacheOld ratio
    let edgeBuf := (accessEdgeBlock params buf.toEdgeBuffer aggregated task.r
      task.c sizeInCache isPrefetch allocated).2
    let sizeInCacheNew := cachedBytes edgeBuf task.r task.c
    let prefetchedSize :=
      pages (max 0 (longLong (sizeInCacheNew - sizeInCacheOld)))
    (prefetchedSize,
      longLong (edgeProcTime -
        scaled fl edgeIoTime (quotient fl missing task.edgeBlockLen)),
      { buf with toEdgeBuffer := edgeBuf, prefetchedSize := prefetchedSize })

section Truncate

theorem truncate_nonneg {value : ℚ} (hvalue : 0 ≤ value) :
    0 ≤ truncate value := by
  rw [truncate, if_pos hvalue]
  exact Int.floor_nonneg.mpr hvalue

variable (fl : FloatRounding 53)

theorem quotient_nonneg {part whole : ℤ} (hpart : 0 ≤ part)
    (hwhole : 0 ≤ whole) : 0 ≤ quotient fl part whole :=
  fl.round_nonneg (div_nonneg (fl.round_nonneg (by exact_mod_cast hpart))
    (fl.round_nonneg (by exact_mod_cast hwhole)))

theorem scaled_nonneg {whole : ℤ} {ratio : ℚ} (hwhole : 0 ≤ whole)
    (hratio : 0 ≤ ratio) : 0 ≤ scaled fl whole ratio :=
  truncate_nonneg (fl.round_nonneg (mul_nonneg
    (fl.round_nonneg (by exact_mod_cast hwhole)) hratio))

theorem edgeIoRatio_nonneg {edgeProcTime edgeIoTime : ℤ}
    (htime : 0 ≤ edgeProcTime) (hio : 0 ≤ edgeIoTime) :
    0 ≤ edgeIoRatio fl edgeProcTime edgeIoTime := by
  rw [edgeIoRatio]
  split
  · exact zero_le_one
  · exact le_min (quotient_nonneg fl htime hio) zero_le_one

end Truncate

/-! ## What becomes of the block's own bytes -/

section Accesses

variable {params : EvictionParams} {buf : EdgeBuffer} {r c : ℤ}

/-- The cached bytes of a block that has just been inserted. -/
theorem cachedBytes_addTail {unit : EdgeBufferUnit}
    (hblock : (unit.r, unit.c) ∉ buf.blocks) (hsize : 0 ≤ unit.size) :
    cachedBytes (buf.addTail unit) unit.r unit.c = unit.size := by
  have hnone : buf.units.find? (isBlock unit.r unit.c) = none := by
    simpa [EdgeBuffer.blocks, isBlock] using hblock
  have hfind : (buf.addTail unit).units.find? (isBlock unit.r unit.c) =
      some unit := by
    rw [EdgeBuffer.addTail, List.find?_append, hnone]
    simp [isBlock]
  rw [cachedBytes, getEdgeBlockSize, hfind]
  exact if_neg (show unit.size ≠ -1 by omega)

/-- Invalidation takes the cached bytes of the block out of the buffer. -/
theorem size_invalidate (hbuf : buf.Accounted) (hmax : buf.size ≤ longMax) :
    (invalidateEdgeBlock buf r c).size = buf.size - cachedBytes buf r c := by
  by_cases hblock : (r, c) ∈ buf.blocks
  · rw [cachedBytes_of_mem hbuf hblock, invalidateEdgeBlock, getEdgeBlockSize]
    rcases hfind : buf.units.find? (isBlock r c) with _ | unit
    · have hnone := (getEdgeBlockSize_eq_neg_one hbuf).not.mpr
        (not_not.mpr hblock)
      rw [getEdgeBlockSize, hfind] at hnone
      exact absurd rfl hnone
    · exact hbuf.size_delete hmax (getElem?_findIdx hfind)
  · rw [cachedBytes_of_not_mem hbuf hblock, invalidateEdgeBlock_of_not_mem hblock,
      sub_zero]

variable (aggregated : ℤ → Bool) {size isPrefetch : ℤ}
  (hbuf : buf.Inv params) (hpos : 0 ≤ params.edgeBufferSize)
  (hmax : params.edgeBufferSize ≤ longMax) (hsize : 0 < size)
  (hprefetch : isPrefetch ≠ 0)
include hbuf hpos hmax hsize hprefetch

/-- A prefetch leaves of its block what it asks for and eviction finds room for.
-/
theorem cachedBytes_prefetch :
    let prepared := prepare params buf aggregated
      (insertedUnit buf r c size isPrefetch) isPrefetch
    cachedBytes
        (accessEdgeBlock params buf aggregated r c size isPrefetch true).2 r c =
      min (min size buf.capacity)
        (if params.partialEdgeEviction ∨ (r, c) ∉ buf.blocks then
          buf.capacity - prepared.size else 0) := by
  intro prepared
  have hcapacity : 0 ≤ buf.capacity := hbuf.capacity_eq ▸ hpos
  have hcapacityMax : buf.capacity ≤ longMax := hbuf.capacity_eq ▸ hmax
  have hnonneg : 0 ≤ min size buf.capacity := le_min hsize.le hcapacity
  have hinvalidate := invalidate_evictsTo r c hbuf hmax
  have hprepare : (invalidateEdgeBlock buf r c).EvictsTo prepared :=
    prepare_evictsTo aggregated hbuf hmax isPrefetch
      (show 0 ≤ (insertedUnit buf r c size isPrefetch).size from hnonneg)
      (min_le_right _ _)
  have hpreparedNonneg := hprepare.accounted.size_nonneg
  have hpreparedSize := hprepare.size_le.trans
    (hinvalidate.size_le.trans hbuf.size_le)
  have hblock : (r, c) ∉ prepared.blocks := fun hmem =>
    not_mem_blocks_invalidate hbuf.toAccounted
      (hprepare.blocks_sublist.subset hmem)
  have hfree : longLong (prepared.capacity - prepared.size) =
      buf.capacity - prepared.size := by
    rw [hprepare.capacity_eq, hinvalidate.capacity_eq]
    exact longLong_eq (by unfold longMax; omega) (by omega)
  obtain ⟨room, haccess, hroom⟩ := access_prefetch params aggregated r c
    hbuf.toAccounted hsize.ne' hprefetch
  change room = if _ then longLong (prepared.capacity - prepared.size) else 0
    at hroom
  rw [hfree] at hroom
  have hroomNonneg : 0 ≤ room := by
    rw [hroom]
    split
    · exact sub_nonneg.mpr hpreparedSize
    · exact le_rfl
  rw [haccess, ← hroom]
  exact cachedBytes_addTail hblock (le_min hnonneg hroomNonneg)

/-- With partial eviction, a prefetch that asks for the cached bytes keeps them.
-/
theorem prefetch_keeps (hpartly : params.partialEdgeEviction = true)
    (hcached : cachedBytes buf r c ≤ size) :
    cachedBytes buf r c ≤ cachedBytes
      (accessEdgeBlock params buf aggregated r c size isPrefetch true).2 r c := by
  have hcapacity : 0 ≤ buf.capacity := hbuf.capacity_eq ▸ hpos
  have hbufMax : buf.size ≤ longMax :=
    hbuf.size_le.trans (hbuf.capacity_eq ▸ hmax)
  have hbufSize := hbuf.size_le
  have hsizeInvalidate := @size_invalidate buf r c hbuf.toAccounted hbufMax
  have hinvalidate := invalidate_evictsTo r c hbuf hmax
  have hinvalidateNonneg := hinvalidate.accounted.size_nonneg
  have hprepare := prepare_evictsTo aggregated hbuf hmax isPrefetch
    (show 0 ≤ (insertedUnit buf r c size isPrefetch).size from
      le_min hsize.le hcapacity) (min_le_right _ _)
  have hpreparedSize : (prepare params buf aggregated
      (insertedUnit buf r c size isPrefetch) isPrefetch).size ≤
        (invalidateEdgeBlock buf r c).size := hprepare.size_le
  rw [cachedBytes_prefetch aggregated hbuf hpos hmax hsize hprefetch,
    if_pos (.inl hpartly)]
  exact le_min (le_min hcached (by omega)) (by omega)

/-- Without it, a hit keeps nothing. -/
theorem prefetch_loses (hwhole : params.partialEdgeEviction = false)
    (hblock : (r, c) ∈ buf.blocks) :
    cachedBytes
      (accessEdgeBlock params buf aggregated r c size isPrefetch true).2 r c =
        0 := by
  have hcapacity : 0 ≤ buf.capacity := hbuf.capacity_eq ▸ hpos
  rw [cachedBytes_prefetch aggregated hbuf hpos hmax hsize hprefetch,
    if_neg (by simpa [hwhole] using hblock)]
  exact min_eq_right (le_min hsize.le hcapacity)

end Accesses

/-! ## Runs of the worker -/

/-- What the worker does with the buffer.  A prefetch comes with the values of
`done_partition` and `pr_reverse` and with the time that is left. -/
inductive WorkerStep where
  | task (aggregated : ℤ → Bool) (prReverse : Bool) (r c : ℤ)
      (allocated invalidates : Bool) (credit : Option ℤ)
  | prefetch (aggregated : ℤ → Bool) (prReverse : Bool) (nextTask : PrefetchTask)
      (edgeProcTime isPrefetch : ℤ) (allocated : Bool)
  | destroy

section Worker

variable (fl : FloatRounding 53) (params : EvictionParams)
  (edgeBlockLen : ℤ → ℤ → ℤ)

def workerStep (step : WorkerStep) (buf : PrefetchBuffer) :
    Option PrefetchBuffer :=
  match step with
  | .task aggregated prReverse r c allocated invalidates credit =>
      some { buf with
        toEdgeBuffer := (processTask params edgeBlockLen buf.toEdgeBuffer
          aggregated prReverse r c allocated invalidates credit).2 }
  | .prefetch aggregated prReverse nextTask edgeProcTime isPrefetch allocated =>
      some (prefetchEdgeBlock fl params aggregated
        { buf with prReverse := prReverse } nextTask edgeProcTime isPrefetch
        allocated).2.2
  | .destroy => some (.fresh (edgeBufferDestroy buf.toEdgeBuffer))

/-- A task has room for its block, and no sum of a task or a prefetch wraps. -/
def WorkerStep.HasRoom (step : WorkerStep) (buf : PrefetchBuffer) : Prop :=
  match step with
  | .task aggregated prReverse r c allocated _ _ =>
      let call : EdgeCall :=
        .access aggregated prReverse r c (edgeBlockLen r c) 0 allocated
      call.Fits buf.toEdgeBuffer ∧
        (params.partialEdgeEviction = false → call.HitFits buf.toEdgeBuffer)
  | .prefetch _ _ nextTask edgeProcTime isPrefetch _ =>
      isPrefetch ≠ 0 ∧
        nextTask.edgeBlockLen = edgeBlockLen nextTask.r nextTask.c ∧
        (0 ≤ nextTask.nsecsTarget ∧ nextTask.nsecsTarget ≤ longMax) ∧
        cachedBytes buf.toEdgeBuffer nextTask.r nextTask.c +
          scaled fl nextTask.edgeBlockLen
            (edgeIoRatio fl edgeProcTime nextTask.nsecsTarget) ≤ longMax
  | .destroy => True

/-- A prefetch leaves at least the bytes of its block that were cached. -/
def WorkerStep.Keeps (step : WorkerStep) (buf : PrefetchBuffer) : Prop :=
  match step with
  | .prefetch aggregated prReverse nextTask edgeProcTime isPrefetch allocated =>
      let buf' := (prefetchEdgeBlock fl params aggregated
        { buf with prReverse := prReverse } nextTask edgeProcTime isPrefetch
        allocated).2.2
      cachedBytes buf.toEdgeBuffer nextTask.r nextTask.c ≤
        cachedBytes buf'.toEdgeBuffer nextTask.r nextTask.c
  | _ => True

/-- Eviction makes room for a hit, or the prefetch has nothing to do, or there
is nothing to lose. -/
def WorkerStep.Extends (step : WorkerStep) (buf : PrefetchBuffer) : Prop :=
  match step with
  | .prefetch _ _ nextTask edgeProcTime _ allocated =>
      params.partialEdgeEviction = true ∨ allocated = false ∨ edgeProcTime ≤ 0 ∨
        cachedBytes buf.toEdgeBuffer nextTask.r nextTask.c =
          nextTask.edgeBlockLen ∨
        cachedBytes buf.toEdgeBuffer nextTask.r nextTask.c = 0
  | _ => True

end Worker

section Steps

variable {fl : FloatRounding 53} {params : EvictionParams}
  {edgeBlockLen : ℤ → ℤ → ℤ} {buf : PrefetchBuffer}
  (aggregated : ℤ → Bool) (prReverse : Bool)
  (hbuf : buf.toEdgeBuffer.Bounded params edgeBlockLen)
  (hpos : 0 ≤ params.edgeBufferSize) (hmax : params.edgeBufferSize ≤ longMax)
  (hlen : ∀ r c, 0 ≤ edgeBlockLen r c)
  (hlenMax : ∀ r c, edgeBlockLen r c ≤ longMax)
include hbuf hpos hmax hlen hlenMax

theorem processTask_bounded {r c : ℤ} {allocated : Bool} (invalidates : Bool)
    (credit : Option ℤ)
    (hroom : (WorkerStep.task aggregated prReverse r c allocated invalidates
      credit).HasRoom fl params edgeBlockLen buf) :
    (processTask params edgeBlockLen buf.toEdgeBuffer aggregated prReverse r c
      allocated invalidates credit).2.Bounded params edgeBlockLen := by
  have haccess := @perform_bounded params edgeBlockLen buf.toEdgeBuffer hbuf hmax
    hpos (.access aggregated prReverse r c (edgeBlockLen r c) 0 allocated)
    ⟨hlen r c, le_rfl⟩ hlenMax hroom.1 hroom.2
  obtain ⟨hdropped, -, -⟩ := dropped (r := r) (c := c) hmax invalidates haccess
  cases credit with
  | none => exact hdropped
  | some bytes =>
      exact ⟨⟨⟨hdropped.size_eq, hdropped.sizes_nonneg, hdropped.blocks_nodup⟩,
        hdropped.capacity_eq, hdropped.size_le⟩, hdropped.unit_le⟩

omit hpos hmax in
theorem cached_eq_len_iff {r c : ℤ} (hzero : edgeBlockLen r c ≠ 0) :
    unsignedLong (getEdgeBlockSize buf.toEdgeBuffer r c) = edgeBlockLen r c ↔
      cachedBytes buf.toEdgeBuffer r c = edgeBlockLen r c := by
  have hcached := hbuf.cachedBytes_le (hlen r c)
  have hcachedNonneg := @cachedBytes_nonneg _ r c hbuf.toAccounted
  have hle := hlenMax r c
  unfold longMax at hle
  rw [cachedBytes] at hcached hcachedNonneg ⊢
  split
  next hmiss =>
    rw [hmiss, unsignedLong]
    omega
  next hhit =>
    rw [if_neg hhit] at hcached hcachedNonneg
    rw [unsignedLong, Int.emod_eq_of_lt hcachedNonneg (by omega)]

omit hpos hmax in
/-- A prefetch leaves the buffer alone or accesses the block, for at least what
is cached and at most the whole block. -/
theorem prefetchEdgeBlock_cases {nextTask : PrefetchTask}
    {edgeProcTime isPrefetch : ℤ} {allocated : Bool}
    (hroom : (WorkerStep.prefetch aggregated prReverse nextTask edgeProcTime
      isPrefetch allocated).HasRoom fl params edgeBlockLen buf) :
    let cached := cachedBytes buf.toEdgeBuffer nextTask.r nextTask.c
    let buf' := (prefetchEdgeBlock fl params aggregated
      { buf with prReverse := prReverse } nextTask edgeProcTime isPrefetch
      allocated).2.2.toEdgeBuffer
    (nextTask.edgeBlockLen = 0 ∨ edgeProcTime ≤ 0 ∨
        cached = nextTask.edgeBlockLen) ∧
      buf' = { buf.toEdgeBuffer with prReverse := prReverse } ∨
    (0 < edgeProcTime ∧ cached ≠ nextTask.edgeBlockLen) ∧
      ∃ size, cached ≤ size ∧ size ≤ nextTask.edgeBlockLen ∧
        buf' = (EdgeCall.access aggregated prReverse nextTask.r nextTask.c size
          isPrefetch allocated).perform params buf.toEdgeBuffer := by
  obtain ⟨-, hblockLen, ⟨htarget, htargetMax⟩, hsum⟩ := hroom
  intro cached buf'
  by_cases hnone : nextTask.edgeBlockLen = 0 ∨ edgeProcTime ≤ 0
  · refine .inl ⟨hnone.imp id .inl, ?_⟩
    simp only [buf', prefetchEdgeBlock, if_pos hnone]
  have hlenNe : nextTask.edgeBlockLen ≠ 0 := fun hzero => hnone (.inl hzero)
  have htime : 0 < edgeProcTime := not_le.mp fun hle => hnone (.inr hle)
  have hwhole := @cached_eq_len_iff params edgeBlockLen buf hbuf hlen hlenMax
    nextTask.r nextTask.c (hblockLen ▸ hlenNe)
  rw [← hblockLen] at hwhole
  by_cases hcached : cached = nextTask.edgeBlockLen
  · refine .inl ⟨.inr (.inr hcached), ?_⟩
    have hfull : unsignedLong (getEdgeBlockSize
        { buf.toEdgeBuffer with prReverse := prReverse } nextTask.r nextTask.c) =
        nextTask.edgeBlockLen := hwhole.mpr hcached
    simp only [buf', prefetchEdgeBlock, if_neg hnone]
    rw [if_pos hfull]
  have hratio := edgeIoRatio_nonneg fl htime.le htarget
  have hlenNonneg : 0 ≤ nextTask.edgeBlockLen := hblockLen ▸ hlen _ _
  have hlenLe : nextTask.edgeBlockLen ≤ longMax := hblockLen ▸ hlenMax _ _
  have hadded := scaled_nonneg fl hlenNonneg hratio
  have hcachedNonneg : 0 ≤ cached := cachedBytes_nonneg hbuf.toAccounted
  have hcachedLe : cached ≤ nextTask.edgeBlockLen :=
    hblockLen ▸ hbuf.cachedBytes_le (hlen _ _)
  have hsize : prefetchSize fl nextTask.edgeBlockLen cached
        (edgeIoRatio fl edgeProcTime nextTask.nsecsTarget) =
      min (cached + scaled fl nextTask.edgeBlockLen
        (edgeIoRatio fl edgeProcTime nextTask.nsecsTarget))
        nextTask.edgeBlockLen := by
    rw [prefetchSize, longLong_eq (by unfold longMax; omega) hsum,
      longLong_eq (by unfold longMax; omega) hlenLe]
  refine .inr ⟨⟨htime, hcached⟩, prefetchSize fl nextTask.edgeBlockLen cached
    (edgeIoRatio fl edgeProcTime nextTask.nsecsTarget), ?_, ?_, ?_⟩
  · rw [hsize]
    exact le_min (by omega) hcachedLe
  · rw [hsize]
    exact min_le_right _ _
  · have hpart : ¬ unsignedLong (getEdgeBlockSize
        { buf.toEdgeBuffer with prReverse := prReverse } nextTask.r nextTask.c) =
        nextTask.edgeBlockLen := fun hfull => hcached (hwhole.mp hfull)
    simp only [buf', prefetchEdgeBlock, if_neg hnone]
    rw [if_neg hpart, longLong_eq (by unfold longMax; omega) htargetMax]
    rfl

theorem workerStep_bounded {step : WorkerStep} {buf' : PrefetchBuffer}
    (hroom : step.HasRoom fl params edgeBlockLen buf)
    (hstep : workerStep fl params edgeBlockLen step buf = some buf') :
    buf'.toEdgeBuffer.Bounded params edgeBlockLen := by
  cases step with
  | task aggregated prReverse r c allocated invalidates credit =>
      rw [← Option.some.inj hstep]
      exact processTask_bounded aggregated prReverse hbuf hpos hmax hlen hlenMax
        invalidates credit hroom
  | prefetch aggregated prReverse nextTask edgeProcTime isPrefetch allocated =>
      rw [← Option.some.inj hstep]
      rcases prefetchEdgeBlock_cases aggregated prReverse hbuf hlen hlenMax hroom
        with ⟨-, hunchanged⟩ | ⟨-, size, hcached, hsize, haccess⟩
      · rw [hunchanged]
        exact hbuf.reverse prReverse
      · have hcachedNonneg := @cachedBytes_nonneg _ nextTask.r nextTask.c
          hbuf.toAccounted
        rw [haccess]
        refine perform_bounded hbuf hmax hpos
          ⟨hcachedNonneg.trans hcached, hsize.trans hroom.2.1.le⟩ hlenMax ?_ ?_
        · exact fun hdemand => absurd hdemand hroom.1
        · exact fun _ hdemand => absurd hdemand hroom.1
  | destroy =>
      rw [← Option.some.inj hstep]
      exact @perform_bounded params edgeBlockLen buf.toEdgeBuffer hbuf hmax hpos
        .destroy trivial hlenMax trivial fun _ => trivial

theorem keeps_iff_extends {step : WorkerStep}
    (hroom : step.HasRoom fl params edgeBlockLen buf) :
    step.Keeps fl params buf ↔ step.Extends params buf := by
  cases step with
  | task _ _ _ _ _ _ _ => exact Iff.rfl
  | destroy => exact Iff.rfl
  | prefetch aggregated prReverse nextTask edgeProcTime isPrefetch allocated =>
      have hbounded := workerStep_bounded hbuf hpos hmax hlen hlenMax hroom rfl
      have hcachedNonneg := @cachedBytes_nonneg _ nextTask.r nextTask.c
        hbuf.toAccounted
      have hcachedLe := @EdgeBuffer.Bounded.cachedBytes_le _ _ _ hbuf nextTask.r
        nextTask.c (hlen _ _)
      rw [← hroom.2.1] at hcachedLe
      rw [WorkerStep.Keeps, WorkerStep.Extends]
      rcases prefetchEdgeBlock_cases aggregated prReverse hbuf hlen hlenMax hroom
        with ⟨hnone, hunchanged⟩ | ⟨⟨htime, hne⟩, size, hcached, hsize, haccess⟩
      · rw [hunchanged]
        refine ⟨fun _ => ?_, fun _ => le_rfl⟩
        rcases hnone with hzero | htime | hwhole
        · exact .inr (.inr (.inr (.inr (by omega))))
        · exact .inr (.inr (.inl htime))
        · exact .inr (.inr (.inr (.inl hwhole)))
      rw [haccess] at hbounded ⊢
      by_cases hzero : cachedBytes buf.toEdgeBuffer nextTask.r nextTask.c = 0
      · rw [hzero]
        exact ⟨fun _ => .inr (.inr (.inr (.inr rfl))),
          fun _ => cachedBytes_nonneg hbounded.toAccounted⟩
      have hsizePos : 0 < size := by omega
      cases allocated with
      | false =>
          refine ⟨fun _ => .inr (.inl rfl), fun _ => ?_⟩
          rw [EdgeCall.perform, accessEdgeBlock, if_neg hsizePos.ne']
          exact le_rfl
      | true =>
          have hreverse := (hbuf.reverse prReverse).toInv
          cases hpartly : params.partialEdgeEviction with
          | true =>
              exact ⟨fun _ => .inl rfl, fun _ => prefetch_keeps aggregated
                hreverse hpos hmax hsizePos hroom.1 hpartly hcached⟩
          | false =>
              have hblock : (nextTask.r, nextTask.c) ∈
                  buf.toEdgeBuffer.blocks := by
                by_contra hmiss
                exact hzero (cachedBytes_of_not_mem hbuf.toAccounted hmiss)
              have hlost := prefetch_loses aggregated hreverse hpos hmax hsizePos
                hroom.1 hpartly hblock
              rw [EdgeCall.perform, hlost]
              constructor
              · intro hkeeps
                omega
              · rintro (hwhole | hfailed | htime' | hwhole | hzero')
                · cases hwhole
                · cases hfailed
                · omega
                · exact absurd hwhole hne
                · exact absurd hzero' hzero

end Steps

/-- In the runs whose tasks find room for their blocks, every prefetch keeps the
cached bytes of its block exactly if eviction is partial, or if the prefetch
does nothing or finds nothing cached.  How the doubles are rounded does not
matter. -/
theorem prefetches_keep_iff (fl : FloatRounding 53) {params : EvictionParams}
    (hpos : 0 ≤ params.edgeBufferSize) (hmax : params.edgeBufferSize ≤ longMax)
    {edgeBlockLen : ℤ → ℤ → ℤ} (hlen : ∀ r c, 0 ≤ edgeBlockLen r c)
    (hlenMax : ∀ r c, edgeBlockLen r c ≤ longMax) {steps : List WorkerStep}
    (hroom : Meets (workerStep fl params edgeBlockLen)
      (WorkerStep.HasRoom fl params edgeBlockLen) steps
      (.fresh (edgeBufferInit params))) :
    Meets (workerStep fl params edgeBlockLen) (WorkerStep.Keeps fl params) steps
        (.fresh (edgeBufferInit params)) ↔
      Meets (workerStep fl params edgeBlockLen) (WorkerStep.Extends params) steps
        (.fresh (edgeBufferInit params)) := by
  refine @meets_iff_meets _ _ (workerStep fl params edgeBlockLen)
    (fun buf => buf.toEdgeBuffer.Bounded params edgeBlockLen) _ _ _ ?_ ?_ _ _
    (edgeBufferInit_bounded hpos) hroom
  · intro step buf hbuf hroom
    exact keeps_iff_extends hbuf hpos hmax hlen hlenMax hroom
  · intro step buf hbuf hroom _
    rcases hnext : workerStep fl params edgeBlockLen step buf with _ | buf'
    · rw [turn, hnext]
      exact hbuf
    · rw [turn, hnext]
      exact workerStep_bounded hbuf hpos hmax hlen hlenMax hroom hnext

/-- A task on a block of 8192 bytes at the start of the columns. -/
def nextEdge (r c : ℤ) : PrefetchTask := ⟨r, c, 0, 8192, 4, false, 2⟩

/-- A block is prefetched by half and then as a whole. -/
def halfThenWhole : List WorkerStep :=
  [.prefetch (fun _ => false) false (nextEdge 0 0) 2 1 true,
    .prefetch (fun _ => false) false (nextEdge 0 0) 4 1 true]

theorem prefetches_keep_iff_half :
    Meets (workerStep binary64 ⟨8192, "FIFO", true⟩ fun _ _ => 8192)
      (WorkerStep.Keeps binary64 ⟨8192, "FIFO", true⟩) halfThenWhole
      (.fresh (edgeBufferInit ⟨8192, "FIFO", true⟩)) := by
  refine (prefetches_keep_iff binary64 (by decide) (by decide)
    (fun _ _ => by decide) (fun _ _ => by decide) ?_).mpr
      ⟨.inl rfl, .inl rfl, trivial⟩
  refine ⟨⟨by decide, rfl, by decide, ?_⟩, ⟨by decide, rfl, by decide, ?_⟩,
    trivial⟩
  · decide +kernel
  · decide +kernel

/-- Without partial eviction, the second prefetch drops the half that is there.
-/
theorem prefetches_drop_half :
    ¬ Meets (workerStep binary64 ⟨8192, "FIFO", false⟩ fun _ _ => 8192)
      (WorkerStep.Keeps binary64 ⟨8192, "FIFO", false⟩) halfThenWhole
      (.fresh (edgeBufferInit ⟨8192, "FIFO", false⟩)) := by
  rintro ⟨-, hsecond, -⟩
  exact absurd hsecond (not_le.mpr (by decide +kernel))

end NvmeVirt.Csd
