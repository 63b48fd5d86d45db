import NvmeVirt.Csd.BlockBounds

/-!
# Statistics of the edge cache

A task counts the cached pages of its block as hits when it reads the block, and
later the pages whose transfer overlaps with the processing of the edges.  Both
are rounded down, so that together they are no more than the pages of the block.
What the counters rely on is that no cached unit exceeds its block.
-/

namespace NvmeVirt.Csd

open Interleaving

/-- A step of the device's worker.  A task reads its whole block, may drop it
afterwards, and with prefetching counts the part of the transfer for which its
processing leaves time. -/
inductive CacheStep where
  | task (aggregated : ℤ → Bool) (prReverse : Bool) (r c : ℤ)
      (allocated invalidates : Bool) (credit : Option ℤ)
  | call (call : EdgeCall)

/-- The edge I/O of a task: the bytes that were not cached, and the buffer. -/
def processTask (params : EvictionParams) (edgeBlockLen : ℤ → ℤ → ℤ)
    (buf : EdgeBuffer) (aggregated : ℤ → Bool) (prReverse : Bool) (r c : ℤ)
    (allocated invalidates : Bool) (credit : Option ℤ) : ℤ × EdgeBuffer :=
  let (sizeNotInCache, buf) :=
    accessEdgeBlock params { buf with prReverse := prReverse } aggregated r c
      (edgeBlockLen r c) 0 allocated
  let buf := if invalidates then invalidateEdgeBlock buf r c else buf
  match credit with
  | none => (sizeNotInCache, buf)
  | some bytes =>
      (sizeNotInCache, { buf with
        hitCnt := longLong (buf.hitCnt + pages (min bytes sizeNotInCache)) })

section Steps

variable (params : EvictionParams) (edgeBlockLen : ℤ → ℤ → ℤ)

def cacheStep (step : CacheStep) (buf : EdgeBuffer) : Option EdgeBuffer :=
  match step with
  | .task aggregated prReverse r c allocated invalidates credit =>
      some (processTask params edgeBlockLen buf aggregated prReverse r c
        allocated invalidates credit).2
  | .call call => callStep params call buf

/-- The credit is not negative, and a prefetch asks for a part of its block. -/
def CacheStep.Sized : CacheStep → Prop
  | .task _ _ _ _ _ _ credit => ∀ bytes ∈ credit, 0 ≤ bytes
  | .call (.access _ _ r c size isPrefetch _) =>
      isPrefetch ≠ 0 ∧ 0 ≤ size ∧ size ≤ edgeBlockLen r c
  | .call _ => True

/-- A task finds memory for its unit, and neither the sum of the eviction test
nor the counter of the accesses wraps. -/
def CacheStep.Countable (step : CacheStep) (buf : EdgeBuffer) : Prop :=
  match step with
  | .task _ _ r c allocated _ _ => edgeBlockLen r c ≠ 0 →
      allocated ∧ (invalidateEdgeBlock buf r c).size +
        min (edgeBlockLen r c) buf.capacity ≤ longMax ∧
      buf.totalAccessCnt + edgeBlockLen r c / pageSize ≤ longMax
  | .call _ => True

/-- A task gets the bytes of its block that were not cached, and after it the
hits are no more than the accesses. -/
def CacheStep.Consistent (step : CacheStep) (buf : EdgeBuffer) : Prop :=
  match step with
  | .task aggregated prReverse r c allocated invalidates credit =>
      let (sizeNotInCache, buf') := processTask params edgeBlockLen buf
        aggregated prReverse r c allocated invalidates credit
      0 ≤ sizeNotInCache ∧ sizeNotInCache ≤ edgeBlockLen r c ∧
        sizeNotInCache = edgeBlockLen r c - cachedBytes buf r c ∧
        buf'.hitCnt ≤ buf'.totalAccessCnt
  | .call _ => True

end Steps

/-- No cached unit exceeds its block, and the hits are no more than the
accesses. -/
structure EdgeBuffer.Counted (params : EvictionParams)
    (edgeBlockLen : ℤ → ℤ → ℤ) (buf : EdgeBuffer) : Prop
    extends buf.Bounded params edgeBlockLen where
  hits_nonneg : 0 ≤ buf.hitCnt
  hits_le : buf.hitCnt ≤ buf.totalAccessCnt
  total_le : buf.totalAccessCnt ≤ longMax

theorem pages_eq {bytes : ℤ} (hnonneg : 0 ≤ bytes) (hmax : bytes ≤ longMax) :
    pages bytes = bytes / pageSize := by
  unfold longMax at hmax
  rw [pages, Int.emod_eq_of_lt hnonneg (by omega)]

theorem pages_nonneg (bytes : ℤ) : 0 ≤ pages bytes :=
  Int.ediv_nonneg (Int.emod_nonneg _ (by decide)) (by decide)

/-- Two parts of a block have no more whole pages than the block. -/
theorem pages_add_le {part other whole : ℤ} (hpart : 0 ≤ part)
    (hother : 0 ≤ other) (hsum : part + other ≤ whole)
    (hmax : whole ≤ longMax) : pages part + pages other ≤ pages whole := by
  rw [pages_eq hpart (by omega), pages_eq hother (by omega),
    pages_eq (by omega) hmax]
  unfold pageSize
  omega

/-- What a demand access to a whole block returns and counts. -/
structure EdgeBuffer.Reads (params : EvictionParams) (edgeBlockLen : ℤ → ℤ → ℤ)
    (buf : EdgeBuffer) (r c : ℤ) (result : ℤ × EdgeBuffer) : Prop where
  bounded : result.2.Bounded params edgeBlockLen
  returned : result.1 = edgeBlockLen r c - cachedBytes buf r c
  hitCnt_eq : result.2.hitCnt = buf.hitCnt + pages (cachedBytes buf r c)
  totalAccessCnt_eq :
    result.2.totalAccessCnt = buf.totalAccessCnt + pages (edgeBlockLen r c)

section Tasks

variable {params : EvictionParams} {edgeBlockLen : ℤ → ℤ → ℤ} {buf : EdgeBuffer}
  {r c : ℤ}

theorem EdgeBuffer.Counted.reverse (hbuf : buf.Counted params edgeBlockLen)
    (prReverse : Bool) :
    { buf with prReverse := prReverse }.Counted params edgeBlockLen :=
  ⟨hbuf.toBounded.reverse prReverse, hbuf.hits_nonneg, hbuf.hits_le,
    hbuf.total_le⟩

variable (aggregated : ℤ → Bool) (hpos : 0 ≤ params.edgeBufferSize)
  (hmax : params.edgeBufferSize ≤ longMax)
  (hpartly : params.partialEdgeEviction = true)
  (hlen : ∀ r c, 0 ≤ edgeBlockLen r c)
  (hlenMax : ∀ r c, edgeBlockLen r c ≤ longMax)
  (hbuf : buf.Counted params edgeBlockLen)
include hpos hmax hpartly hlen hlenMax hbuf

theorem access_reads {allocated : Bool}
    (hcountable : edgeBlockLen r c ≠ 0 → allocated ∧
      (invalidateEdgeBlock buf r c).size + min (edgeBlockLen r c) buf.capacity ≤
        longMax ∧
      buf.totalAccessCnt + edgeBlockLen r c / pageSize ≤ longMax) :
    buf.Reads params edgeBlockLen r c (accessEdgeBlock params buf aggregated r c
      (edgeBlockLen r c) 0 allocated) := by
  have hcached := hbuf.cachedBytes_le (hlen r c)
  have hcachedNonneg : 0 ≤ cachedBytes buf r c :=
    cachedBytes_nonneg hbuf.toAccounted
  by_cases hzero : edgeBlockLen r c = 0
  · have hnone : cachedBytes buf r c = 0 := by omega
    have haccess : accessEdgeBlock params buf aggregated r c (edgeBlockLen r c) 0
        allocated = (0, buf) := by
      rw [accessEdgeBlock, if_pos hzero]
    rw [haccess]
    refine ⟨hbuf.toBounded, ?_, ?_, ?_⟩
    · rw [hnone, hzero]
      rfl
    · rw [hnone]
      exact (add_zero _).symm
    · rw [hzero]
      exact (add_zero _).symm
  obtain ⟨rfl, hfits, htotal⟩ := hcountable hzero
  have hlenPos : 0 < edgeBlockLen r c :=
    lt_of_le_of_ne (hlen r c) (Ne.symm hzero)
  have hcapacity : 0 ≤ buf.capacity := hbuf.capacity_eq ▸ hpos
  have hprepare := prepare_diminishes aggregated 0 hbuf.toInv hmax
    (show 0 ≤ (insertedUnit buf r c (edgeBlockLen r c) 0).size from
      le_min hlenPos.le hcapacity) (min_le_right _ _)
  have hpages : pages (cachedBytes buf r c) ≤ pages (edgeBlockLen r c) := by
    have hsum := pages_add_le hcachedNonneg le_rfl
      ((add_zero _).le.trans hcached) (hlenMax r c)
    exact (add_zero _).ge.trans hsum
  have hpagesNonneg := pages_nonneg (cachedBytes buf r c)
  have htotal : buf.totalAccessCnt + pages (edgeBlockLen r c) ≤ longMax := by
    rwa [pages_eq (hlen r c) (hlenMax r c)]
  have hhits := hbuf.hits_le
  have hhitsNonneg := hbuf.hits_nonneg
  have hbounded := @perform_bounded params edgeBlockLen buf hbuf.toBounded hmax
    hpos (.access aggregated buf.prReverse r c (edgeBlockLen r c) 0 true)
    ⟨hlenPos.le, le_rfl⟩ hlenMax (fun _ _ _ => hfits) (by simp [hpartly])
  change (accessEdgeBlock params buf aggregated r c _ 0 true).2.Bounded _ _
    at hbounded
  rw [access_demand params aggregated r c hbuf.toAccounted hlenPos
    (hlenMax r c)] at hbounded ⊢
  refine ⟨hbounded, ?_, ?_, ?_⟩
  · have := hlenMax r c
    exact longLong_eq (by unfold longMax; omega) (by omega)
  · change longLong ((prepare params buf aggregated _ 0).hitCnt + _) = _
    rw [hprepare.hitCnt_eq]
    exact longLong_eq (by unfold longMax; omega) (by omega)
  · change longLong ((prepare params buf aggregated _ 0).totalAccessCnt + _) = _
    rw [hprepare.totalAccessCnt_eq]
    exact longLong_eq (by unfold longMax; omega) htotal

omit hpos hpartly hlen hlenMax hbuf aggregated in
/-- Dropping the block that has been read keeps the statistics. -/
theorem dropped {buf' : EdgeBuffer} (invalidates : Bool)
    (hbuf' : buf'.Bounded params edgeBlockLen) :
    let left := if invalidates then invalidateEdgeBlock buf' r c else buf'
    left.Bounded params edgeBlockLen ∧
      left.hitCnt = buf'.hitCnt ∧ left.totalAccessCnt = buf'.totalAccessCnt := by
  cases invalidates with
  | false => exact ⟨hbuf', rfl, rfl⟩
  | true =>
      have hinvalidate := EdgeBuffer.Diminishes.invalidate buf' r c
      exact ⟨invalidate_bounded hbuf' hmax r c, hinvalidate.hitCnt_eq,
        hinvalidate.totalAccessCnt_eq⟩

theorem task_counted {prReverse allocated invalidates : Bool}
    {credit : Option ℤ} (hcredit : ∀ bytes ∈ credit, 0 ≤ bytes)
    (hcountable : (CacheStep.task aggregated prReverse r c allocated invalidates
      credit).Countable edgeBlockLen buf) :
    (CacheStep.task aggregated prReverse r c allocated invalidates
        credit).Consistent params edgeBlockLen buf ∧
      (processTask params edgeBlockLen buf aggregated prReverse r c allocated
        invalidates credit).2.Counted params edgeBlockLen := by
  have hreverse := hbuf.reverse prReverse
  have hreads := access_reads aggregated hpos hmax hpartly hlen hlenMax
    hreverse (by rwa [size_invalidate_reverse])
  rcases haccess : accessEdgeBlock params { buf with prReverse := prReverse }
    aggregated r c (edgeBlockLen r c) 0 allocated with ⟨sizeNotInCache, buf'⟩
  rw [haccess] at hreads
  obtain ⟨hbounded, hreturned, hhits, htotal⟩ := hreads
  obtain ⟨hbounded', hhits', htotal'⟩ :=
    dropped (r := r) (c := c) hmax invalidates hbounded
  change sizeNotInCache = edgeBlockLen r c - cachedBytes buf r c at hreturned
  change buf'.hitCnt = buf.hitCnt + pages (cachedBytes buf r c) at hhits
  change buf'.totalAccessCnt = buf.totalAccessCnt + _ at htotal
  rw [hhits] at hhits'
  rw [htotal] at htotal'
  have hcached := hbuf.cachedBytes_le (hlen r c)
  have hcachedNonneg : 0 ≤ cachedBytes buf r c :=
    cachedBytes_nonneg hbuf.toAccounted
  have htotalMax : buf.totalAccessCnt + pages (edgeBlockLen r c) ≤ longMax := by
    rw [pages_eq (hlen r c) (hlenMax r c)]
    by_cases hzero : edgeBlockLen r c = 0
    · rw [hzero]
      exact (add_zero _).le.trans hbuf.total_le
    · exact (hcountable hzero).2.2
  -- the hits of the access and of the transfer are parts of one block
  have hparts : ∀ bytes, 0 ≤ bytes → pages (cachedBytes buf r c) +
      pages (min bytes sizeNotInCache) ≤ pages (edgeBlockLen r c) := by
    intro bytes hbytes
    have hle := min_le_right bytes sizeNotInCache
    exact pages_add_le hcachedNonneg (le_min hbytes (by omega)) (by omega)
      (hlenMax r c)
  have hzeroPart := hparts 0 le_rfl
  have hhitsNonneg := hbuf.hits_nonneg
  have hhitsLe := hbuf.hits_le
  have hcachedPages := pages_nonneg (cachedBytes buf r c)
  simp only [CacheStep.Consistent, processTask, haccess]
  generalize (if invalidates then invalidateEdgeBlock buf' r c else buf') = left
    at hbounded' hhits' htotal' ⊢
  cases credit with
  | none =>
      have hpagesNonneg := pages_nonneg (min 0 sizeNotInCache)
      dsimp only
      exact ⟨⟨by omega, by omega, hreturned, by omega⟩, hbounded', by omega,
        by omega, by omega⟩
  | some bytes =>
      have hbytes := hparts bytes (hcredit bytes rfl)
      have hpagesNonneg := pages_nonneg (min bytes sizeNotInCache)
      have hcredited : longLong
            (left.hitCnt + pages (min bytes sizeNotInCache)) =
          left.hitCnt + pages (min bytes sizeNotInCache) :=
        longLong_eq (by unfold longMax; omega) (by omega)
      dsimp only
      rw [hcredited]
      refine ⟨⟨by omega, by omega, hreturned, by omega⟩, ?_⟩
      exact ⟨⟨⟨⟨hbounded'.size_eq, hbounded'.sizes_nonneg,
        hbounded'.blocks_nodup⟩, hbounded'.capacity_eq, hbounded'.size_le⟩,
        hbounded'.unit_le⟩, by dsimp only; omega, by dsimp only; omega,
        by dsimp only; omega⟩

omit hpos hmax hpartly hlen hlenMax aggregated in
theorem EdgeBuffer.Counted.same {buf' : EdgeBuffer}
    (hbounded : buf'.Bounded params edgeBlockLen)
    (hhits : buf'.hitCnt = buf.hitCnt)
    (htotal : buf'.totalAccessCnt = buf.totalAccessCnt) :
    buf'.Counted params edgeBlockLen := by
  refine ⟨hbounded, ?_, ?_, ?_⟩
  · rw [hhits]
    exact hbuf.hits_nonneg
  · rw [hhits, htotal]
    exact hbuf.hits_le
  · rw [htotal]
    exact hbuf.total_le

omit hpartly hlen in
/-- The other calls count nothing. -/
theorem call_counted {call : EdgeCall}
    (hcall : (CacheStep.call call).Sized edgeBlockLen) :
    (call.perform params buf).Counted params edgeBlockLen := by
  have hbounded : (call.perform params buf).Bounded params edgeBlockLen := by
    apply perform_bounded hbuf.toBounded hmax hpos
    · cases call with
      | access _ _ _ _ _ _ _ => exact hcall.2
      | invalidate _ _ | invalidateFifo | destroy => trivial
    · exact hlenMax
    · cases call with
      | access _ _ _ _ _ _ _ => exact fun hdemand => absurd hdemand hcall.1
      | invalidate _ _ | invalidateFifo | destroy => trivial
    · cases call with
      | access _ _ _ _ _ _ _ => exact fun _ hdemand => absurd hdemand hcall.1
      | invalidate _ _ | invalidateFifo | destroy => exact fun _ => trivial
  cases call with
  | invalidate r c =>
      have hinvalidate := EdgeBuffer.Diminishes.invalidate buf r c
      exact hbuf.same hbounded hinvalidate.hitCnt_eq
        hinvalidate.totalAccessCnt_eq
  | invalidateFifo =>
      apply hbuf.same hbounded
      · rw [EdgeCall.perform, invalidateEdgeBlockFifo]
        split <;> rfl
      · rw [EdgeCall.perform, invalidateEdgeBlockFifo]
        split <;> rfl
  | destroy => exact ⟨hbounded, le_rfl, le_rfl, (by decide : (0 : ℤ) ≤ longMax)⟩
  | access aggregated prReverse r c size isPrefetch allocated =>
      obtain ⟨hprefetch, hsize, hsizeLe⟩ := hcall
      have hreverse := hbuf.reverse prReverse
      rw [EdgeCall.perform] at hbounded ⊢
      by_cases hzero : size = 0
      · rwa [accessEdgeBlock, if_pos hzero]
      cases allocated with
      | false => simpa [accessEdgeBlock, hzero] using hreverse
      | true =>
          have hcapacity : 0 ≤ buf.capacity := hbuf.capacity_eq ▸ hpos
          have hprepare := prepare_diminishes aggregated isPrefetch
            hreverse.toInv hmax
            (show 0 ≤ (insertedUnit _ r c size isPrefetch).size from
              le_min hsize hcapacity) (min_le_right _ _)
          obtain ⟨room, haccess, -⟩ := access_prefetch params aggregated r c
            hreverse.toAccounted hzero hprefetch
          rw [haccess] at hbounded ⊢
          exact hreverse.same hbounded hprepare.hitCnt_eq
            hprepare.totalAccessCnt_eq

end Tasks

/-- The statistics of a run are consistent at every task if no sum wraps and
every task finds memory for its unit. -/
theorem cache_statistics_consistent {params : EvictionParams}
    (hpartly : params.partialEdgeEviction = true)
    (hpos : 0 ≤ params.edgeBufferSize) (hmax : params.edgeBufferSize ≤ longMax)
    {edgeBlockLen : ℤ → ℤ → ℤ} (hlen : ∀ r c, 0 ≤ edgeBlockLen r c)
    (hlenMax : ∀ r c, edgeBlockLen r c ≤ longMax) {steps : List CacheStep}
    (hsteps : ∀ step ∈ steps, step.Sized edgeBlockLen)
    (hcountable : Meets (cacheStep params edgeBlockLen)
      (CacheStep.Countable edgeBlockLen) steps (edgeBufferInit params)) :
    Meets (cacheStep params edgeBlockLen)
      (CacheStep.Consistent params edgeBlockLen) steps
      (edgeBufferInit params) := by
  have hinit : (edgeBufferInit params).Counted params edgeBlockLen := by
    exact ⟨edgeBufferInit_bounded hpos, le_rfl, le_rfl,
      (by decide : (0 : ℤ) ≤ longMax)⟩
  refine meets_of_meets (cacheStep params edgeBlockLen) ?_ ?_ hinit
    (meets_and _ (meets_of_forall _ hsteps _) hcountable)
  · rintro step buf hbuf ⟨hsized, hstep⟩
    cases step with
    | task aggregated prReverse r c allocated invalidates credit =>
        exact (task_counted aggregated hpos hmax hpartly hlen hlenMax hbuf
          hsized hstep).1
    | call _ => trivial
  · rintro step buf hbuf ⟨hsized, hstep⟩
    cases step with
    | task aggregated prReverse r c allocated invalidates credit =>
        exact (task_counted aggregated hpos hmax hpartly hlen hlenMax hbuf
          hsized hstep).2
    | call call => exact call_counted hpos hmax hlenMax hbuf hsized

/-- A task on a block. -/
def readTask (r c : ℤ) (credit : Option ℤ) : CacheStep :=
  .task (fun _ => false) false r c true false credit

/-- Half of a block is prefetched, and the transfer of a part of the rest
overlaps with its processing. -/
theorem cache_statistics_consistent_pages :
    Meets (cacheStep ⟨8192, "FIFO", true⟩ fun _ _ => 8192)
      (CacheStep.Consistent ⟨8192, "FIFO", true⟩ fun _ _ => 8192)
      [.call (futurePrefetch 0 0 4096), readTask 0 0 (some 4000),
        readTask 0 1 none]
      (edgeBufferInit ⟨8192, "FIFO", true⟩) := by
  apply cache_statistics_consistent (by decide) (by decide) (by decide)
  · exact fun _ _ => by decide
  · exact fun _ _ => by decide
  · intro step hstep
    simp only [List.mem_cons, List.not_mem_nil, or_false] at hstep
    rcases hstep with rfl | rfl | rfl
    · exact ⟨by decide, by decide, by decide⟩
    · rintro bytes ⟨⟩
      decide
    · rintro bytes ⟨⟩
  · refine ⟨trivial, fun _ => ⟨rfl, by decide, by decide⟩, fun _ =>
      ⟨rfl, by decide, by decide⟩, trivial⟩

/-- Two blocks of more than 2^62 bytes and one of eight. -/
def hugeBlockLen (_ c : ℤ) : ℤ :=
  if c = 0 then 2 ^ 62 + 8 else if c = 1 then 2 ^ 62 else 8

/-- After the sum has wrapped, a prefetch stores a negative size, and the task on
its block gets more bytes than the block has. -/
theorem cache_statistics_wrap :
    let steps := [readTask 0 0 none, readTask 0 1 none,
      .call (futurePrefetch 0 2 8), readTask 0 2 none]
    (processTask ⟨longMax, "FIFO", true⟩ hugeBlockLen
        (run (cacheStep ⟨longMax, "FIFO", true⟩ hugeBlockLen) (steps.take 3)
          (edgeBufferInit ⟨longMax, "FIFO", true⟩))
        (fun _ => false) false 0 2 true false none).1 = 17 ∧
      ¬ Meets (cacheStep ⟨longMax, "FIFO", true⟩ hugeBlockLen)
        (CacheStep.Consistent ⟨longMax, "FIFO", true⟩ hugeBlockLen) steps
        (edgeBufferInit ⟨longMax, "FIFO", true⟩) := by
  have hbytes : (processTask ⟨longMax, "FIFO", true⟩ hugeBlockLen
      (run (cacheStep ⟨longMax, "FIFO", true⟩ hugeBlockLen)
        [readTask 0 0 none, readTask 0 1 none, .call (futurePrefetch 0 2 8)]
        (edgeBufferInit ⟨longMax, "FIFO", true⟩))
      (fun _ => false) false 0 2 true false none).1 = 17 := by
    decide
  refine ⟨hbytes, ?_⟩
  rintro ⟨-, -, -, hlast, -⟩
  exact absurd hlast.2.1 (by decide)

end NvmeVirt.Csd
