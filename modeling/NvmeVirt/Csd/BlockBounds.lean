import NvmeVirt.Csd.DemandAccess

/-!
# Cached bytes of a block

Each block has a length.  Demand accesses ask for all of it and prefetches for a
part, so no cached unit exceeds its block: eviction only takes bytes away, and
an access stores no more than it asks for.
-/

namespace NvmeVirt.Csd

/-- What eviction does to the statistics and to the units of a block: it counts
nothing, and no unit grows. -/
structure EdgeBuffer.Diminishes (buf buf' : EdgeBuffer) : Prop where
  hitCnt_eq : buf'.hitCnt = buf.hitCnt
  totalAccessCnt_eq : buf'.totalAccessCnt = buf.totalAccessCnt
  unit_le : ∀ unit ∈ buf'.units, ∃ old ∈ buf.units,
    old.r = unit.r ∧ old.c = unit.c ∧ unit.size ≤ old.size

namespace EdgeBuffer.Diminishes

theorem refl (buf : EdgeBuffer) : buf.Diminishes buf :=
  ⟨rfl, rfl, fun unit hunit => ⟨unit, hunit, rfl, rfl, le_rfl⟩⟩

theorem trans {buf buf' buf'' : EdgeBuffer} (hleft : buf.Diminishes buf')
    (hright : buf'.Diminishes buf'') : buf.Diminishes buf'' := by
  refine ⟨hright.hitCnt_eq.trans hleft.hitCnt_eq,
    hright.totalAccessCnt_eq.trans hleft.totalAccessCnt_eq, ?_⟩
  intro unit hunit
  obtain ⟨middle, hmiddle, hr, hc, hle⟩ := hright.unit_le unit hunit
  obtain ⟨old, hold, hr', hc', hle'⟩ := hleft.unit_le middle hmiddle
  exact ⟨old, hold, hr'.trans hr, hc'.trans hc, hle.trans hle'⟩

theorem delete (buf : EdgeBuffer) (position : ℕ) (unit : EdgeBufferUnit) :
    buf.Diminishes (buf.delete position unit) :=
  ⟨rfl, rfl, fun other hother =>
    ⟨other, List.mem_of_mem_eraseIdx hother, rfl, rfl, le_rfl⟩⟩

theorem invalidate (buf : EdgeBuffer) (r c : ℤ) :
    buf.Diminishes (invalidateEdgeBlock buf r c) := by
  rw [invalidateEdgeBlock]
  split
  · exact refl buf
  · exact delete buf _ _

end EdgeBuffer.Diminishes

section Eviction

variable {params : EvictionParams} (aggregated : ℤ → Bool) (isPrefetch : ℤ)
  {buf : EdgeBuffer} {inserted : EdgeBufferUnit}

theorem evictLoop_diminishes (rounds : ℕ) (hbuf : buf.Accounted)
    (hcapacity : buf.capacity ≤ longMax) (hsize : buf.size ≤ buf.capacity)
    (hnonneg : 0 ≤ inserted.size) (hinserted : inserted.size ≤ buf.capacity) :
    buf.Diminishes (evictLoop params aggregated inserted isPrefetch rounds buf)
    := by
  induction rounds generalizing buf with
  | zero => exact .refl buf
  | succ rounds ih =>
      have hmax := hsize.trans hcapacity
      rcases round_cases aggregated params inserted isPrefetch rounds buf with
        ⟨hloop, -, -⟩ | ⟨position, unit, htakes, hround⟩
      · rw [hloop]
        exact .refl buf
      have hunit := htakes.getElem_eq
      have hmem := List.mem_of_getElem? hunit
      have hunitNonneg := hbuf.sizes_nonneg unit hmem
      rcases hround with ⟨hshrinks, hloop, -⟩ | ⟨-, hloop, -⟩
      · obtain ⟨front, back, left, hsplit, -, hlt, hunits⟩ :=
          htakes.units_shrink hbuf hcapacity hsize hnonneg hinserted hshrinks
        refine ⟨by rw [hloop]; rfl, by rw [hloop]; rfl, ?_⟩
        intro other hother
        rw [hloop, hunits, List.mem_append, List.mem_cons] at hother
        rw [hsplit]
        rcases hother with hfront | rfl | hback
        · exact ⟨other, by simp [hfront], rfl, rfl, le_rfl⟩
        · exact ⟨unit, by simp, rfl, rfl, hlt.le⟩
        · exact ⟨other, by simp [hback], rfl, rfl, le_rfl⟩
      · rw [hloop]
        have hdeletedSize := hbuf.size_delete hmax hunit
        refine (EdgeBuffer.Diminishes.delete buf position unit).trans
          (ih (hbuf.delete hmax hunit) hcapacity ?_ hinserted)
        rw [hdeletedSize]
        exact (sub_le_self _ hunitNonneg).trans hsize

theorem prepare_diminishes (hbuf : buf.Inv params)
    (hmax : params.edgeBufferSize ≤ longMax) (hnonneg : 0 ≤ inserted.size)
    (hinserted : inserted.size ≤ buf.capacity) :
    buf.Diminishes (prepare params buf aggregated inserted isPrefetch) := by
  have hinvalidate := invalidate_evictsTo inserted.r inserted.c hbuf hmax
  have hcapacity := hinvalidate.capacity_eq
  have hold := EdgeBuffer.Diminishes.invalidate buf inserted.r inserted.c
  rw [prepare]
  split
  · apply hold.trans
    apply evictLoop_diminishes aggregated isPrefetch _ hinvalidate.accounted
    · rwa [hcapacity, hbuf.capacity_eq]
    · exact hcapacity ▸ hinvalidate.size_le.trans hbuf.size_le
    · exact hnonneg
    · exact hcapacity ▸ hinserted
  · exact hold

end Eviction

/-- The invariant of the buffer, whose units do not exceed their blocks. -/
structure EdgeBuffer.Bounded (params : EvictionParams)
    (edgeBlockLen : ℤ → ℤ → ℤ) (buf : EdgeBuffer) : Prop
    extends buf.Inv params where
  unit_le : ∀ unit ∈ buf.units, unit.size ≤ edgeBlockLen unit.r unit.c

/-- An access asks for no more than its block. -/
def EdgeCall.WithinBlock (edgeBlockLen : ℤ → ℤ → ℤ) : EdgeCall → Prop
  | .access _ _ r c size _ _ => 0 ≤ size ∧ size ≤ edgeBlockLen r c
  | _ => True

section Bounds

variable {params : EvictionParams} {edgeBlockLen : ℤ → ℤ → ℤ} {buf : EdgeBuffer}

theorem edgeBufferInit_bounded (hpos : 0 ≤ params.edgeBufferSize) :
    (edgeBufferInit params).Bounded params edgeBlockLen := by
  refine ⟨edgeBufferInit_inv hpos, ?_⟩
  intro unit hunit
  cases hunit

variable (hbuf : buf.Bounded params edgeBlockLen)
include hbuf

theorem EdgeBuffer.Bounded.cachedBytes_le {r c : ℤ}
    (hlen : 0 ≤ edgeBlockLen r c) : cachedBytes buf r c ≤ edgeBlockLen r c := by
  refine @cachedBytes_of_units _ _ _ (fun size => size ≤ edgeBlockLen r c) hlen ?_
  rintro unit hunit rfl rfl
  exact hbuf.unit_le unit hunit

theorem EdgeBuffer.Bounded.reverse (prReverse : Bool) :
    { buf with prReverse := prReverse }.Bounded params edgeBlockLen :=
  ⟨hbuf.toInv.reverse prReverse, hbuf.unit_le⟩

theorem EdgeBuffer.Bounded.diminish {buf' : EdgeBuffer} (hinv : buf'.Inv params)
    (hdiminishes : buf.Diminishes buf') : buf'.Bounded params edgeBlockLen := by
  refine ⟨hinv, fun unit hunit => ?_⟩
  obtain ⟨old, hold, hr, hc, hle⟩ := hdiminishes.unit_le unit hunit
  exact hle.trans (hr ▸ hc ▸ hbuf.unit_le old hold)

theorem EdgeBuffer.Bounded.count (hits total : ℤ) :
    (buf.count hits total).Bounded params edgeBlockLen :=
  ⟨⟨hbuf.toAccounted.count hits total, hbuf.capacity_eq, hbuf.size_le⟩,
    hbuf.unit_le⟩

omit hbuf in
theorem EdgeBuffer.Bounded.addTail {prepared : EdgeBuffer}
    (hprepared : prepared.Bounded params edgeBlockLen) {unit : EdgeBufferUnit}
    (hinv : (prepared.addTail unit).Inv params)
    (hunit : unit.size ≤ edgeBlockLen unit.r unit.c) :
    (prepared.addTail unit).Bounded params edgeBlockLen := by
  refine ⟨hinv, fun other hother => ?_⟩
  rw [EdgeBuffer.addTail, List.mem_append, List.mem_singleton] at hother
  rcases hother with hother | rfl
  · exact hprepared.unit_le other hother
  · exact hunit

variable (hmax : params.edgeBufferSize ≤ longMax)
include hmax

theorem prepare_bounded (aggregated : ℤ → Bool) (isPrefetch : ℤ)
    {unit : EdgeBufferUnit} (hnonneg : 0 ≤ unit.size)
    (hunit : unit.size ≤ buf.capacity) :
    (prepare params buf aggregated unit isPrefetch).Bounded params
      edgeBlockLen := by
  have hinvalidate := (invalidate_evictsTo unit.r unit.c hbuf.toInv hmax).inv
    hbuf.toInv
  have hprepare := prepare_evictsTo aggregated hbuf.toInv hmax isPrefetch hnonneg
    hunit
  exact hbuf.diminish (hprepare.inv hinvalidate) (prepare_diminishes aggregated
    isPrefetch hbuf.toInv hmax hnonneg hunit)

theorem invalidate_bounded (r c : ℤ) :
    (invalidateEdgeBlock buf r c).Bounded params edgeBlockLen :=
  hbuf.diminish ((invalidate_evictsTo r c hbuf.toInv hmax).inv hbuf.toInv)
    (.invalidate buf r c)

variable (hpos : 0 ≤ params.edgeBufferSize)
include hpos

/-- A call keeps the units within their blocks when it keeps the invariant. -/
theorem perform_bounded {call : EdgeCall}
    (hwithin : call.WithinBlock edgeBlockLen)
    (hlenMax : ∀ r c, edgeBlockLen r c ≤ longMax) (hfits : call.Fits buf)
    (hhit : params.partialEdgeEviction = false → call.HitFits buf) :
    (call.perform params buf).Bounded params edgeBlockLen := by
  have htyped : call.Typed := by
    cases call with
    | access _ _ r c size _ _ => exact ⟨hwithin.1, hwithin.2.trans (hlenMax r c)⟩
    | invalidate _ _ => trivial
    | invalidateFifo => trivial
    | destroy => trivial
  have hinv := perform_inv hbuf.toInv hpos hmax htyped hfits hhit
  cases call with
  | invalidate r c => exact invalidate_bounded hbuf hmax r c
  | invalidateFifo =>
      apply hbuf.diminish hinv
      change buf.Diminishes (invalidateEdgeBlockFifo buf)
      rw [invalidateEdgeBlockFifo]
      split
      · exact .refl buf
      · exact .delete buf 0 _
  | destroy =>
      refine ⟨hinv, fun unit hunit => ?_⟩
      cases hunit
  | access aggregated prReverse r c size isPrefetch allocated =>
      have hreverse := hbuf.reverse prReverse
      rw [EdgeCall.perform] at hinv ⊢
      by_cases hzero : size = 0
      · rwa [accessEdgeBlock, if_pos hzero]
      cases allocated with
      | false => simpa [accessEdgeBlock, hzero] using hreverse
      | true =>
          have hsize : 0 < size := lt_of_le_of_ne hwithin.1 (Ne.symm hzero)
          have hcapacity : 0 ≤ buf.capacity := hbuf.capacity_eq ▸ hpos
          have hprepare := prepare_bounded hreverse hmax aggregated isPrefetch
            (show 0 ≤ (insertedUnit _ r c size isPrefetch).size from
              le_min hsize.le hcapacity) (min_le_right _ _)
          have hunitLe : (insertedUnit { buf with prReverse := prReverse } r c
              size isPrefetch).size ≤ edgeBlockLen r c :=
            (min_le_left _ _).trans hwithin.2
          by_cases hprefetch : isPrefetch = 0
          · subst hprefetch
            rw [access_demand params aggregated r c hreverse.toAccounted hsize
              (hwithin.2.trans (hlenMax r c))] at hinv ⊢
            exact (hprepare.count _ _).addTail hinv hunitLe
          · obtain ⟨room, haccess, -⟩ := access_prefetch params aggregated r c
              hreverse.toAccounted hzero hprefetch
            rw [haccess] at hinv ⊢
            exact hprepare.addTail hinv ((min_le_left _ _).trans hunitLe)

end Bounds

end NvmeVirt.Csd
