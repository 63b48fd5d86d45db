import NvmeVirt.Csd.Victims

/-!
# Demand accesses with partial eviction

An access first removes the old unit of its block.  If the others leave too
little room, rounds of the eviction loop delete units as long as the buffer does
not get below its capacity, and the last one may shrink a unit.  A demand access
is never refused, so it ends with a buffer that is exactly full.
-/

namespace NvmeVirt.Csd

open Interleaving

/-- The units that eviction leaves, in their order, of which at most one has
become smaller. -/
inductive Survive : List EdgeBufferUnit → List EdgeBufferUnit → Prop where
  | whole {units kept : List EdgeBufferUnit} (hkept : kept.Sublist units) :
      Survive units kept
  | shrunk {units front back : List EdgeBufferUnit} {unit : EdgeBufferUnit}
      {size : ℤ} (hkept : (front ++ unit :: back).Sublist units)
      (hpos : 0 < size) (hlt : size < unit.size) :
      Survive units (front ++ { unit with size := size } :: back)

theorem Survive.trans {units rest kept : List EdgeBufferUnit}
    (hrest : rest.Sublist units) (hkept : Survive rest kept) :
    Survive units kept := by
  cases hkept with
  | whole hkept => exact .whole (hkept.trans hrest)
  | shrunk hkept hpos hlt => exact .shrunk (hkept.trans hrest) hpos hlt

/-- The units of the other blocks. -/
def EdgeBuffer.others (buf : EdgeBuffer) (r c : ℤ) : List EdgeBufferUnit :=
  buf.units.filter fun unit => !isBlock r c unit

/-- What a demand access to a block leaves: the block's unit is the last one,
the others are untouched if there was room beside them, and otherwise the buffer
is exactly full. -/
def EdgeBuffer.ExactlyMadeRoom (buf buf' : EdgeBuffer) (r c size : ℤ) : Prop :=
  let unit := insertedUnit buf r c size 0
  let others := buf.others r c
  ∃ kept, buf'.units = kept ++ [unit] ∧
    if (others.map EdgeBufferUnit.size).sum + unit.size ≤ buf.capacity then
      kept = others
    else buf'.size = buf.capacity ∧ Survive others kept

section Loop

variable {params : EvictionParams} {aggregated : ℤ → Bool}
  {inserted : EdgeBufferUnit} {buf : EdgeBuffer}

/-- A demand access takes a unit whenever its own does not fit. -/
theorem exists_takes (hunits : buf.units ≠ [])
    (hexceeds : buf.capacity < longLong (buf.size + inserted.size)) :
    ∃ position unit, Takes params aggregated inserted 0 buf position unit := by
  have hlt := victim_lt params.cacheEvictionPolicy aggregated hunits
  exact ⟨_, _, rfl, List.getElem?_eq_getElem hlt, hexceeds,
    by simp [skipsEviction]⟩

theorem units_ne_nil (hbuf : buf.Accounted)
    (hinserted : inserted.size ≤ buf.capacity)
    (hexceeds : buf.capacity < buf.size + inserted.size) : buf.units ≠ [] := by
  intro hempty
  have hzero : buf.size = 0 := by rw [hbuf.size_eq, hempty]; rfl
  omega

theorem units_delete_sublist (buf : EdgeBuffer) (position : ℕ)
    (unit : EdgeBufferUnit) :
    (buf.delete position unit).units.Sublist buf.units :=
  List.eraseIdx_sublist _ _

/-- Partial eviction makes a unit smaller but does not use it up. -/
theorem Takes.units_shrink {isPrefetch : ℤ} {position : ℕ}
    {unit : EdgeBufferUnit} (hbuf : buf.Accounted)
    (hcapacity : buf.capacity ≤ longMax) (hsize : buf.size ≤ buf.capacity)
    (hnonneg : 0 ≤ inserted.size) (hinserted : inserted.size ≤ buf.capacity)
    (htakes : Takes params aggregated inserted isPrefetch buf position unit)
    (hshrinks : Shrinks params inserted buf unit) :
    ∃ front back left, buf.units = front ++ unit :: back ∧
      0 < left ∧ left < unit.size ∧
      (buf.shrink position
          (longLong (buf.size + inserted.size - buf.capacity))).units =
        front ++ { unit with size := left } :: back := by
  have hmem := List.mem_of_getElem? htakes.getElem_eq
  have hunitNonneg := hbuf.sizes_nonneg unit hmem
  have hunitSize := hbuf.unit_le hmem
  have hbufSize := hbuf.size_nonneg
  obtain ⟨hfits, hover⟩ := exceeds_capacity hbuf hcapacity hsize hnonneg
    hinserted (not_le.mpr htakes.exceeds)
  have hrest := hshrinks.2
  rw [longLong_eq (by unfold longMax; omega) (by omega)] at hrest
  have hdiff : longLong (buf.size + inserted.size - buf.capacity) =
      buf.size + inserted.size - buf.capacity :=
    longLong_eq (by unfold longMax; omega) (by omega)
  have hleft : longLong (unit.size -
        (buf.size + inserted.size - buf.capacity)) =
      unit.size - (buf.size + inserted.size - buf.capacity) :=
    longLong_eq (by unfold longMax; omega) (by omega)
  obtain ⟨front, back, hsplit, hposition⟩ := exists_split htakes.getElem_eq
  refine ⟨front, back, unit.size - (buf.size + inserted.size - buf.capacity),
    hsplit, by omega, by omega, ?_⟩
  rw [EdgeBuffer.shrink, hsplit, hposition, modify_split, hdiff, hleft]

/-- The loop ends with exactly the room that is needed. -/
theorem evictLoop_exact (hpartly : params.partialEdgeEviction = true)
    (rounds : ℕ) (hbuf : buf.Accounted) (hcapacity : buf.capacity ≤ longMax)
    (hsize : buf.size ≤ buf.capacity) (hnonneg : 0 ≤ inserted.size)
    (hinserted : inserted.size ≤ buf.capacity)
    (hfits : buf.size + inserted.size ≤ longMax)
    (hexceeds : buf.capacity < buf.size + inserted.size)
    (hrounds : buf.units.length ≤ rounds) :
    let buf' := evictLoop params aggregated inserted 0 rounds buf
    buf'.size + inserted.size = buf.capacity ∧
      Survive buf.units buf'.units := by
  induction rounds generalizing buf with
  | zero =>
      exact absurd (List.eq_nil_of_length_eq_zero (by omega))
        (units_ne_nil hbuf hinserted hexceeds)
  | succ rounds ih =>
      have hbufSize := hbuf.size_nonneg
      have hsum : longLong (buf.size + inserted.size) =
          buf.size + inserted.size :=
        longLong_eq (by unfold longMax; omega) hfits
      rcases round_cases aggregated params inserted 0 rounds buf with
        ⟨-, -, hstops⟩ | ⟨position, unit, htakes, hround⟩
      · obtain ⟨position, unit, htakes⟩ := @exists_takes params aggregated
          inserted buf (units_ne_nil hbuf hinserted hexceeds)
          (hsum.symm ▸ hexceeds)
        exact absurd htakes (hstops position unit)
      have hunit := htakes.getElem_eq
      have hmem := List.mem_of_getElem? hunit
      have hunitNonneg := hbuf.sizes_nonneg unit hmem
      have hunitSize := hbuf.unit_le hmem
      have hrest : longLong (buf.size - unit.size + inserted.size) =
          buf.size - unit.size + inserted.size :=
        longLong_eq (by unfold longMax; omega) (by omega)
      have hshrinks : Shrinks params inserted buf unit ↔
          buf.size - unit.size + inserted.size < buf.capacity := by
        rw [Shrinks, hrest]
        exact and_iff_right hpartly
      rcases hround with ⟨hshrunk, hloop, -⟩ | ⟨hdeleted, hloop, -⟩
      · have hroom := (partial_eviction hbuf hcapacity hsize hnonneg hinserted
          (not_le.mpr htakes.exceeds) hunit (not_le.mpr hshrunk.2)).2
        refine ⟨?_, ?_⟩
        · rw [hloop, hroom]
          exact sub_add_cancel _ _
        · obtain ⟨front, back, left, hsplit, hpos, hlt, hunits⟩ :=
            htakes.units_shrink hbuf hcapacity hsize hnonneg hinserted hshrunk
          rw [hloop, hunits, hsplit]
          exact .shrunk (.refl _) hpos hlt
      · rw [hshrinks, not_lt] at hdeleted
        have hdeletedSize := hbuf.size_delete (hsize.trans hcapacity) hunit
        have hlt : position < buf.units.length :=
          (List.getElem?_eq_some_iff.mp hunit).1
        have hdelete := hbuf.delete (hsize.trans hcapacity) hunit
        have hdeletedCapacity :
            (buf.delete position unit).capacity = buf.capacity := rfl
        have hsublist := units_delete_sublist buf position unit
        dsimp only
        rw [hloop]
        rcases hdeleted.eq_or_lt with hexact | hmore
        · rw [evictLoop_of_fits params aggregated 0 rounds
            (by rw [hdeletedSize, hrest]; exact hexact.ge), hdeletedSize]
          exact ⟨hexact.symm, .whole hsublist⟩
        · obtain ⟨hroom, hsurvive⟩ := ih hdelete hcapacity (by omega) hinserted
            (by omega) (by omega)
            (by rw [EdgeBuffer.delete, List.length_eraseIdx_of_lt hlt]; omega)
          exact ⟨hroom, hsurvive.trans hsublist⟩

end Loop

section Access

variable {params : EvictionParams} {aggregated : ℤ → Bool} {buf : EdgeBuffer}
  {r c size : ℤ}

/-- Invalidation leaves the units of the other blocks. -/
theorem units_invalidate (hbuf : buf.Accounted) :
    (invalidateEdgeBlock buf r c).units = buf.others r c := by
  rw [invalidateEdgeBlock]
  rcases hfind : buf.units.find? (isBlock r c) with _ | unit
  · rw [List.find?_eq_none] at hfind
    exact (List.filter_eq_self.mpr (by simpa using hfind)).symm
  · obtain ⟨front, back, hsplit, hlength⟩ :=
      exists_split (getElem?_findIdx hfind)
    have hunit : isBlock r c unit = true := List.find?_some hfind
    have hblock : unit.r = r ∧ unit.c = c := by simpa [isBlock] using hunit
    have hnodup := hbuf.blocks_nodup
    rw [EdgeBuffer.blocks, hsplit, List.map_append, List.map_cons,
      List.nodup_middle, List.nodup_cons, hblock.1, hblock.2] at hnodup
    have hothers : ∀ other ∈ front ++ back, (!isBlock r c other) = true := by
      intro other hother
      by_contra hsame
      have hsame : other.r = r ∧ other.c = c := by simpa [isBlock] using hsame
      apply hnodup.1
      rw [← List.map_append, List.mem_map]
      exact ⟨other, hother, by rw [hsame.1, hsame.2]⟩
    change buf.units.eraseIdx _ = _
    rw [hlength, EdgeBuffer.others, hsplit, eraseIdx_split, List.filter_append,
      List.filter_cons_of_neg (by simp [hunit]), ← List.filter_append,
      List.filter_eq_self.mpr hothers]

theorem prepare_partly (hpartly : params.partialEdgeEviction = true)
    (unit : EdgeBufferUnit) :
    prepare params buf aggregated unit 0 =
      evictLoop params aggregated unit 0
        (invalidateEdgeBlock buf unit.r unit.c).units.length
        (invalidateEdgeBlock buf unit.r unit.c) := by
  rw [prepare, if_pos (.inl hpartly)]
  rfl

/-- A demand access makes exactly the room it needs, unless the sum that the
loop tests wraps. -/
theorem demand_exact (hbuf : buf.Inv params)
    (hpos : 0 ≤ params.edgeBufferSize) (hmax : params.edgeBufferSize ≤ longMax)
    (hpartly : params.partialEdgeEviction = true) (hsize : 0 < size)
    (hsizeMax : size ≤ longMax)
    (hfits : (invalidateEdgeBlock buf r c).size + min size buf.capacity ≤
      longMax) :
    buf.ExactlyMadeRoom
      (accessEdgeBlock params buf aggregated r c size 0 true).2 r c size := by
  let unit := insertedUnit buf r c size 0
  have hinvalidate := invalidate_evictsTo r c hbuf hmax
  have hothers := units_invalidate (r := r) (c := c) hbuf.toAccounted
  have hcapacity : 0 ≤ buf.capacity := hbuf.capacity_eq ▸ hpos
  have hcapacityMax : buf.capacity ≤ longMax := hbuf.capacity_eq ▸ hmax
  have hcapacity' := hinvalidate.capacity_eq
  have hinvalidateSize := hinvalidate.accounted.size_nonneg
  have hnonneg : 0 ≤ unit.size := le_min hsize.le hcapacity
  have hle : unit.size ≤ buf.capacity := min_le_right _ _
  have hfits : (invalidateEdgeBlock buf r c).size + unit.size ≤ longMax := hfits
  have hsum : (invalidateEdgeBlock buf r c).size =
      ((buf.others r c).map EdgeBufferUnit.size).sum := by
    rw [hinvalidate.accounted.size_eq, hothers]
  have hprepare : prepare params buf aggregated unit 0 = evictLoop params
      aggregated unit 0 (invalidateEdgeBlock buf r c).units.length
      (invalidateEdgeBlock buf r c) := prepare_partly hpartly unit
  rw [access_demand params aggregated r c hbuf.toAccounted hsize hsizeMax]
  refine ⟨(prepare params buf aggregated unit 0).units, rfl, ?_⟩
  change if ((buf.others r c).map EdgeBufferUnit.size).sum + unit.size ≤
      buf.capacity then (prepare params buf aggregated unit 0).units = _
    else longLong ((prepare params buf aggregated unit 0).size + unit.size) = _ ∧
      Survive _ (prepare params buf aggregated unit 0).units
  rw [hprepare, ← hsum]
  split
  next hroom =>
    rw [evictLoop_of_fits params aggregated 0 _ ?_, hothers]
    rw [longLong_eq (by unfold longMax; omega) hfits, hcapacity']
    exact hroom
  next hexceeds =>
    obtain ⟨hfull, hsurvive⟩ := @evictLoop_exact params aggregated unit
      (invalidateEdgeBlock buf r c) hpartly _ hinvalidate.accounted
      (hcapacity'.symm ▸ hcapacityMax)
      (hcapacity'.symm ▸ hinvalidate.size_le.trans hbuf.size_le) hnonneg
      (hcapacity'.symm ▸ hle) hfits (hcapacity'.symm ▸ not_le.mp hexceeds) le_rfl
    rw [hfull, hcapacity', longLong_eq (by unfold longMax; omega) hcapacityMax]
    exact ⟨rfl, hothers ▸ hsurvive⟩

end Access

/-- A demand access makes exactly the room it needs.  If there is no memory for
its unit, it fails and leaves the units alone. -/
def EdgeCall.MakesRoomExactly (params : EvictionParams) (call : EdgeCall)
    (buf : EdgeBuffer) : Prop :=
  match call with
  | .access _ _ r c size isPrefetch allocated =>
      isPrefetch = 0 → size ≠ 0 →
        if allocated then buf.ExactlyMadeRoom (call.perform params buf) r c size
        else (call.perform params buf).units = buf.units
  | _ => True

theorem makesRoomExactly_iff {params : EvictionParams} {buf : EdgeBuffer}
    (hbuf : buf.Inv params) (hpos : 0 ≤ params.edgeBufferSize)
    (hmax : params.edgeBufferSize ≤ longMax)
    (hpartly : params.partialEdgeEviction = true) {call : EdgeCall}
    (htyped : call.Typed) :
    call.MakesRoomExactly params buf ↔ call.Fits buf := by
  constructor
  · intro hexact
    cases call with
    | invalidate _ _ => trivial
    | invalidateFifo => trivial
    | destroy => trivial
    | access aggregated prReverse r c size isPrefetch allocated =>
        rintro rfl hzero rfl
        have hexact := hexact rfl hzero
        rw [if_pos rfl] at hexact
        obtain ⟨kept, -, hroom⟩ := hexact
        split at hroom
        next hbeside =>
          rw [(invalidate_evictsTo r c hbuf hmax).accounted.size_eq,
            units_invalidate hbuf.toAccounted]
          exact hbeside.trans (hbuf.capacity_eq ▸ hmax)
        next =>
          have hnonneg : 0 ≤ buf.capacity := hbuf.capacity_eq ▸ hpos
          exact perform_overflow hbuf hpos hmax htyped
            (by rw [hroom.1]; exact hnonneg) rfl hzero rfl
  · intro hfits
    cases call with
    | invalidate _ _ => trivial
    | invalidateFifo => trivial
    | destroy => trivial
    | access aggregated prReverse r c size isPrefetch allocated =>
        rintro rfl hzero
        cases allocated with
        | false =>
            rw [if_neg (by decide)]
            simp [EdgeCall.perform, accessEdgeBlock, hzero]
        | true =>
            have hfits := hfits rfl hzero rfl
            rw [← size_invalidate_reverse buf prReverse] at hfits
            rw [if_pos rfl]
            exact demand_exact (hbuf.reverse prReverse) hpos hmax hpartly
              (lt_of_le_of_ne htyped.1 (Ne.symm hzero)) htyped.2 hfits

/-- With partial eviction, every demand access of a run makes exactly the room
it needs if and only if no demand access makes the sum of the eviction test
wrap. -/
theorem demand_accesses_exact {params : EvictionParams}
    (hpartly : params.partialEdgeEviction = true)
    (hpos : 0 ≤ params.edgeBufferSize) (hmax : params.edgeBufferSize ≤ longMax)
    {calls : List EdgeCall} (hcalls : ∀ call ∈ calls, call.Typed) :
    Meets (callStep params) (EdgeCall.MakesRoomExactly params) calls
        (edgeBufferInit params) ↔
      Meets (callStep params) EdgeCall.Fits calls (edgeBufferInit params) := by
  refine meets_iff_meets (callStep params) ?_ ?_ (edgeBufferInit_inv hpos)
    (meets_of_forall (callStep params) hcalls _)
  · intro call buf hbuf htyped
    exact makesRoomExactly_iff hbuf hpos hmax hpartly htyped
  · intro call buf hbuf htyped hfits
    exact perform_inv hbuf hpos hmax htyped hfits (by simp [hpartly])

/-- Half of the first block gives way to the second one. -/
theorem demand_accesses_exact_pages :
    Meets (callStep ⟨12288, "FIFO", true⟩)
      (EdgeCall.MakesRoomExactly ⟨12288, "FIFO", true⟩)
      [demandAccess 0 0 8192, demandAccess 0 1 8192]
      (edgeBufferInit ⟨12288, "FIFO", true⟩) :=
  (demand_accesses_exact (by decide) (by decide) (by decide) (by decide)).mpr
    (by decide)

/-- Two blocks of 2^62 bytes in a buffer of the default capacity. -/
theorem demand_accesses_wrap :
    ¬ Meets (callStep ⟨longMax, "FIFO", true⟩)
      (EdgeCall.MakesRoomExactly ⟨longMax, "FIFO", true⟩)
      [demandAccess 0 0 (2 ^ 62), demandAccess 0 1 (2 ^ 62)]
      (edgeBufferInit ⟨longMax, "FIFO", true⟩) := by
  rintro ⟨-, hsecond, -⟩
  have hexact := hsecond rfl (by decide)
  rw [if_pos rfl] at hexact
  obtain ⟨kept, -, hroom⟩ := hexact
  rw [if_neg (by decide)] at hroom
  exact absurd hroom.1 (by decide)

end NvmeVirt.Csd
