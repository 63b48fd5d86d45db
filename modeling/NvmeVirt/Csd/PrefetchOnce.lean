import NvmeVirt.Csd.PrefetchTried
import NvmeVirt.Csd.PrefetchTimes

/-!
# Sections that prefetch one block

Whether a section goes through with the prefetch of more than one block shows
before the task: in the queues and the flags, the time the edges took, and what
the edge buffer holds.  A section prefetches one block if it has no time, if
there is only one task whose block it can prefetch, if the block it begins with
takes all its time, or if all the tasks it tries are the same one, whose block
fits into the buffer as a whole.
-/

namespace NvmeVirt.Csd

open Interleaving Rounding

/-! ## The demand access of a task -/

/-- The ranges of the data that a prefetch computes with. -/
def PrefetchTask.InRange (task : PrefetchTask) : Prop :=
  Csd.InRange task.edgeBlockLen ∧ Csd.InRange task.nsecsTarget

instance (task : PrefetchTask) : Decidable task.InRange :=
  inferInstanceAs (Decidable (_ ∧ _))

/-- The access by which a task reads its block. -/
def ProcessedTask.demand (step : ProcessedTask) (buf : EdgeBuffer) : EdgeCall :=
  .access step.world.aggregated buf.prReverse step.task.r step.task.c
    step.task.edgeBlockLen 0 step.allocated

/-- Before the task, the buffer accounts for its bytes within its capacity.  The
demand access finds memory and room, and what is cached is a part of the block.
-/
structure ProcessedTask.Regular (step : ProcessedTask) (buf : EdgeBuffer) :
    Prop where
  inv : buf.Inv step.world.params
  capacity_le : step.world.params.edgeBufferSize ≤ longMax
  allocated : step.allocated = true
  fits : (step.demand buf).Fits buf
  hitFits : step.world.params.partialEdgeEviction = false →
    (step.demand buf).HitFits buf
  cached_le : cachedBytes buf step.task.r step.task.c ≤ step.task.edgeBlockLen
  task_inRange : step.task.InRange
  time_inRange : InRange step.edgeProcTime

theorem longLong_le_self {value : ℤ} (hvalue : 0 ≤ value) :
    longLong value ≤ value := by
  rw [longLong, Int.bmod_def]
  split <;> omega

/-- The bytes of a unit are the cached ones of its block. -/
theorem unit_le_cachedBytes {buf : EdgeBuffer} (hbuf : buf.Accounted)
    {unit : EdgeBufferUnit} (hunit : unit ∈ buf.units) :
    unit.size ≤ cachedBytes buf unit.r unit.c := by
  have hblock : (unit.r, unit.c) ∈ buf.blocks := List.mem_map_of_mem hunit
  rw [cachedBytes_of_mem hbuf hblock, getEdgeBlockSize]
  rcases hfind : buf.units.find? (isBlock unit.r unit.c) with _ | other
  · rw [List.find?_eq_none] at hfind
    exact absurd (by simp [isBlock]) (hfind unit hunit)
  · have hsame : other.r = unit.r ∧ other.c = unit.c := by
      simpa [isBlock] using List.find?_some hfind
    have heq : other = unit := List.inj_on_of_nodup_map hbuf.blocks_nodup
      (List.mem_of_find?_eq_some hfind) hunit (Prod.ext hsame.1 hsame.2)
    exact heq ▸ le_rfl

namespace ProcessedTask.Regular

variable {step : ProcessedTask} {buf : PrefetchBuffer}
  (hregular : step.Regular buf.toEdgeBuffer)
include hregular

theorem pos : 0 ≤ step.world.params.edgeBufferSize :=
  hregular.inv.capacity_eq ▸ hregular.inv.size_nonneg.trans hregular.inv.size_le

theorem len_le : step.task.edgeBlockLen ≤ longMax :=
  hregular.task_inRange.1.2.le.trans (by decide)

/-- The demand access returns the missing bytes. -/
theorem read_missing : (step.read buf).1 = step.task.edgeBlockLen -
    cachedBytes buf.toEdgeBuffer step.task.r step.task.c := by
  have hnonneg := @cachedBytes_nonneg _ step.task.r step.task.c
    hregular.inv.toAccounted
  have hle := hregular.cached_le
  have hmax := hregular.len_le
  change (accessEdgeBlock step.world.params buf.toEdgeBuffer
    step.world.aggregated step.task.r step.task.c step.task.edgeBlockLen 0
    step.allocated).1 = _
  rw [hregular.allocated]
  rcases hregular.task_inRange.1.1.eq_or_lt with hzero | hpos
  · rw [accessEdgeBlock, if_pos hzero.symm]
    omega
  · rw [access_demand step.world.params step.world.aggregated _ _
      hregular.inv.toAccounted hpos hmax]
    exact longLong_eq (by unfold longMax; omega) (by omega)

theorem ratio_nonneg (fl : FloatRounding 53) : 0 ≤ step.ratio fl buf := by
  rw [ProcessedTask.ratio]
  split
  · exact zero_le_one
  · refine quotient_nonneg fl ?_ hregular.task_inRange.1.1
    rw [hregular.read_missing]
    exact sub_nonneg.mpr hregular.cached_le

theorem budget_le (fl : FloatRounding 53) :
    step.budget fl buf ≤ step.edgeProcTime := by
  have htarget := hregular.task_inRange.2
  rw [ProcessedTask.budget]
  split
  · exact futureBudget_le fl hregular.time_inRange htarget
      (hregular.ratio_nonneg fl)
  · exact normalBudget_le fl hregular.time_inRange htarget
      (hregular.ratio_nonneg fl)

/-- The demand access inserts the task's own unit and takes bytes from others.
-/
theorem access_units :
    let buf' := (accessEdgeBlock step.world.params buf.toEdgeBuffer
      step.world.aggregated step.task.r step.task.c step.task.edgeBlockLen 0
      true).2
    buf'.size ≤ buf.size + step.task.edgeBlockLen ∧
      ∀ unit ∈ buf'.units, (unit.r, unit.c) = (step.task.r, step.task.c) ∨
        ∃ old ∈ buf.units, old.r = unit.r ∧ old.c = unit.c ∧
          unit.size ≤ old.size := by
  rcases hregular.task_inRange.1.1.eq_or_lt with hzero | hpos
  · intro buf'
    have hsame : buf' = buf.toEdgeBuffer := by
      simp only [buf', accessEdgeBlock, if_pos hzero.symm]
    rw [hsame, ← hzero, add_zero]
    exact ⟨le_rfl, fun unit hunit => .inr ⟨unit, hunit, rfl, rfl, le_rfl⟩⟩
  have hcapacity : 0 ≤ buf.capacity := hregular.inv.capacity_eq ▸ hregular.pos
  let unit := insertedUnit buf.toEdgeBuffer step.task.r step.task.c
    step.task.edgeBlockLen 0
  have hnonneg : 0 ≤ unit.size := le_min hpos.le hcapacity
  have hunitLe : unit.size ≤ buf.capacity := min_le_right _ _
  have hunitLen : unit.size ≤ step.task.edgeBlockLen := min_le_left _ _
  have hprepare := prepare_evictsTo step.world.aggregated hregular.inv
    hregular.capacity_le 0 hnonneg hunitLe
  have hdiminishes := prepare_diminishes step.world.aggregated 0 hregular.inv
    hregular.capacity_le hnonneg hunitLe
  have hinvalidate := invalidate_evictsTo unit.r unit.c hregular.inv
    hregular.capacity_le
  have hsizeLe := hprepare.size_le.trans hinvalidate.size_le
  have hsizeNonneg := hprepare.accounted.size_nonneg
  rw [access_demand step.world.params step.world.aggregated _ _
    hregular.inv.toAccounted hpos hregular.len_le]
  refine ⟨?_, fun other hother => ?_⟩
  · change longLong ((prepare step.world.params buf.toEdgeBuffer
      step.world.aggregated unit 0).size + unit.size) ≤ _
    exact (longLong_le_self (add_nonneg hsizeNonneg hnonneg)).trans
      (add_le_add hsizeLe hunitLen)
  · rcases List.mem_append.mp hother with hkept | hnew
    · exact .inr (hdiminishes.unit_le other hkept)
    · rw [List.mem_singleton.mp hnew]
      exact .inl rfl

/-- What the demand access leaves for the section. -/
theorem read_left :
    let left := (step.read buf).2
    left.Inv step.world.params ∧
      left.size ≤ buf.size + step.task.edgeBlockLen ∧
      ∀ unit ∈ left.units, (unit.r, unit.c) = (step.task.r, step.task.c) ∨
        ∃ old ∈ buf.units, old.r = unit.r ∧ old.c = unit.c ∧
          unit.size ≤ old.size := by
  have hinv : ((step.demand buf.toEdgeBuffer).perform step.world.params
      buf.toEdgeBuffer).Inv step.world.params :=
    perform_inv hregular.inv hregular.pos hregular.capacity_le
      ⟨hregular.task_inRange.1.1, hregular.len_le⟩ hregular.fits
      hregular.hitFits
  obtain ⟨hsize, hunits⟩ := hregular.access_units
  rw [ProcessedTask.demand, EdgeCall.perform, hregular.allocated] at hinv
  rw [ProcessedTask.read, processTask, hregular.allocated]
  cases step.invalidates with
  | false => exact ⟨hinv, hsize, hunits⟩
  | true =>
      have hinvalidate := invalidate_evictsTo step.task.r step.task.c hinv
        hregular.capacity_le
      refine ⟨hinvalidate.inv hinv, hinvalidate.size_le.trans hsize,
        fun unit hunit => ?_⟩
      obtain ⟨old, hold, hr, hc, hle⟩ :=
        (EdgeBuffer.Diminishes.invalidate _ _ _).unit_le unit hunit
      rcases hunits old hold with hown | ⟨older, holder, hr', hc', hle'⟩
      · exact .inl (hr ▸ hc ▸ hown)
      · exact .inr ⟨older, holder, hr'.trans hr, hc'.trans hc, hle.trans hle'⟩

/-- Of another block, no more is cached than before. -/
theorem cachedBytes_read_le {r c : ℤ}
    (hother : (r, c) ≠ (step.task.r, step.task.c)) :
    cachedBytes (step.read buf).2 r c ≤ cachedBytes buf.toEdgeBuffer r c := by
  refine @cachedBytes_of_units _ _ _
    (fun size => size ≤ cachedBytes buf.toEdgeBuffer r c)
    (cachedBytes_nonneg hregular.inv.toAccounted) ?_
  rintro unit hunit rfl rfl
  rcases hregular.read_left.2.2 unit hunit with hown | ⟨old, hold, hr, hc, hle⟩
  · exact absurd hown hother
  · exact hle.trans
      (hr ▸ hc ▸ unit_le_cachedBytes hregular.inv.toAccounted hold)

theorem not_mem_blocks_read {r c : ℤ}
    (hother : (r, c) ≠ (step.task.r, step.task.c))
    (hblock : (r, c) ∉ buf.blocks) : (r, c) ∉ (step.read buf).2.blocks := by
  intro hmem
  obtain ⟨unit, hunit, heq⟩ := List.mem_map.mp hmem
  rcases hregular.read_left.2.2 unit hunit with hown | ⟨old, hold, hr, hc, -⟩
  · exact hother (heq ▸ hown)
  · exact hblock (heq ▸ List.mem_map.mpr ⟨old, hold, by rw [hr, hc]⟩)

end ProcessedTask.Regular

/-! ## What a prefetch leaves of the time and of the room -/

section Calls

variable (fl : FloatRounding 53) (world : PrefetchWorld) (stage : Stage)
  {nextTask : PrefetchTask} {st : Prefetching}

/-- A prefetch that goes through, of values that are in range. -/
theorem prefetchCall_eq (hrange : nextTask.InRange)
    (hthrough : GoesThrough nextTask st) {cached : ℤ}
    (hcached : cachedBytes st.buf.toEdgeBuffer nextTask.r nextTask.c = cached)
    (hnonneg : 0 ≤ cached) (hle : cached ≤ nextTask.edgeBlockLen) :
    let size := prefetchSize fl nextTask.edgeBlockLen cached
      (edgeIoRatio fl st.edgeProcTime nextTask.nsecsTarget)
    let edgeBuf := (accessEdgeBlock world.params st.buf.toEdgeBuffer
      world.aggregated nextTask.r nextTask.c size stage.isPrefetch
      (world.allocated st.prefetched.length)).2
    let added := pages (max 0
      (longLong (cachedBytes edgeBuf nextTask.r nextTask.c - cached)))
    prefetchCall fl world stage nextTask st =
      (added,
        longLong (st.edgeProcTime - scaled fl nextTask.nsecsTarget
          (quotient fl (nextTask.edgeBlockLen - cached)
            nextTask.edgeBlockLen)),
        { st.buf with toEdgeBuffer := edgeBuf, prefetchedSize := added }) := by
  obtain ⟨hlen, htime, hpart⟩ := hthrough
  have hlenLt := hrange.1.2
  have hio : longLong nextTask.nsecsTarget = nextTask.nsecsTarget := by
    have hlow := hrange.2.1
    have hhigh := hrange.2.2
    exact longLong_eq (by unfold longMax; omega) (by unfold longMax; omega)
  have hmissing : unsignedLong (nextTask.edgeBlockLen - cached) =
      nextTask.edgeBlockLen - cached :=
    Int.emod_eq_of_lt (by omega) (by omega)
  rw [prefetchCall, prefetchEdgeBlock,
    if_neg (by rw [not_or]; exact ⟨hlen, by omega⟩), if_neg hpart]
  simp only [hcached, hio, hmissing]

/-- A transfer that outlasts the section leaves no time. -/
theorem prefetchCall_exhausts {edgeProcTime cached : ℤ}
    (hrange : nextTask.InRange) (hpos : 0 < nextTask.edgeBlockLen)
    (hprocTime : InRange edgeProcTime) (htime : st.edgeProcTime ≤ edgeProcTime)
    (hcached : cachedBytes st.buf.toEdgeBuffer nextTask.r nextTask.c = cached)
    (hnonneg : 0 ≤ cached)
    (hlasts : (edgeProcTime + 1) * nextTask.edgeBlockLen ≤
      nextTask.nsecsTarget * (nextTask.edgeBlockLen - cached)) :
    (prefetchCall fl world stage nextTask st).2.1 ≤ 0 := by
  have hnsecs := hrange.2.1
  have hlenLt := hrange.1.2
  have hmissing : 0 < nextTask.edgeBlockLen - cached := by
    have hleft : 0 < (edgeProcTime + 1) * nextTask.edgeBlockLen :=
      mul_pos (by linarith [hprocTime.1]) hpos
    exact pos_of_mul_pos_right (hleft.trans_le hlasts) hnsecs
  by_cases hthrough : GoesThrough nextTask st
  · have hmissingRange : InRange (nextTask.edgeBlockLen - cached) :=
      ⟨hmissing.le, by omega⟩
    have hspent := le_scaled fl hprocTime hmissingRange hrange.1 hpos hrange.2
      hlasts
    have hspentLe := scaled_le fl hrange.2
      (quotient_nonneg fl hmissing.le hpos.le)
      (quotient_le_one fl hmissingRange hrange.1 (by omega))
    have hnsecsLt := hrange.2.2
    have htimePos := hthrough.2.1
    have htimeLt := hprocTime.2
    rw [prefetchCall_eq fl world stage hrange hthrough hcached hnonneg
      (by omega)]
    change longLong _ ≤ 0
    rw [longLong_eq (by unfold longMax; omega) (by unfold longMax; omega)]
    omega
  · rw [prefetchCall_returns fl world stage nextTask st hthrough]
    by_contra htimePos
    refine hthrough ⟨hpos.ne', not_le.mp htimePos, fun hwhole => ?_⟩
    rw [cachedBytes] at hcached
    rw [unsignedLong] at hwhole
    split at hcached
    next hmiss =>
      rw [hmiss] at hwhole
      omega
    next hhit =>
      rw [hcached] at hwhole
      omega

/-- With more time than the transfer of a block takes, a prefetch asks for the
whole block. -/
theorem prefetchSize_whole {edgeProcTime : ℤ} (hrange : nextTask.InRange)
    (htime : nextTask.nsecsTarget < edgeProcTime) :
    prefetchSize fl nextTask.edgeBlockLen 0
      (edgeIoRatio fl edgeProcTime nextTask.nsecsTarget) =
        nextTask.edgeBlockLen := by
  have hratio : edgeIoRatio fl edgeProcTime nextTask.nsecsTarget = 1 := by
    rw [edgeIoRatio]
    split
    · rfl
    next hio =>
      have hnsecs : (0 : ℚ) < nextTask.nsecsTarget := by
        exact_mod_cast lt_of_le_of_ne hrange.2.1 (Ne.symm hio)
      have hle : (nextTask.nsecsTarget : ℚ) ≤ edgeProcTime := by
        exact_mod_cast htime.le
      refine min_eq_right ?_
      rw [quotient, ← fl.round_one]
      exact fl.monotone ((one_le_div (fl.round_pos (by decide) hnsecs)).mpr
        (fl.monotone hle))
  have hlow := hrange.1.1
  have hhigh := hrange.1.2
  rw [hratio, prefetchSize, scaled_one fl hrange.1, zero_add, min_self]
  exact longLong_eq (by unfold longMax; omega) (by unfold longMax; omega)

/-- A buffer that has room for a block of which it holds nothing. -/
structure HasRoomFor (params : EvictionParams) (nextTask : PrefetchTask)
    (buf : EdgeBuffer) : Prop where
  inv : buf.Inv params
  not_mem : (nextTask.r, nextTask.c) ∉ buf.blocks
  room : buf.size + nextTask.edgeBlockLen ≤ buf.capacity

/-- With room for it, a prefetch caches the whole block or uses up the time,
unless there is no memory for the unit. -/
theorem prefetchCall_fits (hrange : nextTask.InRange)
    (hmax : world.params.edgeBufferSize ≤ longMax)
    (hroom : HasRoomFor world.params nextTask st.buf.toEdgeBuffer)
    (hthrough : GoesThrough nextTask st) :
    let call := prefetchCall fl world stage nextTask st
    call.2.1 ≤ 0 ∨
      cachedBytes call.2.2.toEdgeBuffer nextTask.r nextTask.c =
        nextTask.edgeBlockLen ∨
      call.2.2.prefetchedSize = 0 ∧
        call.2.2.toEdgeBuffer = st.buf.toEdgeBuffer := by
  have hlenPos : 0 < nextTask.edgeBlockLen :=
    lt_of_le_of_ne hrange.1.1 (Ne.symm hthrough.1)
  have hcached := cachedBytes_of_not_mem hroom.inv.toAccounted hroom.not_mem
  have htimePos := hthrough.2.1
  intro call
  have hcall : call = _ := prefetchCall_eq fl world stage hrange hthrough
    hcached le_rfl hrange.1.1
  rw [sub_zero nextTask.edgeBlockLen,
    scaled_quotient_self fl hrange.2 hrange.1 hlenPos] at hcall
  rw [hcall]
  cases hallocated : world.allocated st.prefetched.length with
  | false =>
      have hsame : ∀ size, (accessEdgeBlock world.params st.buf.toEdgeBuffer
          world.aggregated nextTask.r nextTask.c size stage.isPrefetch
          false).2 = st.buf.toEdgeBuffer := by
        intro size
        rw [accessEdgeBlock]
        split <;> rfl
      refine .inr (.inr ⟨?_, hsame _⟩)
      change pages (max 0 (longLong
        (cachedBytes _ nextTask.r nextTask.c - 0))) = 0
      rw [hsame, hcached]
      rfl
  | true =>
      rcases le_or_gt st.edgeProcTime nextTask.nsecsTarget with hle | hlt
      · refine .inl ?_
        have hnsecsLt := hrange.2.2
        change longLong (st.edgeProcTime - nextTask.nsecsTarget) ≤ 0
        rw [longLong_eq (by unfold longMax; omega) (by unfold longMax; omega)]
        omega
      · refine .inr (.inl ?_)
        have hprefetch : stage.isPrefetch ≠ 0 := by cases stage <;> decide
        have hcapacity : 0 ≤ world.params.edgeBufferSize :=
          hroom.inv.capacity_eq ▸
            hroom.inv.size_nonneg.trans hroom.inv.size_le
        rw [prefetchSize_whole fl hrange hlt]
        dsimp only
        rw [cachedBytes_prefetch world.aggregated hroom.inv hcapacity hmax
          hlenPos hprefetch, if_pos (.inr hroom.not_mem)]
        have hunit : 0 ≤ (insertedUnit st.buf.toEdgeBuffer nextTask.r nextTask.c
            nextTask.edgeBlockLen stage.isPrefetch).size :=
          le_min hlenPos.le (hroom.inv.capacity_eq ▸ hcapacity)
        have hprepare := prepare_evictsTo world.aggregated hroom.inv hmax
          stage.isPrefetch hunit (min_le_right _ _)
        have hprepared := hprepare.size_le.trans
          (invalidate_evictsTo nextTask.r nextTask.c hroom.inv hmax).size_le
        have hfree := hroom.room
        have hnonneg := hroom.inv.size_nonneg
        rw [min_eq_left (by omega), min_eq_left (by omega)]

end Calls

/-! ## Sections -/

section Runs

variable {fl : FloatRounding 53} {world : PrefetchWorld}
  {nextTask : PrefetchTask} {events : List SectionEvent}

theorem run_oneBlock_of_none {block : ℤ × ℤ} (hnone : triedTasks events = [])
    {ledger : Ledger} (hone : ledger.OneBlock block) :
    (run (ledgerStep fl world) events ledger).OneBlock block := by
  have hreverses := List.filterMap_eq_nil_iff.mp hnone
  refine run_invariant_of_meets (ledgerStep fl world) ?_ hone
    (meets_of_forall (ledgerStep fl world) hreverses ledger)
  intro event now now' hreverse hone hstep
  cases event with
  | reverse prReverse =>
      exact @ledgerStep_oneBlock fl world _ (.reverse prReverse) now _ trivial
        hone hstep
  | prefetch stage nextTask => cases hreverse

/-- A section that tries one task leaves the pages of one block pending. -/
theorem run_oneBlock_of_length_le (hlength : (triedTasks events).length ≤ 1)
    {ledger : Ledger} (hone : ∀ block, ledger.OneBlock block)
    (hfound : ledger.st.found = false) :
    ∃ block, (run (ledgerStep fl world) events ledger).OneBlock block := by
  induction events generalizing ledger with
  | nil => exact ⟨(0, 0), hone (0, 0)⟩
  | cons event events ih =>
      cases event with
      | reverse prReverse =>
          exact ih hlength (fun block => @ledgerStep_oneBlock fl world block
            (.reverse prReverse) ledger _ trivial (hone block) rfl) hfound
      | prefetch stage nextTask =>
          have hrest : triedTasks events = [] :=
            List.length_eq_zero_iff.mp (Nat.le_zero.mp
              (Nat.le_of_succ_le_succ hlength))
          have hfirst := hone (nextTask.r, nextTask.c)
          have hnone : ledger.st.buf.prefetchedSize = 0 := by
            rw [hfirst.pending, hfirst.fresh hfound]
            rfl
          exact ⟨_, run_oneBlock_of_none hrest (@ledgerStep_oneBlock fl world _
            (.prefetch stage nextTask) ledger _ ⟨rfl, fun _ => hnone⟩ hfirst
            rfl)⟩

/-- A task whose block is not prefetched again once pages of it are pending. -/
def Ledger.Settled (world : PrefetchWorld) (nextTask : PrefetchTask)
    (ledger : Ledger) : Prop :=
  ledger.st.edgeProcTime ≤ 0 ∨
    cachedBytes ledger.st.buf.toEdgeBuffer nextTask.r nextTask.c =
      nextTask.edgeBlockLen ∨
    ledger.st.buf.prefetchedSize = 0 ∧
      HasRoomFor world.params nextTask ledger.st.buf.toEdgeBuffer

theorem Ledger.Settled.of_through {ledger : Ledger}
    (hrange : nextTask.InRange) (hsettled : ledger.Settled world nextTask)
    (hthrough : GoesThrough nextTask ledger.st) :
    ledger.st.buf.prefetchedSize = 0 ∧
      HasRoomFor world.params nextTask ledger.st.buf.toEdgeBuffer := by
  obtain ⟨hlen, htime, hpart⟩ := hthrough
  refine (hsettled.resolve_left (not_le.mpr htime)).resolve_left
    fun hwhole => hpart ?_
  rw [cachedBytes] at hwhole
  split at hwhole
  · exact absurd hwhole.symm hlen
  · have hlow := hrange.1.1
    have hhigh := hrange.1.2
    rw [hwhole]
    exact Int.emod_eq_of_lt hlow (by omega)

/-- What the later prefetches of a section see of one. -/
theorem prefetchNext_eq (stage : Stage) (st : Prefetching) :
    let next := prefetchNext fl world stage.isPrefetch stage.priority nextTask
      st
    let call := prefetchCall fl world stage nextTask st
    next.edgeProcTime = call.2.1 ∧
      next.buf.toEdgeBuffer = call.2.2.toEdgeBuffer ∧
      next.buf.prefetchedSize = call.2.2.prefetchedSize := by
  rw [prefetchNext]
  dsimp only
  split_ifs <;> exact ⟨rfl, rfl, rfl⟩

theorem ledgerStep_settled {event : SectionEvent} {ledger ledger' : Ledger}
    (hrange : nextTask.InRange)
    (hmax : world.params.edgeBufferSize ≤ longMax)
    (htried : ∀ other ∈ event.tried, other = nextTask)
    (hsettled : ledger.Settled world nextTask)
    (hstep : ledgerStep fl world event ledger = some ledger') :
    ledger'.Settled world nextTask := by
  obtain rfl := Option.some.inj hstep
  cases event with
  | reverse prReverse =>
      refine hsettled.imp_right (Or.imp_right fun hroom => ⟨hroom.1, ?_⟩)
      exact ⟨hroom.2.inv.reverse prReverse, hroom.2.not_mem, hroom.2.room⟩
  | prefetch stage other =>
      obtain rfl := htried other rfl
      obtain ⟨htime, hbuf, hsize⟩ :=
        @prefetchNext_eq fl world other stage ledger.st
      change (prefetchNext fl world stage.isPrefetch stage.priority other
          ledger.st).edgeProcTime ≤ 0 ∨
        cachedBytes (prefetchNext fl world stage.isPrefetch stage.priority other
          ledger.st).buf.toEdgeBuffer other.r other.c = other.edgeBlockLen ∨
        (prefetchNext fl world stage.isPrefetch stage.priority other
          ledger.st).buf.prefetchedSize = 0 ∧
          HasRoomFor world.params other (prefetchNext fl world stage.isPrefetch
            stage.priority other ledger.st).buf.toEdgeBuffer
      rw [htime, hbuf, hsize]
      by_cases hthrough : GoesThrough other ledger.st
      · have hroom := (hsettled.of_through hrange hthrough).2
        have hcall := prefetchCall_fits fl world stage hrange hmax hroom hthrough
        refine hcall.imp_right (Or.imp_right fun hfailed => ⟨hfailed.1, ?_⟩)
        rw [hfailed.2]
        exact hroom
      · rw [prefetchCall_returns fl world stage other ledger.st hthrough]
        exact hsettled

/-- A section that tries only a task whose block fits leaves the pages of one
block pending. -/
theorem run_oneBlock_of_fits (hrange : nextTask.InRange)
    (hmax : world.params.edgeBufferSize ≤ longMax)
    (htried : ∀ other ∈ triedTasks events, other = nextTask) {ledger : Ledger}
    (hone : ledger.OneBlock (nextTask.r, nextTask.c))
    (hsettled : ledger.Settled world nextTask) :
    (run (ledgerStep fl world) events ledger).OneBlock
      (nextTask.r, nextTask.c) := by
  have hevents : ∀ event ∈ events, ∀ other ∈ event.tried, other = nextTask :=
    fun event hevent other hother =>
      htried other (List.mem_filterMap.mpr ⟨event, hevent, hother⟩)
  refine (@run_invariant_of_meets _ _ (ledgerStep fl world) (fun now =>
    now.OneBlock (nextTask.r, nextTask.c) ∧ now.Settled world nextTask) _ ?_ _ _
    ⟨hone, hsettled⟩ (meets_of_forall (ledgerStep fl world) hevents ledger)).1
  rintro event now now' htried ⟨hone, hsettled⟩ hstep
  refine ⟨ledgerStep_oneBlock ?_ hone hstep,
    ledgerStep_settled hrange hmax htried hsettled hstep⟩
  cases event with
  | reverse prReverse => trivial
  | prefetch stage other =>
      obtain rfl := htried other rfl
      exact ⟨rfl, fun hthrough => (hsettled.of_through hrange hthrough).1⟩

end Runs

/-! ## The condition on the state before a task -/

namespace ProcessedTask

section Conditions

variable (step : ProcessedTask) (buf : EdgeBuffer)

/-- The edges take no longer than the transfer of what is missing of their own
block. -/
def NoSpareTime : Prop :=
  if step.task.edgeBlockLen = 0 then step.edgeProcTime ≤ step.task.nsecsTarget
  else step.edgeProcTime * step.task.edgeBlockLen ≤
    step.task.nsecsTarget * (step.task.edgeBlockLen -
      cachedBytes buf step.task.r step.task.c)

/-- The transfer of what is missing of another block takes longer than the
edges, by at least a nanosecond. -/
def Outlasts (nextTask : PrefetchTask) : Prop :=
  nextTask.InRange ∧ 0 < nextTask.edgeBlockLen ∧
    (nextTask.r, nextTask.c) ≠ (step.task.r, step.task.c) ∧
    (step.edgeProcTime + 1) * nextTask.edgeBlockLen ≤
      nextTask.nsecsTarget * (nextTask.edgeBlockLen -
        cachedBytes buf nextTask.r nextTask.c)

/-- Another block of which nothing is cached fits into the buffer beside the
task's own one. -/
def FitsBeside (nextTask : PrefetchTask) : Prop :=
  nextTask.InRange ∧ (nextTask.r, nextTask.c) ≠ (step.task.r, step.task.c) ∧
    (nextTask.r, nextTask.c) ∉ buf.blocks ∧
    buf.size + step.task.edgeBlockLen + nextTask.edgeBlockLen ≤ buf.capacity

/-- Before the task: at most one task may be prefetched, or the task is regular
and has no spare time, or the block prefetched first takes all of it, or the
candidates are one task whose block fits. -/
def PrefetchesOne (worker : Worker) : Prop :=
  step.world.candidates.length ≤ 1 ∨
    step.Regular worker.buf.toEdgeBuffer ∧
      (step.NoSpareTime worker.buf.toEdgeBuffer ∨
        (∀ nextTask ∈ step.world.heads,
          step.Outlasts worker.buf.toEdgeBuffer nextTask) ∨
        ∀ nextTask ∈ step.world.candidates,
          step.FitsBeside worker.buf.toEdgeBuffer nextTask ∧
            ∀ other ∈ step.world.candidates, other = nextTask)

end Conditions

variable {fl : FloatRounding 53} {step : ProcessedTask} {worker : Worker}

theorem Regular.budget_eq_zero {buf : PrefetchBuffer}
    (hregular : step.Regular buf.toEdgeBuffer)
    (hnone : step.NoSpareTime buf.toEdgeBuffer) : step.budget fl buf = 0 := by
  have hlen := hregular.task_inRange.1
  have htarget := hregular.task_inRange.2
  have hratio : pipelineRatio fl step.edgeProcTime step.task.nsecsTarget ≤
      step.ratio fl buf := by
    rw [NoSpareTime] at hnone
    rw [ProcessedTask.ratio]
    split at hnone
    next hzero =>
      rw [if_pos hzero]
      exact pipelineRatio_le_one fl hregular.time_inRange htarget hnone
    next hne =>
      have hnonneg := @cachedBytes_nonneg _ step.task.r step.task.c
        hregular.inv.toAccounted
      have hle := hregular.cached_le
      have hlt := hlen.2
      rw [if_neg hne, hregular.read_missing]
      exact pipelineRatio_le_quotient fl hregular.time_inRange htarget
        ⟨by omega, by omega⟩ hlen (lt_of_le_of_ne hlen.1 (Ne.symm hne)) hnone
  rw [ProcessedTask.budget, prefetchRatio_eq_zero fl hratio]
  split
  · exact futureBudget_zero fl
  · exact normalBudget_zero

/-- The block with which the section begins takes all its time. -/
theorem Regular.exhausts {buf : PrefetchBuffer}
    (hregular : step.Regular buf.toEdgeBuffer) {nextTask : PrefetchTask}
    (hlasts : step.Outlasts buf.toEdgeBuffer nextTask) :
    Exhausts fl step.world
      (prefetchStart (step.budget fl buf) (step.counted fl buf)) nextTask := by
  obtain ⟨hrange, hpos, hother, hlonger⟩ := hlasts
  intro stage prReverse
  have hcached : cachedBytes (step.counted fl buf).toEdgeBuffer nextTask.r
      nextTask.c = cachedBytes (step.read buf).2 nextTask.r nextTask.c := rfl
  have hle := hregular.cachedBytes_read_le hother
  change (prefetchNext fl step.world stage.isPrefetch stage.priority nextTask
    ((SectionEvent.reverse prReverse).perform fl step.world (prefetchStart
      (step.budget fl buf) (step.counted fl buf)))).edgeProcTime ≤ 0
  rw [(prefetchNext_eq stage _).1]
  refine prefetchCall_exhausts fl step.world stage hrange hpos
    hregular.time_inRange (hregular.budget_le fl) hcached
    (cachedBytes_nonneg hregular.read_left.1.toAccounted)
    (hlonger.trans ?_)
  exact mul_le_mul_of_nonneg_left (by omega) hrange.2.1

theorem Regular.hasRoomFor {buf : PrefetchBuffer}
    (hregular : step.Regular buf.toEdgeBuffer) {nextTask : PrefetchTask}
    (hfits : step.FitsBeside buf.toEdgeBuffer nextTask) :
    HasRoomFor step.world.params nextTask
      (step.counted fl buf).toEdgeBuffer := by
  obtain ⟨-, hother, hblock, hroom⟩ := hfits
  obtain ⟨hinv, hsize, -⟩ := hregular.read_left
  have hcapacity : (step.read buf).2.capacity = buf.capacity :=
    hinv.capacity_eq.trans hregular.inv.capacity_eq.symm
  refine ⟨⟨⟨hinv.size_eq, hinv.sizes_nonneg, hinv.blocks_nodup⟩,
    hinv.capacity_eq, hinv.size_le⟩,
    hregular.not_mem_blocks_read hother hblock, ?_⟩
  change (step.read buf).2.size + nextTask.edgeBlockLen ≤
    (step.read buf).2.capacity
  rw [hcapacity]
  exact (add_le_add_left hsize _).trans hroom

/-- The section of such a task leaves the pages of one block pending. -/
theorem PrefetchesOne.section_oneBlock (fl : FloatRounding 53)
    (hone : step.PrefetchesOne worker) (hpending : worker.Pending) :
    ∃ block, (run (ledgerStep fl step.world) (step.events fl worker.buf)
      (step.ledger fl worker.buf)).OneBlock block := by
  have hstart := fun block => @ledger_oneBlock fl step worker hpending block
  have hsingle : step.budget fl worker.buf ≤ 0 ∨
      step.world.candidates.length ≤ 1 ∨
      (∀ nextTask ∈ step.world.heads, Exhausts fl step.world (prefetchStart
        (step.budget fl worker.buf) (step.counted fl worker.buf)) nextTask) →
      ∃ block, (run (ledgerStep fl step.world) (step.events fl worker.buf)
        (step.ledger fl worker.buf)).OneBlock block := fun hfew =>
    run_oneBlock_of_length_le (sectionEvents_length_le hfew) hstart rfl
  rcases hone with hfew | ⟨hregular, hnone | hheads | hfits⟩
  · exact hsingle (.inr (.inl hfew))
  · exact hsingle (.inl (hregular.budget_eq_zero hnone).le)
  · exact hsingle (.inr (.inr fun nextTask hhead =>
      hregular.exhausts (hheads nextTask hhead)))
  · rcases hcandidates : step.world.candidates with _ | ⟨nextTask, rest⟩
    · exact hsingle (.inr (.inl (by simp [hcandidates])))
    · obtain ⟨hbeside, hsame⟩ := hfits nextTask (by simp [hcandidates])
      exact ⟨_, run_oneBlock_of_fits hbeside.1 hregular.capacity_le
        (fun other hother => hsame other (mem_candidates_of_tried hother))
        (hstart _) (.inr (.inr ⟨rfl, hregular.hasRoomFor hbeside⟩))⟩

end ProcessedTask

/-- In the runs each of whose tasks finds the queues, the flags and the buffer
so that its section prefetches one block, every prefetched page is counted once,
however the doubles are rounded. -/
theorem prefetched_pages_counted_once (fl : FloatRounding 53)
    (params : EvictionParams) {schedule : List ProcessedTask}
    (hprefetching : ∀ step ∈ schedule, step.task.isPrefetching = 2)
    (hone : Meets (taskStep fl) ProcessedTask.PrefetchesOne schedule
      ⟨.fresh (edgeBufferInit params), []⟩) :
    Meets (taskStep fl) (ProcessedTask.SettlesOnce fl) schedule
      ⟨.fresh (edgeBufferInit params), []⟩ := by
  have hmeets := meets_and (taskStep fl)
    (meets_of_forall (taskStep fl) hprefetching _) hone
  refine @meets_of_meets _ _ (taskStep fl) Worker.Pending _ _ ?_ ?_ _ _
    ⟨rfl, rfl, by simp⟩ hmeets
  · rintro step worker hpending ⟨hprefetching, hone⟩
    obtain ⟨block, hsection⟩ := hone.section_oneBlock fl hpending
    exact (taskStep_settles hprefetching hpending hsection).1
  · rintro step worker hpending ⟨hprefetching, hone⟩
    obtain ⟨block, hsection⟩ := hone.section_oneBlock fl hpending
    exact (taskStep_settles hprefetching hpending hsection).2

/-- A future task of row 0 on a block of two pages, processed in three times its
transfer time. -/
def longTask (c : ℤ) (futureQueue : List PrefetchTask) : ProcessedTask where
  future := true
  world := {
    params := ⟨65536, "FIFO", true⟩
    aggregated := fun r => r = 0
    normalQueue := []
    futureQueue := futureQueue
    now := 0
    allocated := fun _ => true }
  task := nextEdge 0 c
  edgeProcTime := 12
  allocated := true
  invalidates := false

/-- The block of the second task is prefetched as a whole by the first one. -/
theorem prefetched_pages_counted_once_hit :
    Meets (taskStep binary64) (ProcessedTask.SettlesOnce binary64)
      [longTask 0 [nextEdge 0 1], longTask 1 []]
      ⟨.fresh (edgeBufferInit ⟨65536, "FIFO", true⟩), []⟩ := by
  have hregular : (longTask 0 [nextEdge 0 1]).Regular
      (edgeBufferInit ⟨65536, "FIFO", true⟩) :=
    ⟨edgeBufferInit_inv (by decide), by decide, rfl, by decide,
      (fun hwhole => by cases hwhole), by decide, by decide, by decide⟩
  refine prefetched_pages_counted_once binary64 ⟨65536, "FIFO", true⟩
    (by decide) ⟨.inr ⟨hregular, .inr (.inr ?_)⟩, .inl (by decide), trivial⟩
  intro nextTask hcandidate
  have hnext : ∀ other ∈ (longTask 0 [nextEdge 0 1]).world.candidates,
      other = nextEdge 0 1 := by decide
  rw [hnext nextTask hcandidate]
  exact ⟨⟨by decide, by decide, by decide, by decide⟩, hnext⟩

/-- A future task whose row is not aggregated, on a block of one page. -/
def shortEdge : PrefetchTask := ⟨1, 1, 0, 4096, 4, false, 2⟩

/-- The first task prefetches two pages of block (0, 1) and one of block (1, 1).
The totals miss the two pages, and the second task, on block (0, 1), counts one
hit. -/
theorem prefetched_pages_overwritten :
    let start : Worker :=
      ⟨.fresh (edgeBufferInit ⟨65536, "FIFO", true⟩), []⟩
    let first := turn (taskStep binary64) start
      (longTask 0 [shortEdge, nextEdge 0 1])
    let second := turn (taskStep binary64) first (longTask 1 [shortEdge])
    first.gained = [((0, 1), 2), ((1, 1), 1)] ∧
      first.buf.priorityPages = 3 ∧
      first.buf.totalPrefetchCnt + first.buf.prefetchedSize = 1 ∧
      (first.buf.prefetchedR = 0 ∧ first.buf.prefetchedC = 1) ∧
      second.buf.prefetchHitCnt = 1 ∧
      ¬ Meets (taskStep binary64) (ProcessedTask.SettlesOnce binary64)
        [longTask 0 [shortEdge, nextEdge 0 1], longTask 1 [shortEdge]]
        start := by
  refine ⟨by decide +kernel, by decide +kernel, by decide +kernel,
    by decide +kernel, by decide +kernel, by decide +kernel⟩

end NvmeVirt.Csd
