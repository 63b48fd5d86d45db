import NvmeVirt.Csd.Prefetch

/-!
# The prefetch sections of the worker

After a task has read its block, the worker prefetches blocks of other tasks in
the time that processing the edges takes longer than the transfer.  The section
stands twice in the worker, after a future task and after a normal one.  The
copies differ in how they round the time that is left: the first rounds the
time, the second the ratio from which it is computed.
-/

namespace NvmeVirt.Csd

open Function Rounding

/-- What a section reads beside the edge buffer: the parameters, the flags of the
aggregated rows, the queues, the clock, and whether `kmalloc` succeeds for the
unit of each prefetch. -/
structure PrefetchWorld where
  params : EvictionParams
  aggregated : ℤ → Bool
  normalQueue : List PrefetchTask
  futureQueue : List PrefetchTask
  now : ℤ
  allocated : ℕ → Bool

/-- The state of a section.  `found` says whether `found_cnt` is positive, which
is all that the code asks; `prefetched` collects the blocks that have been
prefetched, with the bytes of them that are cached afterwards. -/
structure Prefetching where
  buf : PrefetchBuffer
  edgeProcTime : ℤ
  found : Bool
  prefetched : List (ℤ × ℤ × ℤ)

/-- Records the block that is prefetched first. -/
def PrefetchBuffer.recordNext (buf : PrefetchBuffer) (nextTask : PrefetchTask)
    (priority : ℕ) : PrefetchBuffer :=
  { buf with
    prefetchedR := nextTask.r
    prefetchedC := nextTask.c
    prefetchedIter := nextTask.iter
    prefetchBlockCntArr := update buf.prefetchBlockCntArr priority
      (longLong (buf.prefetchBlockCntArr priority + 1))
    prefetchedPriority := priority }

section Stages

variable (fl : FloatRounding 53) (world : PrefetchWorld)

/-- Prefetches the block of a task under the given kind and priority. -/
def prefetchNext (isPrefetch : ℤ) (priority : ℕ) (nextTask : PrefetchTask)
    (st : Prefetching) : Prefetching :=
  let (prefetchedSize, edgeProcTime, buf) := prefetchEdgeBlock fl world.params
    world.aggregated st.buf nextTask st.edgeProcTime isPrefetch
    (world.allocated st.prefetched.length)
  let buf := { buf with
    prefetchPriorityCnt := update buf.prefetchPriorityCnt priority
      (longLong (buf.prefetchPriorityCnt priority + prefetchedSize)) }
  { buf := if st.found then buf else buf.recordNext nextTask priority
    edgeProcTime := edgeProcTime
    found := true
    prefetched := st.prefetched ++ [(nextTask.r, nextTask.c,
      cachedBytes buf.toEdgeBuffer nextTask.r nextTask.c)] }

/-- Executable future tasks, the latest one first. -/
def executableStage : List PrefetchTask → Prefetching → Prefetching
  | [], st => st
  | nextTask :: rest, st =>
      if world.aggregated nextTask.r then
        let st := prefetchNext fl world 1 2 nextTask st
        if st.edgeProcTime ≤ 0 then st else executableStage rest st
      else executableStage rest st

/-- The cost model expects the row of the next normal task to be aggregated
before the current task is done. -/
def reversesPriorities (task nextTask : PrefetchTask) (ratio : ℚ)
    (buf : PrefetchBuffer) : Bool :=
  !world.futureQueue.isEmpty && !world.aggregated nextTask.r &&
    0 < buf.emaAggr &&
    fl.round (longLong (buf.aggrStartTime nextTask.r + buf.emaAggr)) <
      fl.round (fl.round world.now +
        fl.round (fl.round task.nsecsTarget * ratio))

/-- The next normal task of the same iteration, unless the priorities are
reversed. -/
def normalStage (task : PrefetchTask) (ratio : ℚ) (st : Prefetching) :
    Prefetching :=
  match world.normalQueue with
  | [] => st
  | nextTask :: _ =>
      if st.edgeProcTime ≤ 0 then st
      else if reversesPriorities fl world task nextTask ratio st.buf then
        { st with buf := { st.buf with prReverse := true } }
      else if task.isFvc && !nextTask.isFvc then st
      else prefetchNext fl world 2 3 nextTask st

/-- The next future task, which need not be executable. -/
def unexecutableStage (st : Prefetching) : Prefetching :=
  match world.futureQueue with
  | [] => st
  | nextTask :: _ =>
      if st.edgeProcTime ≤ 0 then st else prefetchNext fl world 1 4 nextTask st

/-- The next normal task, if it belongs to the next iteration. -/
def nextIterationStage (task : PrefetchTask) (st : Prefetching) :
    Prefetching :=
  match world.normalQueue with
  | [] => st
  | nextTask :: _ =>
      if st.edgeProcTime ≤ 0 then st
      else if task.isFvc && !nextTask.isFvc then
        prefetchNext fl world 3 5 nextTask st
      else st

/-- The stages in the order of their priorities. -/
def prefetchStages (task : PrefetchTask) (ratio : ℚ) (edgeProcTime : ℤ)
    (buf : PrefetchBuffer) : Prefetching :=
  let buf := { buf with
    prefetchedR := -1
    prefetchedC := -1
    prefetchedIter := -1 }
  let st : Prefetching := ⟨buf, edgeProcTime, false, []⟩
  if edgeProcTime ≤ 0 then st
  else
    let st := executableStage fl world world.futureQueue.reverse st
    let st := unexecutableStage fl world (normalStage fl world task ratio st)
    nextIterationStage fl world task
      { st with buf := { st.buf with prReverse := false } }

end Stages

/-- The statistics of the block that was prefetched for the current task. -/
def PrefetchBuffer.countPrefetched (buf : PrefetchBuffer) (task : PrefetchTask) :
    PrefetchBuffer :=
  { buf with
    prefetchHitCnt :=
      if buf.prefetchedR = task.r ∧ buf.prefetchedC = task.c then
        longLong (buf.prefetchHitCnt + buf.prefetchedSize)
      else buf.prefetchHitCnt
    totalPrefetchCnt := longLong (buf.totalPrefetchCnt + buf.prefetchedSize)
    prefetchedSize := 0 }

section Ratios

variable (fl : FloatRounding 53)

/-- The processing time of a block in relation to its transfer time. -/
def pipelineRatio (edgeProcTime nsecsTarget : ℤ) : ℚ :=
  if nsecsTarget = 0 then 0 else quotient fl edgeProcTime nsecsTarget

/-- What the processing time leaves after the transfer of the missing bytes. -/
def prefetchRatio (edgeProcTime nsecsTarget : ℤ) (ratio : ℚ) : ℚ :=
  max 0 (fl.round (pipelineRatio fl edgeProcTime nsecsTarget - ratio))

/-- The share of the transfer that processing does not overlap. -/
def ratioLeft (edgeProcTime nsecsTarget : ℤ) (ratio : ℚ) : ℚ :=
  max 0 (fl.round (ratio - pipelineRatio fl edgeProcTime nsecsTarget))

end Ratios

/-- The result of a section: its time budget, the blocks it prefetches, the
buffer, and the share of the transfer that has not been overlapped. -/
structure PrefetchOutcome where
  budget : ℤ
  prefetched : List (ℤ × ℤ × ℤ)
  buf : PrefetchBuffer
  ratio : ℚ

/-- A prefetch section, with the expression for its time budget. -/
def prefetchSection (fl : FloatRounding 53) (budget : ℚ → ℤ → ℤ)
    (world : PrefetchWorld) (task : PrefetchTask) (buf : PrefetchBuffer)
    (edgeProcTime : ℤ) (ratio : ℚ) (sizeNotInCache : ℤ) : PrefetchOutcome :=
  if task.isPrefetching < 1 then ⟨0, [], buf, ratio⟩
  else
    let pipeline := pipelineRatio fl edgeProcTime task.nsecsTarget
    let buf := buf.countPrefetched task
    let overlapped := scaled fl task.edgeBlockLen (fl.round (pipeline * ratio))
    let buf := { buf with
      hitCnt := longLong (buf.hitCnt + pages (min overlapped sizeNotInCache)) }
    let left := ratioLeft fl edgeProcTime task.nsecsTarget ratio
    if task.isPrefetching < 2 then ⟨0, [], buf, left⟩
    else
      let time := budget (prefetchRatio fl edgeProcTime task.nsecsTarget ratio)
        task.nsecsTarget
      let st := prefetchStages fl world task left time buf
      ⟨time, st.prefetched, st.buf, left⟩

/-- `(long long) (prefetch_ratio * task.nsecs_target)` -/
def futureBudget (fl : FloatRounding 53) (prefetchRatio : ℚ)
    (nsecsTarget : ℤ) : ℤ :=
  scaled fl nsecsTarget prefetchRatio

/-- `(long long) prefetch_ratio * task.nsecs_target`, where the conversion comes
first and the product is one of unsigned values. -/
def normalBudget (prefetchRatio : ℚ) (nsecsTarget : ℤ) : ℤ :=
  longLong (truncate prefetchRatio * nsecsTarget)

/-- The section after a future task. -/
def futurePrefetchSection (fl : FloatRounding 53) : PrefetchWorld →
    PrefetchTask → PrefetchBuffer → ℤ → ℚ → ℤ → PrefetchOutcome :=
  prefetchSection fl (futureBudget fl)

/-- The section after a normal task. -/
def normalPrefetchSection (fl : FloatRounding 53) : PrefetchWorld →
    PrefetchTask → PrefetchBuffer → ℤ → ℚ → ℤ → PrefetchOutcome :=
  prefetchSection fl normalBudget

/-! ## The two budgets, in exact arithmetic -/

/-- The nanoseconds that the processing of a block takes longer than the transfer
of its missing bytes. -/
def spareTime (edgeProcTime nsecsTarget : ℤ) (ratio : ℚ) : ℤ :=
  ⌊max 0 (edgeProcTime - ratio * nsecsTarget)⌋

section Budgets

variable {edgeProcTime nsecsTarget : ℤ} {ratio : ℚ}

theorem truncate_eq_floor {value : ℚ} (hvalue : 0 ≤ value) :
    truncate value = ⌊value⌋ := if_pos hvalue

theorem longLong_le (value : ℤ) : longLong value ≤ longMax := by
  have hlt := @Int.bmod_lt value (2 ^ 64) (by decide)
  unfold longLong longMax
  omega

theorem spareTime_nonneg : 0 ≤ spareTime edgeProcTime nsecsTarget ratio :=
  Int.floor_nonneg.mpr (le_max_left _ _)

theorem prefetchRatio_mul (htarget : 0 < nsecsTarget) :
    prefetchRatio (.exact 53) edgeProcTime nsecsTarget ratio * nsecsTarget =
      max 0 (edgeProcTime - ratio * nsecsTarget) := by
  have hpos : (0 : ℚ) < nsecsTarget := by exact_mod_cast htarget
  have hexact : prefetchRatio (.exact 53) edgeProcTime nsecsTarget ratio =
      max 0 (edgeProcTime / nsecsTarget - ratio) := by
    rw [prefetchRatio, pipelineRatio, if_neg htarget.ne']
    rfl
  rw [hexact, max_mul_of_nonneg _ _ hpos.le, zero_mul, sub_mul,
    div_mul_cancel₀ _ hpos.ne']

theorem futureBudget_eq (htarget : 0 < nsecsTarget) :
    futureBudget (.exact 53)
      (prefetchRatio (.exact 53) edgeProcTime nsecsTarget ratio) nsecsTarget =
      spareTime edgeProcTime nsecsTarget ratio := by
  have hexact : futureBudget (.exact 53)
      (prefetchRatio (.exact 53) edgeProcTime nsecsTarget ratio) nsecsTarget =
      truncate (prefetchRatio (.exact 53) edgeProcTime nsecsTarget ratio *
        nsecsTarget) := by
    rw [mul_comm]
    rfl
  rw [hexact, prefetchRatio_mul htarget, truncate_eq_floor (le_max_left _ _),
    spareTime]

/-- The normal branch rounds the spare time down to a multiple of the transfer
time. -/
theorem normalBudget_eq (htarget : 0 < nsecsTarget) :
    normalBudget (prefetchRatio (.exact 53) edgeProcTime nsecsTarget ratio)
      nsecsTarget =
      longLong (spareTime edgeProcTime nsecsTarget ratio / nsecsTarget *
        nsecsTarget) := by
  have hne : (nsecsTarget : ℚ) ≠ 0 := by exact_mod_cast htarget.ne'
  have hratio : prefetchRatio (.exact 53) edgeProcTime nsecsTarget ratio =
      max 0 (edgeProcTime - ratio * nsecsTarget) / nsecsTarget := by
    rw [← prefetchRatio_mul htarget, mul_div_cancel_right₀ _ hne]
  have hnonneg : 0 ≤ prefetchRatio (.exact 53) edgeProcTime nsecsTarget ratio :=
    le_max_left _ _
  rw [normalBudget, truncate_eq_floor hnonneg, hratio,
    Int.floor_div_cast_of_nonneg htarget.le, spareTime]

theorem budgets_eq_iff (htarget : 0 ≤ nsecsTarget) :
    futureBudget (.exact 53)
        (prefetchRatio (.exact 53) edgeProcTime nsecsTarget ratio) nsecsTarget =
      normalBudget (prefetchRatio (.exact 53) edgeProcTime nsecsTarget ratio)
        nsecsTarget ↔
      nsecsTarget = 0 ∨ nsecsTarget ∣ spareTime edgeProcTime nsecsTarget ratio ∧
        spareTime edgeProcTime nsecsTarget ratio ≤ longMax := by
  rcases htarget.eq_or_lt with hzero | hpos
  · rw [← hzero]
    refine ⟨fun _ => .inl rfl, fun _ => ?_⟩
    rw [futureBudget, scaled, normalBudget, Int.cast_zero,
      FloatRounding.round_zero, zero_mul, FloatRounding.round_zero, mul_zero]
    rfl
  have hnonneg := @spareTime_nonneg edgeProcTime nsecsTarget ratio
  rw [futureBudget_eq hpos, normalBudget_eq hpos, or_iff_right hpos.ne']
  generalize spareTime edgeProcTime nsecsTarget ratio = spare at hnonneg ⊢
  have hquotient : 0 ≤ spare / nsecsTarget * nsecsTarget :=
    mul_nonneg (Int.ediv_nonneg hnonneg hpos.le) hpos.le
  have hle : spare / nsecsTarget * nsecsTarget ≤ spare :=
    Int.ediv_mul_le spare hpos.ne'
  constructor
  · intro heq
    have hmax : spare ≤ longMax := heq.le.trans (longLong_le _)
    rw [longLong_eq (by unfold longMax; omega) (hle.trans hmax)] at heq
    exact ⟨Dvd.intro_left _ heq.symm, hmax⟩
  · rintro ⟨hdvd, hmax⟩
    rw [Int.ediv_mul_cancel hdvd, longLong_eq (by unfold longMax; omega) hmax]

end Budgets

/-- With exact ratios, the two sections agree exactly if the transfer time of the
current block divides the spare time, which has to be a `long long`, or is zero.
-/
theorem prefetch_sections_agree_iff (world : PrefetchWorld) {task : PrefetchTask}
    (hprefetching : 2 ≤ task.isPrefetching) (htarget : 0 ≤ task.nsecsTarget)
    (buf : PrefetchBuffer) (edgeProcTime : ℤ) (ratio : ℚ)
    (sizeNotInCache : ℤ) :
    futurePrefetchSection (.exact 53) world task buf edgeProcTime ratio
        sizeNotInCache =
      normalPrefetchSection (.exact 53) world task buf edgeProcTime ratio
        sizeNotInCache ↔
      task.nsecsTarget = 0 ∨
        task.nsecsTarget ∣ spareTime edgeProcTime task.nsecsTarget ratio ∧
        spareTime edgeProcTime task.nsecsTarget ratio ≤ longMax := by
  rw [← budgets_eq_iff htarget]
  have hsection : ∀ budget, (prefetchSection (.exact 53) budget world task buf
      edgeProcTime ratio sizeNotInCache).budget = budget
        (prefetchRatio (.exact 53) edgeProcTime task.nsecsTarget ratio)
        task.nsecsTarget := by
    intro budget
    rw [prefetchSection, if_neg (by omega), if_neg (by omega)]
  constructor
  · intro hagree
    rw [← hsection (futureBudget (.exact 53)), ← hsection normalBudget]
    exact congrArg PrefetchOutcome.budget hagree
  · intro hbudgets
    simp only [futurePrefetchSection, normalPrefetchSection, prefetchSection,
      hbudgets]

/-- Two future tasks on blocks of two pages, one of them executable. -/
def twoFutureTasks : PrefetchWorld where
  params := ⟨16384, "FIFO", true⟩
  aggregated := fun r => r = 0
  normalQueue := []
  futureQueue := [nextEdge 1 1, nextEdge 0 1]
  now := 0
  allocated := fun _ => true

/-- A task whose block is cached is processed in twice its transfer time. -/
theorem prefetch_sections_agree_iff_twice :
    futurePrefetchSection (.exact 53) twoFutureTasks (nextEdge 0 0)
        (.fresh (edgeBufferInit ⟨16384, "FIFO", true⟩)) 8 0 0 =
      normalPrefetchSection (.exact 53) twoFutureTasks (nextEdge 0 0)
        (.fresh (edgeBufferInit ⟨16384, "FIFO", true⟩)) 8 0 0 :=
  (prefetch_sections_agree_iff twoFutureTasks (by decide) (by decide) _ 8 0
    0).mpr (by decide +kernel)

/-- It is processed in half its transfer time. -/
theorem prefetch_sections_differ :
    let future := futurePrefetchSection (.exact 53) twoFutureTasks (nextEdge 0 0)
      (.fresh (edgeBufferInit ⟨16384, "FIFO", true⟩)) 2 0 0
    let normal := normalPrefetchSection (.exact 53) twoFutureTasks (nextEdge 0 0)
      (.fresh (edgeBufferInit ⟨16384, "FIFO", true⟩)) 2 0 0
    (future.budget = 2 ∧ normal.budget = 0) ∧
      (future.prefetched = [(0, 1, 4096)] ∧ normal.prefetched = []) ∧
      future.buf.units = [⟨0, 1, 4096, 0⟩] ∧ normal.buf.units = [] ∧
      future ≠ normal := by
  intro future normal
  have hfuture : future.budget = 2 := by decide +kernel
  have hnormal : normal.budget = 0 := by decide +kernel
  refine ⟨⟨hfuture, hnormal⟩, by decide +kernel, by decide +kernel,
    by decide +kernel, fun hagree => ?_⟩
  rw [hagree, hnormal] at hfuture
  cases hfuture

end NvmeVirt.Csd
