import NvmeVirt.Csd.PrefetchSection

/-!
# Counting prefetched pages

A prefetch adds its pages to the counter of its priority at once.  The totals
follow with the next task, which reads the pages and the block from single
variables: `prefetched_size` holds the pages of the last prefetch of a section
that goes through, `prefetched_r` and `prefetched_c` the block of the first one
that is tried.

The sections are taken apart into events.  A section whose prefetches are all of
one block, and overwrite no pages, is settled by the next task.
-/

namespace NvmeVirt.Csd

open Function Interleaving Rounding

/-! ## The events of a section -/

/-- The four stages of a section. -/
inductive Stage
  | executable
  | normal
  | unexecutable
  | nextIteration
  deriving DecidableEq

def Stage.priority : Stage → ℕ
  | .executable => 2
  | .normal => 3
  | .unexecutable => 4
  | .nextIteration => 5

/-- The `is_prefetch` argument of a stage. -/
def Stage.isPrefetch : Stage → ℤ
  | .executable => 1
  | .normal => 2
  | .unexecutable => 1
  | .nextIteration => 3

/-- A section prefetches the block of a task, or sets `pr_reverse`. -/
inductive SectionEvent
  | prefetch (stage : Stage) (nextTask : PrefetchTask)
  | reverse (prReverse : Bool)

section Events

variable (fl : FloatRounding 53) (world : PrefetchWorld)

def SectionEvent.perform (st : Prefetching) : SectionEvent → Prefetching
  | .prefetch stage nextTask =>
      prefetchNext fl world stage.isPrefetch stage.priority nextTask st
  | .reverse prReverse =>
      { st with buf := { st.buf with prReverse := prReverse } }

def performAll (events : List SectionEvent) (st : Prefetching) : Prefetching :=
  events.foldl (SectionEvent.perform fl world) st

/-- The events of a stage after those of the stages before it. -/
def andThen (first second : Prefetching → List SectionEvent)
    (st : Prefetching) : List SectionEvent :=
  first st ++ second (performAll fl world (first st) st)

theorem performAll_andThen (first second : Prefetching → List SectionEvent)
    (st : Prefetching) :
    performAll fl world (andThen fl world first second st) st =
      performAll fl world (second (performAll fl world (first st) st))
        (performAll fl world (first st) st) :=
  List.foldl_append

def executableEvents : List PrefetchTask → Prefetching → List SectionEvent
  | [], _ => []
  | nextTask :: rest, st =>
      if world.aggregated nextTask.r then
        let next := prefetchNext fl world 1 2 nextTask st
        .prefetch .executable nextTask ::
          if next.edgeProcTime ≤ 0 then [] else executableEvents rest next
      else executableEvents rest st

def normalEvents (task : PrefetchTask) (ratio : ℚ) (st : Prefetching) :
    List SectionEvent :=
  match world.normalQueue with
  | [] => []
  | nextTask :: _ =>
      if st.edgeProcTime ≤ 0 then []
      else if reversesPriorities fl world task nextTask ratio st.buf then
        [.reverse true]
      else if task.isFvc && !nextTask.isFvc then []
      else [.prefetch .normal nextTask]

def unexecutableEvents (st : Prefetching) : List SectionEvent :=
  match world.futureQueue with
  | [] => []
  | nextTask :: _ =>
      if st.edgeProcTime ≤ 0 then [] else [.prefetch .unexecutable nextTask]

def nextIterationEvents (task : PrefetchTask) (st : Prefetching) :
    List SectionEvent :=
  match world.normalQueue with
  | [] => []
  | nextTask :: _ =>
      if st.edgeProcTime ≤ 0 then []
      else if task.isFvc && !nextTask.isFvc then
        [.prefetch .nextIteration nextTask]
      else []

/-- The events of the stages in the order of their priorities. -/
def stageEvents (task : PrefetchTask) (ratio : ℚ) :
    Prefetching → List SectionEvent :=
  andThen fl world (executableEvents fl world world.futureQueue.reverse) <|
    andThen fl world (normalEvents fl world task ratio) <|
      andThen fl world (unexecutableEvents world) <|
        andThen fl world (fun _ => [.reverse false])
          (nextIterationEvents world task)

/-- The state in which the stages start. -/
def prefetchStart (edgeProcTime : ℤ) (buf : PrefetchBuffer) : Prefetching where
  buf := { buf with
    prefetchedR := -1
    prefetchedC := -1
    prefetchedIter := -1 }
  edgeProcTime := edgeProcTime
  found := false
  prefetched := []

/-- The events of a section; there are none without time. -/
def sectionEvents (task : PrefetchTask) (ratio : ℚ) (edgeProcTime : ℤ)
    (buf : PrefetchBuffer) : List SectionEvent :=
  if edgeProcTime ≤ 0 then []
  else stageEvents fl world task ratio (prefetchStart edgeProcTime buf)

variable (task : PrefetchTask) (ratio : ℚ)

theorem executableStage_eq (tasks : List PrefetchTask) (st : Prefetching) :
    executableStage fl world tasks st =
      performAll fl world (executableEvents fl world tasks st) st := by
  induction tasks generalizing st with
  | nil => rfl
  | cons nextTask rest ih =>
      simp only [executableStage, executableEvents]
      by_cases haggregated : world.aggregated nextTask.r
      · simp only [haggregated, if_true]
        by_cases htime :
            (prefetchNext fl world 1 2 nextTask st).edgeProcTime ≤ 0
        · simp only [htime, if_true]
          rfl
        · simp only [htime, if_false]
          rw [ih]
          rfl
      · rw [if_neg haggregated, if_neg haggregated]
        exact ih st

theorem normalStage_eq (st : Prefetching) :
    normalStage fl world task ratio st =
      performAll fl world (normalEvents fl world task ratio st) st := by
  rw [normalStage.eq_def, normalEvents.eq_def]
  cases world.normalQueue with
  | nil => rfl
  | cons nextTask rest =>
      dsimp only
      split_ifs <;> rfl

theorem unexecutableStage_eq (st : Prefetching) :
    unexecutableStage fl world st =
      performAll fl world (unexecutableEvents world st) st := by
  rw [unexecutableStage.eq_def, unexecutableEvents.eq_def]
  cases world.futureQueue with
  | nil => rfl
  | cons nextTask rest =>
      dsimp only
      split_ifs <;> rfl

theorem nextIterationStage_eq (st : Prefetching) :
    nextIterationStage fl world task st =
      performAll fl world (nextIterationEvents world task st) st := by
  rw [nextIterationStage.eq_def, nextIterationEvents.eq_def]
  cases world.normalQueue with
  | nil => rfl
  | cons nextTask rest =>
      dsimp only
      split_ifs <;> rfl

/-- A section is the sequence of its events. -/
theorem prefetchStages_eq (edgeProcTime : ℤ) (buf : PrefetchBuffer) :
    prefetchStages fl world task ratio edgeProcTime buf =
      performAll fl world (sectionEvents fl world task ratio edgeProcTime buf)
        (prefetchStart edgeProcTime buf) := by
  rw [prefetchStages, sectionEvents]
  by_cases htime : edgeProcTime ≤ 0
  · rw [if_pos htime, if_pos htime]
    rfl
  · rw [if_neg htime, if_neg htime]
    simp only [stageEvents, performAll_andThen, ← executableStage_eq,
      ← normalStage_eq, ← unexecutableStage_eq, ← nextIterationStage_eq]
    rfl

end Events

/-! ## Pages of a section -/

/-- A section in progress, with the pages that each of its prefetches has
added. -/
structure Ledger where
  st : Prefetching
  gained : List ((ℤ × ℤ) × ℤ)

/-- The prefetch gets past the early returns of `prefetch_edge_block`. -/
def GoesThrough (nextTask : PrefetchTask) (st : Prefetching) : Prop :=
  nextTask.edgeBlockLen ≠ 0 ∧ 0 < st.edgeProcTime ∧
    unsignedLong (getEdgeBlockSize st.buf.toEdgeBuffer nextTask.r nextTask.c) ≠
      nextTask.edgeBlockLen

instance (nextTask : PrefetchTask) (st : Prefetching) :
    Decidable (GoesThrough nextTask st) :=
  inferInstanceAs (Decidable (_ ∧ _ ∧ _))

/-- The pages counted at prefetching, over the four priorities. -/
def PrefetchBuffer.priorityPages (buf : PrefetchBuffer) : ℤ :=
  buf.prefetchPriorityCnt 2 + buf.prefetchPriorityCnt 3 +
    buf.prefetchPriorityCnt 4 + buf.prefetchPriorityCnt 5

/-- Every page is counted once, in the arithmetic of the counters. -/
def PrefetchBuffer.CountedOnce (buf : PrefetchBuffer) : Prop :=
  longLong buf.priorityPages =
    longLong (buf.totalPrefetchCnt + buf.prefetchedSize)

instance (buf : PrefetchBuffer) : Decidable buf.CountedOnce :=
  inferInstanceAs (Decidable (_ = _))

/-- The block in `prefetched_r` and `prefetched_c`. -/
def PrefetchBuffer.recorded (buf : PrefetchBuffer) : ℤ × ℤ :=
  (buf.prefetchedR, buf.prefetchedC)

/-- Pages of one block in a ledger. -/
def pagesOf (block : ℤ × ℤ) (gained : List ((ℤ × ℤ) × ℤ)) : ℤ :=
  ((gained.filter fun entry => entry.1 = block).map Prod.snd).sum

theorem longLong_add_congr {left right : ℤ}
    (heq : longLong left = longLong right) (pages : ℤ) :
    longLong (left + pages) = longLong (right + pages) := by
  rw [longLong, ← Int.bmod_add_bmod]
  change longLong (longLong left + pages) = longLong (right + pages)
  rw [heq, longLong, longLong, Int.bmod_add_bmod]
  rfl

/-- One counter of the four grows. -/
theorem longLong_priorityPages {buf buf' : PrefetchBuffer} {stage : Stage}
    {pages : ℤ} (hcnt : buf'.prefetchPriorityCnt =
      update buf.prefetchPriorityCnt stage.priority
        (longLong (buf.prefetchPriorityCnt stage.priority + pages))) :
    longLong buf'.priorityPages = longLong (buf.priorityPages + pages) := by
  have hwrap : ∀ cnt rest : ℤ, longLong (longLong (cnt + pages) + rest) =
      longLong (cnt + rest + pages) := by
    intro cnt rest
    rw [longLong, longLong, Int.bmod_add_bmod, longLong, add_right_comm]
  simp only [PrefetchBuffer.priorityPages, hcnt]
  generalize buf.prefetchPriorityCnt = cnt
  cases stage with
  | executable =>
      convert hwrap (cnt 2) (cnt 3 + cnt 4 + cnt 5) using 2
      · simp [Stage.priority]
        ring
      · ring
  | normal =>
      convert hwrap (cnt 3) (cnt 2 + cnt 4 + cnt 5) using 2
      · simp [Stage.priority]
        ring
      · ring
  | unexecutable =>
      convert hwrap (cnt 4) (cnt 2 + cnt 3 + cnt 5) using 2
      · simp [Stage.priority]
        ring
      · ring
  | nextIteration =>
      convert hwrap (cnt 5) (cnt 2 + cnt 3 + cnt 4) using 2
      · simp [Stage.priority]
        ring
      · ring

section Pages

variable (fl : FloatRounding 53) (world : PrefetchWorld) (stage : Stage)
  (nextTask : PrefetchTask) (st : Prefetching)

/-- The call of `prefetch_edge_block` in a stage. -/
def prefetchCall : ℤ × ℤ × PrefetchBuffer :=
  prefetchEdgeBlock fl world.params world.aggregated st.buf nextTask
    st.edgeProcTime stage.isPrefetch (world.allocated st.prefetched.length)

def pagesAdded : ℤ :=
  (prefetchCall fl world stage nextTask st).1

theorem prefetchCall_returns (hreturns : ¬ GoesThrough nextTask st) :
    prefetchCall fl world stage nextTask st =
      (0, st.edgeProcTime, st.buf) := by
  rw [prefetchCall, prefetchEdgeBlock]
  by_cases hempty : nextTask.edgeBlockLen = 0 ∨ st.edgeProcTime ≤ 0
  · rw [if_pos hempty]
  · rw [if_neg hempty, if_pos]
    by_contra hcached
    rw [not_or] at hempty
    exact hreturns ⟨hempty.1, not_le.mp hempty.2, hcached⟩

/-- Beside the cached units, only the pending pages change. -/
theorem prefetchCall_through (hthrough : GoesThrough nextTask st) :
    ∃ pages time edgeBuf, prefetchCall fl world stage nextTask st =
      (pages, time, { st.buf with
        toEdgeBuffer := edgeBuf
        prefetchedSize := pages }) := by
  obtain ⟨hlen, htime, hcached⟩ := hthrough
  rw [prefetchCall, prefetchEdgeBlock,
    if_neg (by rw [not_or]; exact ⟨hlen, by omega⟩), if_neg hcached]
  exact ⟨_, _, _, rfl⟩

theorem pagesAdded_of_not (hreturns : ¬ GoesThrough nextTask st) :
    pagesAdded fl world stage nextTask st = 0 := by
  rw [pagesAdded, prefetchCall_returns fl world stage nextTask st hreturns]

/-- What a prefetch does to the variables of the statistics. -/
structure CountsPrefetch (buf : PrefetchBuffer) : Prop where
  priority : buf.prefetchPriorityCnt = update st.buf.prefetchPriorityCnt
    stage.priority (longLong (st.buf.prefetchPriorityCnt stage.priority +
      pagesAdded fl world stage nextTask st))
  total : buf.totalPrefetchCnt = st.buf.totalPrefetchCnt
  hits : buf.prefetchHitCnt = st.buf.prefetchHitCnt
  size : buf.prefetchedSize =
    if GoesThrough nextTask st then pagesAdded fl world stage nextTask st
    else st.buf.prefetchedSize
  recorded : buf.recorded =
    if st.found then st.buf.recorded else (nextTask.r, nextTask.c)

theorem prefetchNext_counts :
    CountsPrefetch fl world stage nextTask st (prefetchNext fl world
      stage.isPrefetch stage.priority nextTask st).buf := by
  let call := prefetchCall fl world stage nextTask st
  have hcall : call.2.2.prefetchPriorityCnt = st.buf.prefetchPriorityCnt ∧
      call.2.2.totalPrefetchCnt = st.buf.totalPrefetchCnt ∧
      call.2.2.prefetchHitCnt = st.buf.prefetchHitCnt ∧
      call.2.2.prefetchedSize = (if GoesThrough nextTask st then
        pagesAdded fl world stage nextTask st else st.buf.prefetchedSize) ∧
      call.2.2.recorded = st.buf.recorded := by
    by_cases hthrough : GoesThrough nextTask st
    · obtain ⟨pages, time, edgeBuf, hcall⟩ :=
        prefetchCall_through fl world stage nextTask st hthrough
      simp [call, hcall, hthrough, pagesAdded, PrefetchBuffer.recorded]
    · simp [call, prefetchCall_returns fl world stage nextTask st hthrough,
        hthrough]
  obtain ⟨hpriority, htotal, hhits, hsize, hrecorded⟩ := hcall
  have hbuf : (prefetchNext fl world stage.isPrefetch stage.priority nextTask
      st).buf =
      let buf := { call.2.2 with
        prefetchPriorityCnt := update call.2.2.prefetchPriorityCnt
          stage.priority (longLong
            (call.2.2.prefetchPriorityCnt stage.priority + call.1)) }
      if st.found then buf else buf.recordNext nextTask stage.priority := rfl
  rw [hbuf, hpriority]
  cases hfound : st.found with
  | false => exact ⟨rfl, htotal, hhits, hsize, by rw [hfound]; rfl⟩
  | true => exact ⟨rfl, htotal, hhits, hsize, by rw [hfound]; exact hrecorded⟩

end Pages

/-! ## A section that prefetches one block -/

section Sections

variable (fl : FloatRounding 53) (world : PrefetchWorld)

def ledgerStep (event : SectionEvent) (ledger : Ledger) : Option Ledger :=
  some {
    st := event.perform fl world ledger.st
    gained := match event with
      | .prefetch stage nextTask => ledger.gained ++
          [((nextTask.r, nextTask.c),
            pagesAdded fl world stage nextTask ledger.st)]
      | .reverse _ => ledger.gained }

/-- The pages pending are those that the section has added, all of one block,
which is the recorded one. -/
structure Ledger.OneBlock (block : ℤ × ℤ) (ledger : Ledger) : Prop where
  counted : ledger.st.buf.CountedOnce
  pending : ledger.st.buf.prefetchedSize = (ledger.gained.map Prod.snd).sum
  gained : ∀ entry ∈ ledger.gained, entry.1 = block
  recorded : ledger.st.found = true → ledger.st.buf.recorded = block
  fresh : ledger.st.found = false → ledger.gained = []

/-- A prefetch of the block that overwrites no pending pages. -/
def SectionEvent.Adds (block : ℤ × ℤ) (event : SectionEvent)
    (ledger : Ledger) : Prop :=
  match event with
  | .prefetch _ nextTask => (nextTask.r, nextTask.c) = block ∧
      (GoesThrough nextTask ledger.st → ledger.st.buf.prefetchedSize = 0)
  | .reverse _ => True

variable {fl world}

theorem run_ledger_st (events : List SectionEvent) (ledger : Ledger) :
    (run (ledgerStep fl world) events ledger).st =
      performAll fl world events ledger.st := by
  induction events generalizing ledger with
  | nil => rfl
  | cons event events ih => exact ih _

theorem ledgerStep_oneBlock {block : ℤ × ℤ} {event : SectionEvent}
    {ledger ledger' : Ledger} (hadds : event.Adds block ledger)
    (hone : ledger.OneBlock block)
    (hstep : ledgerStep fl world event ledger = some ledger') :
    ledger'.OneBlock block := by
  obtain rfl := Option.some.inj hstep
  cases event with
  | reverse prReverse =>
      exact ⟨hone.counted, hone.pending, hone.gained, hone.recorded, hone.fresh⟩
  | prefetch stage nextTask =>
      obtain ⟨hblock, hnothing⟩ := hadds
      have hcounts := prefetchNext_counts fl world stage nextTask ledger.st
      have hsize : (prefetchNext fl world stage.isPrefetch stage.priority
            nextTask ledger.st).buf.prefetchedSize =
          ledger.st.buf.prefetchedSize +
            pagesAdded fl world stage nextTask ledger.st := by
        rw [hcounts.size]
        by_cases hthrough : GoesThrough nextTask ledger.st
        · rw [if_pos hthrough, hnothing hthrough, zero_add]
        · rw [if_neg hthrough, pagesAdded_of_not fl world stage nextTask _
            hthrough, add_zero]
      refine ⟨?_, ?_, ?_, fun _ => ?_, fun hfound => ?_⟩
      · change (prefetchNext fl world stage.isPrefetch stage.priority nextTask
          ledger.st).buf.CountedOnce
        rw [PrefetchBuffer.CountedOnce,
          longLong_priorityPages hcounts.priority, hcounts.total, hsize,
          ← add_assoc]
        exact longLong_add_congr hone.counted _
      · simp only [List.map_append, List.sum_append, List.map_cons,
          List.map_nil, List.sum_cons, List.sum_nil, add_zero, ← hone.pending]
        exact hsize
      · intro entry hentry
        rcases List.mem_append.mp hentry with hold | hnew
        · exact hone.gained entry hold
        · rw [List.mem_singleton.mp hnew]
          exact hblock
      · refine hcounts.recorded.trans ?_
        cases hfound : ledger.st.found with
        | false => exact hblock
        | true => exact hone.recorded hfound
      · cases hfound

/-- Only the next task counts hits. -/
theorem run_ledger_hits (events : List SectionEvent) (ledger : Ledger) :
    (run (ledgerStep fl world) events ledger).st.buf.prefetchHitCnt =
      ledger.st.buf.prefetchHitCnt := by
  refine @run_invariant _ _ (ledgerStep fl world) (fun now =>
    now.st.buf.prefetchHitCnt = ledger.st.buf.prefetchHitCnt) ?_ events _ rfl
  intro event now now' hhits hstep
  obtain rfl := Option.some.inj hstep
  cases event with
  | reverse prReverse => exact hhits
  | prefetch stage nextTask =>
      have hcounts := prefetchNext_counts fl world stage nextTask now.st
      exact hcounts.hits.trans hhits

end Sections

/-! ## Processed tasks -/

/-- A task that the worker processes: after a future value or a normal one, in
which world, the measured processing time, and the choices of the demand access.
-/
structure ProcessedTask where
  future : Bool
  world : PrefetchWorld
  task : PrefetchTask
  edgeProcTime : ℤ
  allocated : Bool
  invalidates : Bool

/-- The worker's buffer, with the pages that each prefetch after the last task
has added. -/
structure Worker where
  buf : PrefetchBuffer
  gained : List ((ℤ × ℤ) × ℤ)

namespace ProcessedTask

section Sections

variable (fl : FloatRounding 53) (step : ProcessedTask) (buf : PrefetchBuffer)

/-- The demand access: bytes that were not cached, and the buffer. -/
def read : ℤ × EdgeBuffer :=
  processTask step.world.params (fun _ _ => step.task.edgeBlockLen)
    buf.toEdgeBuffer step.world.aggregated buf.prReverse step.task.r
    step.task.c step.allocated step.invalidates none

/-- The share of the block that has to be transferred. -/
def ratio : ℚ :=
  if step.task.edgeBlockLen = 0 then 1
  else quotient fl (step.read buf).1 step.task.edgeBlockLen

/-- The section that follows the demand access. -/
def outcome : PrefetchOutcome :=
  (if step.future then futurePrefetchSection fl else normalPrefetchSection fl)
    step.world step.task { buf with toEdgeBuffer := (step.read buf).2 }
    step.edgeProcTime (step.ratio fl buf) (step.read buf).1

def budget : ℤ :=
  (if step.future then futureBudget fl else normalBudget)
    (prefetchRatio fl step.edgeProcTime step.task.nsecsTarget
      (step.ratio fl buf))
    step.task.nsecsTarget

/-- The buffer after the statistics of the last prefetch. -/
def counted : PrefetchBuffer :=
  let buf' := { buf with
    toEdgeBuffer := (step.read buf).2 }.countPrefetched step.task
  let overlapped := scaled fl step.task.edgeBlockLen (fl.round
    (pipelineRatio fl step.edgeProcTime step.task.nsecsTarget *
      step.ratio fl buf))
  { buf' with
    hitCnt := longLong
      (buf'.hitCnt + pages (min overlapped (step.read buf).1)) }

def events : List SectionEvent :=
  sectionEvents fl step.world step.task
    (ratioLeft fl step.edgeProcTime step.task.nsecsTarget (step.ratio fl buf))
    (step.budget fl buf) (step.counted fl buf)

/-- The ledger of the section before its first event. -/
def ledger : Ledger :=
  ⟨prefetchStart (step.budget fl buf) (step.counted fl buf), []⟩

/-- The section is the run of its events. -/
theorem outcome_buf (hprefetching : step.task.isPrefetching = 2) :
    (step.outcome fl buf).buf = (run (ledgerStep fl step.world)
      (step.events fl buf) (step.ledger fl buf)).st.buf := by
  have hsection : ∀ budget : ℚ → ℤ → ℤ,
      (prefetchSection fl budget step.world step.task
        { buf with toEdgeBuffer := (step.read buf).2 } step.edgeProcTime
        (step.ratio fl buf) (step.read buf).1).buf =
      (prefetchStages fl step.world step.task
        (ratioLeft fl step.edgeProcTime step.task.nsecsTarget
          (step.ratio fl buf))
        (budget (prefetchRatio fl step.edgeProcTime step.task.nsecsTarget
          (step.ratio fl buf)) step.task.nsecsTarget)
        (step.counted fl buf)).buf := by
    intro budget
    rw [prefetchSection, if_neg (by omega), if_neg (by omega)]
    rfl
  rw [run_ledger_st, ledger, events, ← prefetchStages_eq, outcome, budget]
  cases step.future with
  | false => exact hsection normalBudget
  | true => exact hsection (futureBudget fl)

/-- The block recorded in `prefetched_r` and `prefetched_c` is processed. -/
def Recorded : Prop := buf.recorded = (step.task.r, step.task.c)

instance : Decidable (step.Recorded buf) :=
  inferInstanceAs (Decidable (_ = _))

end Sections

end ProcessedTask

section Tasks

variable (fl : FloatRounding 53)

def taskStep (step : ProcessedTask) (worker : Worker) : Option Worker :=
  some {
    buf := (step.outcome fl worker.buf).buf
    gained := (run (ledgerStep fl step.world) (step.events fl worker.buf)
      (step.ledger fl worker.buf)).gained }

/-- After the task every prefetched page is counted once, and the hits have
grown by the pages of the recorded block if that is the block of the task. -/
def ProcessedTask.SettlesOnce (step : ProcessedTask) (worker : Worker) : Prop :=
  (turn (taskStep fl) worker step).buf.CountedOnce ∧
    (turn (taskStep fl) worker step).buf.prefetchHitCnt =
      if step.Recorded worker.buf then
        longLong (worker.buf.prefetchHitCnt +
          pagesOf (step.task.r, step.task.c) worker.gained)
      else worker.buf.prefetchHitCnt

instance (step : ProcessedTask) (worker : Worker) :
    Decidable (step.SettlesOnce fl worker) :=
  inferInstanceAs (Decidable (_ ∧ _))

/-- The pages pending are those of the recorded block. -/
structure Worker.Pending (worker : Worker) : Prop where
  counted : worker.buf.CountedOnce
  pending : worker.buf.prefetchedSize = (worker.gained.map Prod.snd).sum
  recorded : ∀ entry ∈ worker.gained, entry.1 = worker.buf.recorded

theorem Ledger.OneBlock.pending_recorded {block : ℤ × ℤ} {ledger : Ledger}
    (hone : ledger.OneBlock block) :
    ∀ entry ∈ ledger.gained, entry.1 = ledger.st.buf.recorded := by
  intro entry hentry
  cases hfound : ledger.st.found with
  | false =>
      rw [hone.fresh hfound] at hentry
      exact absurd hentry List.not_mem_nil
  | true => rw [hone.gained entry hentry, hone.recorded hfound]

theorem pagesOf_eq_sum {block : ℤ × ℤ} {gained : List ((ℤ × ℤ) × ℤ)}
    (hblock : ∀ entry ∈ gained, entry.1 = block) :
    pagesOf block gained = (gained.map Prod.snd).sum := by
  rw [pagesOf, List.filter_eq_self.mpr (by simpa using hblock)]

variable {fl} {step : ProcessedTask} {worker : Worker}

/-- The statistics at the start of a section settle the last one. -/
theorem ledger_oneBlock (hpending : worker.Pending) (block : ℤ × ℤ) :
    (step.ledger fl worker.buf).OneBlock block := by
  refine ⟨?_, rfl, by simp [ProcessedTask.ledger], ?_, fun _ => rfl⟩
  · have hsettled : longLong worker.buf.priorityPages =
        longLong (longLong (worker.buf.totalPrefetchCnt +
          worker.buf.prefetchedSize) + 0) := by
      rw [add_zero]
      exact hpending.counted.trans Int.bmod_bmod.symm
    exact hsettled
  · intro hfound
    cases hfound

/-- A task whose section prefetches one block settles the pages of the last
section and leaves its own pending. -/
theorem taskStep_settles {block : ℤ × ℤ}
    (hprefetching : step.task.isPrefetching = 2) (hpending : worker.Pending)
    (hone : (run (ledgerStep fl step.world) (step.events fl worker.buf)
      (step.ledger fl worker.buf)).OneBlock block) :
    step.SettlesOnce fl worker ∧ (turn (taskStep fl) worker step).Pending := by
  have hbuf := step.outcome_buf fl worker.buf hprefetching
  have hnext : (turn (taskStep fl) worker step).Pending := by
    refine ⟨?_, ?_, ?_⟩
    · change (step.outcome fl worker.buf).buf.CountedOnce
      rw [hbuf]
      exact hone.counted
    · change (step.outcome fl worker.buf).buf.prefetchedSize = _
      rw [hbuf]
      exact hone.pending
    · change ∀ entry ∈ (turn (taskStep fl) worker step).gained,
        entry.1 = (step.outcome fl worker.buf).buf.recorded
      rw [hbuf]
      exact hone.pending_recorded
  refine ⟨⟨hnext.counted, ?_⟩, hnext⟩
  calc (turn (taskStep fl) worker step).buf.prefetchHitCnt
      = (step.outcome fl worker.buf).buf.prefetchHitCnt := rfl
    _ = (step.ledger fl worker.buf).st.buf.prefetchHitCnt := by
        rw [hbuf, run_ledger_hits]
    _ = if worker.buf.prefetchedR = step.task.r ∧
            worker.buf.prefetchedC = step.task.c then
          longLong (worker.buf.prefetchHitCnt + worker.buf.prefetchedSize)
        else worker.buf.prefetchHitCnt := rfl
    _ = _ := by
        by_cases hrecorded : step.Recorded worker.buf
        · rw [if_pos hrecorded, if_pos (Prod.mk.inj hrecorded),
            hpending.pending, pagesOf_eq_sum]
          intro entry hentry
          exact (hpending.recorded entry hentry).trans hrecorded
        · have hother : ¬ (worker.buf.prefetchedR = step.task.r ∧
              worker.buf.prefetchedC = step.task.c) := fun hsame =>
            hrecorded (Prod.ext hsame.1 hsame.2)
          rw [if_neg hrecorded, if_neg hother]

end Tasks

end NvmeVirt.Csd
