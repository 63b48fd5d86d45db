import NvmeVirt.Csd.PrefetchCounts

/-!
# The tasks that a section tries

A section tries the executable future tasks, the latest one first, and then the
tasks at the front of the two queues.  The front of the normal queue belongs to
one of two stages, and the stages end when the time does.  So a section tries at
most one task if there is only one to try, or if the first prefetch takes all
the time.
-/

namespace NvmeVirt.Csd

open Rounding

/-- The task whose block an event prefetches. -/
def SectionEvent.tried : SectionEvent → Option PrefetchTask
  | .prefetch _ nextTask => some nextTask
  | .reverse _ => none

def triedTasks (events : List SectionEvent) : List PrefetchTask :=
  events.filterMap SectionEvent.tried

/-- The future tasks whose rows are aggregated, the latest one first. -/
def PrefetchWorld.executable (world : PrefetchWorld) : List PrefetchTask :=
  world.futureQueue.reverse.filter fun task => world.aggregated task.r

/-- The tasks at the front of the queues. -/
def PrefetchWorld.fronts (world : PrefetchWorld) : List PrefetchTask :=
  world.normalQueue.take 1 ++ world.futureQueue.take 1

/-- The tasks whose blocks a section may prefetch. -/
def PrefetchWorld.candidates (world : PrefetchWorld) : List PrefetchTask :=
  world.executable ++ world.fronts

/-- The candidates with which a section may begin. -/
def PrefetchWorld.heads (world : PrefetchWorld) : List PrefetchTask :=
  match world.executable with
  | [] => world.fronts
  | nextTask :: _ => [nextTask]

section Tried

variable {fl : FloatRounding 53} {world : PrefetchWorld} {task : PrefetchTask}
  {ratio : ℚ} {st : Prefetching}

theorem triedTasks_andThen (first second : Prefetching → List SectionEvent) :
    triedTasks (andThen fl world first second st) =
      triedTasks (first st) ++
        triedTasks (second (performAll fl world (first st) st)) :=
  List.filterMap_append

/-- The events from the second stage on. -/
def frontEvents (fl : FloatRounding 53) (world : PrefetchWorld)
    (task : PrefetchTask) (ratio : ℚ) : Prefetching → List SectionEvent :=
  andThen fl world (normalEvents fl world task ratio) <|
    andThen fl world (unexecutableEvents world) <|
      andThen fl world (fun _ => [.reverse false])
        (nextIterationEvents world task)

theorem executableEvents_of_none {tasks : List PrefetchTask}
    (hnone : tasks.filter (fun task => world.aggregated task.r) = []) :
    executableEvents fl world tasks st = [] := by
  induction tasks with
  | nil => rfl
  | cons nextTask rest ih =>
      rw [List.filter_eq_nil_iff] at hnone
      rw [executableEvents, if_neg (hnone nextTask List.mem_cons_self)]
      exact ih (List.filter_eq_nil_iff.mpr fun other hother =>
        hnone other (List.mem_cons_of_mem _ hother))

/-- The first executable task ends its stage if it takes all the time. -/
theorem executableEvents_of_cons {tasks rest : List PrefetchTask}
    {nextTask : PrefetchTask}
    (hfirst : tasks.filter (fun task => world.aggregated task.r) =
      nextTask :: rest)
    (htime : (prefetchNext fl world 1 2 nextTask st).edgeProcTime ≤ 0) :
    executableEvents fl world tasks st = [.prefetch .executable nextTask] := by
  induction tasks with
  | nil => cases hfirst
  | cons other tasks ih =>
      by_cases haggregated : world.aggregated other.r
      · rw [List.filter_cons, if_pos haggregated] at hfirst
        obtain ⟨rfl, -⟩ := List.cons.inj hfirst
        rw [executableEvents, if_pos haggregated]
        simp only [if_pos htime]
      · rw [List.filter_cons, if_neg haggregated] at hfirst
        rw [executableEvents, if_neg haggregated]
        exact ih hfirst

theorem mem_executable_of_tried {nextTask : PrefetchTask}
    (htried : nextTask ∈ triedTasks
      (executableEvents fl world world.futureQueue.reverse st)) :
    nextTask ∈ world.executable := by
  rw [PrefetchWorld.executable]
  generalize world.futureQueue.reverse = tasks at htried ⊢
  induction tasks generalizing st with
  | nil => cases htried
  | cons other tasks ih =>
      rw [executableEvents] at htried
      by_cases haggregated : world.aggregated other.r
      · rw [List.filter_cons, if_pos haggregated]
        rw [if_pos haggregated] at htried
        rcases List.mem_cons.mp htried with rfl | hrest
        · exact List.mem_cons_self
        · refine List.mem_cons_of_mem _ ?_
          split at hrest
          · cases hrest
          · exact ih hrest
      · rw [List.filter_cons, if_neg haggregated]
        rw [if_neg haggregated] at htried
        exact ih htried

/-- Without time, the later stages try nothing. -/
theorem nextIterationEvents_done (htime : st.edgeProcTime ≤ 0) :
    nextIterationEvents world task st = [] := by
  rw [nextIterationEvents.eq_def]
  cases world.normalQueue with
  | nil => rfl
  | cons nextTask rest => exact if_pos htime

theorem unexecutableEvents_done (htime : st.edgeProcTime ≤ 0) :
    unexecutableEvents world st = [] := by
  rw [unexecutableEvents.eq_def]
  cases world.futureQueue with
  | nil => rfl
  | cons nextTask rest => exact if_pos htime

theorem normalEvents_done (htime : st.edgeProcTime ≤ 0) :
    normalEvents fl world task ratio st = [] := by
  rw [normalEvents.eq_def]
  cases world.normalQueue with
  | nil => rfl
  | cons nextTask rest => exact if_pos htime

theorem frontEvents_done (htime : st.edgeProcTime ≤ 0) :
    triedTasks (frontEvents fl world task ratio st) = [] := by
  simp only [frontEvents, andThen, normalEvents_done htime,
    unexecutableEvents_done htime, performAll, List.foldl_nil, List.nil_append,
    List.foldl_cons]
  rw [nextIterationEvents_done (by exact htime)]
  rfl

/-- What the normal stage does: nothing, a reversal, or the prefetch of the
block of the front task, which the last stage then does not try. -/
theorem normalEvents_cases :
    normalEvents fl world task ratio st = [] ∨
      normalEvents fl world task ratio st = [.reverse true] ∨
      ∃ nextTask rest, world.normalQueue = nextTask :: rest ∧
        normalEvents fl world task ratio st = [.prefetch .normal nextTask] ∧
        ∀ later, nextIterationEvents world task later = [] := by
  rw [normalEvents.eq_def]
  rcases hqueue : world.normalQueue with _ | ⟨nextTask, rest⟩
  · exact .inl rfl
  dsimp only
  split_ifs with htime hreverses hkinds
  · exact .inl rfl
  · exact .inr (.inl rfl)
  · exact .inl rfl
  · refine .inr (.inr ⟨nextTask, rest, rfl, rfl, fun later => ?_⟩)
    rw [nextIterationEvents.eq_def, hqueue]
    simp only [if_neg hkinds, ite_self]

theorem unexecutableEvents_cases :
    unexecutableEvents world st = [] ∨
      ∃ nextTask rest, world.futureQueue = nextTask :: rest ∧
        unexecutableEvents world st = [.prefetch .unexecutable nextTask] := by
  rw [unexecutableEvents.eq_def]
  rcases hqueue : world.futureQueue with _ | ⟨nextTask, rest⟩
  · exact .inl rfl
  dsimp only
  split_ifs with htime
  · exact .inl rfl
  · exact .inr ⟨nextTask, rest, rfl, rfl⟩

theorem nextIterationEvents_cases :
    nextIterationEvents world task st = [] ∨
      ∃ nextTask rest, world.normalQueue = nextTask :: rest ∧
        nextIterationEvents world task st =
          [.prefetch .nextIteration nextTask] := by
  rw [nextIterationEvents.eq_def]
  rcases hqueue : world.normalQueue with _ | ⟨nextTask, rest⟩
  · exact .inl rfl
  dsimp only
  split_ifs with htime hkinds
  · exact .inl rfl
  · exact .inr ⟨nextTask, rest, rfl, rfl⟩
  · exact .inl rfl

theorem mem_fronts_of_normal {nextTask : PrefetchTask}
    {rest : List PrefetchTask} (hqueue : world.normalQueue = nextTask :: rest) :
    nextTask ∈ world.fronts := by
  simp [PrefetchWorld.fronts, hqueue]

theorem mem_fronts_of_future {nextTask : PrefetchTask}
    {rest : List PrefetchTask} (hqueue : world.futureQueue = nextTask :: rest) :
    nextTask ∈ world.fronts := by
  simp [PrefetchWorld.fronts, hqueue]

/-- The tasks that the later stages try, stage by stage. -/
theorem triedTasks_frontEvents : ∃ st' st'',
    triedTasks (frontEvents fl world task ratio st) =
      triedTasks (normalEvents fl world task ratio st) ++
        (triedTasks (unexecutableEvents world st') ++
          triedTasks (nextIterationEvents world task st'')) := by
  rw [frontEvents, triedTasks_andThen, triedTasks_andThen, triedTasks_andThen]
  exact ⟨_, _, rfl⟩

theorem mem_fronts_of_tried {nextTask : PrefetchTask}
    (htried : nextTask ∈ triedTasks (frontEvents fl world task ratio st)) :
    nextTask ∈ world.fronts := by
  obtain ⟨st', st'', hevents⟩ := @triedTasks_frontEvents fl world task ratio st
  rw [hevents, List.mem_append, List.mem_append] at htried
  rcases htried with hnormal | hfuture | hlater
  · rcases @normalEvents_cases fl world task ratio st with
      hnone | hreverse | ⟨front, rest, hqueue, hprefetch, -⟩
    · rw [hnone] at hnormal
      cases hnormal
    · rw [hreverse] at hnormal
      cases hnormal
    · rw [hprefetch] at hnormal
      rw [List.mem_singleton.mp hnormal]
      exact mem_fronts_of_normal hqueue
  · rcases @unexecutableEvents_cases world st' with
      hnone | ⟨front, rest, hqueue, hprefetch⟩
    · rw [hnone] at hfuture
      cases hfuture
    · rw [hprefetch] at hfuture
      rw [List.mem_singleton.mp hfuture]
      exact mem_fronts_of_future hqueue
  · rcases @nextIterationEvents_cases world task st'' with
      hnone | ⟨front, rest, hqueue, hprefetch⟩
    · rw [hnone] at hlater
      cases hlater
    · rw [hprefetch] at hlater
      rw [List.mem_singleton.mp hlater]
      exact mem_fronts_of_normal hqueue

theorem unexecutableEvents_length_le :
    (triedTasks (unexecutableEvents world st)).length ≤ 1 := by
  rcases @unexecutableEvents_cases world st with hnone | ⟨_, _, -, hprefetch⟩
  · rw [hnone]
    exact Nat.zero_le _
  · rw [hprefetch]
    exact le_rfl

theorem nextIterationEvents_length_le :
    (triedTasks (nextIterationEvents world task st)).length ≤ 1 := by
  rcases @nextIterationEvents_cases world task st with
    hnone | ⟨_, _, -, hprefetch⟩
  · rw [hnone]
    exact Nat.zero_le _
  · rw [hprefetch]
    exact le_rfl

/-- With one front task, the later stages try at most that one, and once. -/
theorem frontEvents_length_le (hfronts : world.fronts.length ≤ 1) :
    (triedTasks (frontEvents fl world task ratio st)).length ≤ 1 := by
  obtain ⟨st', st'', hevents⟩ := @triedTasks_frontEvents fl world task ratio st
  rw [hevents]
  by_cases hnormal : world.normalQueue = []
  · have hfirst : normalEvents fl world task ratio st = [] := by
      rw [normalEvents.eq_def, hnormal]
    have hlast : nextIterationEvents world task st'' = [] := by
      rw [nextIterationEvents.eq_def, hnormal]
    rw [hfirst, hlast]
    simpa [triedTasks] using @unexecutableEvents_length_le world st'
  · have hfuture : world.futureQueue = [] := by
      by_contra hfuture
      have hlength := List.length_pos_of_ne_nil hnormal
      have hlength' := List.length_pos_of_ne_nil hfuture
      rw [PrefetchWorld.fronts, List.length_append, List.length_take,
        List.length_take] at hfronts
      omega
    have hmiddle : unexecutableEvents world st' = [] := by
      rw [unexecutableEvents.eq_def, hfuture]
    have hlast := @nextIterationEvents_length_le world task st''
    rw [hmiddle]
    rcases @normalEvents_cases fl world task ratio st with
      hnone | hreverse | ⟨_, _, -, hprefetch, hlater⟩
    · simpa [hnone, triedTasks] using hlast
    · rw [hreverse]
      exact hlast
    · simp [hprefetch, hlater, triedTasks, SectionEvent.tried]

/-- The prefetch of a task's block takes all the time, in any stage. -/
def Exhausts (fl : FloatRounding 53) (world : PrefetchWorld) (st : Prefetching)
    (nextTask : PrefetchTask) : Prop :=
  ∀ stage prReverse, ((SectionEvent.prefetch stage nextTask).perform fl world
    ((SectionEvent.reverse prReverse).perform fl world st)).edgeProcTime ≤ 0

/-- If each front task takes all the time, only the first one is tried. -/
theorem frontEvents_length_le_of_exhausts
    (hfronts : ∀ nextTask ∈ world.fronts, Exhausts fl world st nextTask) :
    (triedTasks (frontEvents fl world task ratio st)).length ≤ 1 := by
  -- A reversal does not matter to the stages after it.
  have hrest : ∀ prReverse, (triedTasks (andThen fl world
      (unexecutableEvents world) (andThen fl world (fun _ => [.reverse false])
        (nextIterationEvents world task))
      ((SectionEvent.reverse prReverse).perform fl world st))).length ≤ 1 := by
    intro prReverse
    rw [triedTasks_andThen, triedTasks_andThen]
    rcases @unexecutableEvents_cases world
      ((SectionEvent.reverse prReverse).perform fl world st) with
      hnone | ⟨front, rest, hqueue, hprefetch⟩
    · rw [hnone]
      exact nextIterationEvents_length_le
    · have htime := hfronts front (mem_fronts_of_future hqueue) .unexecutable
        prReverse
      have hdone : nextIterationEvents world task (performAll fl world
          [.reverse false] (performAll fl world [.prefetch .unexecutable front]
            ((SectionEvent.reverse prReverse).perform fl world st))) = [] :=
        nextIterationEvents_done htime
      rw [hprefetch, hdone]
      exact le_rfl
  rw [frontEvents, triedTasks_andThen]
  rcases @normalEvents_cases fl world task ratio st with
    hnone | hreverse | ⟨front, rest, hqueue, hprefetch, hlater⟩
  · rw [hnone]
    exact hrest st.buf.prReverse
  · rw [hreverse]
    exact hrest true
  · have htime := hfronts front (mem_fronts_of_normal hqueue) .normal
      st.buf.prReverse
    have hdone : unexecutableEvents world (performAll fl world
        [.prefetch .normal front] st) = [] := unexecutableEvents_done htime
    rw [hprefetch, triedTasks_andThen, triedTasks_andThen, hdone, hlater]
    exact le_rfl

/-- A section tries only candidates. -/
theorem mem_candidates_of_tried {edgeProcTime : ℤ} {buf : PrefetchBuffer}
    {nextTask : PrefetchTask} (htried : nextTask ∈
      triedTasks (sectionEvents fl world task ratio edgeProcTime buf)) :
    nextTask ∈ world.candidates := by
  rw [sectionEvents] at htried
  split at htried
  · cases htried
  · rw [stageEvents, triedTasks_andThen, List.mem_append] at htried
    rw [PrefetchWorld.candidates, List.mem_append]
    exact htried.imp mem_executable_of_tried mem_fronts_of_tried

/-- A section with no time, with one candidate, or whose first prefetch takes
all the time tries at most one task. -/
theorem sectionEvents_length_le {edgeProcTime : ℤ} {buf : PrefetchBuffer}
    (hone : edgeProcTime ≤ 0 ∨ world.candidates.length ≤ 1 ∨
      ∀ nextTask ∈ world.heads,
        Exhausts fl world (prefetchStart edgeProcTime buf) nextTask) :
    (triedTasks (sectionEvents fl world task ratio edgeProcTime buf)).length ≤
      1 := by
  rw [sectionEvents]
  split
  · exact Nat.zero_le _
  next htime =>
  rw [stageEvents, triedTasks_andThen]
  rcases hexecutable : world.executable with _ | ⟨head, rest⟩
  · rw [executableEvents_of_none hexecutable]
    rcases hone.resolve_left htime with hlength | hheads
    · rw [PrefetchWorld.candidates, hexecutable, List.nil_append] at hlength
      exact frontEvents_length_le hlength
    · rw [PrefetchWorld.heads, hexecutable] at hheads
      exact frontEvents_length_le_of_exhausts hheads
  · rcases hone.resolve_left htime with hlength | hheads
    · -- The head is in the future queue, whose front is a candidate, too.
      have hmem : head ∈ world.futureQueue := by
        have hhead : head ∈ world.executable :=
          hexecutable ▸ List.mem_cons_self
        exact List.mem_reverse.mp (List.mem_of_mem_filter hhead)
      have hfuture := List.length_pos_of_mem hmem
      rw [PrefetchWorld.candidates, hexecutable, PrefetchWorld.fronts,
        List.length_append, List.length_append, List.length_take,
        List.length_take, List.length_cons] at hlength
      omega
    · rw [PrefetchWorld.heads, hexecutable] at hheads
      have htime' : (prefetchNext fl world 1 2 head
          (prefetchStart edgeProcTime buf)).edgeProcTime ≤ 0 :=
        hheads head List.mem_cons_self .executable buf.prReverse
      have hdone : triedTasks (frontEvents fl world task ratio
          (performAll fl world [.prefetch .executable head]
            (prefetchStart edgeProcTime buf))) = [] := frontEvents_done htime'
      rw [executableEvents_of_cons hexecutable htime']
      change (_ ++ triedTasks (frontEvents fl world task ratio _)).length ≤ 1
      rw [hdone]
      exact le_rfl

end Tried

end NvmeVirt.Csd
