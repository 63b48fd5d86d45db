import NvmeVirt.DualQueue.Sources

/-!
# Every run can be finished

A worker that waits goes round its loop without effect, so not every step of a
device brings the run forward.  But as long as a device has a task that has not
been run, or has not closed the iteration although all columns have been
announced, one of its parties has a step that does, and the host waits for
nothing else.
-/

namespace NvmeVirt.DualQueue

open Function NvmeVirt.Csd

variable {s : Setup} {csd : ℕ} {st st' : State}

/-! ## Ranks -/

/-- Steps that the aggregation of some columns takes. -/
def columnsRank (s : Setup) (columns : List ℕ) : ℕ :=
  (columns.map fun c =>
    (mergeTodo s c).length + (partitionVertices s.toConfig c).length + 4).sum

def hostRank (s : Setup) (k : ℕ) : HostPc → ℕ
  | .finished => 0
  | .wait => 1
  | .aggr columns => 2 + columnsRank s columns
  | .notify _ rest => 3 + columnsRank s rest
  | .damp _ rest todo => 4 + todo.length + columnsRank s rest
  | .merge c rest todo => 5 + todo.length +
      (partitionVertices s.toConfig c).length + columnsRank s rest
  | .send todo => todo.length + 3 + columnsRank s (columnOrder s k)
  | .release todo => todo.length + (sendTodo s k).length + 4 +
      columnsRank s (columnOrder s k)

/-- Whether the device has still to close the iteration. -/
def Device.opens (dev : Device) (k : ℕ) : ℕ :=
  match dev.worker with
  | .raise _ | .barrier _ => if dev.copies = k then 0 else 1
  | _ => 1

/-- What a device has still to do in iteration `k`. -/
def pending (s : Setup) (csd k : ℕ) (dev : Device) : ℕ :=
  (k - dev.copies) + dev.opens k + 2 * dev.sq.length +
    dev.dispatched.toList.length +
    ((normals s csd k).length -
      (dev.ran false k ++ dev.running false).length) +
    (((normals s csd k).filter (ahead s k)).length -
      (dev.ran true (k + 1) ++ dev.running true).length)

/-- Steps of the worker until it has done a part of that. -/
def workerRank (s : Setup) (dev : Device) : ℕ :=
  match dev.worker with
  | .run _ _ edges _ => edges.length + 6
  | .raise _ => s.numVertices + 9
  | .barrier _ => s.numVertices + 8
  | .copy _ todo => todo.length + 7
  | .normalCheck => if dev.normalQueue = [] then 4 else 1
  | .top => 3
  | .await _ | .check _ => 2
  | .scan _ _ | .find _ _ => 0

/-- A step of one device that brings it forward. -/
structure Advances (s : Setup) (csd : ℕ) (st st' : State) : Prop where
  iter_eq : st'.iter = st.iter
  host_eq : st'.host = st.host
  others : ∀ other, other ≠ csd → st'.devices other = st.devices other
  rank_lt :
    pending s csd st.iter (st'.devices csd) <
        pending s csd st.iter (st.devices csd) ∨
      pending s csd st.iter (st'.devices csd) =
          pending s csd st.iter (st.devices csd) ∧
        workerRank s (st'.devices csd) < workerRank s (st.devices csd)

/-- The device has to act before the host can go on. -/
def MustAct (s : Setup) (csd : ℕ) (st : State) : Prop :=
  (st.devices csd).running false ≠ [] ∨ (st.devices csd).queued ≠ [] ∨
    (∀ c < s.numPartitions, st.mem.donePartition c = true) ∧
      st.mem.donePartition (barrierId s.numPartitions csd) = false

/-! ## What is left to do -/

variable {k : ℕ} {dev : Device}

/-- A working device with nothing else left has the marker in its queue. -/
theorem DeviceInv.futureQueue_ne_nil (h : DeviceInv s csd k dev [])
    (hworking : Working s csd k dev) (hk : k < s.numIters)
    (hidle : ∀ f, dev.running f = []) (hqueued : dev.queued = []) :
    dev.futureQueue ≠ [] := by
  intro hfuture
  obtain ⟨waiting, hwaiting⟩ := hworking.waiting
  have hran : dev.ran false k = normals s csd k := by
    have heq := h.normals_eq
    rw [hidle, hqueued] at heq
    simpa using heq
  have hend : endBlock s k ∈ dev.ran false k := by
    obtain ⟨front, hfront⟩ := normals_split s csd hk
    rw [hran, hfront]
    simp
  have hqueue := hwaiting.queue_eq
  rw [hfuture, eq_comm, List.append_eq_nil_iff, List.map_eq_nil_iff] at hqueue
  obtain ⟨hnone, hmarker⟩ := hqueue
  have hnot : ¬Marked s k dev := by
    intro hmarked
    rw [if_pos hmarked] at hmarker
    cases hmarker
  apply hnot
  unfold Marked
  split
  · rename_i hlate
    -- The end block is run ahead of time, and nothing waits any more.
    have hahead : ahead s k (endBlock s k) = true := by
      have htwo := s.two_partitions
      simp only [markedLate, Bool.and_eq_true, decide_eq_true_eq] at hlate
      have hodd : ¬k % 2 = 0 := by omega
      simp only [ahead, endBlock, if_neg hodd, hlate.2, decide_true,
        Bool.true_and]
      split
      · simp
      · simp
        omega
    have hmem := hwaiting.perm.mem_iff.mpr
      (List.mem_filter.mpr ⟨hend, hahead⟩)
    rw [hidle, hnone] at hmem
    simpa using hmem
  · exact hend

theorem DeviceInv.ran_length_lt (h : DeviceInv s csd k dev [])
    (hqueued : dev.queued ≠ []) :
    (dev.ran false k ++ dev.running false).length <
      (normals s csd k).length := by
  have hlength := congrArg List.length h.normals_eq
  have hpos := List.length_pos_iff.mpr hqueued
  simp only [List.length_append, List.length_map, List.length_nil] at hlength ⊢
  omega

theorem Waiting.ran_length_lt {waiting : List (ℕ × ℕ)}
    (h : DeviceInv s csd k dev []) (hwaiting : Waiting s csd k dev waiting)
    (hne : waiting ≠ []) :
    (dev.ran true (k + 1) ++ dev.running true).length <
      ((normals s csd k).filter (ahead s k)).length := by
  have hsublist : (dev.ran false k).Sublist (normals s csd k) := by
    rw [← h.normals_eq, List.append_assoc, List.append_assoc]
    exact List.sublist_append_left _ _
  have hle := (hsublist.filter (ahead s k)).length_le
  have hlength := hwaiting.perm.length_eq
  rw [List.length_append] at hlength
  have hpos := List.length_pos_iff.mpr hne
  omega

/-! ## Steps of the worker -/

/-- The worker moves between places where it neither runs a task nor closes an
iteration. -/
theorem Advances.move {worker : WorkerPc} (hold : (st.devices csd).worker.Idle)
    (hnew : worker.Idle)
    (hrank : workerRank s { st.devices csd with worker := worker } <
      workerRank s (st.devices csd)) :
    Advances s csd st (st.setWorker csd worker) := by
  refine ⟨rfl, rfl, fun other hne => State.devices_setDevice_of_ne hne _ _,
    .inr ⟨?_, ?_⟩⟩
  · have hrunning : ∀ dev : Device, dev.worker.Idle → ∀ f,
        dev.running f = [] := by
      intro dev hidle
      apply Device.running_of_ne_run
      intro future node edges state heq
      rw [heq] at hidle
      exact hidle
    have hopens : ∀ dev : Device, dev.worker.Idle → ∀ k, dev.opens k = 1 := by
      intro dev hidle k
      unfold Device.opens
      split
      · rename_i heq
        rw [heq] at hidle
        exact hidle.elim
      · rename_i heq
        rw [heq] at hidle
        exact hidle.elim
      · rfl
    rw [State.setWorker, State.devices_setDevice_self]
    simp only [pending, hrunning _ hold, hopens _ hold,
      hrunning { st.devices csd with worker := worker } hnew,
      hopens { st.devices csd with worker := worker } hnew]
    rfl
  · rw [State.setWorker, State.devices_setDevice_self]
    exact hrank

theorem Advances.ofDevice {mem : Hmb} {dev : Device}
    (hrank : pending s csd st.iter dev <
        pending s csd st.iter (st.devices csd) ∨
      pending s csd st.iter dev = pending s csd st.iter (st.devices csd) ∧
        workerRank s dev < workerRank s (st.devices csd)) :
    Advances s csd st ({ st with mem := mem }.setDevice csd dev) :=
  ⟨rfl, rfl, fun _ hne => State.devices_setDevice_of_ne hne _ _, by
    rw [State.devices_setDevice_self]
    exact hrank⟩

/-- A device that must act, and whose dispatcher has nothing to do. -/
structure Due (s : Setup) (csd : ℕ) (st : State) : Prop where
  inv : Inv s st
  csd_lt : csd < s.numCsds
  mode : s.rowOverlap = 0
  sends_eq : st.host.sends s st.iter = []
  held_eq : st.host.held = []
  iter_lt : st.iter < s.numIters
  must : MustAct s csd st
  sq_eq : (st.devices csd).sq = []
  dispatched_eq : (st.devices csd).dispatched = none

namespace Due

variable (h : Due s csd st)
include h

theorem deviceInv : DeviceInv s csd st.iter (st.devices csd) [] := by
  have hdev := h.inv.devices csd h.csd_lt
  rw [h.sends_eq] at hdev
  exact hdev

/-- If such a device has no normal task in its queue, every column has been
announced and the future queue is not empty. -/
theorem announced (hworking : Working s csd st.iter (st.devices csd))
    (hidle : ∀ f, (st.devices csd).running f = [])
    (hnormal : (st.devices csd).normalQueue = []) :
    (∀ c < s.numPartitions, st.mem.donePartition c = true) ∧
      (st.devices csd).futureQueue ≠ [] := by
  have hqueued : (st.devices csd).queued = [] := by
    simp [Device.queued, hnormal, h.dispatched_eq, h.sq_eq]
  refine ⟨?_, h.deviceInv.futureQueue_ne_nil hworking h.iter_lt hidle hqueued⟩
  rcases h.must with hrunning | hne | ⟨hall, -⟩
  · exact absurd (hidle false) hrunning
  · exact absurd hqueued hne
  · exact hall

theorem top_advances (hworker : (st.devices csd).worker = .top) :
    ∃ st', workerStep s csd st = some st' ∧ Advances s csd st st' := by
  have hworking := h.deviceInv.working (by simp [hworker]) (by simp [hworker])
    (by simp [hworker])
  have hidle := (st.devices csd).running_of_ne_run (by simp [hworker])
  have hold : (st.devices csd).worker.Idle := by rw [hworker]; trivial
  cases hqueue : (st.devices csd).futureQueue with
  | nil =>
      have hnormal : (st.devices csd).normalQueue ≠ [] := fun hnormal =>
        (h.announced hworking hidle hnormal).2 hqueue
      refine ⟨st.setWorker csd .normalCheck,
        by simp only [workerStep, hworker, hqueue, if_neg hnormal],
        .move hold trivial ?_⟩
      simp [workerRank, hworker, hnormal]
  | cons front rest =>
      by_cases hends : endsIteration front = true
      · refine ⟨st.setWorker csd (.await front),
          by simp only [workerStep, hworker, hqueue, if_pos hends],
          .move hold trivial ?_⟩
        simp [workerRank, hworker]
      · refine ⟨st.setWorker csd (scanOrCheck (st.devices csd) front),
          by simp [workerStep, hworker, hqueue, hends],
          .move hold (WorkerPc.idle_scanOrCheck _ _) ?_⟩
        have hrow : front.rowOverlap = 0 := by
          rw [hworking.rowOverlap_eq (by simp [hqueue]), h.mode]
        simp [workerRank, hworker, scanOrCheck, hrow]

theorem check_advances {task : ProcEdge}
    (hworker : (st.devices csd).worker = .check task) :
    ∃ st', workerStep s csd st = some st' ∧ Advances s csd st st' := by
  have hdev := h.deviceInv
  have hworking := hdev.working (by simp [hworker]) (by simp [hworker])
    (by simp [hworker])
  have hidle := (st.devices csd).running_of_ne_run (by simp [hworker])
  have hold : (st.devices csd).worker.Idle := by rw [hworker]; trivial
  have hok := hworking.worker_ok
  simp only [WorkerOk, hworker, h.mode] at hok
  obtain ⟨hrow, hqueueOk⟩ := hok
  have hmove : (st.devices csd).normalQueue ≠ [] →
      Advances s csd st (st.setWorker csd .normalCheck) := by
    intro hnormal
    refine .move hold trivial ?_
    simp [workerRank, hworker, hnormal]
  cases hqueue : (st.devices csd).futureQueue with
  | nil =>
      have hnormal : (st.devices csd).normalQueue ≠ [] := fun hnormal =>
        (h.announced hworking hidle hnormal).2 hqueue
      exact ⟨_, by simp only [workerStep, hworker, hqueue], hmove hnormal⟩
  | cons front rest =>
      rw [hqueue] at hqueueOk
      obtain ⟨hends, hfront⟩ : endsIteration front = false ∧ front = task := by
        rcases hqueueOk with hnil | ⟨-, hhead⟩
        · cases hnil
        · exact ⟨(hhead front rfl).1, (hhead front rfl).2 trivial⟩
      obtain ⟨waiting, hwaiting⟩ := hworking.waiting
      have hne : waiting ≠ [] := by
        rintro rfl
        have heq := hwaiting.queue_eq
        rw [hqueue, List.map_nil, List.nil_append] at heq
        split at heq
        · rw [(List.cons.inj heq).1, endsIteration_marker] at hends
          cases hends
        · cases heq
      by_cases hready : st.mem.donePartition task.r = true
      · refine ⟨takeFuture s csd st 0 front, ?_, rfl, rfl, fun other hother =>
          State.devices_setDevice_of_ne hother _ _, .inl ?_⟩
        · simp [workerStep, hworker, hqueue, hready, hrow]
        · have hlt := hwaiting.ran_length_lt hdev hne
          rw [hidle, List.append_nil] at hlt
          rw [takeFuture, State.devices_setDevice_self]
          simp only [pending, Device.opens, hworker, startRun, Device.running,
            Device.ran] at hlt ⊢
          simp only [List.length_append, List.length_cons, List.length_nil,
            Bool.true_eq_false, if_true, if_false]
          omega
      · have hnormal : (st.devices csd).normalQueue ≠ [] := by
          intro hnormal
          have hall := (h.announced hworking hidle hnormal).1
          apply hready
          apply hall
          -- The first task of the queue is that of a block.
          obtain ⟨block, others, rfl⟩ := List.exists_cons_of_ne_nil hne
          have heq := hwaiting.queue_eq
          rw [hqueue, List.map_cons, List.cons_append] at heq
          rw [← hfront, (List.cons.inj heq).1, task_r]
          have hran : block ∈ (st.devices csd).ran false st.iter :=
            (hwaiting.mem_ran (by simp)).1
          have hlt : block.1 < s.numPartitions ∧ block.2 < s.numPartitions :=
            hdev.mem_normals (by simp [hran])
          exact hlt.1
        exact ⟨_, by simp only [workerStep, hworker, hqueue, if_neg hready],
          hmove hnormal⟩

theorem normalCheck_advances
    (hworker : (st.devices csd).worker = .normalCheck) :
    ∃ st', workerStep s csd st = some st' ∧ Advances s csd st st' := by
  have hdev := h.deviceInv
  have hidle := (st.devices csd).running_of_ne_run (by simp [hworker])
  have hold : (st.devices csd).worker.Idle := by rw [hworker]; trivial
  cases hqueue : (st.devices csd).normalQueue with
  | nil =>
      refine ⟨st.setWorker csd .top, by simp only [workerStep, hworker, hqueue],
        .move hold trivial ?_⟩
      simp [workerRank, hworker, hqueue]
  | cons node rest =>
      obtain ⟨st', hstep⟩ : ∃ st', workerStep s csd st = some st' := by
        simp only [workerStep, hworker, hqueue, Option.some.injEq, exists_eq']
      refine ⟨st', hstep, ?_⟩
      simp only [workerStep, hworker, hqueue, Option.some.injEq] at hstep
      subst hstep
      refine .ofDevice (.inl ?_)
      have hlt := hdev.ran_length_lt (by simp [Device.queued, hqueue])
      rw [hidle, List.append_nil] at hlt
      simp only [pending, Device.opens, hworker, startRun, Device.running,
        Device.ran] at hlt ⊢
      simp only [List.length_append, List.length_cons, List.length_nil,
        Bool.false_eq_true, if_true, if_false]
      omega

theorem await_advances {front : ProcEdge}
    (hworker : (st.devices csd).worker = .await front) :
    ∃ st', workerStep s csd st = some st' ∧ Advances s csd st st' := by
  have hdev := h.deviceInv
  have hworking := hdev.working (by simp [hworker]) (by simp [hworker])
    (by simp [hworker])
  have hidle := (st.devices csd).running_of_ne_run (by simp [hworker])
  obtain ⟨hnormal, hqueue, -⟩ := hdev.closeIteration hworking hworker
  have hfront : front = marker s csd st.iter := by
    have hok := hworking.worker_ok
    simp only [WorkerOk, hworker] at hok
    exact hok.1
  have hready : st.mem.donePartition front.r = true := by
    apply (h.announced hworking hidle hnormal).1
    have htwo := s.two_partitions
    rw [hfront, marker_r]
    split <;> omega
  obtain ⟨st', hstep⟩ : ∃ st', workerStep s csd st = some st' := by
    simp only [workerStep, hworker, if_pos hready, Option.some.injEq, exists_eq']
  refine ⟨st', hstep, ?_⟩
  simp only [workerStep, hworker, if_pos hready, Option.some.injEq] at hstep
  subst hstep
  refine .ofDevice (.inl ?_)
  have hcopies := hworking.copies_eq
  simp only [pending, Device.opens, hworker, Device.running, Device.ran,
    hcopies, if_true]
  omega

omit h in
theorem raise_advances {front : ProcEdge}
    (hworker : (st.devices csd).worker = .raise front) :
    ∃ st', workerStep s csd st = some st' ∧ Advances s csd st st' := by
  obtain ⟨st', hstep⟩ : ∃ st', workerStep s csd st = some st' := by
    simp only [workerStep, hworker, Option.some.injEq, exists_eq']
  refine ⟨st', hstep, ?_⟩
  simp only [workerStep, hworker, Option.some.injEq] at hstep
  subst hstep
  refine .ofDevice (.inr ?_)
  constructor
  · simp only [pending, Device.opens, hworker, Device.running, Device.ran]
  · simp [workerRank, hworker]

theorem barrier_advances {front : ProcEdge}
    (hworker : (st.devices csd).worker = .barrier front) :
    ∃ st', workerStep s csd st = some st' ∧ Advances s csd st st' := by
  have hdev := h.deviceInv
  have hflags := h.inv.flags csd h.csd_lt
  rw [h.held_eq] at hflags
  have hfront := hdev.barrier_front hworker
  obtain ⟨hcsdId, hpartitions, hvertices, -⟩ :=
    marker_fields s csd (st.devices csd).copies
  rw [← hfront] at hcsdId hpartitions hvertices
  have hat : (st.devices csd).worker =
      .barrier (marker s csd (st.devices csd).copies) := by
    rw [hworker, hfront]
  -- A device that has closed the iteration has nothing to do.
  have hlate : (st.devices csd).copies ≠ st.iter := by
    intro hcopies
    have hflag := hflags.barrier_iff.mpr ⟨hat, .inl hcopies⟩
    have hclosed : Closed s csd st.iter (st.devices csd) [] := by
      rcases hdev.phase with hlagging | hworking | hclosed
      · have hlate := hlagging.copies_eq
        omega
      · exact absurd hworker (hworking.worker_ok.ne_barrier _)
      · exact hclosed
    rcases h.must with hrunning | hqueued | ⟨-, hdown⟩
    · exact hrunning ((st.devices csd).running_of_ne_run (by simp [hworker])
        false)
    · exact hqueued hclosed.queued_eq
    · rw [hflag] at hdown
      cases hdown
  have hdown : ¬st.mem.donePartition (barrierId front.numPartitions
      front.csdId) = true := by
    rw [hcsdId, hpartitions, hflags.barrier_iff]
    rintro ⟨-, hcopies | hheld⟩
    · exact hlate hcopies
    · exact absurd hheld List.not_mem_nil
  obtain ⟨st', hstep⟩ : ∃ st', workerStep s csd st = some st' := by
    simp only [workerStep, hworker, if_neg hdown, Option.some.injEq, exists_eq']
  refine ⟨st', hstep, ?_⟩
  simp only [workerStep, hworker, if_neg hdown, Option.some.injEq] at hstep
  subst hstep
  refine .ofDevice (.inr ?_)
  constructor
  · simp only [pending, Device.opens, hworker, Device.running, Device.ran,
      if_neg hlate]
  · simp [workerRank, hworker, hvertices]

theorem copy_advances {front : ProcEdge} {todo : List ℕ}
    (hworker : (st.devices csd).worker = .copy front todo) :
    ∃ st', workerStep s csd st = some st' ∧ Advances s csd st st' := by
  have hdev := h.deviceInv
  obtain ⟨hlagging, hfront⟩ := hdev.copy_front hworker
  cases todo with
  | nil =>
      obtain ⟨st', hstep⟩ : ∃ st', workerStep s csd st = some st' := by
        simp only [workerStep, hworker, Option.some.injEq, exists_eq']
      refine ⟨st', hstep, ?_⟩
      simp only [workerStep, hworker, Option.some.injEq] at hstep
      subst hstep
      refine .ofDevice (.inl ?_)
      have hcopies := hlagging.copies_eq
      have hcheck : scanOrCheck (st.devices csd) front = .check front := by
        rw [scanOrCheck, if_neg (fun h => h.2 hlagging.future_eq)]
      rw [hcheck]
      simp only [pending, Device.opens, hworker, Device.running, Device.ran]
      omega
  | cons v todo =>
      obtain ⟨st', hstep⟩ : ∃ st', workerStep s csd st = some st' := by
        simp only [workerStep, hworker, Option.some.injEq, exists_eq']
      refine ⟨st', hstep, ?_⟩
      simp only [workerStep, hworker, Option.some.injEq] at hstep
      subst hstep
      refine .ofDevice (.inr ?_)
      constructor
      · simp only [pending, Device.opens, hworker, Device.running, Device.ran]
      · simp [workerRank, hworker]

theorem run_advances {future : Bool} {node : ProcEdge}
    {edges : List (ℕ × ℕ)} {state : UInt32}
    (hworker : (st.devices csd).worker = .run future node edges state) :
    ∃ st', workerStep s csd st = some st' ∧ Advances s csd st st' := by
  cases edges with
  | cons edge edges =>
      obtain ⟨st', hstep⟩ : ∃ st', workerStep s csd st = some st' := by
        simp only [workerStep, hworker, Option.some.injEq, exists_eq']
      refine ⟨st', hstep, ?_⟩
      simp only [workerStep, hworker, Option.some.injEq] at hstep
      subst hstep
      refine .ofDevice (.inr ?_)
      constructor
      · simp only [pending, Device.opens, hworker, Device.running, Device.ran]
      · simp [workerRank, hworker]
  | nil =>
      have hworking := h.deviceInv.working (by simp [hworker])
        (by simp [hworker]) (by simp [hworker])
      have hok := hworking.worker_ok
      simp only [WorkerOk, hworker] at hok
      have hiter : node.iter = if future then st.iter + 1 else st.iter := by
        rw [hok, task_iter]
      obtain ⟨st', hstep⟩ : ∃ st', workerStep s csd st = some st' := by
        simp only [workerStep, hworker, Option.some.injEq, exists_eq']
      refine ⟨st', hstep, ?_⟩
      simp only [workerStep, hworker, Option.some.injEq] at hstep
      subst hstep
      refine .ofDevice (.inr ?_)
      change pending s csd st.iter
          ((st.devices csd).complete st.iter future node) = _ ∧
        workerRank s ((st.devices csd).complete st.iter future node) < _
      constructor
      · have hrunning : ∀ f, (st.devices csd).running f =
            if future = f then [blockOf node] else [] := by
          intro f
          simp only [Device.running, hworker]
        have hopens : (st.devices csd).opens st.iter =
            ((st.devices csd).complete st.iter future node).opens st.iter := by
          simp only [Device.opens, hworker, Device.complete]
        unfold pending
        rw [← hopens]
        simp only [Device.ran_complete, Device.running_complete, hrunning,
          List.append_nil]
        cases future with
        | false => simp [hiter, Device.complete]
        | true => simp [hiter, Device.complete]
      · simp [workerRank, hworker, Device.complete]

/-- The worker of such a device has a step that brings it forward. -/
theorem worker_advances :
    ∃ st', workerStep s csd st = some st' ∧ Advances s csd st st' := by
  have hsearch : ∀ worker, (st.devices csd).worker = worker →
      (∀ task nodes, worker ≠ .scan task nodes) ∧
        ∀ task todo, worker ≠ .find task todo := by
    rintro worker hworker
    constructor
    · rintro task nodes rfl
      have hok := (h.deviceInv.working (by simp [hworker]) (by simp [hworker])
        (by simp [hworker])).worker_ok
      simp only [WorkerOk, hworker] at hok
      exact hok.2.1 h.mode
    · rintro task todo rfl
      have hok := (h.deviceInv.working (by simp [hworker]) (by simp [hworker])
        (by simp [hworker])).worker_ok
      simp only [WorkerOk, hworker, h.mode] at hok
      simp at hok
  cases hworker : (st.devices csd).worker with
  | top => exact h.top_advances hworker
  | await front => exact h.await_advances hworker
  | raise front => exact raise_advances hworker
  | barrier front => exact h.barrier_advances hworker
  | copy front todo => exact h.copy_advances hworker
  | scan task nodes => exact absurd rfl ((hsearch _ hworker).1 task nodes)
  | check task => exact h.check_advances hworker
  | find task todo => exact absurd rfl ((hsearch _ hworker).2 task todo)
  | normalCheck => exact h.normalCheck_advances hworker
  | run future node edges state => exact h.run_advances hworker

end Due

/-! ## Steps of the system -/

theorem dispatcher_advances (h : Inv s st) (hcsd : csd < s.numCsds)
    (hbusy : (st.devices csd).sq ≠ [] ∨ (st.devices csd).dispatched ≠ none) :
    ∃ st', dispatchStep csd st = some st' ∧ Advances s csd st st' := by
  cases hdispatched : (st.devices csd).dispatched with
  | some node =>
      obtain ⟨st', hstep⟩ : ∃ st', dispatchStep csd st = some st' := by
        simp only [dispatchStep, hdispatched, Option.some.injEq, exists_eq']
      refine ⟨st', hstep, ?_⟩
      simp only [dispatchStep, hdispatched, Option.some.injEq] at hstep
      subst hstep
      refine .ofDevice (.inl ?_)
      simp only [pending, Device.opens, Device.running, Device.ran,
        hdispatched, Option.toList_none, Option.toList_some, List.length_nil,
        List.length_singleton]
      omega
  | none =>
      obtain ⟨node, rest, hsq⟩ : ∃ node rest,
          (st.devices csd).sq = node :: rest := by
        rcases hbusy with hne | hne
        · exact List.exists_cons_of_ne_nil hne
        · exact absurd hdispatched hne
      have hfind := (h.devices csd hcsd).queueFind_eq hdispatched hsq
      obtain ⟨st', hstep⟩ : ∃ st', dispatchStep csd st = some st' := by
        simp only [dispatchStep, hdispatched, hsq, Option.some.injEq,
          exists_eq']
      refine ⟨st', hstep, ?_⟩
      simp only [dispatchStep, hdispatched, hsq, hfind, Option.some.injEq]
        at hstep
      subst hstep
      refine .ofDevice (.inl ?_)
      simp only [pending, Device.opens, Device.running, Device.ran,
        hdispatched, hsq, Bool.false_eq_true, if_false, Option.toList_none,
        Option.toList_some, List.length_nil, List.length_cons]
      omega

/-- A device that must act has a party with a step that brings it forward. -/
theorem device_advances (h : Inv s st) (hcsd : csd < s.numCsds)
    (hmode : s.rowOverlap = 0) (hsends : st.host.sends s st.iter = [])
    (hheld : st.host.held = []) (hk : st.iter < s.numIters)
    (hmust : MustAct s csd st) :
    ∃ actor st', step s actor st = some st' ∧ Advances s csd st st' := by
  by_cases hbusy : (st.devices csd).sq ≠ [] ∨ (st.devices csd).dispatched ≠ none
  · obtain ⟨st', hstep, hadvances⟩ := dispatcher_advances h hcsd hbusy
    exact ⟨.dispatcher csd, st', by rw [step, if_pos hcsd, hstep], hadvances⟩
  · obtain ⟨hsq, hdispatched⟩ := not_or.mp hbusy
    have hdue : Due s csd st := ⟨h, hcsd, hmode, hsends, hheld, hk, hmust,
      not_not.mp hsq, not_not.mp hdispatched⟩
    obtain ⟨st', hstep, hadvances⟩ := hdue.worker_advances
    exact ⟨.worker csd, st', by rw [step, if_pos hcsd, hstep], hadvances⟩

/-- What is left of a run: iterations, steps of the host, tasks of the devices,
and steps of their workers. -/
def remaining (s : Setup) (st : State) : ℕ ×ₗ ℕ ×ₗ ℕ ×ₗ ℕ :=
  toLex (s.numIters - st.iter, toLex (hostRank s st.iter st.host,
    toLex (∑ csd ∈ Finset.range s.numCsds,
        pending s csd st.iter (st.devices csd),
      ∑ csd ∈ Finset.range s.numCsds, workerRank s (st.devices csd))))

theorem Advances.remaining_lt (h : Advances s csd st st')
    (hcsd : csd < s.numCsds) : remaining s st' < remaining s st := by
  have hmem : csd ∈ Finset.range s.numCsds := Finset.mem_range.mpr hcsd
  have hsame : ∀ other ∈ Finset.range s.numCsds, other ≠ csd →
      st'.devices other = st.devices other := fun other _ => h.others other
  simp only [remaining, Prod.Lex.toLex_lt_toLex, h.iter_eq, h.host_eq,
    lt_irrefl, false_or, true_and]
  have hle : ∀ f : ℕ → Device → ℕ,
      f csd (st'.devices csd) < f csd (st.devices csd) →
      ∑ csd ∈ Finset.range s.numCsds, f csd (st'.devices csd) <
        ∑ csd ∈ Finset.range s.numCsds, f csd (st.devices csd) := by
    intro f hlt
    apply Finset.sum_lt_sum
    · intro other hother
      by_cases hne : other = csd
      · subst hne
        exact hlt.le
      · rw [hsame other hother hne]
    · exact ⟨csd, hmem, hlt⟩
  rcases h.rank_lt with hlt | ⟨heq, hlt⟩
  · exact .inl (hle (fun csd dev => pending s csd st.iter dev) hlt)
  · refine .inr ⟨?_, hle (fun _ dev => workerRank s dev) hlt⟩
    apply Finset.sum_congr rfl
    intro other hother
    by_cases hne : other = csd
    · subst hne
      exact heq
    · rw [hsame other hother hne]

theorem hostStep_remaining (h : Inv s st)
    (hstep : hostStep s st = some st') : remaining s st' < remaining s st := by
  have hranked : st'.iter = st.iter →
      hostRank s st'.iter st'.host < hostRank s st.iter st.host →
      remaining s st' < remaining s st := by
    intro hiter hlt
    simp only [remaining, Prod.Lex.toLex_lt_toLex]
    rw [hiter] at hlt ⊢
    exact .inr ⟨rfl, .inl hlt⟩
  have htimely := h.timely
  cases hostStep_effect hstep with
  | @send r c csd rest hhost =>
      have hlt : hostRank s st.iter (.send rest) <
          hostRank s st.iter st.host := by
        simp only [hhost, hostRank, List.length_cons]
        omega
      have hsame : (sendStep s st r c csd rest).iter = st.iter ∧
          (sendStep s st r c csd rest).host = .send rest := by
        rw [sendStep_eq]
        split
        · exact ⟨rfl, rfl⟩
        · exact ⟨rfl, rfl⟩
      rw [hsame.1, hsame.2] at hranked
      exact hranked rfl hlt
  | replace hhost =>
      rw [hhost] at htimely
      simp only [HostPc.Timely] at htimely
      simp only [remaining, Prod.Lex.toLex_lt_toLex]
      left
      simp only [replaceStep]
      omega
  | column hhost =>
      apply hranked rfl
      simp only [hhost, hostRank, columnsRank, List.map_cons, List.sum_cons]
      omega
  | aggregated hhost =>
      apply hranked rfl
      simp [hhost, hostRank, columnsRank]
  | sent hhost | merge hhost | merged hhost | damp hhost | damped hhost
  | notify hhost | release hhost | start hhost | finish hhost =>
      apply hranked rfl
      simp only [hhost, hostRank, List.length_nil, List.length_cons]
      omega

/-- The host waits only for devices that must act. -/
theorem mustAct_of_blocked (h : Inv s st) (hblocked : hostStep s st = none)
    (hnot : st.host ≠ .finished) :
    ∃ csd < s.numCsds, MustAct s csd st ∧ st.host.sends s st.iter = [] ∧
      st.host.held = [] ∧ st.iter < s.numIters := by
  have htimely := h.timely
  have hcolumns := h.columns_iff
  have hflags := h.flags
  have hdevices := h.devices
  cases hhost : st.host with
  | aggr columns =>
      simp only [hhost, HostPc.Timely] at htimely
      cases columns with
      | nil => simp [hostStep, hhost] at hblocked
      | cons c rest =>
          have hready : aggrReady s st.mem c = false := by
            by_contra hready
            rw [Bool.not_eq_false] at hready
            simp [hostStep, hhost, hready] at hblocked
          have hc : c < s.numPartitions := by
            have hsuffix := h.columns_suffix
            rw [hhost] at hsuffix
            exact mem_columnOrder.mp (hsuffix.mem List.mem_cons_self)
          simp only [aggrReady, List.all_eq_false, List.mem_range,
            Bool.not_eq_true] at hready
          obtain ⟨r, hr, csd, hcsd, hdone⟩ := hready
          refine ⟨csd, hcsd, ?_, rfl, rfl, htimely⟩
          have hdone1 := (hflags csd hcsd).done1_iff r hr c hc
          rw [hdone] at hdone1
          simp only [hhost, HostPc.sends, Bool.false_eq_true, false_iff, not_or,
            List.not_mem_nil, not_false_eq_true, and_true, Bool.not_eq_true,
            Bool.not_eq_false] at hdone1
          obtain ⟨hran, hcarried, hsendable⟩ := hdone1
          have hneeded : needed s csd st.iter (r, c) = true := by
            simp [needed, hsendable, hcarried]
          have hdev := hdevices csd hcsd
          simp only [hhost, HostPc.sends] at hdev
          have hmem := (mem_normals s).mpr ⟨⟨hr, hc⟩, hneeded⟩
          rw [← hdev.normals_eq] at hmem
          by_contra hmust
          simp only [MustAct, not_or, not_not] at hmust
          rw [hmust.1, hmust.2.1] at hmem
          simp [unsent, hran] at hmem
  | wait =>
      simp only [hhost, HostPc.Timely] at htimely
      have hready : endReady s st.mem = false := by
        by_contra hready
        rw [Bool.not_eq_false] at hready
        simp [hostStep, hhost, hready] at hblocked
      simp only [endReady, List.all_eq_false, List.mem_range,
        Bool.not_eq_true] at hready
      obtain ⟨csd, hcsd, hdown⟩ := hready
      refine ⟨csd, hcsd, .inr (.inr ⟨fun c hc => ?_, hdown⟩), rfl, rfl, htimely⟩
      rw [hcolumns c hc, hhost]
      exact List.not_mem_nil
  | finished => exact absurd hhost hnot
  | notify c rest => simp [hostStep, hhost] at hblocked
  | send todo =>
      cases todo <;> simp [hostStep, hhost] at hblocked
  | merge c rest todo =>
      cases todo <;> simp [hostStep, hhost] at hblocked
  | damp c rest todo =>
      cases todo <;> simp [hostStep, hhost] at hblocked
  | release todo =>
      cases todo <;> simp [hostStep, hhost] at hblocked

/-- From every state of a run the host can get to the end of the loop. -/
theorem finish_reachable (hmode : s.rowOverlap = 0) (h : Inv s st) :
    Interleaving.CanReach (step s) (fun st => st.host = .finished) st := by
  apply Interleaving.CanReach.of_measure (remaining s) _ h
  intro st h hnot
  have hnext : ∀ actor st', step s actor st = some st' →
      remaining s st' < remaining s st → Interleaving.CanReach (step s)
        (fun st' => Inv s st' ∧ remaining s st' < remaining s st) st := by
    intro actor st' hstep hlt
    have hpicks := picksBlocks_of_mode h (by omega) (by omega) actor
    exact .of_step hstep (.of_goal ⟨step_inv hpicks h hstep, hlt⟩)
  cases hstep : hostStep s st with
  | some st' => exact hnext .host st' hstep (hostStep_remaining h hstep)
  | none =>
      obtain ⟨csd, hcsd, hmust, hsends, hheld, hk⟩ :=
        mustAct_of_blocked h hstep hnot
      obtain ⟨actor, st', hactor, hadvances⟩ :=
        device_advances h hcsd hmode hsends hheld hk hmust
      exact hnext actor st' hactor (hadvances.remaining_lt hcsd)

end NvmeVirt.DualQueue
