import NvmeVirt.DualQueue.Sources

/-!
# The marker in the future queue

The task that closes an iteration is the last one of the future queue, and the
worker recognises it only when it is the first one.  With `row_overlap` 2
`find_next_future_task` searches from the back and tests nothing but whether a
partition has been announced.  The marker stays in the queue if its partition is
not announced before the tasks ahead of it are gone.
-/

namespace NvmeVirt.DualQueue

open Function NvmeVirt.Csd

variable {s : Setup} {csd : ℕ} {st st' : State} {actor : Actor}

/-- The task that marks the end of an iteration: the future task of the last
block on the diagonal, the fake task of the first one, or a task of the
iteration after the last. -/
def MarksEnd (task : ProcEdge) : Prop :=
  task.iter = task.numIters ∨
    (task.iter % 2 = 1 ∧ task.r + 1 = task.numPartitions ∧
      task.c + 1 = task.numPartitions) ∨
    (task.iter % 2 = 0 ∧ task.r = 0 ∧ task.c = 0)

instance (task : ProcEdge) : Decidable (MarksEnd task) := by
  unfold MarksEnd
  infer_instance

theorem MarksEnd.endsIteration {task : ProcEdge} (h : MarksEnd task) :
    endsIteration task = true := by
  rw [endsIteration_iff]
  rcases h with hlast | ⟨hodd, hr, -⟩ | ⟨heven, hr, -⟩
  · exact .inl hlast
  · exact .inr (.inl ⟨hodd, hr⟩)
  · exact .inr (.inr ⟨heven, hr⟩)

theorem marksEnd_marker (s : Setup) (csd k : ℕ) :
    MarksEnd (marker s csd k) := by
  have htwo := s.two_partitions
  by_cases hlast : k + 1 = s.numIters
  · left
    simp only [marker, if_pos hlast]
    split <;> exact hlast
  · right
    simp only [marker, if_neg hlast]
    by_cases heven : k % 2 = 0
    · left
      rw [if_pos heven]
      have hend : s.numPartitions - 1 + 1 = s.numPartitions :=
        Nat.sub_add_cancel (by omega)
      simp only [task_iter, task_r, task_c, task_numPartitions, endBlock,
        if_pos heven]
      exact ⟨by omega, hend, hend⟩
    · right
      rw [if_neg heven]
      exact ⟨show (k + 1) % 2 = 0 by omega, rfl, rfl⟩

/-- The worker is not running the marker. -/
def RunsNoMarker (worker : WorkerPc) : Prop :=
  match worker with
  | .run true node _ _ => ¬ MarksEnd node
  | _ => True

instance (worker : WorkerPc) : Decidable (RunsNoMarker worker) := by
  unfold RunsNoMarker
  split <;> infer_instance

/-- The next step leaves each marker in the future queue, unless a worker is in
the end-of-iteration branch with this marker alone in the queue, and starts no
marker as edge work. -/
def KeepsMarkers (s : Setup) (actor : Actor) (st : State) : Prop :=
  ∀ csd < s.numCsds,
    let dev := st.devices csd
    let dev' := (Interleaving.turn (step s) st actor).devices csd
    RunsNoMarker dev'.worker ∧
      ∀ task ∈ dev.futureQueue, MarksEnd task → task ∈ dev'.futureQueue ∨
        (dev.worker = .await task ∧ dev.futureQueue = [task])

instance (s : Setup) (actor : Actor) (st : State) :
    Decidable (KeepsMarkers s actor st) := by
  unfold KeepsMarkers
  infer_instance

/-- No marker waits behind the first task of the queue after its partition has
been announced. -/
def MarkersWait (queue : List ProcEdge) (announced : ℕ → Bool) : Prop :=
  ∀ node ∈ queue.tail, MarksEnd node → announced node.r = false

instance (queue : List ProcEdge) (announced : ℕ → Bool) :
    Decidable (MarkersWait queue announced) := by
  unfold MarkersWait
  infer_instance

/-- The position of the future queue that a search looks at next. -/
def WorkerPc.looksAt : WorkerPc → Option ℕ
  | .find _ (i :: _) => some i
  | _ => none

theorem WorkerPc.find_of_looksAt {worker : WorkerPc} {i : ℕ}
    (hi : i ∈ worker.looksAt) :
    ∃ task todo, worker = .find task (i :: todo) := by
  cases worker with
  | find task todo =>
      cases todo with
      | nil => cases hi
      | cons j todo =>
          cases hi
          exact ⟨task, todo, rfl⟩
  | _ => cases hi

/-- If the search of a worker has come to the marker, the partition that the
marker waits for has not been announced. -/
def SparesMarker (csd : ℕ) (st : State) : Prop :=
  ∀ i ∈ (st.devices csd).worker.looksAt,
    ∀ node ∈ (st.devices csd).futureQueue[i]?, MarksEnd node →
      st.mem.donePartition node.r = false

def SparesMarkers (s : Setup) : Actor → State → Prop
  | .worker csd, st => csd < s.numCsds → SparesMarker csd st
  | .host, _ => True
  | .dispatcher _, _ => True

/-! ## The search finds a task -/

/-- One of the positions that a search has still to look at is that of a task
whose partition has been announced, and the first task is no marker. -/
def FindsReady (s : Setup) (csd : ℕ) (st : State) : Prop :=
  match (st.devices csd).worker with
  | .find _ todo => (∃ i ∈ todo, ∃ node ∈ (st.devices csd).futureQueue[i]?,
      node.r < s.numPartitions ∧ st.mem.donePartition node.r = true) ∧
      ∀ front ∈ (st.devices csd).futureQueue.head?, endsIteration front = false
  | _ => True

theorem FindsReady.congr (h : FindsReady s csd st)
    (hworker : (st'.devices csd).worker = (st.devices csd).worker)
    (hqueue : (st'.devices csd).futureQueue = (st.devices csd).futureQueue)
    (hflags : ∀ task todo, (st.devices csd).worker = .find task todo →
      ∀ r < s.numPartitions, st.mem.donePartition r = true →
        st'.mem.donePartition r = true) : FindsReady s csd st' := by
  unfold FindsReady at h ⊢
  rw [hworker, hqueue]
  split
  · rename_i task todo hfind
    rw [hfind] at h
    obtain ⟨⟨i, hi, node, hnode, hlt, hflag⟩, hfront⟩ := h
    exact ⟨⟨i, hi, node, hnode, hlt, hflags task todo hfind node.r hlt hflag⟩,
      hfront⟩
  · trivial

theorem findsReady_of_ne
    (hne : ∀ task todo, (st.devices csd).worker ≠ .find task todo) :
    FindsReady s csd st := by
  unfold FindsReady
  split
  · rename_i hfind
    exact absurd hfind (hne _ _)
  · trivial

/-- What is in the future queue waits for a partition of the graph, and looks
like a marker only if it is one. -/
theorem DeviceInv.mem_future {k : ℕ} {dev : Device} {unsent : List (ℕ × ℕ)}
    (h : DeviceInv s csd k dev unsent) (hworking : Working s csd k dev)
    {node : ProcEdge} (hnode : node ∈ dev.futureQueue) :
    node.r < s.numPartitions ∧
      (endsIteration node = true → MarksEnd node) := by
  have htwo := s.two_partitions
  obtain ⟨waiting, hwaiting⟩ := hworking.waiting
  rw [hwaiting.queue_eq] at hnode
  rcases List.mem_append.mp hnode with hblock | hmarker
  · obtain ⟨block, hmem, rfl⟩ := List.mem_map.mp hblock
    have hran := (hwaiting.mem_ran (List.mem_append_right _ hmem)).1
    refine ⟨(h.mem_normals (by simp [hran])).1, fun hends => ?_⟩
    rw [hwaiting.not_endsIteration h hmem] at hends
    cases hends
  · split at hmarker
    · rw [List.mem_singleton.mp hmarker]
      refine ⟨?_, fun _ => marksEnd_marker s csd k⟩
      rw [marker_r]
      split <;> omega
    · cases hmarker

/-- The worker searches after it has tested a task or searched. -/
theorem searching_of_find (hstep : workerStep s csd st = some st')
    {task : ProcEdge} {todo : List ℕ}
    (hfind : (st'.devices csd).worker = .find task todo) :
    (∃ node, (st.devices csd).worker = .check node) ∨
      ∃ node positions, (st.devices csd).worker = .find node positions := by
  cases hworker : (st.devices csd).worker with
  | check node => exact .inl ⟨node, rfl⟩
  | find node positions => exact .inr ⟨node, positions, rfl⟩
  | top =>
      simp only [workerStep, hworker] at hstep
      split at hstep
      · split at hstep <;> cases hstep
        simp [State.setWorker] at hfind
      · split at hstep <;> cases hstep
        · simp [State.setWorker] at hfind
        · simp only [State.setWorker, State.devices_setDevice_self,
            scanOrCheck] at hfind
          split at hfind <;> cases hfind
  | await front =>
      simp only [workerStep, hworker] at hstep
      split at hstep <;> cases hstep
      simp at hfind
  | barrier front =>
      simp only [workerStep, hworker] at hstep
      split at hstep <;> cases hstep
      simp [State.setWorker] at hfind
  | copy front positions =>
      cases positions <;>
        simp only [workerStep, hworker, Option.some.injEq] at hstep <;>
        subst hstep
      · simp only [State.devices_setDevice_self, scanOrCheck] at hfind
        split at hfind <;> cases hfind
      · simp [State.setWorker] at hfind
  | scan node nodes =>
      cases nodes <;>
        simp only [workerStep, hworker, Option.some.injEq] at hstep <;>
        subst hstep
      · simp [State.setWorker] at hfind
      · simp only [State.setWorker, State.devices_setDevice_self] at hfind
        split at hfind <;> cases hfind
  | normalCheck =>
      simp only [workerStep, hworker] at hstep
      split at hstep <;> cases hstep
      · simp [State.setWorker] at hfind
      · simp [startRun] at hfind
  | run future node edges state =>
      cases edges <;>
        simp only [workerStep, hworker, Option.some.injEq] at hstep <;>
        subst hstep
      · simp [completeRun] at hfind
      · simp [State.setWorker] at hfind
  | raise front =>
      simp only [workerStep, hworker, Option.some.injEq] at hstep
      subst hstep
      simp [State.setWorker] at hfind

/-- A search begins when the task that was tested is ready, and goes on past a
position without a task that is. -/
theorem workerStep_find (hstep : workerStep s csd st = some st')
    {task : ProcEdge} {todo : List ℕ}
    (hfind : (st'.devices csd).worker = .find task todo) :
    (∃ worker, st' = st.setWorker csd worker) ∧
      (((st.devices csd).worker = .check task ∧
          (st.devices csd).futureQueue ≠ [] ∧
          st.mem.donePartition task.r = true ∧
          ∀ i < (st.devices csd).futureQueue.length, i ∈ todo) ∨
        ∃ i, (st.devices csd).worker = .find task (i :: todo) ∧
          ∀ node ∈ (st.devices csd).futureQueue[i]?,
            st.mem.donePartition node.r = false) := by
  cases hworker : (st.devices csd).worker with
  | check node =>
      cases hqueue : (st.devices csd).futureQueue with
      | nil =>
          simp only [workerStep, hworker, hqueue, Option.some.injEq] at hstep
          subst hstep
          simp [State.setWorker] at hfind
      | cons front rest =>
          simp only [workerStep, hworker, hqueue] at hstep
          split at hstep
          · rename_i hready
            split at hstep
            · cases hstep
              simp only [State.setWorker, State.devices_setDevice_self,
                WorkerPc.find.injEq] at hfind
              obtain ⟨rfl, rfl⟩ := hfind
              exact ⟨⟨_, rfl⟩, .inl ⟨rfl, by simp, hready, by simp⟩⟩
            · split at hstep
              · cases hstep
                simp only [State.setWorker, State.devices_setDevice_self,
                  WorkerPc.find.injEq] at hfind
                obtain ⟨rfl, rfl⟩ := hfind
                exact ⟨⟨_, rfl⟩, .inl ⟨rfl, by simp, hready, by simp⟩⟩
              · cases hstep
                simp [takeFuture, startRun] at hfind
          · cases hstep
            simp [State.setWorker] at hfind
  | find node positions =>
      cases positions with
      | nil =>
          simp only [workerStep, hworker, Option.some.injEq] at hstep
          subst hstep
          simp [State.setWorker, startRun] at hfind
      | cons i positions =>
          cases hnode : (st.devices csd).futureQueue[i]? with
          | none =>
              simp only [workerStep, hworker, hnode, Option.some.injEq]
                at hstep
              subst hstep
              simp only [State.setWorker, State.devices_setDevice_self,
                WorkerPc.find.injEq] at hfind
              obtain ⟨rfl, rfl⟩ := hfind
              exact ⟨⟨_, rfl⟩, .inr ⟨i, rfl, by simp [hnode]⟩⟩
          | some found =>
              simp only [workerStep, hworker, hnode] at hstep
              split at hstep
              · cases hstep
                simp [takeFuture, startRun] at hfind
              · rename_i hready
                cases hstep
                simp only [State.setWorker, State.devices_setDevice_self,
                  WorkerPc.find.injEq] at hfind
                obtain ⟨rfl, rfl⟩ := hfind
                exact ⟨⟨_, rfl⟩, .inr ⟨i, rfl, by simpa [hnode] using hready⟩⟩
  | _ =>
      obtain ⟨node, hcheck⟩ | ⟨node, positions, hsearch⟩ :=
        searching_of_find hstep hfind
      · simp [hworker] at hcheck
      · simp [hworker] at hsearch

theorem findsReady_worker (h : Inv s st) (hcsd : csd < s.numCsds)
    (hfinds : ∀ other < s.numCsds, FindsReady s other st)
    (hstep : workerStep s csd st = some st') {other : ℕ}
    (hother : other < s.numCsds) : FindsReady s other st' := by
  have heffect := workerStep_effect hstep
  by_cases hne : other ≠ csd
  · have hsame := heffect.others hne
    apply (hfinds other hother).congr
    · rw [hsame]
    · rw [hsame]
    · intro _ _ _ r hr hflag
      rw [heffect.donePartition h hcsd hr, hflag]
  · obtain rfl := not_not.mp hne
    by_cases hfind : ∃ task todo, (st'.devices other).worker = .find task todo
    · obtain ⟨task, todo, hfind⟩ := hfind
      obtain ⟨⟨worker, rfl⟩, hstart | hpass⟩ := workerStep_find hstep hfind
      · obtain ⟨hworker, hne, hready, hall⟩ := hstart
        have hworking := (h.devices other hcsd).working (by simp [hworker])
          (by simp [hworker]) (by simp [hworker])
        have hok := hworking.worker_ok
        simp only [WorkerOk, hworker] at hok
        obtain ⟨hmem, hfront⟩ := hok.2.resolve_left hne
        obtain ⟨i, hi, htask⟩ := List.getElem_of_mem hmem
        unfold FindsReady
        rw [hfind]
        refine ⟨⟨i, hall i hi, task, ?_, ?_, hready⟩, ?_⟩
        · simp only [State.setWorker, State.devices_setDevice_self]
          rw [Option.mem_def, List.getElem?_eq_getElem hi, htask]
        · exact ((h.devices other hcsd).mem_future hworking hmem).1
        · intro front hhead
          simp only [State.setWorker, State.devices_setDevice_self] at hhead
          exact (hfront front hhead).1
      · obtain ⟨j, hworker, hpassed⟩ := hpass
        have hbefore := hfinds other hother
        unfold FindsReady at hbefore ⊢
        rw [hworker] at hbefore
        rw [hfind]
        obtain ⟨⟨i, hi, node, hnode, hlt, hflag⟩, hfront⟩ := hbefore
        have hi' : i ∈ todo := by
          apply (List.mem_cons.mp hi).resolve_left
          rintro rfl
          rw [hpassed node hnode] at hflag
          cases hflag
        simp only [State.setWorker, State.devices_setDevice_self]
        exact ⟨⟨i, hi', node, hnode, hlt, hflag⟩, hfront⟩
    · exact findsReady_of_ne fun task todo heq => hfind ⟨task, todo, heq⟩

theorem findsReady_step (h : Inv s st)
    (hfinds : ∀ csd < s.numCsds, FindsReady s csd st)
    (hstep : step s actor st = some st') :
    ∀ csd < s.numCsds, FindsReady s csd st' := by
  intro csd hcsd
  cases actor with
  | host =>
      obtain ⟨hdevices, hflags⟩ := hostStep_frame hstep
      obtain ⟨sq, hsq⟩ := hdevices csd
      apply (hfinds csd hcsd).congr
      · rw [hsq]
      · rw [hsq]
      · intro task todo hfind
        apply hflags
        -- At the end of an iteration no device searches.
        intro hwait
        simp only [step, hostStep, hwait] at hstep
        split at hstep
        · rename_i hready
          have hbarrier := (h.closed hwait hready hcsd).2
          rw [hfind] at hbarrier
          cases hbarrier
        · cases hstep
  | dispatcher other =>
      simp only [step] at hstep
      split at hstep
      · obtain ⟨devices, rfl, hdevices⟩ := dispatchStep_frame hstep
        obtain ⟨sq, dispatched, normalQueue, hdev⟩ := hdevices csd
        have hworker := congrArg Device.worker hdev
        have hqueue := congrArg Device.futureQueue hdev
        exact (hfinds csd hcsd).congr hworker hqueue
          fun _ _ _ r _ hflag => hflag
      · cases hstep
  | worker other =>
      simp only [step] at hstep
      split at hstep
      · rename_i hother
        exact findsReady_worker h hother hfinds hstep hcsd
      · cases hstep

/-! ## Runs -/

/-- A marker that a search can come to stands behind the first task. -/
theorem spares_of_wait (hfinds : ∀ csd < s.numCsds, FindsReady s csd st)
    (hwait : WhileChoosing s MarkersWait actor st) :
    SparesMarkers s actor st := by
  cases actor with
  | host => trivial
  | dispatcher csd => trivial
  | worker csd =>
      intro hcsd i hi node hnode hmarks
      obtain ⟨task, todo, hworker⟩ := WorkerPc.find_of_looksAt hi
      have hchoosing := hwait hcsd
      have hready := hfinds csd hcsd
      unfold FindsReady at hready
      rw [hworker] at hready hchoosing
      refine hchoosing trivial node ?_ hmarks
      cases hqueue : (st.devices csd).futureQueue with
      | nil => simp [hqueue] at hnode
      | cons front rest =>
          rw [hqueue] at hnode
          cases i with
          | zero =>
              have hfront := hready.2 front (by rw [hqueue]; rfl)
              cases hnode
              rw [hmarks.endsIteration] at hfront
              cases hfront
          | succ i => exact List.mem_of_getElem? hnode

/-- A search that is not to take the marker does not take it, and finds a task.
-/
theorem picksBlocks_of_spares (h : Inv s st)
    (hfinds : ∀ csd < s.numCsds, FindsReady s csd st)
    (hspares : SparesMarkers s actor st) : PicksBlocks s actor st := by
  cases actor with
  | host => trivial
  | dispatcher csd => trivial
  | worker csd =>
      intro hcsd
      have hready := hfinds csd hcsd
      have hspare := hspares hcsd
      unfold PicksBlock
      unfold FindsReady at hready
      unfold SparesMarker at hspare
      split
      · rename_i task hworker
        rw [hworker] at hready
        obtain ⟨⟨i, hi, -⟩, -⟩ := hready
        cases hi
      · rename_i task i todo hworker
        rw [hworker] at hspare
        replace hspare := hspare i rfl
        intro node hnode hflag
        rw [Bool.eq_false_iff]
        intro hends
        have hdev := h.devices csd hcsd
        have hworking := hdev.working (by simp [hworker]) (by simp [hworker])
          (by simp [hworker])
        have hmarks := (hdev.mem_future hworking
          (List.mem_of_getElem? hnode)).2 hends
        rw [hspare node hnode hmarks] at hflag
        cases hflag
      · trivial

theorem Inv.runsNoMarker (h : Inv s st) (hcsd : csd < s.numCsds) :
    RunsNoMarker (st.devices csd).worker := by
  unfold RunsNoMarker
  split
  · rename_i node edges state hworker
    have hlt := (h.running_lt hcsd hworker).2
    have hworking := (h.devices csd hcsd).working (by simp [hworker])
      (by simp [hworker]) (by simp [hworker])
    have hok := hworking.worker_ok
    simp only [WorkerOk, hworker, if_true] at hok
    obtain ⟨waiting, hwaiting⟩ := hworking.waiting
    have hahead := (hwaiting.mem_ran (show blockOf node ∈ _ by
      simp [Device.running, hworker])).2
    intro hmarks
    have hends := hmarks.endsIteration
    rw [hok, endsIteration_task s hahead hlt] at hends
    cases hends
  · trivial

/-- A marker leaves the future queue when it is run, or by the end-of-iteration
branch. -/
theorem WorkerEffect.keeps_marker (h : Inv s st) (hcsd : csd < s.numCsds)
    (heffect : WorkerEffect s csd st st')
    (hruns : RunsNoMarker (st'.devices csd).worker) {task : ProcEdge}
    (htask : task ∈ (st.devices csd).futureQueue) (hmarks : MarksEnd task) :
    task ∈ (st'.devices csd).futureQueue ∨
      ((st.devices csd).worker = .await task ∧
        (st.devices csd).futureQueue = [task]) := by
  have htaken : ∀ i node,
      RunsNoMarker ((takeFuture s csd st i node).devices csd).worker →
      (st.devices csd).futureQueue[i]? = some node →
      task ∈ ((takeFuture s csd st i node).devices csd).futureQueue := by
    intro i node hruns hnode
    simp only [takeFuture, startRun, State.devices_setDevice_self,
      RunsNoMarker] at hruns ⊢
    obtain ⟨j, hj⟩ := List.mem_iff_getElem?.mp htask
    refine List.mem_eraseIdx_iff_getElem?.mpr ⟨j, ?_, hj⟩
    rintro rfl
    rw [hnode] at hj
    exact hruns (Option.some.inj hj ▸ hmarks)
  cases heffect with
  | @close front hworker =>
      have hdev := h.devices csd hcsd
      have hworking := hdev.working (by simp [hworker]) (by simp [hworker])
        (by simp [hworker])
      have hqueue := (hdev.closeIteration hworking hworker).2.1
      rw [hqueue, List.mem_singleton] at htask
      right
      rw [hworker, hqueue, htask]
      exact ⟨rfl, rfl⟩
  | front hworker hqueue => exact .inl (htaken 0 _ hruns (by simp [hqueue]))
  | found hworker hnode => exact .inl (htaken _ _ hruns hnode)
  | complete =>
      left
      simp only [State.devices_setDevice_self, Device.complete]
      exact List.mem_append_left _ htask
  | move | raise | leave | copy | copied | normal | missed | edge =>
      left
      simpa [State.setWorker] using htask

theorem keepsMarkers_of_spares (h : Inv s st)
    (hfinds : ∀ csd < s.numCsds, FindsReady s csd st)
    (hspares : SparesMarkers s actor st) : KeepsMarkers s actor st := by
  intro csd hcsd
  cases hstep : step s actor st with
  | none =>
      rw [Interleaving.turn, hstep]
      exact ⟨h.runsNoMarker hcsd, fun _ htask _ => .inl htask⟩
  | some st' =>
      rw [Interleaving.turn, hstep]
      have h' := step_inv (picksBlocks_of_spares h hfinds hspares) h hstep
      have hruns := h'.runsNoMarker hcsd
      refine ⟨hruns, fun task htask hmarks => ?_⟩
      cases actor with
      | host =>
          obtain ⟨sq, hsq⟩ := (hostStep_frame hstep).1 csd
          left
          rw [Option.getD_some, hsq]
          exact htask
      | dispatcher other =>
          simp only [step] at hstep
          split at hstep
          · obtain ⟨devices, rfl, hdevices⟩ := dispatchStep_frame hstep
            obtain ⟨sq, dispatched, normalQueue, hdev⟩ := hdevices csd
            left
            change task ∈ (devices csd).futureQueue
            rw [hdev]
            exact htask
          · cases hstep
      | worker other =>
          simp only [step] at hstep
          split at hstep
          · rename_i hother
            have heffect := workerStep_effect hstep
            by_cases hne : csd = other
            · subst hne
              exact heffect.keeps_marker h hcsd hruns htask hmarks
            · left
              rw [Option.getD_some, heffect.others hne]
              exact htask
          · cases hstep

/-- For every `row_overlap`, in every run in which, from the start of a round of
a worker to the choice of a task, no marker waits behind another task of its
future queue after its partition has been announced, the marker of an iteration
leaves the future queue only in the end-of-iteration branch, with no other task
in the queue, and is never run. -/
theorem markers_kept (s : Setup) (schedule : List Actor)
    (hwait : Interleaving.Meets (step s) (WhileChoosing s MarkersWait) schedule
      (initialState s)) :
    Interleaving.Meets (step s) (KeepsMarkers s) schedule (initialState s) := by
  have hkeeps : ∀ actor st,
      (Inv s st ∧ ∀ csd < s.numCsds, FindsReady s csd st) →
        WhileChoosing s MarkersWait actor st → KeepsMarkers s actor st := by
    rintro actor st ⟨h, hfinds⟩ hwait
    exact keepsMarkers_of_spares h hfinds (spares_of_wait hfinds hwait)
  refine Interleaving.meets_of_meets (step s) hkeeps ?_
    ⟨inv_initial s, fun csd _ => trivial⟩ hwait
  rintro actor st ⟨h, hfinds⟩ hwait
  cases hstep : step s actor st with
  | none =>
      rw [Interleaving.turn, hstep]
      exact ⟨h, hfinds⟩
  | some st' =>
      rw [Interleaving.turn, hstep]
      have hspares := spares_of_wait hfinds hwait
      have hpicks := picksBlocks_of_spares h hfinds hspares
      exact ⟨step_inv hpicks h hstep, findsReady_step h hfinds hstep⟩

/-- Two iterations over a grid with an edge in each of its four portions, and a
search from the back. -/
def overlapGrid : Setup :=
  gridSetup 2 2 2 (fun _ _ => 8) fullGrid.two_partitions

/-- The device runs its four blocks before the host looks for them, and the
marker is appended to the future queue. -/
def fourRun : List Actor :=
  List.replicate 6 Actor.host ++ List.replicate 8 (Actor.dispatcher 0) ++
    List.replicate 26 (Actor.worker 0)

/-- The first partition is announced alone, and the search passes over the
marker. -/
theorem markers_kept_passed :
    Interleaving.Meets (step overlapGrid) (KeepsMarkers overlapGrid)
      (fourRun ++ List.replicate 6 Actor.host ++
        List.replicate 6 (Actor.worker 0)) (initialState overlapGrid) :=
  markers_kept overlapGrid _ (by decide +kernel)

/-- Both partitions are announced.  The search takes the marker with two other
tasks in the queue, and it is run as edge work. -/
theorem marker_run_as_edges :
    let before := fourRun ++ List.replicate 13 Actor.host ++
      List.replicate 3 (Actor.worker 0)
    let dev := (stateAfter overlapGrid before).devices 0
    let dev' := (stateAfter overlapGrid (before ++ [.worker 0])).devices 0
    dev.futureQueue.map blockOf = [(0, 0), (0, 1), (1, 1)] ∧
      dev'.futureQueue.map blockOf = [(0, 0), (0, 1)] ∧
      ¬ RunsNoMarker dev'.worker ∧
      ¬ Interleaving.Meets (step overlapGrid) (KeepsMarkers overlapGrid)
        (before ++ [.worker 0]) (initialState overlapGrid) := by
  intro before dev dev'
  refine ⟨by decide +kernel, by decide +kernel, by decide +kernel, ?_⟩
  decide +kernel

end NvmeVirt.DualQueue
