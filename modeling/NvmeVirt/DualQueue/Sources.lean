import NvmeVirt.DualQueue.Effects

/-!
# The source values of future tasks

With `row_overlap` 3 the worker tests whether some task of the future queue is
ready and then takes the first one.  The values that it reads are final if the
row of the first task has been announced whenever that of some other task has,
from the start of a round of the worker to the choice of a task.  With
`row_overlap` 0 the two tasks are the same.
-/

namespace NvmeVirt.DualQueue

open Function NvmeVirt.Csd

variable {s : Setup} {csd : ℕ} {st st' : State} {actor : Actor}

/-- The source partition of the future task that a worker is running has been
announced in the current iteration. -/
def ReadsFinal (csd : ℕ) (st : State) : Prop :=
  match (st.devices csd).worker with
  | .run true node _ _ => st.mem.donePartition node.r = true
  | _ => True

instance (csd : ℕ) (st : State) : Decidable (ReadsFinal csd st) := by
  unfold ReadsFinal
  split <;> infer_instance

def SourcesFinal (s : Setup) (st : State) : Prop :=
  ∀ csd < s.numCsds, ReadsFinal csd st

instance (s : Setup) (st : State) : Decidable (SourcesFinal s st) :=
  inferInstanceAs (Decidable (∀ csd < s.numCsds, ReadsFinal csd st))

/-- If the task that was tested is ready, so is the first one of the queue. -/
def FrontReady (csd : ℕ) (st : State) : Prop :=
  match (st.devices csd).worker with
  | .check task => st.mem.donePartition task.r = true →
      ∀ front ∈ (st.devices csd).futureQueue.head?,
        st.mem.donePartition front.r = true
  | _ => True

instance (csd : ℕ) (st : State) : Decidable (FrontReady csd st) := by
  unfold FrontReady
  split <;> infer_instance

/-- The next step does not take a future task that is not ready. -/
def TakesReady (s : Setup) : Actor → State → Prop
  | .worker csd, st => csd < s.numCsds → FrontReady csd st
  | .host, _ => True
  | .dispatcher _, _ => True

instance (s : Setup) : ∀ actor st, Decidable (TakesReady s actor st)
  | .worker csd, st =>
      inferInstanceAs (Decidable (csd < s.numCsds → FrontReady csd st))
  | .host, _ => .isTrue trivial
  | .dispatcher _, _ => .isTrue trivial

/-- The worker is on its way from the start of a round to the choice of a task:
it is not working on an edge block. -/
def WorkerPc.Choosing : WorkerPc → Prop
  | .run _ _ _ _ => False
  | _ => True

instance (worker : WorkerPc) : Decidable worker.Choosing := by
  unfold WorkerPc.Choosing
  split <;> infer_instance

/-- As long as a worker is choosing, its future queue and the announcements meet
a condition. -/
def WhileChoosing (s : Setup)
    (condition : List ProcEdge → (ℕ → Bool) → Prop) : Actor → State → Prop
  | .worker csd, st => csd < s.numCsds → (st.devices csd).worker.Choosing →
      condition (st.devices csd).futureQueue st.mem.donePartition
  | .host, _ => True
  | .dispatcher _, _ => True

instance (s : Setup) (condition : List ProcEdge → (ℕ → Bool) → Prop)
    [∀ queue announced, Decidable (condition queue announced)] :
    ∀ actor st, Decidable (WhileChoosing s condition actor st)
  | .worker csd, st => inferInstanceAs (Decidable (csd < s.numCsds →
      (st.devices csd).worker.Choosing → condition _ _))
  | .host, _ => .isTrue trivial
  | .dispatcher _, _ => .isTrue trivial

/-- If the row of a task of the queue has been announced, so has that of the
first one. -/
def FrontFirst (queue : List ProcEdge) (announced : ℕ → Bool) : Prop :=
  ∀ node ∈ queue, announced node.r = true →
    ∀ front ∈ queue.head?, announced front.r = true

instance (queue : List ProcEdge) (announced : ℕ → Bool) :
    Decidable (FrontFirst queue announced) := by
  unfold FrontFirst
  infer_instance

/-! ## Frames -/

theorem ReadsFinal.congr (h : ReadsFinal csd st)
    (hworker : (st'.devices csd).worker = (st.devices csd).worker)
    (hflags : ∀ r, st.mem.donePartition r = true →
      ∀ node edges state,
        (st.devices csd).worker = .run true node edges state → node.r = r →
        st'.mem.donePartition r = true) : ReadsFinal csd st' := by
  unfold ReadsFinal at h ⊢
  rw [hworker]
  split
  · rename_i node edges state hrun
    rw [hrun] at h
    exact hflags node.r h node edges state hrun rfl
  · trivial

theorem readsFinal_of_idle
    (hidle : ∀ node edges state,
      (st.devices csd).worker ≠ .run true node edges state) :
    ReadsFinal csd st := by
  unfold ReadsFinal
  split
  · rename_i hrun
    exact absurd hrun (hidle _ _ _)
  · trivial

theorem WorkerEffect.others (heffect : WorkerEffect s csd st st') {other : ℕ}
    (hne : other ≠ csd) : st'.devices other = st.devices other := by
  cases heffect <;> exact update_of_ne hne _ _

theorem DeviceInv.raise_front {k : ℕ} {dev : Device} {unsent : List (ℕ × ℕ)}
    (h : DeviceInv s csd k dev unsent) {front : ProcEdge}
    (hworker : dev.worker = .raise front) :
    Closed s csd k dev unsent ∧ front = marker s csd k := by
  rcases h.phase with hlagging | hworking | hclosed
  · rcases hlagging.worker_eq with heq | ⟨todo, heq⟩ <;>
      simp [hworker] at heq
  · have hok := hworking.worker_ok
    rw [WorkerOk, hworker] at hok
    exact hok.elim
  · exact ⟨hclosed, (h.reachBarrier hclosed hworker).1⟩

/-- A worker announces no partition and withdraws none. -/
theorem WorkerEffect.donePartition (h : Inv s st) (hcsd : csd < s.numCsds)
    (heffect : WorkerEffect s csd st st') {c : ℕ} (hc : c < s.numPartitions) :
    st'.mem.donePartition c = st.mem.donePartition c := by
  cases heffect with
  | raise hworker =>
      obtain ⟨-, hfront⟩ := (h.devices csd hcsd).raise_front hworker
      obtain ⟨hcsdId, hpartitions, -, -⟩ := marker_fields s csd st.iter
      rw [hfront, hcsdId, hpartitions]
      apply update_of_ne
      simp only [barrierId]
      omega
  | edge hworker =>
      change (edgeRound s st.mem _ _ _ _).1.donePartition c = _
      unfold edgeRound
      split <;> rfl
  | complete hworker =>
      change (raiseDone st.mem _ _).donePartition c = _
      rw [raiseDone_donePartition]
  | move | close | leave | copy | copied | normal | front | found | missed =>
      rfl

/-- The block that a worker runs is one of the graph. -/
theorem Inv.running_lt (h : Inv s st) (hcsd : csd < s.numCsds) {future : Bool}
    {node : ProcEdge} {edges : List (ℕ × ℕ)} {state : UInt32}
    (hworker : (st.devices csd).worker = .run future node edges state) :
    node.r < s.numPartitions ∧ node.c < s.numPartitions := by
  have hdev := h.devices csd hcsd
  have hworking := hdev.working (by simp [hworker]) (by simp [hworker])
    (by simp [hworker])
  have hrunning : (st.devices csd).running future = [blockOf node] := by
    simp [Device.running, hworker]
  change (blockOf node).1 < s.numPartitions ∧ (blockOf node).2 < s.numPartitions
  apply hdev.mem_normals
  cases future with
  | false => simp [hrunning]
  | true =>
      obtain ⟨waiting, hwaiting⟩ := hworking.waiting
      have hran : blockOf node ∈ (st.devices csd).ran false st.iter :=
        (hwaiting.mem_ran (by simp [hrunning])).1
      simp [hran]

/-! ## Steps -/

theorem sourcesFinal_worker (h : Inv s st) (hcsd : csd < s.numCsds)
    (hfinal : SourcesFinal s st) (hready : FrontReady csd st)
    (hpicks : PicksBlock csd st) (heffect : WorkerEffect s csd st st') :
    SourcesFinal s st' := by
  intro other hother
  by_cases hne : other ≠ csd
  · apply (hfinal other hother).congr
    · rw [heffect.others hne]
    · rintro r hflag node edges state hrun rfl
      have hlt := (h.running_lt hother hrun).1
      rw [heffect.donePartition h hcsd hlt, hflag]
  · obtain rfl := not_not.mp hne
    have hself : ∀ dev, update st.devices other dev other = dev :=
      fun dev => update_self _ _ _
    cases heffect with
    | edge hworker =>
        have hrun := hfinal other hother
        unfold ReadsFinal at hrun ⊢
        simp only [State.setWorker, State.setDevice, hself]
        rw [hworker] at hrun
        split
        · rename_i heq
          cases heq
          exact hrun
        · trivial
    | front hworker hqueue hflag =>
        simp only [FrontReady, hworker] at hready
        unfold ReadsFinal
        simp only [takeFuture, startRun, State.setDevice, hself]
        exact hready hflag _ (by simp [hqueue])
    | found hworker hnode hflag =>
        unfold ReadsFinal
        simp only [takeFuture, startRun, State.setDevice, hself]
        exact hflag
    | missed hworker =>
        simp only [PicksBlock, hworker] at hpicks
    | move hold hnew =>
        apply readsFinal_of_idle
        intro node edges state hrun
        simp only [State.setWorker, State.setDevice, hself] at hrun
        rw [hrun] at hnew
        exact hnew
    | @copied front hworker =>
        apply readsFinal_of_idle
        intro node edges state hrun
        simp only [State.setDevice, hself] at hrun
        have hidle := WorkerPc.idle_scanOrCheck (st.devices other) front
        rw [hrun] at hidle
        exact hidle
    | close | raise | leave | copy | normal | complete =>
        apply readsFinal_of_idle
        simp [State.setWorker, State.setDevice, startRun, Device.complete]

/-- The host changes no more of a device than its submission queue, and takes
an announcement back only at the end of an iteration. -/
theorem hostStep_frame (hstep : hostStep s st = some st') :
    (∀ csd, ∃ sq, st'.devices csd = { st.devices csd with sq := sq }) ∧
      (st.host ≠ .wait → ∀ c < s.numPartitions,
        st.mem.donePartition c = true → st'.mem.donePartition c = true) := by
  have hkeep : ∀ csd, ∃ sq, st.devices csd = { st.devices csd with sq := sq } :=
    fun csd => ⟨(st.devices csd).sq, rfl⟩
  cases hostStep_effect hstep with
  | @send r c csd rest =>
      have hflags := (markEmpty_barriers s st.iter r c csd st.mem).1
      rw [sendStep_eq]
      dsimp only
      split
      · refine ⟨hkeep, fun _ c _ hflag => ?_⟩
        rw [hflags, hflag]
      · refine ⟨fun other => ?_, fun _ c _ hflag => ?_⟩
        · by_cases hne : other = csd
          · subst hne
            exact ⟨_, State.devices_setDevice_self _ _ _⟩
          · exact ⟨(st.devices other).sq,
              State.devices_setDevice_of_ne hne _ _⟩
        · change (markEmpty s st.iter r _ csd st.mem).donePartition c = true
          rw [hflags, hflag]
  | notify =>
      refine ⟨hkeep, fun _ c' _ hflag => ?_⟩
      change update st.mem.donePartition _ true c' = true
      rw [update_apply, hflag, ite_self]
  | replace hhost => exact ⟨hkeep, fun hne => absurd hhost hne⟩
  | @release csd =>
      refine ⟨hkeep, fun _ c hc hflag => ?_⟩
      change update st.mem.donePartition (barrierId s.numPartitions csd)
        false c = true
      rw [update_of_ne (by simp only [barrierId]; omega), hflag]
  | sent | aggregated | column | merge | merged | damp | damped | start
  | finish => exact ⟨hkeep, fun _ _ _ hflag => hflag⟩

theorem sourcesFinal_host (h : Inv s st) (hfinal : SourcesFinal s st)
    (hstep : hostStep s st = some st') : SourcesFinal s st' := by
  obtain ⟨hdevices, hflags⟩ := hostStep_frame hstep
  intro csd hcsd
  apply (hfinal csd hcsd).congr
  · obtain ⟨sq, hsq⟩ := hdevices csd
    rw [hsq]
  · rintro r hflag node edges state hrun rfl
    apply hflags _ _ (h.running_lt hcsd hrun).1 hflag
    -- At the end of an iteration no device runs a task.
    intro hwait
    simp only [hostStep, hwait] at hstep
    split at hstep
    · rename_i hready
      have hbarrier := (h.closed hwait hready hcsd).2
      rw [hrun] at hbarrier
      cases hbarrier
    · cases hstep

/-- A dispatcher changes no more of a device than the queues on the way to its
worker. -/
theorem dispatchStep_frame (hstep : dispatchStep csd st = some st') :
    ∃ devices, st' = { st with devices := devices } ∧
      ∀ other, ∃ sq dispatched normalQueue, devices other =
        { st.devices other with
          sq := sq, dispatched := dispatched, normalQueue := normalQueue } := by
  have hset : ∀ sq dispatched normalQueue other,
      ∃ sq' dispatched' normalQueue',
        update st.devices csd { st.devices csd with
          sq := sq
          dispatched := dispatched
          normalQueue := normalQueue } other =
        { st.devices other with
          sq := sq'
          dispatched := dispatched'
          normalQueue := normalQueue' } := by
    intro sq dispatched normalQueue other
    by_cases hne : other = csd
    · subst hne
      exact ⟨sq, dispatched, normalQueue, update_self _ _ _⟩
    · exact ⟨_, _, _, update_of_ne hne _ _⟩
  cases hdispatched : (st.devices csd).dispatched with
  | some node =>
      simp only [dispatchStep, hdispatched, Option.some.injEq] at hstep
      subst hstep
      exact ⟨_, rfl, hset _ _ _⟩
  | none =>
      cases hsq : (st.devices csd).sq with
      | nil => simp [dispatchStep, hdispatched, hsq] at hstep
      | cons node rest =>
          simp only [dispatchStep, hdispatched, hsq, Option.some.injEq]
            at hstep
          subst hstep
          exact ⟨_, rfl, hset _ _ _⟩

theorem sourcesFinal_step (h : Inv s st) (hfinal : SourcesFinal s st)
    (hpicks : PicksBlocks s actor st) (hready : TakesReady s actor st)
    (hstep : step s actor st = some st') : SourcesFinal s st' := by
  cases actor with
  | host => exact sourcesFinal_host h hfinal hstep
  | dispatcher csd =>
      simp only [step] at hstep
      split at hstep
      · obtain ⟨devices, rfl, hdevices⟩ := dispatchStep_frame hstep
        intro other hother
        obtain ⟨sq, dispatched, normalQueue, hdev⟩ := hdevices other
        have hworker := congrArg Device.worker hdev
        exact (hfinal other hother).congr hworker
          fun r hflag _ _ _ _ _ => hflag
      · cases hstep
  | worker csd =>
      simp only [step] at hstep
      split at hstep
      · rename_i hcsd
        exact sourcesFinal_worker h hcsd hfinal (hready hcsd) (hpicks hcsd)
          (workerStep_effect hstep)
      · cases hstep

/-! ## Runs -/

/-- Without a search in the future queue the marker is never picked. -/
theorem picksBlocks_of_mode (h : Inv s st) (hone : s.rowOverlap ≠ 1)
    (htwo : s.rowOverlap ≠ 2) (actor : Actor) : PicksBlocks s actor st := by
  cases actor with
  | host => trivial
  | dispatcher csd => trivial
  | worker csd =>
      intro hcsd
      unfold PicksBlock
      split
      all_goals
        first
        | trivial
        | rename_i hworker
          have hok := ((h.devices csd hcsd).working (by simp [hworker])
            (by simp [hworker]) (by simp [hworker])).worker_ok
          simp only [WorkerOk, hworker] at hok
          exact absurd hok.2 (not_or.mpr ⟨hone, htwo⟩)

theorem inv_stateAfter (hone : s.rowOverlap ≠ 1) (htwo : s.rowOverlap ≠ 2)
    (schedule : List Actor) : Inv s (stateAfter s schedule) :=
  Interleaving.run_invariant (step s)
    (fun _ _ _ h hstep => step_inv (picksBlocks_of_mode h hone htwo _) h hstep)
    schedule (inv_initial s)

/-- With `row_overlap` 0 the task that is tested is the first one. -/
theorem takesReady_of_mode (h : Inv s st) (hmode : s.rowOverlap = 0)
    (actor : Actor) : TakesReady s actor st := by
  cases actor with
  | host => trivial
  | dispatcher csd => trivial
  | worker csd =>
      intro hcsd
      unfold FrontReady
      split
      · rename_i task hworker
        intro hflag front hfront
        have hok := ((h.devices csd hcsd).working (by simp [hworker])
          (by simp [hworker]) (by simp [hworker])).worker_ok
        simp only [WorkerOk, hworker] at hok
        rcases hok.2 with hnil | ⟨-, hhead⟩
        · simp [hnil] at hfront
        · rw [(hhead front hfront).2 hmode]
          exact hflag
      · trivial

theorem sourcesFinal_of_mode (hmode : s.rowOverlap = 0)
    (schedule : List Actor) : SourcesFinal s (stateAfter s schedule) := by
  have hone : s.rowOverlap ≠ 1 := by omega
  have htwo : s.rowOverlap ≠ 2 := by omega
  have hinv : ∀ actor st st', Inv s st ∧ SourcesFinal s st →
      step s actor st = some st' → Inv s st' ∧ SourcesFinal s st' := by
    rintro actor st st' ⟨h, hfinal⟩ hstep
    have hpicks := picksBlocks_of_mode h hone htwo actor
    have hready := takesReady_of_mode h hmode actor
    exact ⟨step_inv hpicks h hstep,
      sourcesFinal_step h hfinal hpicks hready hstep⟩
  exact (Interleaving.run_invariant (step s) hinv schedule
    ⟨inv_initial s, fun csd _ => trivial⟩).2

theorem not_always_of_last {schedule : List Actor}
    (hlast : ¬ SourcesFinal s (stateAfter s schedule)) :
    ¬ Interleaving.Always (step s) (SourcesFinal s) schedule
      (initialState s) :=
  fun halways => hlast halways.last

/-- A task that is tested is one of the queue, so that the first one is ready
if it is. -/
theorem takesReady_of_front (h : Inv s st)
    (hfront : WhileChoosing s FrontFirst actor st) : TakesReady s actor st := by
  cases actor with
  | host => trivial
  | dispatcher csd => trivial
  | worker csd =>
      intro hcsd
      have hfirst := hfront hcsd
      unfold FrontReady
      split
      · rename_i task hworker
        intro hflag front hhead
        rw [hworker] at hfirst
        have hok := ((h.devices csd hcsd).working (by simp [hworker])
          (by simp [hworker]) (by simp [hworker])).worker_ok
        simp only [WorkerOk, hworker] at hok
        rcases hok.2 with hnil | ⟨hmem, -⟩
        · simp [hnil] at hhead
        · exact hfirst trivial task hmem hflag front hhead
      · trivial

/-- With `row_overlap` 3 every future task reads final values, in every run in
which, from the start of a round of a worker to the choice of a task, the row of
the first task of its future queue has been announced if that of any other has.
-/
theorem future_sources_final (s : Setup) (hmode : s.rowOverlap = 3)
    (schedule : List Actor)
    (hfront : Interleaving.Meets (step s) (WhileChoosing s FrontFirst) schedule
      (initialState s)) :
    Interleaving.Always (step s) (SourcesFinal s) schedule
      (initialState s) := by
  have hone : s.rowOverlap ≠ 1 := by omega
  have htwo : s.rowOverlap ≠ 2 := by omega
  have hproperty : ∀ st, Inv s st ∧ SourcesFinal s st → SourcesFinal s st :=
    fun _ h => h.2
  refine Interleaving.always_of_meets (step s) hproperty ?_
    ⟨inv_initial s, fun csd _ => trivial⟩ hfront
  rintro actor st ⟨h, hfinal⟩ hchoosing
  cases hstep : step s actor st with
  | none =>
      rw [Interleaving.turn, hstep]
      exact ⟨h, hfinal⟩
  | some st' =>
      rw [Interleaving.turn, hstep]
      have hpicks := picksBlocks_of_mode h hone htwo actor
      have hready := takesReady_of_front h hchoosing
      exact ⟨step_inv hpicks h hstep,
        sourcesFinal_step h hfinal hpicks hready hstep⟩

/-- Three partitions with an edge from the second to itself and one from the
first to the third, which a column-major iteration sends in this order. -/
def twoEdgeGrid : Setup :=
  gridSetup 3 2 3
    (fun r c => if (r, c) = (1, 1) ∨ (r, c) = (0, 2) then 8 else 0) (by decide)

/-- The host sends its tasks and announces the first partition, and the worker
runs both edges. -/
def firstAnnounced : List Actor :=
  List.replicate 17 Actor.host ++ List.replicate 4 (Actor.dispatcher 0) ++
    List.replicate 11 (Actor.worker 0)

/-- The second partition is announced before the next round of the worker. -/
theorem future_sources_final_announced :
    Interleaving.Always (step twoEdgeGrid) (SourcesFinal twoEdgeGrid)
      (firstAnnounced ++ List.replicate 8 Actor.host ++
        List.replicate 10 (Actor.worker 0))
      (initialState twoEdgeGrid) :=
  future_sources_final twoEdgeGrid rfl _ (by decide +kernel)

/-- The scan finds the task of block `(0, 2)`, whose partition is announced, and
the task of block `(1, 1)` is taken, whose partition is not. -/
theorem unannounced_source_taken :
    let schedule := firstAnnounced ++ List.replicate 4 (Actor.worker 0)
    let st := stateAfter twoEdgeGrid schedule
    (st.devices 0).futureQueue.map blockOf = [(0, 2)] ∧
      st.mem.donePartition 0 = true ∧ st.mem.donePartition 1 = false ∧
      ¬ SourcesFinal twoEdgeGrid st ∧
      ¬ Interleaving.Always (step twoEdgeGrid) (SourcesFinal twoEdgeGrid)
        schedule (initialState twoEdgeGrid) := by
  intro schedule st
  have hread : ¬ SourcesFinal twoEdgeGrid st := by decide +kernel
  refine ⟨by decide +kernel, by decide +kernel, by decide +kernel, hread, ?_⟩
  exact not_always_of_last hread

end NvmeVirt.DualQueue
