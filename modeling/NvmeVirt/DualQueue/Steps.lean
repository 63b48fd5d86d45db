import NvmeVirt.DualQueue.System

/-!
# Every step keeps the invariant
-/

namespace NvmeVirt.DualQueue

open Function NvmeVirt.Csd

variable {s : Setup} {csd k : ℕ} {st st' : State}

/-! ## Dispatcher -/

theorem Flags.sameWorker {sends : List (ℕ × ℕ × ℕ)} {held : List ℕ}
    {mem : Hmb} {dev dev' : Device} (h : Flags s csd k sends held mem dev)
    (hran : ∀ f iter, dev'.ran f iter = dev.ran f iter)
    (hworker : dev'.worker = dev.worker) (hcopies : dev'.copies = dev.copies) :
    Flags s csd k sends held mem dev' where
  done1_iff := by
    simp only [hran]
    exact h.done1_iff
  done2_iff := by
    simp only [hran]
    exact h.done2_iff
  barrier_iff := by
    rw [hworker, hcopies]
    exact h.barrier_iff
  held_copies := by
    rw [hworker, hcopies]
    exact h.held_copies

theorem dispatchStep_inv (h : Inv s st) (hcsd : csd < s.numCsds)
    (hstep : dispatchStep csd st = some st') : Inv s st' := by
  have hdev := h.devices csd hcsd
  have hflags := h.flags csd hcsd
  cases hdispatched : (st.devices csd).dispatched with
  | some node =>
      simp only [dispatchStep, hdispatched, Option.some.injEq] at hstep
      subst hstep
      refine h.updateDevice (hdev.requeue ?_) ?_
        (fun other _ => SameFlags.refl s other _) (fun _ _ => rfl)
      · simp [Device.queued, hdispatched]
      · exact hflags.sameWorker (fun _ _ => rfl) rfl rfl
  | none =>
      cases hsq : (st.devices csd).sq with
      | nil => simp [dispatchStep, hdispatched, hsq] at hstep
      | cons node rest =>
          have hfind := hdev.queueFind_eq hdispatched hsq
          simp only [dispatchStep, hdispatched, hsq, hfind,
            Option.some.injEq] at hstep
          subst hstep
          refine h.updateDevice (hdev.requeue ?_) ?_
            (fun other _ => SameFlags.refl s other _) (fun _ _ => rfl)
          · simp [Device.queued, hdispatched, hsq]
          · exact hflags.sameWorker (fun _ _ => rfl) rfl rfl

/-! ## Worker -/

/-- The search of the worker never stops at the marker, and stops. -/
def PicksBlock (csd : ℕ) (st : State) : Prop :=
  match (st.devices csd).worker with
  | .find _ [] => False
  | .find _ (i :: _) => ∀ node, (st.devices csd).futureQueue[i]? = some node →
      st.mem.donePartition node.r = true → endsIteration node = false
  | _ => True

theorem WorkerOk.ne_barrier {dev : Device} (hok : WorkerOk s csd k dev)
    (node : ProcEdge) : dev.worker ≠ .barrier node := by
  intro hworker
  rw [WorkerOk, hworker] at hok
  exact hok

theorem DeviceInv.working {dev : Device} {unsent : List (ℕ × ℕ)}
    (h : DeviceInv s csd k dev unsent)
    (hraise : ∀ node, dev.worker ≠ .raise node)
    (hbarrier : ∀ node, dev.worker ≠ .barrier node)
    (hcopy : ∀ node todo, dev.worker ≠ .copy node todo) :
    Working s csd k dev := by
  rcases h.phase with hlagging | hworking | hclosed
  · rcases hlagging.worker_eq with heq | ⟨todo, heq⟩
    · exact absurd heq (hbarrier _)
    · exact absurd heq (hcopy _ _)
  · exact hworking
  · rcases hclosed.worker_eq with heq | heq
    · exact absurd heq (hraise _)
    · exact absurd heq (hbarrier _)

/-- A device waits at the barrier with the marker of the iteration that its
next copy closes. -/
theorem DeviceInv.barrier_front {dev : Device} {unsent : List (ℕ × ℕ)}
    (h : DeviceInv s csd k dev unsent) {front : ProcEdge}
    (hworker : dev.worker = .barrier front) :
    front = marker s csd dev.copies := by
  rcases h.phase with hlagging | hworking | hclosed
  · rcases hlagging.worker_eq with heq | ⟨todo, heq⟩
    · simpa [hworker] using heq
    · simp [hworker] at heq
  · exact absurd hworker (hworking.worker_ok.ne_barrier _)
  · rcases hclosed.worker_eq with heq | heq
    · simp [hworker] at heq
    · rw [hclosed.copies_eq]
      simpa [hworker] using heq

theorem DeviceInv.copy_front {dev : Device} {unsent : List (ℕ × ℕ)}
    (h : DeviceInv s csd k dev unsent) {front : ProcEdge} {todo : List ℕ}
    (hworker : dev.worker = .copy front todo) :
    Lagging s csd k dev ∧ front = marker s csd dev.copies := by
  rcases h.phase with hlagging | hworking | hclosed
  · refine ⟨hlagging, ?_⟩
    rcases hlagging.worker_eq with heq | ⟨todo, heq⟩
    · simp [hworker] at heq
    · rw [hworker] at heq
      exact (WorkerPc.copy.inj heq).1
  · have hok := hworking.worker_ok
    rw [WorkerOk, hworker] at hok
    exact hok.elim
  · rcases hclosed.worker_eq with heq | heq <;> simp [hworker] at heq

theorem Working.rowOverlap_eq {dev : Device} (h : Working s csd k dev)
    {node : ProcEdge} (hnode : node ∈ dev.futureQueue) :
    node.rowOverlap = s.rowOverlap := by
  obtain ⟨waiting, hwaiting⟩ := h.waiting
  rw [hwaiting.queue_eq] at hnode
  rcases List.mem_append.mp hnode with hblock | hmarker
  · obtain ⟨block, -, rfl⟩ := List.mem_map.mp hblock
    rfl
  · split at hmarker
    · rw [List.mem_singleton.mp hmarker]
      exact (marker_fields s csd k).2.2.2
    · exact absurd hmarker List.not_mem_nil

theorem Device.running_of_ne_run (dev : Device)
    (hworker : ∀ future node edges state,
      dev.worker ≠ .run future node edges state) (f : Bool) :
    dev.running f = [] := by
  unfold Device.running
  split
  · rename_i heq
    exact absurd heq (hworker _ _ _ _)
  · rfl

theorem Device.running_scanOrCheck (dev : Device) (node : ProcEdge)
    (f : Bool) :
    { dev with worker := scanOrCheck dev node }.running f = [] := by
  unfold scanOrCheck
  split <;> rfl

theorem Working.scanOrCheck_ok {dev : Device} (h : Working s csd k dev)
    {front : ProcEdge} {rest : List ProcEdge}
    (hqueue : dev.futureQueue = front :: rest)
    (hends : endsIteration front = false) :
    WorkerOk s csd k { dev with worker := scanOrCheck dev front } := by
  have hmem : front ∈ dev.futureQueue := by simp [hqueue]
  have hrow := h.rowOverlap_eq hmem
  unfold scanOrCheck
  split
  · rename_i hscan
    exact ⟨hrow, hrow ▸ hscan.1, hmem, List.Subset.refl _, by
      simp [hqueue, hends]⟩
  · exact ⟨hrow, .inr ⟨hmem, by simp [hqueue, hends]⟩⟩

namespace Inv

/-- A working device goes on working. -/
theorem stayWorking (h : Inv s st) (hcsd : csd < s.numCsds)
    (hworking : Working s csd st.iter (st.devices csd)) {dev' : Device}
    {mem' : Hmb} (hdev : DeviceInv s csd st.iter dev'
      (unsent s csd st.iter (st.host.sends s st.iter)))
    (haway : ∀ node, dev'.worker ≠ .barrier node)
    (hran : ∀ f iter, dev'.ran f iter = (st.devices csd).ran f iter)
    (hsame : ∀ other, SameFlags s other st.mem mem')
    (hcolumns : ∀ c < s.numPartitions,
      mem'.donePartition c = st.mem.donePartition c) :
    Inv s ({ st with mem := mem' }.setDevice csd dev') :=
  h.updateAway hcsd hdev hran hworking.worker_ok.ne_barrier haway hsame
    hcolumns

theorem moveWorker (h : Inv s st) (hcsd : csd < s.numCsds)
    (hworking : Working s csd st.iter (st.devices csd)) {worker : WorkerPc}
    (hrunning : ∀ f, { st.devices csd with worker := worker }.running f =
      (st.devices csd).running f)
    (hok : WorkerOk s csd st.iter { st.devices csd with worker := worker }) :
    Inv s (st.setWorker csd worker) :=
  h.stayWorking hcsd hworking
    ((h.devices csd hcsd).moveWorker hworking hrunning hok) hok.ne_barrier
    (fun _ _ => rfl) (fun other => SameFlags.refl s other _) fun _ _ => rfl

variable (h : Inv s st) (hcsd : csd < s.numCsds)
include h hcsd

theorem top_step (hworker : (st.devices csd).worker = .top)
    (hstep : workerStep s csd st = some st') : Inv s st' := by
  have hdev := h.devices csd hcsd
  have hworking := hdev.working (by simp [hworker]) (by simp [hworker])
    (by simp [hworker])
  have hidle := (st.devices csd).running_of_ne_run (by simp [hworker])
  cases hqueue : (st.devices csd).futureQueue with
  | nil =>
      simp only [workerStep, hworker, hqueue] at hstep
      split at hstep
      · cases hstep
      · cases hstep
        apply h.moveWorker hcsd hworking
        · intro f
          rw [hidle]
          rfl
        · trivial
  | cons front rest =>
      simp only [workerStep, hworker, hqueue] at hstep
      split at hstep
      · rename_i hends
        cases hstep
        have hend := hdev.enterEnd hworking hidle hqueue hends
        exact h.stayWorking hcsd hworking hend (by simp) (fun _ _ => rfl)
          (fun other => SameFlags.refl s other _) fun _ _ => rfl
      · rename_i hends
        cases hstep
        apply h.moveWorker hcsd hworking
        · intro f
          rw [hidle, Device.running_scanOrCheck]
        · exact hworking.scanOrCheck_ok hqueue (Bool.eq_false_of_not_eq_true
            hends)

theorem await_step {front : ProcEdge}
    (hworker : (st.devices csd).worker = .await front)
    (hstep : workerStep s csd st = some st') : Inv s st' := by
  have hdev := h.devices csd hcsd
  have hworking := hdev.working (by simp [hworker]) (by simp [hworker])
    (by simp [hworker])
  obtain ⟨-, -, hclose⟩ := hdev.closeIteration hworking hworker
  simp only [workerStep, hworker] at hstep
  split at hstep
  · cases hstep
    exact h.stayWorking hcsd hworking hclose (by simp) (fun _ _ => rfl)
      (fun other => SameFlags.refl s other _) fun _ _ => rfl
  · cases hstep

theorem scan_step {node : ProcEdge} {nodes : List ProcEdge}
    (hworker : (st.devices csd).worker = .scan node nodes)
    (hstep : workerStep s csd st = some st') : Inv s st' := by
  have hworking := (h.devices csd hcsd).working (by simp [hworker])
    (by simp [hworker]) (by simp [hworker])
  have hok := hworking.worker_ok
  simp only [WorkerOk, hworker] at hok
  obtain ⟨hrow, hoverlap, hmem, hnodes, hfront⟩ := hok
  have hcheck : ∀ node ∈ (st.devices csd).futureQueue,
      WorkerOk s csd st.iter
        { st.devices csd with worker := .check node } := by
    intro node hnode
    refine ⟨hworking.rowOverlap_eq hnode, .inr ⟨hnode, ?_⟩⟩
    intro front hhead
    exact ⟨hfront front hhead, fun hzero => absurd hzero hoverlap⟩
  have hidle := (st.devices csd).running_of_ne_run (by simp [hworker])
  cases nodes with
  | nil =>
      simp only [workerStep, hworker, Option.some.injEq] at hstep
      subst hstep
      exact h.moveWorker hcsd hworking (fun f => (hidle f).symm) (hcheck _ hmem)
  | cons first rest =>
      simp only [workerStep, hworker, Option.some.injEq] at hstep
      subst hstep
      split
      · exact h.moveWorker hcsd hworking (fun f => (hidle f).symm)
          (hcheck _ (hnodes List.mem_cons_self))
      · exact h.moveWorker hcsd hworking (fun f => (hidle f).symm)
          ⟨hrow, hoverlap, hmem,
            List.Subset.trans (List.subset_cons_self _ _) hnodes, hfront⟩

/-- A task that is not the marker is taken from the future queue. -/
theorem take_step (hworking : Working s csd st.iter (st.devices csd))
    (hidle : ∀ f, (st.devices csd).running f = []) {i : ℕ} {node : ProcEdge}
    (hnode : (st.devices csd).futureQueue[i]? = some node)
    (hmarker : endsIteration node = false) :
    Inv s (takeFuture s csd st i node) :=
  h.stayWorking hcsd hworking
    ((h.devices csd hcsd).takeFuture hworking hidle hnode hmarker)
    (by simp [startRun]) (fun _ _ => rfl)
    (fun other => SameFlags.refl s other _) fun _ _ => rfl

theorem check_step {node : ProcEdge}
    (hworker : (st.devices csd).worker = .check node)
    (hstep : workerStep s csd st = some st') : Inv s st' := by
  have hworking := (h.devices csd hcsd).working (by simp [hworker])
    (by simp [hworker]) (by simp [hworker])
  have hok := hworking.worker_ok
  simp only [WorkerOk, hworker] at hok
  obtain ⟨hrow, hqueue⟩ := hok
  have hidle := (st.devices csd).running_of_ne_run (by simp [hworker])
  have hnormal : Inv s (st.setWorker csd .normalCheck) :=
    h.moveWorker hcsd hworking (fun f => (hidle f).symm) trivial
  have hfind : s.rowOverlap = 1 ∨ s.rowOverlap = 2 → ∀ todo,
      Inv s (st.setWorker csd (.find node todo)) := fun hmode todo =>
    h.moveWorker hcsd hworking (fun f => (hidle f).symm) ⟨hrow, hmode⟩
  cases hfuture : (st.devices csd).futureQueue with
  | nil =>
      simp only [workerStep, hworker, hfuture, Option.some.injEq] at hstep
      subst hstep
      exact hnormal
  | cons front rest =>
      rw [hfuture] at hqueue
      have hends : endsIteration front = false := by
        rcases hqueue with hnil | ⟨-, hfront⟩
        · cases hnil
        · exact (hfront front rfl).1
      simp only [workerStep, hworker, hfuture] at hstep
      split at hstep
      · split at hstep
        · rename_i hone
          cases hstep
          exact hfind (.inl (hrow ▸ hone)) _
        · split at hstep
          · rename_i htwo
            cases hstep
            exact hfind (.inr (hrow ▸ htwo)) _
          · cases hstep
            exact h.take_step hcsd hworking hidle (by simp [hfuture]) hends
      · cases hstep
        exact hnormal

theorem find_step {node : ProcEdge} {todo : List ℕ}
    (hpicks : PicksBlock csd st)
    (hworker : (st.devices csd).worker = .find node todo)
    (hstep : workerStep s csd st = some st') : Inv s st' := by
  have hworking := (h.devices csd hcsd).working (by simp [hworker])
    (by simp [hworker]) (by simp [hworker])
  have hok := hworking.worker_ok
  simp only [WorkerOk, hworker] at hok
  simp only [PicksBlock, hworker] at hpicks
  have hidle := (st.devices csd).running_of_ne_run (by simp [hworker])
  cases todo with
  | nil => exact hpicks.elim
  | cons i todo =>
      have hnext : Inv s (st.setWorker csd (.find node todo)) :=
        h.moveWorker hcsd hworking (fun f => (hidle f).symm) hok
      cases hnode : (st.devices csd).futureQueue[i]? with
      | none =>
          simp only [workerStep, hworker, hnode, Option.some.injEq] at hstep
          subst hstep
          exact hnext
      | some found =>
          simp only [workerStep, hworker, hnode] at hstep
          split at hstep
          · rename_i hready
            cases hstep
            exact h.take_step hcsd hworking hidle hnode
              (hpicks found hnode hready)
          · cases hstep
            exact hnext

theorem normalCheck_step (hworker : (st.devices csd).worker = .normalCheck)
    (hstep : workerStep s csd st = some st') : Inv s st' := by
  have hdev := h.devices csd hcsd
  have hworking := hdev.working (by simp [hworker]) (by simp [hworker])
    (by simp [hworker])
  have hidle := (st.devices csd).running_of_ne_run (by simp [hworker])
  cases hqueue : (st.devices csd).normalQueue with
  | nil =>
      simp only [workerStep, hworker, hqueue, Option.some.injEq] at hstep
      subst hstep
      exact h.moveWorker hcsd hworking (fun f => (hidle f).symm) trivial
  | cons node rest =>
      simp only [workerStep, hworker, hqueue, Option.some.injEq] at hstep
      subst hstep
      exact h.stayWorking hcsd hworking
        (hdev.takeNormal hworking hidle hqueue) (by simp [startRun])
        (fun _ _ => rfl) (fun other => SameFlags.refl s other _) fun _ _ => rfl

omit hcsd in
/-- The flags that two barriers use are different, and not those of a
partition. -/
theorem barrier_step {mem' : Hmb} {value : Bool} {dev' : Device}
    (hmem : mem' = { st.mem with
      donePartition := update st.mem.donePartition
        (barrierId s.numPartitions csd) value })
    (hdev : DeviceInv s csd st.iter dev'
      (unsent s csd st.iter (st.host.sends s st.iter)))
    (hflags : Flags s csd st.iter (st.host.sends s st.iter) st.host.held mem'
      dev') :
    Inv s ({ st with mem := mem' }.setDevice csd dev') := by
  apply h.updateDevice hdev hflags
  · intro other hother
    refine ⟨fun _ _ _ _ => by rw [hmem], fun _ _ _ _ => by rw [hmem], ?_⟩
    rw [hmem]
    apply update_of_ne
    simp only [barrierId]
    omega
  · intro c hc
    rw [hmem]
    apply update_of_ne
    simp only [barrierId]
    omega

theorem raise_step {front : ProcEdge}
    (hworker : (st.devices csd).worker = .raise front)
    (hstep : workerStep s csd st = some st') : Inv s st' := by
  have hdev := h.devices csd hcsd
  have hflags := h.flags csd hcsd
  have hclosed : Closed s csd st.iter (st.devices csd)
      (unsent s csd st.iter (st.host.sends s st.iter)) := by
    rcases hdev.phase with hlagging | hworking | hclosed
    · rcases hlagging.worker_eq with heq | ⟨todo, heq⟩
      · simp [hworker] at heq
      · simp [hworker] at heq
    · have hok := hworking.worker_ok
      rw [WorkerOk, hworker] at hok
      exact hok.elim
    · exact hclosed
  obtain ⟨hfront, hbarrier⟩ := hdev.reachBarrier hclosed hworker
  obtain ⟨hcsdId, hpartitions, -, -⟩ := marker_fields s csd st.iter
  simp only [workerStep, hworker, Option.some.injEq] at hstep
  rw [← hfront] at hcsdId hpartitions
  rw [hcsdId, hpartitions] at hstep
  subst hstep
  apply h.barrier_step rfl hbarrier
  refine ⟨hflags.done1_iff, hflags.done2_iff, ?_, ?_⟩
  · simp [hfront, hclosed.copies_eq]
  · intro hheld
    have hlate := (hflags.held_copies hheld).1
    have hcopies := hclosed.copies_eq
    omega

theorem leaveBarrier_step {front : ProcEdge}
    (hworker : (st.devices csd).worker = .barrier front)
    (hstep : workerStep s csd st = some st') : Inv s st' := by
  have hdev := h.devices csd hcsd
  have hflags := h.flags csd hcsd
  have hfront := hdev.barrier_front hworker
  obtain ⟨hcsdId, hpartitions, -, -⟩ :=
    marker_fields s csd (st.devices csd).copies
  rw [← hfront] at hcsdId hpartitions
  simp only [workerStep, hworker] at hstep
  rw [hcsdId, hpartitions] at hstep
  split at hstep
  · cases hstep
  · rename_i hdown
    cases hstep
    have hat : (st.devices csd).worker =
        .barrier (marker s csd (st.devices csd).copies) := by
      rw [hworker, hfront]
    have hreleased : ¬((st.devices csd).copies = st.iter ∨
        csd ∈ st.host.held) := by
      intro hheld
      exact hdown (hflags.barrier_iff.mpr ⟨hat, hheld⟩)
    have hlagging : Lagging s csd st.iter (st.devices csd) := by
      rcases hdev.phase with hlagging | hworking | hclosed
      · exact hlagging
      · exact absurd hworker (hworking.worker_ok.ne_barrier _)
      · exact absurd (.inl hclosed.copies_eq) hreleased
    have hcopy := hdev.copySection hlagging (List.range front.numVertices)
    rw [← hfront] at hcopy
    apply h.updateDevice hcopy
    · refine ⟨hflags.done1_iff, hflags.done2_iff, ?_, ?_⟩
      · simp [hdown]
      · intro hheld
        exact absurd (.inr hheld) hreleased
    · exact fun other _ => SameFlags.refl s other _
    · exact fun _ _ => rfl

theorem copy_step {front : ProcEdge} {todo : List ℕ}
    (hworker : (st.devices csd).worker = .copy front todo)
    (hstep : workerStep s csd st = some st') : Inv s st' := by
  have hdev := h.devices csd hcsd
  obtain ⟨hlagging, hfront⟩ := hdev.copy_front hworker
  cases todo with
  | nil =>
      simp only [workerStep, hworker, Option.some.injEq] at hstep
      subst hstep
      have hfinish := hdev.finishCopy hlagging
      rw [← hfront] at hfinish
      apply h.updateAway hcsd hfinish (fun _ _ => rfl) (by simp [hworker])
      · intro node
        simp only [scanOrCheck]
        split <;> simp
      · exact fun other => SameFlags.refl s other _
      · exact fun _ _ => rfl
  | cons v todo =>
      simp only [workerStep, hworker, Option.some.injEq] at hstep
      subst hstep
      have hnext := hdev.copySection hlagging todo
      rw [← hfront] at hnext
      exact h.updateAway hcsd hnext (fun _ _ => rfl) (by simp [hworker])
        (by simp) (fun other => ⟨fun _ _ _ _ => rfl, fun _ _ _ _ => rfl, rfl⟩)
        fun _ _ => rfl

end Inv

/-! ## The end of a task -/

theorem raiseDone_donePartition (mem : Hmb) (future : Bool)
    (node : ProcEdge) :
    (raiseDone mem future node).donePartition = mem.donePartition := by
  cases future <;> rfl

/-- The flag of the block is raised, and no other one. -/
theorem raiseDone_done (s : Setup) (csd other iter : ℕ) {block : ℕ × ℕ}
    (hblock : block.1 < s.numPartitions ∧ block.2 < s.numPartitions)
    (future : Bool) (mem : Hmb) {r c : ℕ} (hr : r < s.numPartitions)
    (hc : c < s.numPartitions) :
    let mem' := raiseDone mem future (task s csd iter block future)
    let id := blockId s.numPartitions other r c
    (mem'.done1 id = true ↔ mem.done1 id = true ∨
        future = false ∧ other = csd ∧ (r, c) = block) ∧
      (mem'.done2 id = true ↔ mem.done2 id = true ∨
        future = true ∧ other = csd ∧ (r, c) = block) := by
  intro mem' id
  have hid : id = blockId s.numPartitions csd block.1 block.2 ↔
      other = csd ∧ (r, c) = block := by
    rw [← Prod.eta block, Prod.mk.injEq]
    exact blockId_inj hr hblock.1 hc hblock.2
  rw [← hid]
  by_cases hsame : id = blockId s.numPartitions csd block.1 block.2
  · cases future with
    | false =>
        have hdone : mem'.done1 id = true := by
          rw [hsame]
          exact update_self _ _ _
        exact ⟨iff_of_true hdone (.inr ⟨rfl, hsame⟩),
          .inl, fun hold => hold.resolve_right (by simp)⟩
    | true =>
        have hdone : mem'.done2 id = true := by
          rw [hsame]
          exact update_self _ _ _
        exact ⟨⟨.inl, fun hold => hold.resolve_right (by simp)⟩,
          iff_of_true hdone (.inr ⟨rfl, hsame⟩)⟩
  · have hdone1 : mem'.done1 id = mem.done1 id := by
      cases future with
      | false => exact update_of_ne hsame _ _
      | true => rfl
    have hdone2 : mem'.done2 id = mem.done2 id := by
      cases future with
      | false => rfl
      | true => exact update_of_ne hsame _ _
    simp [hdone1, hdone2, hsame]

/-- A finished task raises its flag. -/
theorem Flags.complete {sends : List (ℕ × ℕ × ℕ)} {held : List ℕ} {mem : Hmb}
    {dev : Device} (h : Flags s csd k sends held mem dev)
    (haway : ∀ node, dev.worker ≠ .barrier node) (future : Bool)
    {block : ℕ × ℕ}
    (hblock : block.1 < s.numPartitions ∧ block.2 < s.numPartitions) :
    let node := task s csd (if future then k + 1 else k) block future
    Flags s csd k sends held (raiseDone mem future node)
      (dev.complete k future node) := by
  intro node
  have hran : ∀ f iter b, b ∈ (dev.complete k future node).ran f iter ↔
      b ∈ dev.ran f iter ∨
        (future = f ∧ (if future then k + 1 else k) = iter) ∧ b = block := by
    intro f iter b
    rw [Device.ran_complete, List.mem_append, List.mem_ite_nil_right,
      List.mem_singleton]
    rfl
  refine ⟨fun r hr c hc => ?_, fun r hr c hc => ?_, ?_, fun hheld => ?_⟩
  · rw [(raiseDone_done s csd csd _ hblock future mem hr hc).1,
      h.done1_iff r hr c hc, hran]
    cases future with
    | false => simp; tauto
    | true => simp
  · rw [(raiseDone_done s csd csd _ hblock future mem hr hc).2,
      h.done2_iff r hr c hc, hran]
    cases future with
    | false => simp
    | true => simp
  · rw [raiseDone_donePartition, h.barrier_iff]
    simp [haway, Device.complete]
  · exact absurd (h.held_copies hheld).2 (haway _)

theorem Inv.run_step (h : Inv s st) (hcsd : csd < s.numCsds) {future : Bool}
    {node : ProcEdge} {edges : List (ℕ × ℕ)} {state : UInt32}
    (hworker : (st.devices csd).worker = .run future node edges state)
    (hstep : workerStep s csd st = some st') : Inv s st' := by
  have hdev := h.devices csd hcsd
  have hflags := h.flags csd hcsd
  have hworking := hdev.working (by simp [hworker]) (by simp [hworker])
    (by simp [hworker])
  have hok := hworking.worker_ok
  have hok' := hok
  simp only [WorkerOk, hworker] at hok'
  have hrunning : ∀ f, (st.devices csd).running f =
      if future = f then [blockOf node] else [] := by
    intro f
    simp only [Device.running, hworker]
  cases edges with
  | cons edge edges =>
      simp only [workerStep, hworker, Option.some.injEq] at hstep
      subst hstep
      refine h.stayWorking hcsd hworking
        (hdev.moveWorker hworking (fun f => (hrunning f).symm) hok')
        (by simp) (fun _ _ => rfl) (fun other => ?_) fun c _ => ?_
      · unfold edgeRound
        cases future <;>
          exact ⟨fun _ _ _ _ => rfl, fun _ _ _ _ => rfl, rfl⟩
      · unfold edgeRound
        cases future <;> rfl
  | nil =>
      simp only [workerStep, hworker, Option.some.injEq] at hstep
      subst hstep
      have hblock : (blockOf node).1 < s.numPartitions ∧
          (blockOf node).2 < s.numPartitions := by
        cases future with
        | false =>
            apply hdev.mem_normals
            simp [hrunning]
        | true =>
            obtain ⟨waiting, hwaiting⟩ := hworking.waiting
            apply hdev.mem_normals
            have hran : blockOf node ∈ (st.devices csd).ran false st.iter :=
              (hwaiting.mem_ran (by simp [hrunning])).1
            simp [hran]
      have hcomplete : DeviceInv s csd st.iter
          ((st.devices csd).complete st.iter future node)
          (unsent s csd st.iter (st.host.sends s st.iter)) := by
        cases future with
        | false =>
            exact hdev.completeNormal hworking (by simp [hrunning]) hok'
        | true =>
            exact hdev.completeFuture hworking (by simp [hrunning]) hok'
      have hflags' := hflags.complete hok.ne_barrier future hblock
      dsimp only at hflags'
      rw [← hok'] at hflags'
      refine h.updateDevice hcomplete hflags' (fun other hother => ?_)
        fun c _ => ?_
      · refine ⟨fun r hr c hc => ?_, fun r hr c hc => ?_, ?_⟩
        · rw [hok', Bool.eq_iff_iff,
            (raiseDone_done s csd other _ hblock future st.mem hr hc).1]
          simp [hother]
        · rw [hok', Bool.eq_iff_iff,
            (raiseDone_done s csd other _ hblock future st.mem hr hc).2]
          simp [hother]
        · rw [raiseDone_donePartition]
      · rw [raiseDone_donePartition]

/-- A worker that picks no marker keeps the invariant. -/
theorem workerStep_inv (h : Inv s st) (hcsd : csd < s.numCsds)
    (hpicks : PicksBlock csd st)
    (hstep : workerStep s csd st = some st') : Inv s st' := by
  cases hworker : (st.devices csd).worker with
  | top => exact h.top_step hcsd hworker hstep
  | await front => exact h.await_step hcsd hworker hstep
  | raise front => exact h.raise_step hcsd hworker hstep
  | barrier front => exact h.leaveBarrier_step hcsd hworker hstep
  | copy front todo => exact h.copy_step hcsd hworker hstep
  | scan node nodes => exact h.scan_step hcsd hworker hstep
  | check node => exact h.check_step hcsd hworker hstep
  | find node todo => exact h.find_step hcsd hpicks hworker hstep
  | normalCheck => exact h.normalCheck_step hcsd hworker hstep
  | run future node edges state => exact h.run_step hcsd hworker hstep

end NvmeVirt.DualQueue
