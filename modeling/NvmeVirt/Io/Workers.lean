import NvmeVirt.Io.WorkChains

/-!
# Dispatcher and workers over the work queues

Any interleaving of the dispatcher's insertions and reclaims with the marks of
the workers keeps both lists of every work queue intact.
-/

namespace NvmeVirt.Io

open IndexList Interleaving

/-- A step of the dispatcher or of a worker. -/
inductive IoEvent where
  | enqueueIoReq (sqid cqid sqEntry commandId nsecsTarget status : ℕ)
  | internalOperation (sqid nsecsTarget writeBuffer buffsToRelease : ℕ)
  | reclaim
  | advance (id nsecs : ℕ)
  | copy (id entry : ℕ)
  | complete (id entry : ℕ)

namespace IoWorker

def markCopied (worker : IoWorker) (entry : ℕ) : IoWorker :=
  worker.setWork entry { worker.workQueue entry with isCopied := true }

def markCompleted (worker : IoWorker) (entry : ℕ) : IoWorker :=
  worker.setWork entry { worker.workQueue entry with isCompleted := true }

end IoWorker

namespace IoDevice

/-- The steps: a worker's clock never goes back, and it marks entries of its
busy list only, completing those that are due. -/
def step (event : IoEvent) (dev : IoDevice) : Option IoDevice :=
  match event with
  | .enqueueIoReq sqid cqid sqEntry commandId nsecsTarget status =>
      some (dev.enqueueIoReq sqid cqid sqEntry commandId nsecsTarget status)
  | .internalOperation sqid nsecsTarget writeBuffer buffsToRelease =>
      some (dev.scheduleInternalOperation sqid nsecsTarget writeBuffer
        buffsToRelease)
  | .reclaim => some dev.reclaimCompletedReqs
  | .advance id nsecs =>
      let worker := dev.workers id
      if id < dev.nrIoWorkers ∧ worker.latestNsecs ≤ nsecs then
        some (dev.setWorker id { worker with latestNsecs := nsecs })
      else none
  | .copy id entry =>
      let worker := dev.workers id
      if id < dev.nrIoWorkers ∧ entry ∈ worker.busyChain then
        some (dev.setWorker id (worker.markCopied entry))
      else none
  | .complete id entry =>
      let worker := dev.workers id
      if id < dev.nrIoWorkers ∧ entry ∈ worker.busyChain ∧
          worker.target entry ≤ worker.latestNsecs then
        some (dev.setWorker id (worker.markCompleted entry))
      else none

/-- The work queue of every worker is intact. -/
def Intact (dev : IoDevice) : Prop :=
  ∀ id, ∃ free busy, (dev.workers id).Chained free busy

theorem Intact.update {dev dev' : IoDevice} (hdev : dev.Intact) {id : ℕ}
    {worker : IoWorker} (hworkers : dev'.workers =
      Function.update dev.workers id worker) {free busy : List ℕ}
    (hworker : worker.Chained free busy) : dev'.Intact := by
  intro other
  rw [hworkers]
  by_cases hother : other = id
  · subst hother
    exact ⟨free, busy, by rwa [Function.update_self]⟩
  · rw [Function.update_of_ne hother]
    exact hdev other

end IoDevice

/-- What the dispatcher writes into an entry before it inserts it. -/
structure Fills (fill : IoWork → IoWork) (nsecsTarget : ℕ) : Prop where
  next_eq : ∀ work, (fill work).next = noEntry
  prev_eq : ∀ work, (fill work).prev = noEntry
  target_eq : ∀ work, (fill work).nsecsTarget = nsecsTarget

/-- Inserting into a queue with two free entries takes the first of them;
otherwise the device does not change. -/
theorem enqueue_spec (dev : IoDevice) (sqid : ℕ) {nsecsTarget : ℕ}
    {fill : IoWork → IoWork} (hfills : Fills fill nsecsTarget)
    {free busy : List ℕ}
    (hchained : (dev.workers (dev.getIoWorker sqid)).Chained free busy) :
    (free.length < 2 ∧ dev.enqueue sqid nsecsTarget fill = dev) ∨
    ∃ entry rest front back worker, free = entry :: rest ∧
      rest ≠ [] ∧ busy = front ++ back ∧
      (dev.enqueue sqid nsecsTarget fill).workers =
        Function.update dev.workers (dev.getIoWorker sqid) worker ∧
      worker.Chained rest (front ++ entry :: back) ∧
      worker.content = Function.update
        (dev.workers (dev.getIoWorker sqid)).content entry
        (fill ((dev.workers (dev.getIoWorker sqid)).workQueue
          entry)).unlinked := by
  rcases hfree : free with _ | ⟨entry, _ | ⟨entry', rest⟩⟩
  · exact absurd hfree hchained.free_ne_nil
  · refine .inl ⟨by simp, ?_⟩
    rw [IoDevice.enqueue, IoDevice.allocateWorkQueueEntry]
    simp only [hchained.allocateEntry_eq_none (by simp [hfree])]
  · right
    obtain ⟨front, back, hsplit, hchained', hcontent⟩ := hchained.enqueue hfree
      (hfills.next_eq ((dev.workers (dev.getIoWorker sqid)).workQueue entry))
      (hfills.prev_eq _)
    refine ⟨entry, entry' :: rest, front, back, _, rfl, by simp, hsplit, ?_,
      hchained', hcontent⟩
    rw [IoDevice.enqueue, IoDevice.allocateWorkQueueEntry]
    simp only [hchained.allocateEntry_eq_some hfree, IoDevice.setWorker,
      Function.update_self, Function.update_idem, hfills.target_eq]

theorem fills_fillIo (sqid cqid sqEntry commandId nsecsTarget status : ℕ) :
    Fills (IoWork.fillIo sqid cqid sqEntry commandId nsecsTarget status)
      nsecsTarget :=
  ⟨fun _ => rfl, fun _ => rfl, fun _ => rfl⟩

theorem fills_fillInternal (sqid nsecsTarget writeBuffer buffsToRelease : ℕ) :
    Fills (IoWork.fillInternal sqid nsecsTarget writeBuffer buffsToRelease)
      nsecsTarget :=
  ⟨fun _ => rfl, fun _ => rfl, fun _ => rfl⟩

theorem IoWorker.Chained.markCopied {worker : IoWorker} {free busy : List ℕ}
    (hchained : worker.Chained free busy) (entry : ℕ) :
    (worker.markCopied entry).Chained free busy := by
  refine hchained.mark ?_ ?_ ?_ rfl rfl rfl rfl le_rfl
  · exact (IoWorker.next_setWork ..).trans (Function.update_eq_self _ _)
  · exact (IoWorker.prev_setWork ..).trans (Function.update_eq_self _ _)
  · exact (IoWorker.target_setWork ..).trans (Function.update_eq_self _ _)

theorem IoWorker.Chained.markCompleted {worker : IoWorker} {free busy : List ℕ}
    (hchained : worker.Chained free busy) (entry : ℕ) :
    (worker.markCompleted entry).Chained free busy := by
  refine hchained.mark ?_ ?_ ?_ rfl rfl rfl rfl le_rfl
  · exact (IoWorker.next_setWork ..).trans (Function.update_eq_self _ _)
  · exact (IoWorker.prev_setWork ..).trans (Function.update_eq_self _ _)
  · exact (IoWorker.target_setWork ..).trans (Function.update_eq_self _ _)

namespace IoDevice

theorem init_intact (nrIoWorkers : ℕ) : (init nrIoWorkers).Intact :=
  fun _ => ⟨_, _, IoWorker.init_chained⟩

theorem Intact.enqueue {dev : IoDevice} (hdev : dev.Intact) (sqid : ℕ)
    {nsecsTarget : ℕ} {fill : IoWork → IoWork}
    (hfills : Fills fill nsecsTarget) :
    (dev.enqueue sqid nsecsTarget fill).Intact := by
  obtain ⟨free, busy, hchained⟩ := hdev (dev.getIoWorker sqid)
  rcases enqueue_spec dev sqid hfills hchained with
    ⟨-, hsame⟩ | ⟨entry, rest, front, back, worker, -, -, -, hworkers,
      hchained', -⟩
  · rwa [hsame]
  · exact hdev.update hworkers hchained'

theorem Intact.reclaim {dev : IoDevice} (hdev : dev.Intact) :
    dev.reclaimCompletedReqs.Intact := by
  intro id
  obtain ⟨free, busy, hchained⟩ := hdev id
  by_cases hid : id < dev.nrIoWorkers
  · obtain ⟨finished, rest, -, -, hchained', -⟩ := hchained.reclaim
    refine ⟨free ++ finished, rest, ?_⟩
    simpa [reclaimCompletedReqs, hid] using hchained'
  · exact ⟨free, busy, by simpa [reclaimCompletedReqs, hid] using hchained⟩

theorem Intact.step {dev dev' : IoDevice} (hdev : dev.Intact) {event : IoEvent}
    (hstep : IoDevice.step event dev = some dev') : dev'.Intact := by
  cases event with
  | enqueueIoReq sqid cqid sqEntry commandId nsecsTarget status =>
      cases hstep
      exact hdev.enqueue sqid (fills_fillIo ..)
  | internalOperation sqid nsecsTarget writeBuffer buffsToRelease =>
      cases hstep
      exact hdev.enqueue sqid (fills_fillInternal ..)
  | reclaim =>
      cases hstep
      exact hdev.reclaim
  | advance id nsecs =>
      obtain ⟨free, busy, hchained⟩ := hdev id
      rw [IoDevice.step, Option.ite_none_right_eq_some] at hstep
      obtain ⟨⟨-, hlatest⟩, hstep⟩ := hstep
      cases hstep
      exact hdev.update rfl
        (hchained.mark rfl rfl rfl rfl rfl rfl rfl hlatest)
  | copy id entry =>
      obtain ⟨free, busy, hchained⟩ := hdev id
      rw [IoDevice.step, Option.ite_none_right_eq_some] at hstep
      obtain ⟨-, hstep⟩ := hstep
      cases hstep
      exact hdev.update rfl (hchained.markCopied entry)
  | complete id entry =>
      obtain ⟨free, busy, hchained⟩ := hdev id
      rw [IoDevice.step, Option.ite_none_right_eq_some] at hstep
      obtain ⟨-, hstep⟩ := hstep
      cases hstep
      exact hdev.update rfl (hchained.markCompleted entry)

end IoDevice

/-- After any schedule of the dispatcher and the workers, the free list and the
busy list of every worker share the entries of its queue, the free list is not
empty, and the busy list runs in both directions between its ends, in order of
the target times up to expired entries. -/
theorem work_queues_intact (nrIoWorkers : ℕ) (schedule : List IoEvent)
    (id : ℕ) :
    let worker :=
      (run IoDevice.step schedule (IoDevice.init nrIoWorkers)).workers id
    worker.Chained worker.freeChain worker.busyChain ∧
      worker.freeChain ≠ [] ∧
      (worker.busyChain ≠ [] →
        worker.busyChain.getLast? = some worker.ioSeqEnd) := by
  intro worker
  have hintact := run_invariant IoDevice.step
    (fun event dev dev' hdev hstep => IoDevice.Intact.step hdev hstep) schedule
    (IoDevice.init_intact nrIoWorkers)
  obtain ⟨free, busy, hchained⟩ := hintact id
  have hfree : worker.freeChain = free := hchained.freeChain_eq
  have hbusy : worker.busyChain = busy := hchained.busyChain_eq
  rw [hfree, hbusy]
  refine ⟨hchained, hchained.free_ne_nil, fun hne => ?_⟩
  have hback := hchained.onBusy.back hne
  rw [← List.head?_reverse]
  obtain ⟨last, rest, hreverse⟩ :=
    List.exists_cons_of_ne_nil (List.reverse_ne_nil_iff.mpr hne)
  rw [hreverse] at hback
  rw [hreverse, hback.1]
  rfl

end NvmeVirt.Io
