import NvmeVirt.Io.Workers

/-!
# Accepted requests

The dispatcher counts a command as dispatched once the namespace has accepted it
and `__enqueue_io_req` has returned.  That call has no result: when the worker's
free list is down to its last entry, the command is dropped and nobody learns of
it.  A buffer release that the namespace schedules is dropped the same way.
With a spare entry at every insertion, every accepted request is posted, or
pending in the busy list of one worker.
-/

namespace NvmeVirt.Io

open Interleaving

def nvmeCmdCsdProcessEdge : ℕ := 0x66

structure SqCommand where
  opcode : ℕ
  commandId : ℕ

structure SubmissionQueue where
  sqid : ℕ
  cqid : ℕ
  queueSize : ℕ
  entries : ℕ → SqCommand

/-- The arguments of a call of `schedule_internal_operation`. -/
structure InternalOperation where
  nsecsTarget : ℕ
  writeBuffer : ℕ
  buffsToRelease : ℕ

/-- What the namespace does with a command: the internal operations it
schedules, whether it accepts the command, and the result. -/
structure CmdOutcome where
  operations : List InternalOperation
  accepted : Bool
  nsecsTarget : ℕ
  status : ℕ

def scheduleAll (dev : IoDevice) (sqid : ℕ)
    (operations : List InternalOperation) : IoDevice :=
  operations.foldl (fun dev op => dev.scheduleInternalOperation sqid
    op.nsecsTarget op.writeBuffer op.buffsToRelease) dev

def nvmevProcIo (sq : SubmissionQueue) (sqEntry : ℕ) (outcome : CmdOutcome)
    (dev : IoDevice) : Bool × IoDevice :=
  let dev := scheduleAll dev sq.sqid outcome.operations
  if !outcome.accepted then (false, dev)
  else
    let cmd := sq.entries sqEntry
    let dev := if cmd.opcode = nvmeCmdCsdProcessEdge then dev
      else dev.enqueueIoReq sq.sqid sq.cqid sqEntry cmd.commandId
        outcome.nsecsTarget outcome.status
    (true, dev.reclaimCompletedReqs)

/-- The loop over the new entries of a submission queue, with the number of
commands dispatched so far. -/
def procIoLoop (sq : SubmissionQueue) (outcomes : ℕ → CmdOutcome) :
    ℕ → ℕ → ℕ → IoDevice → ℕ × IoDevice
  | 0, seq, _, dev => (seq, dev)
  | numProc + 1, seq, sqEntry, dev =>
      match nvmevProcIo sq sqEntry (outcomes seq) dev with
      | (false, dev) => (seq, dev)
      | (true, dev) => procIoLoop sq outcomes numProc (seq + 1)
          (if sqEntry + 1 = sq.queueSize then 0 else sqEntry + 1) dev

/-- The number of new entries between two doorbell values. -/
def numProc (sq : SubmissionQueue) (newDb oldDb : ℕ) : ℕ :=
  if newDb < oldDb then newDb + sq.queueSize - oldDb else newDb - oldDb

/-- `nvmev_proc_io_sq`: the doorbell value reached, and the device. -/
def nvmevProcIoSq (sq : SubmissionQueue) (newDb oldDb : ℕ)
    (outcomes : ℕ → CmdOutcome) (dev : IoDevice) : ℕ × IoDevice :=
  let (seq, dev) :=
    procIoLoop sq outcomes (numProc sq newDb oldDb) 0 oldDb dev
  ((oldDb + seq) % sq.queueSize, dev)

/-- The steps that are the dispatcher's. -/
def IoEvent.byDispatcher : IoEvent → Bool
  | .enqueueIoReq .. | .internalOperation .. | .reclaim => true
  | _ => false

/-- The steps of the work queues that a command causes. -/
def procIoEvents (sq : SubmissionQueue) (sqEntry : ℕ) (outcome : CmdOutcome) :
    List IoEvent :=
  outcome.operations.map (fun op => .internalOperation sq.sqid op.nsecsTarget
      op.writeBuffer op.buffsToRelease) ++
    if !outcome.accepted then []
    else if (sq.entries sqEntry).opcode = nvmeCmdCsdProcessEdge then [.reclaim]
    else [.enqueueIoReq sq.sqid sq.cqid sqEntry (sq.entries sqEntry).commandId
      outcome.nsecsTarget outcome.status, .reclaim]

def loopEvents (sq : SubmissionQueue) (outcomes : ℕ → CmdOutcome) :
    ℕ → ℕ → ℕ → List IoEvent
  | 0, _, _ => []
  | numProc + 1, seq, sqEntry =>
      procIoEvents sq sqEntry (outcomes seq) ++
        if !(outcomes seq).accepted then []
        else loopEvents sq outcomes numProc (seq + 1)
          (if sqEntry + 1 = sq.queueSize then 0 else sqEntry + 1)

/-- A step of the whole device: the dispatcher reads a doorbell, or a worker
looks at its list. -/
inductive DispatchEvent where
  | doorbell (sq : SubmissionQueue) (newDb oldDb : ℕ) (outcomes : ℕ → CmdOutcome)
  | advance (id nsecs : ℕ)
  | copy (id entry : ℕ)
  | complete (id entry : ℕ)

def DispatchEvent.events : DispatchEvent → List IoEvent
  | .doorbell sq newDb oldDb outcomes =>
      loopEvents sq outcomes (numProc sq newDb oldDb) 0 oldDb
  | .advance id nsecs => [.advance id nsecs]
  | .copy id entry => [.copy id entry]
  | .complete id entry => [.complete id entry]

theorem run_step_some {dev dev' : IoDevice} {event : IoEvent}
    (hstep : IoDevice.step event dev = some dev') (rest : List IoEvent) :
    run IoDevice.step (event :: rest) dev = run IoDevice.step rest dev' := by
  rw [run, List.foldl_cons, turn, hstep]
  rfl

theorem run_scheduleAll (sqid : ℕ) (operations : List InternalOperation)
    (dev : IoDevice) :
    run IoDevice.step (operations.map fun op => .internalOperation sqid
      op.nsecsTarget op.writeBuffer op.buffsToRelease) dev =
      scheduleAll dev sqid operations := by
  induction operations generalizing dev with
  | nil => rfl
  | cons op rest ih =>
      rw [List.map_cons, run_step_some rfl, ih]
      rfl

theorem run_procIoEvents (sq : SubmissionQueue) (sqEntry : ℕ)
    (outcome : CmdOutcome) (dev : IoDevice) :
    nvmevProcIo sq sqEntry outcome dev = (outcome.accepted,
      run IoDevice.step (procIoEvents sq sqEntry outcome) dev) := by
  rw [procIoEvents, run_append, run_scheduleAll, nvmevProcIo]
  cases outcome.accepted with
  | false => rfl
  | true =>
      by_cases hedge : (sq.entries sqEntry).opcode = nvmeCmdCsdProcessEdge
      · simp only [hedge, if_true]
        rfl
      · simp only [hedge, if_false]
        rfl

/-- The events of a doorbell are what `nvmev_proc_io_sq` does to the queues. -/
theorem run_loopEvents (sq : SubmissionQueue) (outcomes : ℕ → CmdOutcome)
    (count seq sqEntry : ℕ) (dev : IoDevice) :
    (procIoLoop sq outcomes count seq sqEntry dev).2 =
      run IoDevice.step (loopEvents sq outcomes count seq sqEntry) dev := by
  induction count generalizing seq sqEntry dev with
  | zero => rfl
  | succ count ih =>
      rw [procIoLoop, loopEvents, run_append, run_procIoEvents]
      cases (outcomes seq).accepted with
      | false => rfl
      | true => exact ih ..

theorem run_doorbell (sq : SubmissionQueue) (newDb oldDb : ℕ)
    (outcomes : ℕ → CmdOutcome) (dev : IoDevice) :
    (nvmevProcIoSq sq newDb oldDb outcomes dev).2 =
      run IoDevice.step (DispatchEvent.doorbell sq newDb oldDb outcomes).events
        dev :=
  run_loopEvents sq outcomes _ 0 oldDb dev

/-- What completing a work entry does for the host: an I/O command is posted, an
internal operation releases buffer space. -/
inductive Request where
  | io (sqid cqid sqEntry commandId status : ℕ)
  | release (writeBuffer buffsToRelease : ℕ)
  deriving DecidableEq

def IoWork.request (work : IoWork) : Request :=
  if work.isInternal then .release work.writeBuffer work.buffsToRelease
  else .io work.sqid work.cqid work.sqEntry work.commandId work.status

/-- The requests that wait in a busy list. -/
def pendingIn (content : ℕ → IoWork) (busy : List ℕ) : List Request :=
  (busy.filter fun entry => !(content entry).isCompleted).map fun entry =>
    (content entry).request

def IoWorker.pending (worker : IoWorker) : List Request :=
  pendingIn worker.content worker.busyChain

def IoDevice.pending (dev : IoDevice) : List Request :=
  (List.range dev.nrIoWorkers).flatMap fun id => (dev.workers id).pending

/-- The device with the requests accepted and the requests served so far. -/
structure IoSystem where
  device : IoDevice
  accepted : List Request
  served : List Request

namespace IoSystem

def init (nrIoWorkers : ℕ) : IoSystem := ⟨.init nrIoWorkers, [], []⟩

/-- The requests a step accepts. -/
def accepts : IoEvent → List Request
  | .enqueueIoReq sqid cqid sqEntry commandId _ status =>
      [.io sqid cqid sqEntry commandId status]
  | .internalOperation _ _ writeBuffer buffsToRelease =>
      [.release writeBuffer buffsToRelease]
  | _ => []

/-- The requests a step serves. -/
def serves (dev : IoDevice) : IoEvent → List Request
  | .complete id entry => [((dev.workers id).workQueue entry).request]
  | _ => []

/-- A worker passes over the entries it has completed. -/
def enabled (dev : IoDevice) : IoEvent → Bool
  | .complete id entry => !((dev.workers id).workQueue entry).isCompleted
  | _ => true

def step (event : IoEvent) (sys : IoSystem) : Option IoSystem :=
  if enabled sys.device event then
    (IoDevice.step event sys.device).map fun dev =>
      { device := dev
        accepted := sys.accepted ++ accepts event
        served := sys.served ++ serves sys.device event }
  else none

/-- Every accepted request is served, or waits in exactly one busy list. -/
def Conserved (sys : IoSystem) : Prop :=
  sys.accepted.Perm (sys.served ++ sys.device.pending)

/-- An insertion finds more than the last free entry of its worker. -/
def HasSpare (event : IoEvent) (sys : IoSystem) : Prop :=
  match event with
  | .enqueueIoReq sqid .. | .internalOperation sqid .. =>
      let worker := sys.device.workers (sys.device.getIoWorker sqid)
      worker.next worker.freeSeq < nrMaxParallelIo
  | _ => True

structure Inv (sys : IoSystem) : Prop where
  intact : sys.device.Intact
  workers : 0 < sys.device.nrIoWorkers
  conserved : sys.Conserved

end IoSystem

theorem IoWorker.Chained.pending_eq {worker : IoWorker} {free busy : List ℕ}
    (hchained : worker.Chained free busy) :
    worker.pending = pendingIn worker.content busy := by
  rw [IoWorker.pending, hchained.busyChain_eq]

/-- The pending requests of a device around those of one worker. -/
theorem pending_split (dev : IoDevice) {id : ℕ} (hid : id < dev.nrIoWorkers) :
    ∃ before after, dev.pending = before ++ (dev.workers id).pending ++ after ∧
      ∀ (dev' : IoDevice) (worker : IoWorker),
        dev'.nrIoWorkers = dev.nrIoWorkers →
        dev'.workers = Function.update dev.workers id worker →
        dev'.pending = before ++ worker.pending ++ after := by
  obtain ⟨front, back, hsplit⟩ :=
    List.append_of_mem (List.mem_range.mpr hid)
  have hnodup := List.nodup_range (n := dev.nrIoWorkers)
  rw [hsplit, List.nodup_middle, List.nodup_cons, List.mem_append] at hnodup
  refine ⟨front.flatMap fun id => (dev.workers id).pending,
    back.flatMap fun id => (dev.workers id).pending, ?_, ?_⟩
  · rw [IoDevice.pending, hsplit, List.flatMap_append, List.flatMap_cons,
      List.append_assoc]
  · intro dev' worker hcount hworkers
    have hother : ∀ other, other ∈ front ∨ other ∈ back →
        (dev'.workers other).pending = (dev.workers other).pending := by
      intro other hmem
      rw [hworkers, Function.update_of_ne]
      rintro rfl
      exact hnodup.1 hmem
    rw [IoDevice.pending, hcount, hsplit, List.flatMap_append,
      List.flatMap_cons, hworkers, Function.update_self, ← hworkers,
      List.append_assoc]
    congr 1
    · exact List.flatMap_congr fun other hmem => hother other (.inl hmem)
    · congr 1
      exact List.flatMap_congr fun other hmem => hother other (.inr hmem)

section Pending

variable {content content' : ℕ → IoWork} {entry : ℕ} {work : IoWork}

theorem pendingIn_append (content : ℕ → IoWork) (front back : List ℕ) :
    pendingIn content (front ++ back) =
      pendingIn content front ++ pendingIn content back := by
  simp [pendingIn]

theorem pendingIn_congr {busy : List ℕ}
    (hsame : ∀ entry ∈ busy,
      (content' entry).isCompleted = (content entry).isCompleted ∧
        (content' entry).request = (content entry).request) :
    pendingIn content' busy = pendingIn content busy := by
  rw [pendingIn, pendingIn, List.filter_congr fun entry hentry => by
    rw [(hsame entry hentry).1]]
  refine List.map_congr_left fun entry hentry => ?_
  exact (hsame entry (List.mem_of_mem_filter hentry)).2

theorem pendingIn_update {busy : List ℕ} (hentry : entry ∉ busy) :
    pendingIn (Function.update content entry work) busy =
      pendingIn content busy := by
  refine pendingIn_congr fun other hother => ?_
  have hne : other ≠ entry := by
    rintro rfl
    exact hentry hother
  rw [Function.update_of_ne hne]
  exact ⟨rfl, rfl⟩

/-- An entry that joins the list adds its request. -/
theorem pendingIn_insert {front back : List ℕ}
    (hentry : entry ∉ front ++ back) (hwork : work.isCompleted = false) :
    (pendingIn (Function.update content entry work)
      (front ++ entry :: back)).Perm
        (work.request :: pendingIn content (front ++ back)) := by
  rw [List.mem_append, not_or] at hentry
  have hsingle : pendingIn (Function.update content entry work)
      (entry :: back) = work.request ::
        pendingIn (Function.update content entry work) back := by
    simp [pendingIn, hwork]
  rw [pendingIn_append, hsingle, pendingIn_update hentry.1,
    pendingIn_update hentry.2, pendingIn_append]
  exact List.perm_middle

/-- An entry that is completed takes its request away. -/
theorem pendingIn_complete {busy : List ℕ} (hnodup : busy.Nodup)
    (hentry : entry ∈ busy) (hpending : (content entry).isCompleted = false)
    (hwork : work.isCompleted = true) :
    (pendingIn content busy).Perm ((content entry).request ::
      pendingIn (Function.update content entry work) busy) := by
  obtain ⟨front, back, rfl⟩ := List.append_of_mem hentry
  rw [List.nodup_middle, List.nodup_cons, List.mem_append, not_or] at hnodup
  have hbefore : pendingIn content (entry :: back) =
      (content entry).request :: pendingIn content back := by
    simp [pendingIn, hpending]
  have hafter : pendingIn (Function.update content entry work)
      (entry :: back) = pendingIn (Function.update content entry work) back := by
    simp [pendingIn, hwork]
  rw [pendingIn_append, pendingIn_append, hbefore, hafter,
    pendingIn_update hnodup.1.1, pendingIn_update hnodup.1.2]
  exact List.perm_middle

end Pending

section Perm

variable {accepted served before after waiting waiting' : List Request}
  {request : Request}
  (hconserved : accepted.Perm (served ++ (before ++ waiting ++ after)))
include hconserved

theorem perm_accept (hwaiting : waiting'.Perm (request :: waiting)) :
    (accepted ++ [request]).Perm
      (served ++ (before ++ waiting' ++ after)) := by
  refine List.perm_iff_count.mpr fun other => ?_
  have hcount := hconserved.count_eq other
  have hcount' := hwaiting.count_eq other
  simp only [List.count_append, List.count_cons, List.count_nil] at *
  omega

theorem perm_serve (hwaiting : waiting.Perm (request :: waiting')) :
    accepted.Perm (served ++ [request] ++ (before ++ waiting' ++ after)) := by
  refine List.perm_iff_count.mpr fun other => ?_
  have hcount := hconserved.count_eq other
  have hcount' := hwaiting.count_eq other
  simp only [List.count_append, List.count_cons, List.count_nil] at *
  omega

end Perm

namespace IoSystem

variable {sys : IoSystem}

theorem nrIoWorkers_enqueue (dev : IoDevice) (sqid nsecsTarget : ℕ)
    (fill : IoWork → IoWork) :
    (dev.enqueue sqid nsecsTarget fill).nrIoWorkers = dev.nrIoWorkers := by
  rw [IoDevice.enqueue, IoDevice.allocateWorkQueueEntry]
  cases (dev.workers (dev.getIoWorker sqid)).allocateEntry <;> rfl

/-- Inserting a request conserves the accepted requests exactly if there is a
spare entry. -/
theorem conserved_enqueue_iff (hsys : sys.Inv) (sqid : ℕ) {nsecsTarget : ℕ}
    {fill : IoWork → IoWork} {request : Request}
    (hfills : Fills fill nsecsTarget)
    (hopen : ∀ work, (fill work).isCompleted = false)
    (hrequest : ∀ work, (fill work).request = request) :
    (sys.accepted ++ [request]).Perm
        (sys.served ++ (sys.device.enqueue sqid nsecsTarget fill).pending) ↔
      (sys.device.workers (sys.device.getIoWorker sqid)).next
        (sys.device.workers (sys.device.getIoWorker sqid)).freeSeq <
          nrMaxParallelIo := by
  have hid : sys.device.getIoWorker sqid < sys.device.nrIoWorkers :=
    Nat.mod_lt _ hsys.workers
  obtain ⟨free, busy, hchained⟩ := hsys.intact (sys.device.getIoWorker sqid)
  rw [hchained.spare_iff]
  rcases enqueue_spec sys.device sqid hfills hchained with
    ⟨hlast, hsame⟩ | ⟨entry, rest, front, back, worker, hfree, hrest, hsplit,
      hworkers, hchained', hcontent⟩
  · refine iff_of_false (fun hperm => ?_) (not_le.mpr hlast)
    have hlength := hperm.length_eq
    have hbefore := hsys.conserved.length_eq
    rw [hsame] at hlength
    simp only [List.length_append, List.length_singleton] at hlength hbefore
    omega
  · refine iff_of_true ?_ ?_
    · obtain ⟨before, after, hpending, hupdate⟩ :=
        pending_split sys.device hid
      have hentry : entry ∉ front ++ back := by
        have hnodup := hchained'.onBusy.nodup
        rw [List.nodup_middle, List.nodup_cons] at hnodup
        exact hnodup.1
      have hworker : worker.pending.Perm (request ::
          (sys.device.workers (sys.device.getIoWorker sqid)).pending) := by
        rw [hchained'.pending_eq, hchained.pending_eq, hcontent, hsplit,
          ← hrequest ((sys.device.workers
            (sys.device.getIoWorker sqid)).workQueue entry)]
        exact pendingIn_insert hentry (hopen _)
      have hconserved := hsys.conserved
      rw [Conserved, hpending] at hconserved
      rw [hupdate _ worker (nrIoWorkers_enqueue ..) hworkers]
      exact perm_accept hconserved hworker
    · rcases rest with _ | ⟨entry', rest⟩
      · exact absurd rfl hrest
      · simp [hfree]

/-- The marks of a worker leave the other workers alone. -/
theorem pending_setWorker {id : ℕ} (hid : id < sys.device.nrIoWorkers)
    {worker : IoWorker}
    (hworker : worker.pending = (sys.device.workers id).pending) :
    (sys.device.setWorker id worker).pending = sys.device.pending := by
  obtain ⟨before, after, hpending, hupdate⟩ := pending_split sys.device hid
  rw [hupdate (sys.device.setWorker id worker) worker rfl rfl, hpending,
    hworker]

theorem pending_reclaim (hsys : sys.Inv) :
    sys.device.reclaimCompletedReqs.pending = sys.device.pending := by
  refine List.flatMap_congr fun id hid => ?_
  have hid : id < sys.device.nrIoWorkers := List.mem_range.mp hid
  obtain ⟨free, busy, hchained⟩ := hsys.intact id
  obtain ⟨finished, rest, hsplit, hfinished, hchained', hcontent⟩ :=
    hchained.reclaim
  have hdone : pendingIn (sys.device.workers id).content finished = [] := by
    rw [pendingIn, List.filter_eq_nil_iff.mpr]
    · rfl
    · intro entry hentry
      have hentry := hfinished entry hentry
      simp only [IoWorker.isFinished, Bool.and_eq_true] at hentry
      have hcompleted : ((sys.device.workers id).content entry).isCompleted =
          true := hentry.1.1
      simp [hcompleted]
  simp only [IoDevice.reclaimCompletedReqs, if_pos hid]
  rw [hchained'.pending_eq, hcontent, hchained.pending_eq, hsplit,
    pendingIn_append, hdone, List.nil_append]

theorem step_eq_some {event : IoEvent} {sys' : IoSystem}
    (hstep : step event sys = some sys') :
    ∃ dev, enabled sys.device event = true ∧
      IoDevice.step event sys.device = some dev ∧
      sys' = ⟨dev, sys.accepted ++ accepts event,
        sys.served ++ serves sys.device event⟩ := by
  rw [step, Option.ite_none_right_eq_some] at hstep
  obtain ⟨henabled, hmap⟩ := hstep
  obtain ⟨dev, hdev, rfl⟩ := Option.map_eq_some_iff.mp hmap
  exact ⟨dev, henabled, hdev, rfl⟩

/-- A step that neither accepts nor serves a request. -/
theorem conserved_of_pending_eq (hsys : sys.Inv) {dev : IoDevice}
    (hpending : dev.pending = sys.device.pending) :
    Conserved ⟨dev, sys.accepted ++ [], sys.served ++ []⟩ := by
  rw [Conserved, List.append_nil, List.append_nil, hpending]
  exact hsys.conserved

theorem conserved_copy (hsys : sys.Inv) {id : ℕ}
    (hid : id < sys.device.nrIoWorkers) (entry : ℕ) :
    Conserved ⟨sys.device.setWorker id
        ((sys.device.workers id).markCopied entry), sys.accepted ++ [],
      sys.served ++ []⟩ := by
  obtain ⟨free, busy, hchained⟩ := hsys.intact id
  refine conserved_of_pending_eq hsys (pending_setWorker hid ?_)
  rw [(hchained.markCopied entry).pending_eq, hchained.pending_eq,
    IoWorker.markCopied, IoWorker.content_setWork]
  refine pendingIn_congr fun other _ => ?_
  by_cases hother : other = entry
  · subst hother
    rw [Function.update_self]
    exact ⟨rfl, rfl⟩
  · rw [Function.update_of_ne hother]
    exact ⟨rfl, rfl⟩

theorem conserved_complete (hsys : sys.Inv) {id entry : ℕ}
    (hid : id < sys.device.nrIoWorkers)
    (hentry : entry ∈ (sys.device.workers id).busyChain)
    (hpending : ((sys.device.workers id).workQueue entry).isCompleted = false) :
    Conserved ⟨sys.device.setWorker id
        ((sys.device.workers id).markCompleted entry), sys.accepted ++ [],
      sys.served ++ [((sys.device.workers id).workQueue entry).request]⟩ := by
  obtain ⟨free, busy, hchained⟩ := hsys.intact id
  obtain ⟨before, after, hsplit, hupdate⟩ := pending_split sys.device hid
  have hconserved := hsys.conserved
  rw [Conserved, hsplit] at hconserved
  rw [Conserved, hupdate (sys.device.setWorker id
    ((sys.device.workers id).markCompleted entry)) _ rfl rfl, List.append_nil]
  refine perm_serve hconserved ?_
  rw [hchained.busyChain_eq] at hentry
  rw [(hchained.markCompleted entry).pending_eq, hchained.pending_eq,
    IoWorker.markCompleted, IoWorker.content_setWork]
  exact pendingIn_complete hchained.onBusy.nodup hentry hpending rfl

theorem nrIoWorkers_step {dev dev' : IoDevice} {event : IoEvent}
    (hstep : IoDevice.step event dev = some dev') :
    dev'.nrIoWorkers = dev.nrIoWorkers := by
  cases event with
  | enqueueIoReq sqid cqid sqEntry commandId nsecsTarget status =>
      cases hstep
      exact nrIoWorkers_enqueue ..
  | internalOperation sqid nsecsTarget writeBuffer buffsToRelease =>
      cases hstep
      exact nrIoWorkers_enqueue ..
  | reclaim =>
      cases hstep
      rfl
  | advance id nsecs =>
      rw [IoDevice.step, Option.ite_none_right_eq_some] at hstep
      obtain ⟨-, hstep⟩ := hstep
      cases hstep
      rfl
  | copy id entry =>
      rw [IoDevice.step, Option.ite_none_right_eq_some] at hstep
      obtain ⟨-, hstep⟩ := hstep
      cases hstep
      rfl
  | complete id entry =>
      rw [IoDevice.step, Option.ite_none_right_eq_some] at hstep
      obtain ⟨-, hstep⟩ := hstep
      cases hstep
      rfl

/-- A step conserves the accepted requests exactly if an insertion finds a
spare entry. -/
theorem conserved_step_iff (hsys : sys.Inv) {event : IoEvent} {sys' : IoSystem}
    (hstep : step event sys = some sys') :
    sys'.Conserved ↔ HasSpare event sys := by
  obtain ⟨dev, henabled, hdev, rfl⟩ := step_eq_some hstep
  cases event with
  | enqueueIoReq sqid cqid sqEntry commandId nsecsTarget status =>
      cases hdev
      change (_ ++ [_]).Perm (sys.served ++ [] ++ _) ↔ _
      rw [List.append_nil]
      exact conserved_enqueue_iff hsys sqid
        (fills_fillIo sqid cqid sqEntry commandId nsecsTarget status)
        (fun _ => rfl) (fun _ => rfl)
  | internalOperation sqid nsecsTarget writeBuffer buffsToRelease =>
      cases hdev
      change (_ ++ [_]).Perm (sys.served ++ [] ++ _) ↔ _
      rw [List.append_nil]
      exact conserved_enqueue_iff hsys sqid
        (fills_fillInternal sqid nsecsTarget writeBuffer buffsToRelease)
        (fun _ => rfl) (fun _ => rfl)
  | reclaim =>
      cases hdev
      exact iff_of_true (conserved_of_pending_eq hsys (pending_reclaim hsys))
        trivial
  | advance id nsecs =>
      rw [IoDevice.step, Option.ite_none_right_eq_some] at hdev
      obtain ⟨⟨hid, -⟩, hdev⟩ := hdev
      cases hdev
      exact iff_of_true (conserved_of_pending_eq hsys
        (pending_setWorker hid rfl)) trivial
  | copy id entry =>
      rw [IoDevice.step, Option.ite_none_right_eq_some] at hdev
      obtain ⟨⟨hid, -⟩, hdev⟩ := hdev
      cases hdev
      exact iff_of_true (conserved_copy hsys hid entry) trivial
  | complete id entry =>
      rw [IoDevice.step, Option.ite_none_right_eq_some] at hdev
      obtain ⟨⟨hid, hentry, -⟩, hdev⟩ := hdev
      cases hdev
      exact iff_of_true (conserved_complete hsys hid hentry
        (by simpa [enabled] using henabled)) trivial

theorem Inv.step {event : IoEvent} {sys' : IoSystem} (hsys : sys.Inv)
    (hstep : IoSystem.step event sys = some sys')
    (hspare : HasSpare event sys) : sys'.Inv := by
  have hconserved := (conserved_step_iff hsys hstep).mpr hspare
  obtain ⟨dev, -, hdev, rfl⟩ := step_eq_some hstep
  exact ⟨hsys.intact.step hdev, (nrIoWorkers_step hdev).symm ▸ hsys.workers,
    hconserved⟩

theorem init_inv {nrIoWorkers : ℕ} (hpos : 0 < nrIoWorkers) :
    (init nrIoWorkers).Inv := by
  refine ⟨IoDevice.init_intact nrIoWorkers, hpos, ?_⟩
  have hempty : (IoDevice.init nrIoWorkers).pending = [] := by
    refine List.flatMap_eq_nil_iff.mpr fun id _ => ?_
    exact IoWorker.init_chained.pending_eq
  rw [Conserved, init, hempty]
  exact .refl _

/-- A step that lacks a spare entry is one that inserts, and it is taken. -/
theorem hasSpare_of_blocked {event : IoEvent} (hstep : step event sys = none) :
    HasSpare event sys := by
  cases event with
  | enqueueIoReq => cases hstep
  | internalOperation => cases hstep
  | reclaim => trivial
  | advance => trivial
  | copy => trivial
  | complete => trivial

end IoSystem

/-- Along every run of doorbells and worker steps, the accepted requests are
conserved exactly if every insertion of the run finds a spare entry in the work
queue of its worker. -/
theorem accepted_requests_conserved {nrIoWorkers : ℕ} (hpos : 0 < nrIoWorkers)
    (schedule : List DispatchEvent) :
    Always IoSystem.step IoSystem.Conserved
        (schedule.flatMap DispatchEvent.events) (IoSystem.init nrIoWorkers) ↔
      Meets IoSystem.step IoSystem.HasSpare
        (schedule.flatMap DispatchEvent.events) (IoSystem.init nrIoWorkers)
    := by
  refine always_iff_meets IoSystem.step
    (fun sys (hsys : sys.Inv) => hsys.conserved) ?_ ?_ (IoSystem.init_inv hpos)
    (meets_true IoSystem.step _ _)
  · intro event sys hsys _ hspare
    cases hstep : IoSystem.step event sys with
    | none => rwa [turn, hstep]
    | some sys' =>
        rw [turn, hstep]
        exact hsys.step hstep hspare
  · intro event sys hsys _ hconserved
    cases hstep : IoSystem.step event sys with
    | none => exact IoSystem.hasSpare_of_blocked hstep
    | some sys' =>
        rw [turn, hstep] at hconserved
        exact (IoSystem.conserved_step_iff hsys hstep).mp hconserved

/-- A submission queue full of reads. -/
def readQueue (sqid : ℕ) : SubmissionQueue where
  sqid := sqid
  cqid := sqid
  queueSize := 1024
  entries sqEntry := { opcode := 2, commandId := sqEntry }

def acceptRead : CmdOutcome where
  operations := []
  accepted := true
  nsecsTarget := 1000
  status := 0

theorem accepted_requests_conserved_read :
    Always IoSystem.step IoSystem.Conserved
      ([DispatchEvent.doorbell (readQueue 1) 1 0 fun _ => acceptRead].flatMap
        DispatchEvent.events) (IoSystem.init 1) :=
  (accepted_requests_conserved one_pos _).mpr
    ⟨show IoWorker.init.next 0 < nrMaxParallelIo by decide, trivial, trivial⟩

theorem run_accepts {events : List IoEvent}
    (hdispatcher : ∀ event ∈ events, event.byDispatcher) (sys : IoSystem) :
    (run IoSystem.step events sys).accepted =
        sys.accepted ++ events.flatMap IoSystem.accepts ∧
      (run IoSystem.step events sys).served = sys.served := by
  induction events generalizing sys with
  | nil => exact ⟨(List.append_nil _).symm, rfl⟩
  | cons event rest ih =>
      have hrest := ih (fun other hother =>
        hdispatcher other (List.mem_cons_of_mem _ hother))
        (turn IoSystem.step sys event)
      have hturn : (turn IoSystem.step sys event).accepted =
            sys.accepted ++ IoSystem.accepts event ∧
          (turn IoSystem.step sys event).served = sys.served ++ [] := by
        have hevent := hdispatcher event List.mem_cons_self
        cases event with
        | enqueueIoReq => exact ⟨rfl, rfl⟩
        | internalOperation => exact ⟨rfl, rfl⟩
        | reclaim => exact ⟨rfl, rfl⟩
        | advance => cases hevent
        | copy => cases hevent
        | complete => cases hevent
      rw [List.append_nil] at hturn
      rw [hturn.1, hturn.2] at hrest
      rw [List.flatMap_cons, ← List.append_assoc]
      exact hrest

theorem pending_length_le {sys : IoSystem} (hintact : sys.device.Intact)
    (hone : sys.device.nrIoWorkers = 1) :
    sys.device.pending.length ≤ nrMaxParallelIo := by
  obtain ⟨free, busy, hchained⟩ := hintact 0
  have hpending : sys.device.pending = (sys.device.workers 0).pending := by
    rw [IoDevice.pending, hone]
    simp
  rw [hpending, hchained.pending_eq, pendingIn, List.length_map]
  exact (List.length_filter_le _ _).trans hchained.onBusy.length_le

/-- Seventeen queues of 1023 commands each, submitted before the only worker has
completed any of them. -/
def burst : List DispatchEvent :=
  (List.range 17).map fun i =>
    .doorbell (readQueue (i + 1)) 1023 0 fun _ => acceptRead

theorem loopEvents_read (sqid count seq sqEntry : ℕ) :
    (∀ event ∈ loopEvents (readQueue sqid) (fun _ => acceptRead) count seq
        sqEntry, event.byDispatcher) ∧
      ((loopEvents (readQueue sqid) (fun _ => acceptRead) count seq
        sqEntry).flatMap IoSystem.accepts).length = count := by
  induction count generalizing seq sqEntry with
  | zero => exact ⟨by simp [loopEvents], rfl⟩
  | succ count ih =>
      obtain ⟨hdispatcher, hlength⟩ := ih (seq + 1)
        (if sqEntry + 1 = 1024 then 0 else sqEntry + 1)
      constructor
      · intro event hevent
        rcases List.mem_append.mp hevent with hfirst | hrest
        · rcases List.mem_cons.mp hfirst with rfl | hreclaim
          · rfl
          · cases List.mem_singleton.mp hreclaim
            rfl
        · exact hdispatcher event hrest
      · rw [loopEvents, List.flatMap_append, List.length_append]
        exact (congrArg (1 + ·) hlength).trans (add_comm 1 count)

theorem not_conserved_of_length {sys : IoSystem} (hconserved : sys.Conserved)
    (hserved : sys.served = []) (haccepted : sys.accepted.length = 17 * 1023)
    (hpending : sys.device.pending.length ≤ nrMaxParallelIo) : False := by
  have hlength := hconserved.length_eq
  rw [haccepted, hserved, List.nil_append] at hlength
  rw [← hlength, nrMaxParallelIo] at hpending
  omega

theorem burst_loses_requests :
    ¬ Always IoSystem.step IoSystem.Conserved
      (burst.flatMap DispatchEvent.events) (IoSystem.init 1) := by
  intro halways
  have hdispatcher : ∀ event ∈ burst.flatMap DispatchEvent.events,
      event.byDispatcher := by
    intro event hevent
    obtain ⟨doorbell, hdoorbell, hevent⟩ := List.mem_flatMap.mp hevent
    obtain ⟨i, -, rfl⟩ := List.mem_map.mp hdoorbell
    exact (loopEvents_read (i + 1) 1023 0 0).1 event hevent
  have haccepts : ((burst.flatMap DispatchEvent.events).flatMap
      IoSystem.accepts).length = 17 * 1023 := by
    rw [List.flatMap_assoc, burst, List.flatMap_map, List.length_flatMap]
    have hcounts : ∀ i, ((DispatchEvent.doorbell (readQueue (i + 1)) 1023 0
        fun _ => acceptRead).events.flatMap IoSystem.accepts).length = 1023 :=
      fun i => (loopEvents_read (i + 1) 1023 0 0).2
    simp only [hcounts, List.map_const', List.length_range,
      List.sum_replicate, smul_eq_mul]
  obtain ⟨haccepted, hserved⟩ := run_accepts hdispatcher (IoSystem.init 1)
  obtain ⟨hintact, hone⟩ := run_invariant IoSystem.step
    (fun event sys sys' (hsys : sys.device.Intact ∧
        sys.device.nrIoWorkers = 1) hstep => by
      obtain ⟨dev, -, hdev, rfl⟩ := IoSystem.step_eq_some hstep
      exact ⟨hsys.1.step hdev,
        (IoSystem.nrIoWorkers_step hdev).trans hsys.2⟩)
    (burst.flatMap DispatchEvent.events)
    (show (IoSystem.init 1).device.Intact ∧ _ from
      ⟨IoDevice.init_intact 1, rfl⟩)
  replace haccepted := haccepted.trans (List.nil_append _)
  refine not_conserved_of_length halways.last hserved ?_
    (pending_length_le hintact hone)
  rw [haccepted, haccepts]

end NvmeVirt.Io
