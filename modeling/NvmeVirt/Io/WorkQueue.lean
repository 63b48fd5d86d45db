import NvmeVirt.Lib.IndexList
import NvmeVirt.Lib.Interleaving

/-!
# The work queue of an I/O worker

Each I/O worker owns a fixed array of work entries.  A free list and a busy list
run through the `next` and `prev` indices of the entries.  The dispatcher takes
entries from the head of the free list, inserts them into the busy list by their
target time and gives finished ones back; the worker only marks entries.
-/

namespace NvmeVirt.Io

open IndexList Interleaving

/-- `NR_MAX_PARALLEL_IO`. -/
def nrMaxParallelIo : ℕ := 16384

/-- The index -1, as an `unsigned int` stores it. -/
def noEntry : ℕ := 2 ^ 32 - 1

theorem two_le_nrMaxParallelIo : 2 ≤ nrMaxParallelIo := by
  norm_num [nrMaxParallelIo]

theorem nrMaxParallelIo_lt_noEntry : nrMaxParallelIo < noEntry := by
  norm_num [nrMaxParallelIo, noEntry]

/-- A work entry.  The time stamps that only feed performance traces are left
out. -/
structure IoWork where
  sqid : ℕ
  cqid : ℕ
  sqEntry : ℕ
  commandId : ℕ
  nsecsTarget : ℕ
  isCopied : Bool
  isCompleted : Bool
  status : ℕ
  isInternal : Bool
  writeBuffer : ℕ
  buffsToRelease : ℕ
  next : ℕ
  prev : ℕ

/-- The entry of an I/O command. -/
def IoWork.fillIo (sqid cqid sqEntry commandId nsecsTarget status : ℕ)
    (work : IoWork) : IoWork :=
  { work with
    sqid := sqid
    cqid := cqid
    sqEntry := sqEntry
    commandId := commandId
    nsecsTarget := nsecsTarget
    status := status
    isCompleted := false
    isCopied := false
    prev := noEntry
    next := noEntry
    isInternal := false }

/-- The entry of an internal operation: its completion releases write buffer
space. -/
def IoWork.fillInternal (sqid nsecsTarget writeBuffer buffsToRelease : ℕ)
    (work : IoWork) : IoWork :=
  { work with
    sqid := sqid
    nsecsTarget := nsecsTarget
    isCompleted := false
    isCopied := true
    prev := noEntry
    next := noEntry
    isInternal := true
    writeBuffer := writeBuffer
    buffsToRelease := buffsToRelease }

structure IoWorker where
  workQueue : ℕ → IoWork
  freeSeq : ℕ
  freeSeqEnd : ℕ
  ioSeq : ℕ
  ioSeqEnd : ℕ
  latestNsecs : ℕ

namespace IoWorker

def next (worker : IoWorker) (entry : ℕ) : ℕ := (worker.workQueue entry).next

def prev (worker : IoWorker) (entry : ℕ) : ℕ := (worker.workQueue entry).prev

def target (worker : IoWorker) (entry : ℕ) : ℕ :=
  (worker.workQueue entry).nsecsTarget

def setWork (worker : IoWorker) (entry : ℕ) (work : IoWork) : IoWorker :=
  { worker with workQueue := Function.update worker.workQueue entry work }

def setNext (worker : IoWorker) (entry value : ℕ) : IoWorker :=
  worker.setWork entry { worker.workQueue entry with next := value }

def setPrev (worker : IoWorker) (entry value : ℕ) : IoWorker :=
  worker.setWork entry { worker.workQueue entry with prev := value }

/-- The worker set up by `NVMEV_IO_WORKER_INIT`: zeroed entries in one free
chain. -/
def init : IoWorker where
  workQueue entry :=
    { sqid := 0, cqid := 0, sqEntry := 0, commandId := 0, nsecsTarget := 0
      isCopied := false, isCompleted := false, status := 0
      isInternal := false, writeBuffer := 0, buffsToRelease := 0
      next := if entry = nrMaxParallelIo - 1 then noEntry else entry + 1
      prev := if entry = 0 then noEntry else entry - 1 }
  freeSeq := 0
  freeSeqEnd := nrMaxParallelIo - 1
  ioSeq := noEntry
  ioSeqEnd := noEntry
  latestNsecs := 0

/-- The scan of `__insert_req_sorted` from the tail: it stops at an entry that
has expired or is due no later than the new one. -/
def findPosition (worker : IoWorker) (nsecsTarget : ℕ) : ℕ → ℕ → ℕ
  | 0, curr => curr
  | fuel + 1, curr =>
      if curr = noEntry then curr
      else if worker.target curr ≤ worker.latestNsecs then curr
      else if worker.target curr ≤ nsecsTarget then curr
      else findPosition worker nsecsTarget fuel (worker.prev curr)

def insertReqSorted (entry : ℕ) (worker : IoWorker) (nsecsTarget : ℕ) :
    IoWorker :=
  if worker.ioSeq = noEntry then
    { worker with ioSeq := entry, ioSeqEnd := entry }
  else
    let curr :=
      findPosition worker nsecsTarget nrMaxParallelIo worker.ioSeqEnd
    if curr = noEntry then
      { (worker.setPrev worker.ioSeq entry).setNext entry worker.ioSeq with
        ioSeq := entry }
    else if worker.next curr = noEntry then
      { (worker.setPrev entry curr).setNext curr entry with ioSeqEnd := entry }
    else
      let worker := (worker.setPrev entry curr).setNext entry (worker.next curr)
      (worker.setPrev (worker.next entry) entry).setNext curr entry

/-- Takes the head of the free list, but never its last entry. -/
def allocateEntry (worker : IoWorker) : Option (ℕ × IoWorker) :=
  let entry := worker.freeSeq
  if nrMaxParallelIo ≤ worker.next entry then none
  else some (entry, { worker with freeSeq := worker.next entry })

/-- Whether an entry of the busy list may be given back. -/
def isFinished (worker : IoWorker) (entry : ℕ) : Bool :=
  (worker.workQueue entry).isCompleted && (worker.workQueue entry).isCopied &&
    worker.target entry ≤ worker.latestNsecs

/-- The scan of `__reclaim_completed_reqs`: the last entry of the finished
stretch at the head of the busy list. -/
def lastFinished (worker : IoWorker) : ℕ → ℕ → ℕ → ℕ
  | 0, _, lastEntry => lastEntry
  | fuel + 1, curr, lastEntry =>
      if curr = noEntry then lastEntry
      else if worker.isFinished curr then
        lastFinished worker fuel (worker.next curr) curr
      else lastEntry

/-- Moves the busy list up to an entry to the tail of the free list. -/
def giveBack (worker : IoWorker) (lastEntry : ℕ) : IoWorker :=
  let firstEntry := worker.ioSeq
  let rest := worker.next lastEntry
  let worker := { worker with ioSeq := rest }
  let worker := if rest = noEntry then worker else worker.setPrev rest noEntry
  let worker := worker.setNext lastEntry noEntry
  let worker := worker.setPrev firstEntry worker.freeSeqEnd
  let worker := worker.setNext worker.freeSeqEnd firstEntry
  { worker with freeSeqEnd := lastEntry }

/-- `__reclaim_completed_reqs` for one worker. -/
def reclaimCompletedReqs (worker : IoWorker) : IoWorker :=
  let lastEntry := lastFinished worker nrMaxParallelIo worker.ioSeq noEntry
  if lastEntry = noEntry then worker else worker.giveBack lastEntry

/-- The entries of the free list. -/
def freeChain (worker : IoWorker) : List ℕ :=
  walk worker.next noEntry nrMaxParallelIo worker.freeSeq

/-- The entries of the busy list. -/
def busyChain (worker : IoWorker) : List ℕ :=
  walk worker.next noEntry nrMaxParallelIo worker.ioSeq

end IoWorker

/-- The workers of the device. -/
structure IoDevice where
  nrIoWorkers : ℕ
  workers : ℕ → IoWorker
  ioWorkerTurn : ℕ

namespace IoDevice

def init (nrIoWorkers : ℕ) : IoDevice where
  nrIoWorkers := nrIoWorkers
  workers _ := IoWorker.init
  ioWorkerTurn := 0

/-- `__get_io_worker`: the workers share the submission queues. -/
def getIoWorker (dev : IoDevice) (sqid : ℕ) : ℕ := (sqid - 1) % dev.nrIoWorkers

def setWorker (dev : IoDevice) (id : ℕ) (worker : IoWorker) : IoDevice :=
  { dev with workers := Function.update dev.workers id worker }

def allocateWorkQueueEntry (dev : IoDevice) (sqid : ℕ) :
    Option (ℕ × ℕ × IoDevice) :=
  let turn := dev.getIoWorker sqid
  match (dev.workers turn).allocateEntry with
  | none => none
  | some (entry, worker) =>
      let nextTurn := if turn + 1 = dev.nrIoWorkers then 0 else turn + 1
      some (turn, entry, { dev.setWorker turn worker with
        ioWorkerTurn := nextTurn })

/-- Fills an allocated entry and inserts it; without one nothing happens. -/
def enqueue (dev : IoDevice) (sqid nsecsTarget : ℕ) (fill : IoWork → IoWork) :
    IoDevice :=
  match dev.allocateWorkQueueEntry sqid with
  | none => dev
  | some (turn, entry, dev) =>
      let worker := dev.workers turn
      let worker := worker.setWork entry (fill (worker.workQueue entry))
      dev.setWorker turn (IoWorker.insertReqSorted entry worker nsecsTarget)

def enqueueIoReq (dev : IoDevice)
    (sqid cqid sqEntry commandId nsecsTarget status : ℕ) : IoDevice :=
  dev.enqueue sqid nsecsTarget
    (IoWork.fillIo sqid cqid sqEntry commandId nsecsTarget status)

def scheduleInternalOperation (dev : IoDevice)
    (sqid nsecsTarget writeBuffer buffsToRelease : ℕ) : IoDevice :=
  dev.enqueue sqid nsecsTarget
    (IoWork.fillInternal sqid nsecsTarget writeBuffer buffsToRelease)

def reclaimCompletedReqs (dev : IoDevice) : IoDevice :=
  { dev with
    workers := fun id =>
      if id < dev.nrIoWorkers then (dev.workers id).reclaimCompletedReqs
      else dev.workers id }

end IoDevice

end NvmeVirt.Io
