import NvmeVirt.Csd.HostLoops
import NvmeVirt.Lib.Interleaving

/-!
# The dual-queue engine

`csd_proc_edge_loop_dual_queue` on the host, and for each device a dispatcher
and the worker loop `__do_perform_edge_proc`.  They share the flags and buffers
of the host memory buffer and the two task queues of the device.  A step is one
access to something another party can change.

A loop that waits for flags is a step that is blocked while one of them is
down: the flags it waits for are only ever raised until it has passed.  A
device's future queue is used by its worker alone, so its worker's accesses to
it are part of the neighbouring step.  `dst[max_partition_offset]`, the
prefetcher, the edge cache and the latencies change nothing that these parties
read and are left out.
-/

namespace NvmeVirt.DualQueue

open Function NvmeVirt.Csd

/-! ## State -/

/-- A run of `csd_proc_edge_loop_dual_queue`: the graph and its distribution,
the arguments of the loop, and the shared memory it finds, with no device
waiting at the end of an iteration. -/
structure Setup extends Config where
  numIters : ℕ
  rowOverlap : ℕ
  initial : ℕ → ℚ
  mem : Hmb
  two_partitions : 2 ≤ numPartitions
  flags_down : ∀ csd, mem.donePartition (numPartitions + csd + 1) = false

/-- Where the host is.  `release []` is the head of the loop. -/
inductive HostPc
  | send (todo : List (ℕ × ℕ × ℕ))
  | aggr (columns : List ℕ)
  | merge (c : ℕ) (rest : List ℕ) (todo : List (ℕ × ℕ))
  | damp (c : ℕ) (rest : List ℕ) (todo : List ℕ)
  | notify (c : ℕ) (rest : List ℕ)
  | wait
  | release (todo : List ℕ)
  | finished
  deriving DecidableEq

/-- Where the worker of a device is.  `task` is the local variable of that
name, `todo` and `nodes` are what a loop has still to visit. -/
inductive WorkerPc
  | top
  | await (task : ProcEdge)
  | raise (task : ProcEdge)
  | barrier (task : ProcEdge)
  | copy (task : ProcEdge) (todo : List ℕ)
  | scan (task : ProcEdge) (nodes : List ProcEdge)
  | check (task : ProcEdge)
  | find (task : ProcEdge) (todo : List ℕ)
  | normalCheck
  | run (future : Bool) (task : ProcEdge) (edges : List (ℕ × ℕ))
      (state : UInt32)
  deriving DecidableEq

/-- A finished call of `__proc_edge`, and the iteration the host was in. -/
structure Execution where
  r : ℕ
  c : ℕ
  iter : ℕ
  future : Bool
  hostIter : ℕ
  deriving DecidableEq

/-- A device: its submitted commands, the command its dispatcher is about to
enqueue, its task queues and its worker.  `executions` and `copies`, the number
of finished end-of-iteration copies, are a record of its past. -/
structure Device where
  sq : List ProcEdge
  dispatched : Option ProcEdge
  normalQueue : List ProcEdge
  futureQueue : List ProcEdge
  worker : WorkerPc
  executions : List Execution
  copies : ℕ

structure State where
  iter : ℕ
  host : HostPc
  devices : ℕ → Device
  mem : Hmb

/-- `done_partition[num_partitions + csd_id + 1]`. -/
def barrierId (numPartitions csd : ℕ) : ℕ := numPartitions + csd + 1

def State.setDevice (st : State) (csd : ℕ) (dev : Device) : State :=
  { st with devices := update st.devices csd dev }

def State.setWorker (st : State) (csd : ℕ) (worker : WorkerPc) : State :=
  st.setDevice csd { st.devices csd with worker }

/-! ## Host -/

section Host

variable (s : Setup)

/-- The block whose task closes iteration `iter` on a device. -/
def endBlock (iter : ℕ) : ℕ × ℕ :=
  if iter % 2 = 0 then (s.numPartitions - 1, s.numPartitions - 1)
  else if s.rowOverlap = 3 then (1, 0)
  else (s.numPartitions - 1, 0)

/-- The order in which the host visits the blocks in iteration `iter`. -/
def sendOrder (iter : ℕ) : List (ℕ × ℕ) :=
  let indices := List.range s.numPartitions
  if iter % 2 = 0 then
    if s.rowOverlap = 3 ∧ 0 < iter then
      indices.flatMap fun r => indices.map fun c => (r, c)
    else indices.flatMap fun c => indices.map fun r => (r, c)
  else
    if s.rowOverlap = 3 then
      indices.reverse.flatMap fun r => indices.reverse.map fun c => (r, c)
    else indices.reverse.flatMap fun c => indices.map fun r => (r, c)

/-- The order in which the host aggregates the columns. -/
def columnOrder (iter : ℕ) : List ℕ :=
  if iter % 2 = 0 then List.range s.numPartitions
  else (List.range s.numPartitions).reverse

def sendTodo (iter : ℕ) : List (ℕ × ℕ × ℕ) :=
  (sendOrder s iter).flatMap fun block =>
    (List.range s.numCsds).map fun csd => (block.1, block.2, csd)

/-- One round of the send loop: an empty portion is marked as done unless it
closes the iteration, and a portion that is done is not sent. -/
def sendStep (st : State) (r c csd : ℕ) (rest : List (ℕ × ℕ × ℕ)) : State :=
  let id := blockId s.numPartitions csd r c
  let mem :=
    if s.edgeBlocksLength r c csd = 0 ∧ (r, c) ≠ endBlock s st.iter then
      { st.mem with done1 := update st.mem.done1 id true }
    else st.mem
  let st := { st with mem, host := .send rest }
  if mem.done1 id then st
  else
    let dev := st.devices csd
    st.setDevice csd { dev with
      sq := dev.sq ++ [sendProcEdge s.toConfig r c csd st.iter s.numIters false
        s.rowOverlap] }

/-- `aggr_partition`: all devices have finished all blocks of the column. -/
def aggrReady (mem : Hmb) (c : ℕ) : Bool :=
  (List.range s.numPartitions).all fun r =>
    (List.range s.numCsds).all fun csd =>
      mem.done1 (blockId s.numPartitions csd r c)

/-- `end_of_iter_waiting`: all devices have raised their flag. -/
def endReady (mem : Hmb) : Bool :=
  (List.range s.numCsds).all fun csd =>
    mem.donePartition (barrierId s.numPartitions csd)

/-- The cells that `conv_partition` folds in, in order. -/
def mergeTodo (c : ℕ) : List (ℕ × ℕ) :=
  (partitionVertices s.toConfig c).flatMap fun v =>
    (List.range s.numCsds).map fun csd => (v, csd)

/-- `end_of_iter_replacing` up to the release of the devices.  They all stand
at the barrier then and read nothing, so it is one step with the test before
it; the loop counter of the host is advanced here. -/
def replaceStep (st : State) : State :=
  { st with
    iter := st.iter + 1
    host := .release (List.range s.numCsds)
    mem := { endOfIterReplacing s.toConfig st.mem with
      donePartition := fun i =>
        if i < s.numPartitions then false else st.mem.donePartition i } }

def hostStep (st : State) : Option State :=
  match st.host with
  | .send [] => some { st with host := .aggr (columnOrder s st.iter) }
  | .send ((r, c, csd) :: rest) => some (sendStep s st r c csd rest)
  | .aggr [] => some { st with host := .wait }
  | .aggr (c :: rest) =>
      if aggrReady s st.mem c then
        some { st with host := .merge c rest (mergeTodo s c) }
      else none
  | .merge c rest [] =>
      some { st with host := .damp c rest (partitionVertices s.toConfig c) }
  | .merge c rest ((v, csd) :: todo) =>
      some { st with
        host := .merge c rest todo
        mem := { st.mem with
          buf1 := mergeSection s.toConfig (mergeValue s.toConfig) v st.mem.buf1
            csd } }
  | .damp c rest [] => some { st with host := .notify c rest }
  | .damp c rest (v :: todo) =>
      some { st with
        host := .damp c rest todo
        mem := { st.mem with
          buf1 := update st.mem.buf1 v
            (convValue s.toConfig (st.mem.buf1 v)) } }
  | .notify c rest =>
      some { st with
        host := .aggr rest
        mem := { st.mem with
          donePartition := update st.mem.donePartition c true } }
  | .wait => if endReady s st.mem then some (replaceStep s st) else none
  | .release [] =>
      some { st with
        host := if st.iter < s.numIters then .send (sendTodo s st.iter)
          else .finished }
  | .release (csd :: rest) =>
      some { st with
        host := .release rest
        mem := { st.mem with
          donePartition := update st.mem.donePartition
            (barrierId s.numPartitions csd) false } }
  | .finished => none

end Host

/-! ## Dispatcher -/

/-- `queue_find`: a task of the same block is in the queue. -/
def queueFind (queue : List ProcEdge) (task : ProcEdge) : Bool :=
  queue.any fun node => node.r = task.r && node.c = task.c

/-- The `ASYNC` branch of the command: `queue_find`, then `queue_enqueue`. -/
def dispatchStep (csd : ℕ) (st : State) : Option State :=
  let dev := st.devices csd
  match dev.dispatched with
  | some task =>
      some (st.setDevice csd { dev with
        dispatched := none
        normalQueue := dev.normalQueue ++ [task] })
  | none =>
      match dev.sq with
      | [] => none
      | task :: rest =>
          some (st.setDevice csd { dev with
            sq := rest
            dispatched :=
              if queueFind dev.normalQueue task then none else some task })

/-! ## Worker -/

/-- The test for the end-of-iteration branch.  The fields are unsigned, so
`(task.iter - 1) % 2` is the parity of `iter + 1` for every value. -/
def endsIteration (task : ProcEdge) : Bool :=
  task.iter = task.numIters ||
    ((task.iter + 1) % 2 = 0 && task.r + 1 = task.numPartitions) ||
    ((task.iter + 1) % 2 = 1 && task.r = 0)

/-- The last block of an iteration that goes backwards. -/
def lastBackwards (task : ProcEdge) : Bool :=
  (task.rowOverlap ≠ 3 && task.r + 1 = task.numPartitions && task.c = 0) ||
    (task.rowOverlap = 3 && task.r = 1 && task.c = 0)

/-- A normal task that is also run ahead for the next iteration. -/
def runsAgain (task : ProcEdge) : Bool :=
  task.iter + 1 ≠ task.numIters &&
    ((task.iter % 2 = 0 && task.r ≤ task.c) ||
      (task.iter % 2 = 1 && task.c < task.r))

/-- The fake task that ends the last iteration. -/
def lastFake (task : ProcEdge) : List ProcEdge :=
  if task.iter + 1 = task.numIters then
    if task.iter % 2 = 0 ∧ task.r + 1 = task.numPartitions ∧
        task.c + 1 = task.numPartitions then
      [{ task with iter := task.iter + 1 }]
    else if task.iter % 2 = 1 ∧ lastBackwards task then
      [{ task with r := 0, c := 0, iter := task.iter + 1 }]
    else []
  else []

/-- What the worker appends to the future queue after a normal task. -/
def afterNormal (task : ProcEdge) : List ProcEdge :=
  if runsAgain task then
    let next := { task with iter := task.iter + 1, isFvc := true }
    [next] ++ lastFake next
  else lastFake task

/-- What the worker appends after a future task: the fake task that ends an
iteration that goes backwards. -/
def afterFuture (task : ProcEdge) : List ProcEdge :=
  if task.iter % 2 = 0 ∧ lastBackwards task then
    [{ task with r := 0, c := 0 }]
  else []

section Worker

variable (s : Setup) (csd : ℕ)

/-- The start of `__proc_edge`. -/
def startRun (future : Bool) (task : ProcEdge) : WorkerPc :=
  .run future task (taskEdges s.toConfig task) 0

/-- On to the readiness test, through the scan of the future queue if rows may
overlap. -/
def scanOrCheck (dev : Device) (task : ProcEdge) : WorkerPc :=
  if task.rowOverlap ≠ 0 ∧ dev.futureQueue ≠ [] then
    .scan task dev.futureQueue
  else .check task

/-- One edge of a task: normal tasks go from `buf0` to `buf1`, future tasks
from `buf1` to `buf2`. -/
def edgeRound (mem : Hmb) (future : Bool) (task : ProcEdge) (edge : ℕ × ℕ)
    (state : UInt32) : Hmb × UInt32 :=
  let hmbOffset := (task.csdId + 1) * task.numVertices
  let degree := outdegree s.toConfig task.csdId task.outdegreeSlba
  if future then
    let next := edgeStep s.toConfig degree mem.buf1 hmbOffset
      (mem.buf2, state) edge
    ({ mem with buf2 := next.1 }, next.2)
  else
    let next := edgeStep s.toConfig degree mem.buf0 hmbOffset
      (mem.buf1, state) edge
    ({ mem with buf1 := next.1 }, next.2)

/-- The completion flag of a task, `done1` or `done2`. -/
def raiseDone (mem : Hmb) (future : Bool) (task : ProcEdge) : Hmb :=
  let id := blockId task.numPartitions task.csdId task.r task.c
  if future then { mem with done2 := update mem.done2 id true }
  else { mem with done1 := update mem.done1 id true }

/-- The end of a task. -/
def completeRun (st : State) (future : Bool) (task : ProcEdge) : State :=
  let dev := st.devices csd
  let appended := if future then afterFuture task else afterNormal task
  { st with mem := raiseDone st.mem future task }.setDevice csd { dev with
    futureQueue := dev.futureQueue ++ appended
    worker := .top
    executions := dev.executions ++
      [Execution.mk task.r task.c task.iter future st.iter] }

/-- The copy `buf1[section] := buf2[section]` for one vertex. -/
def copyVertex (mem : Hmb) (task : ProcEdge) (v : ℕ) : Hmb :=
  let i := sectionIndex task.numVertices task.csdId v
  { mem with
    buf1 := update mem.buf1 i (mem.buf2 i)
    buf2 := update mem.buf2 i 0 }

/-- `find_next_future_task` takes the node at a position of the queue. -/
def takeFuture (st : State) (i : ℕ) (node : ProcEdge) : State :=
  let dev := st.devices csd
  st.setDevice csd { dev with
    futureQueue := dev.futureQueue.eraseIdx i
    worker := startRun s true node }

def workerStep (st : State) : Option State :=
  let dev := st.devices csd
  match dev.worker with
  | .top =>
      match dev.futureQueue with
      | [] =>
          if dev.normalQueue = [] then none
          else some (st.setWorker csd .normalCheck)
      | task :: _ =>
          if endsIteration task then some (st.setWorker csd (.await task))
          else some (st.setWorker csd (scanOrCheck dev task))
  | .await task =>
      if st.mem.donePartition task.r then
        some (st.setDevice csd { dev with
          normalQueue := dev.futureQueue.tail
          futureQueue := dev.normalQueue
          worker := .raise task })
      else none
  | .raise task =>
      some ({ st with mem := { st.mem with
        donePartition := update st.mem.donePartition
          (barrierId task.numPartitions task.csdId) true } }.setWorker csd
            (.barrier task))
  | .barrier task =>
      if st.mem.donePartition (barrierId task.numPartitions task.csdId) then
        none
      else some (st.setWorker csd (.copy task (List.range task.numVertices)))
  | .copy task [] =>
      some (st.setDevice csd { dev with
        worker := scanOrCheck dev task
        copies := dev.copies + 1 })
  | .copy task (v :: todo) =>
      some ({ st with mem := copyVertex st.mem task v }.setWorker csd
        (.copy task todo))
  | .scan task [] => some (st.setWorker csd (.check task))
  | .scan task (node :: nodes) =>
      some (st.setWorker csd
        (if st.mem.donePartition node.r then .check node
        else .scan task nodes))
  | .check task =>
      match dev.futureQueue with
      | [] => some (st.setWorker csd .normalCheck)
      | front :: _ =>
          if st.mem.donePartition task.r then
            if task.rowOverlap = 1 then
              some (st.setWorker csd
                (.find task (List.range dev.futureQueue.length)))
            else if task.rowOverlap = 2 then
              some (st.setWorker csd
                (.find task (List.range dev.futureQueue.length).reverse))
            else some (takeFuture s csd st 0 front)
          else some (st.setWorker csd .normalCheck)
  | .find task [] => some (st.setWorker csd (startRun s true task))
  | .find task (i :: todo) =>
      match dev.futureQueue[i]? with
      | none => some (st.setWorker csd (.find task todo))
      | some node =>
          if st.mem.donePartition node.r then some (takeFuture s csd st i node)
          else some (st.setWorker csd (.find task todo))
  | .normalCheck =>
      match dev.normalQueue with
      | [] => some (st.setWorker csd .top)
      | task :: rest =>
          some (st.setDevice csd { dev with
            normalQueue := rest
            worker := startRun s false task })
  | .run future task [] _ => some (completeRun csd st future task)
  | .run future task (edge :: edges) state =>
      let next := edgeRound s st.mem future task edge state
      some ({ st with mem := next.1 }.setWorker csd
        (.run future task edges next.2))

end Worker

/-! ## Runs -/

inductive Actor
  | host
  | dispatcher (csd : ℕ)
  | worker (csd : ℕ)
  deriving DecidableEq

/-- One step of a party; only the devices of the run take part. -/
def step (s : Setup) (actor : Actor) (st : State) : Option State :=
  match actor with
  | .host => hostStep s st
  | .dispatcher csd => if csd < s.numCsds then dispatchStep csd st else none
  | .worker csd => if csd < s.numCsds then workerStep s csd st else none

def initialDevice : Device where
  sq := []
  dispatched := none
  normalQueue := []
  futureQueue := []
  worker := .top
  executions := []
  copies := 0

/-- The state in which `csd_proc_edge_loop_dual_queue` is called, after
`init_csds_data`. -/
def initialState (s : Setup) : State where
  iter := 0
  host := .release []
  devices := fun _ => initialDevice
  mem := initCsdsData s.toConfig s.initial s.mem

/-- State after a schedule of the parties. -/
def stateAfter (s : Setup) (schedule : List Actor) : State :=
  Interleaving.run (step s) schedule (initialState s)

/-- A graph on one device, with a vertex for each partition and at most one edge
in each portion, and a run of the engine on it. -/
def gridSetup (numPartitions numIters rowOverlap : ℕ) (length : ℕ → ℕ → ℕ)
    (htwo : 2 ≤ numPartitions) : Setup where
  numVertices := numPartitions
  numPartitions := numPartitions
  numCsds := 1
  algorithm := .pagerank
  arithmetic := ⟨fun value degree => value / degree, fun n => n⟩
  outdegreeSlba := 8 * numPartitions * numPartitions
  edgeBlocksSlba := fun r c _ => 8 * (r * numPartitions + c)
  edgeBlocksLength := fun r c _ => length r c
  storage := fun _ word =>
    if 2 * numPartitions * numPartitions ≤ word then numPartitions
    else if word % 2 = 0 then word / 2 / numPartitions
    else word / 2 % numPartitions
  numIters := numIters
  rowOverlap := rowOverlap
  initial := fun _ => 1
  mem := default
  two_partitions := htwo
  flags_down := fun _ => rfl

/-- Two iterations over a grid with an edge in each of its four portions. -/
def fullGrid : Setup := gridSetup 2 2 0 (fun _ _ => 8) le_rfl

end NvmeVirt.DualQueue
