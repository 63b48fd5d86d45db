import NvmeVirt.Csd.EdgeKernel

/-!
# The synchronous edge loops of the host

`csd_proc_edge_loop_normal` runs every block in every iteration.
`csd_proc_edge_loop_grafu` also computes, while block `(r, c)` is at hand, its
contribution to the following iteration as soon as the source partition is
final, and skips the block there.  A synchronous command has been processed
when the host sees the completion flag, so a command is one state change; the
loops that wait for a flag block, `none`, when nothing is left to set it.
-/

namespace NvmeVirt.Csd

open Function

/-- `__do_perform_edge_proc_grafu`: normal tasks go from `buf0` to `buf1`,
future tasks from `buf1` to `buf2`. -/
def doPerformEdgeProcGrafu (cfg : Config) (task : ProcEdge) (mem : Hmb) :
    Hmb :=
  let hmbOffset := (task.csdId + 1) * task.numVertices
  let degree := outdegree cfg task.csdId task.outdegreeSlba
  let edges := taskEdges cfg task
  let id := blockId task.numPartitions task.csdId task.r task.c
  if task.isFvc then
    { mem with
      buf2 := procEdges cfg degree mem.buf1 hmbOffset mem.buf2 edges
      done2 := update mem.done2 id true }
  else
    { mem with
      buf1 := procEdges cfg degree mem.buf0 hmbOffset mem.buf1 edges
      done1 := update mem.done1 id true }

/-- `aggr_edge_block`: wait until every device has finished the block. -/
def aggrEdgeBlock (cfg : Config) (r c : ℕ) (isNormal : Bool) (mem : Hmb) :
    Option Hmb :=
  let done := if isNormal then mem.done1 else mem.done2
  if (List.range cfg.numCsds).all fun csd =>
      done (blockId cfg.numPartitions csd r c) then
    some mem
  else none

/-- One block on all devices: the synchronous commands and the wait. -/
def sendBlock (cfg : Config) (r c iter numIter : ℕ) (isFvc : Bool)
    (mem : Hmb) : Option Hmb :=
  aggrEdgeBlock cfg r c (!isFvc) ((List.range cfg.numCsds).foldl
    (fun mem csd => doPerformEdgeProcGrafu cfg
      (sendProcEdge cfg r c csd iter numIter isFvc 0) mem) mem)

/-- `end_of_iter_replacing`: shift the host's vertex values and the completion
flags by one iteration and clear the notifications. -/
def endOfIterReplacing (cfg : Config) (mem : Hmb) : Hmb where
  buf0 := fun i => if i < cfg.numVertices then mem.buf1 i else mem.buf0 i
  buf1 := fun i => if i < cfg.numVertices then mem.buf2 i else mem.buf1 i
  buf2 := fun i => if i < cfg.numVertices then 0 else mem.buf2 i
  done1 := fun i =>
    if i < cfg.numCsds * cfg.numPartitions * cfg.numPartitions then mem.done2 i
    else mem.done1 i
  done2 := fun i =>
    if i < cfg.numCsds * cfg.numPartitions * cfg.numPartitions then false
    else mem.done2 i
  donePartition := fun i =>
    if i < cfg.numPartitions then false
    else if cfg.numPartitions < i ∧ i ≤ cfg.numPartitions + cfg.numCsds then
      false
    else mem.donePartition i

/-- The `FLUSH_CSD_DRAM` command of one device: it leaves sixteen statistics
in `buf2` and acknowledges in `done2`. -/
def flushCommand (cfg : Config) (stats : ℕ → ℕ → ℚ) (mem : Hmb) (csd : ℕ) :
    Hmb :=
  { mem with
    buf2 := (List.range 16).foldl
      (fun buf i => update buf (csd + cfg.numCsds * i) (stats csd i)) mem.buf2
    done2 := update (update mem.done2 csd false) csd true }

/-- `flush_csd_dram`. -/
def flushCsdDram (cfg : Config) (stats : ℕ → ℕ → ℚ) (mem : Hmb) :
    Option Hmb :=
  let mem := (List.range cfg.numCsds).foldl (flushCommand cfg stats) mem
  if (List.range cfg.numCsds).all fun csd => mem.done2 csd then some mem
  else none

/-! ## Normal loop -/

def normalColumn (cfg : Config) (numIter iter : ℕ) (mem : Hmb) (c : ℕ) :
    Option Hmb := do
  let mem ← (List.range cfg.numPartitions).foldlM
    (fun mem r => sendBlock cfg r c iter numIter false mem) mem
  return convPartition cfg c mem

def normalIteration (cfg : Config) (numIter : ℕ) (mem : Hmb) (iter : ℕ) :
    Option Hmb := do
  let mem ← (List.range cfg.numPartitions).foldlM
    (normalColumn cfg numIter iter) mem
  return endOfIterReplacing cfg mem

def csdProcEdgeLoopNormal (cfg : Config) (stats : ℕ → ℕ → ℚ) (numIter : ℕ)
    (mem : Hmb) : Option Hmb := do
  let mem ← (List.range numIter).foldlM (normalIteration cfg numIter) mem
  flushCsdDram cfg stats mem

/-! ## Future-value loop -/

/-- The loop "aggregate future values", which adds for every algorithm. -/
def aggregateFuture (cfg : Config) (c : ℕ) (mem : Hmb) : Hmb :=
  { mem with buf2 := mergePartition cfg (· + ·) c mem.buf2 }

/-- One row of a column: the block itself unless it is skipped, then its
contribution to the next iteration if asked for. -/
def runRow (cfg : Config) (numIter iter c : ℕ) (skip future : ℕ → Bool)
    (mem : Hmb) (r : ℕ) : Option Hmb :=
  if skip r then some mem
  else do
    let mem ← sendBlock cfg r c iter numIter false mem
    if future r then sendBlock cfg r c (iter + 1) numIter true mem
    else some mem

def evenRow (cfg : Config) (numIter iter c : ℕ) : Hmb → ℕ → Option Hmb :=
  runRow cfg numIter iter c (fun r => 0 < iter && c < r)
    (fun r => r < c && iter != numIter - 1)

def evenColumn (cfg : Config) (numIter iter : ℕ) (mem : Hmb) (c : ℕ) :
    Option Hmb := do
  let mem ← (List.range cfg.numPartitions).foldlM
    (evenRow cfg numIter iter c) mem
  let mem := convPartition cfg c mem
  if iter ≠ numIter - 1 then do
    let mem ← sendBlock cfg c c (iter + 1) numIter true mem
    return aggregateFuture cfg c mem
  else return mem

def oddRow (cfg : Config) (numIter iter c : ℕ) : Hmb → ℕ → Option Hmb :=
  runRow cfg numIter iter c (fun r => r ≤ c) (fun _ => iter != numIter - 1)

def oddColumn (cfg : Config) (numIter iter : ℕ) (mem : Hmb) (c : ℕ) :
    Option Hmb := do
  let mem ← (List.range cfg.numPartitions).reverse.foldlM
    (oddRow cfg numIter iter c) mem
  let mem := convPartition cfg c mem
  if iter ≠ numIter - 1 then return aggregateFuture cfg c mem
  else return mem

def grafuIteration (cfg : Config) (numIter : ℕ) (mem : Hmb) (iter : ℕ) :
    Option Hmb := do
  let mem ←
    if iter % 2 = 0 then
      (List.range cfg.numPartitions).foldlM (evenColumn cfg numIter iter) mem
    else
      (List.range cfg.numPartitions).reverse.foldlM
        (oddColumn cfg numIter iter) mem
  return endOfIterReplacing cfg mem

def csdProcEdgeLoopGrafu (cfg : Config) (stats : ℕ → ℕ → ℚ) (numIter : ℕ)
    (mem : Hmb) : Option Hmb := do
  let mem ← (List.range numIter).foldlM (grafuIteration cfg numIter) mem
  flushCsdDram cfg stats mem

end NvmeVirt.Csd
