import NvmeVirt.Lib.Digits

/-!
# Host memory buffer, edge storage and edge-processing commands

The host program and the computational storage devices share six arrays of the
host memory buffer.  `buf0`, `buf1` and `buf2` hold the vertex values of the
current, the next and the second next iteration; index `v` is the host's own
copy of vertex `v` and index `v + (csd + 1) * num_vertices` is the partial sum
of device `csd`.  Values are exact rationals: the two places where the program
leaves the rationals, the division by the outdegree and the conversion of an
integer to single precision, are parameters.
-/

namespace NvmeVirt.Csd

open NvmeVirt.Digits

/-- The vertex program selected on the command line. -/
inductive Algorithm
  | pagerank
  | labelPropagation
  | dispersion
  deriving DecidableEq, Repr

/-- The arithmetic of the devices that is not exact: `src[u] / outdegree[u]`
and `(float)` applied to an `int`. -/
structure Arithmetic where
  share : ℚ → ℕ → ℚ
  single : ℤ → ℚ

/-- The globals of the host program that the edge loops read, and the contents
of the devices' storage as an array of 32-bit words for each device. -/
structure Config where
  numVertices : ℕ
  numPartitions : ℕ
  numCsds : ℕ
  algorithm : Algorithm
  arithmetic : Arithmetic
  outdegreeSlba : ℕ
  edgeBlocksSlba : ℕ → ℕ → ℕ → ℕ
  edgeBlocksLength : ℕ → ℕ → ℕ → ℕ
  storage : ℕ → ℕ → ℕ

/-- `struct PROC_EDGE`, without the fields that only the prefetcher, the cost
model and the latency model read, and without the algorithm, which is the same
in all commands of a run. -/
structure ProcEdge where
  outdegreeSlba : ℕ
  edgeBlockSlba : ℕ
  edgeBlockLen : ℕ
  iter : ℕ
  numIters : ℕ
  isFvc : Bool
  rowOverlap : ℕ
  r : ℕ
  c : ℕ
  csdId : ℕ
  numPartitions : ℕ
  numCsds : ℕ
  numVertices : ℕ
  deriving DecidableEq, Repr

/-- The command that `send_proc_edge` builds. -/
def sendProcEdge (cfg : Config) (r c csdId iter numIters : ℕ) (isFvc : Bool)
    (rowOverlap : ℕ) : ProcEdge where
  outdegreeSlba := cfg.outdegreeSlba
  edgeBlockSlba := cfg.edgeBlocksSlba r c csdId
  edgeBlockLen := cfg.edgeBlocksLength r c csdId
  iter := iter
  numIters := numIters
  isFvc := isFvc
  rowOverlap := rowOverlap
  r := r
  c := c
  csdId := csdId
  numPartitions := cfg.numPartitions
  numCsds := cfg.numCsds
  numVertices := cfg.numVertices

def VERTEX_SIZE : ℕ := 4
def EDGE_SIZE : ℕ := 8

/-- The edges that the pointer loop `e < e_end`, `e += EDGE_SIZE / VERTEX_SIZE`
visits from `edge_block_slba` on. -/
def edgesAt (storage : ℕ → ℕ) (slba len : ℕ) : List (ℕ × ℕ) :=
  let e := slba / VERTEX_SIZE
  let stride := EDGE_SIZE / VERTEX_SIZE
  (List.range ((len / VERTEX_SIZE + stride - 1) / stride)).map fun i =>
    (storage (e + stride * i), storage (e + stride * i + 1))

def taskEdges (cfg : Config) (task : ProcEdge) : List (ℕ × ℕ) :=
  edgesAt (cfg.storage task.csdId) task.edgeBlockSlba task.edgeBlockLen

/-- Portion of edge block `(r, c)` that is stored on device `csd`. -/
def blockEdges (cfg : Config) (r c csd : ℕ) : List (ℕ × ℕ) :=
  edgesAt (cfg.storage csd) (cfg.edgeBlocksSlba r c csd)
    (cfg.edgeBlocksLength r c csd)

def outdegree (cfg : Config) (csd slba u : ℕ) : ℕ :=
  cfg.storage csd (slba / VERTEX_SIZE + u)

@[simp]
theorem taskEdges_sendProcEdge (cfg : Config) (r c csd iter numIters : ℕ)
    (isFvc : Bool) (rowOverlap : ℕ) :
    taskEdges cfg (sendProcEdge cfg r c csd iter numIters isFvc rowOverlap) =
      blockEdges cfg r c csd := rfl

/-- `struct hmb_device`, as seen by the host and by every device. -/
structure Hmb where
  buf0 : ℕ → ℚ
  buf1 : ℕ → ℚ
  buf2 : ℕ → ℚ
  done1 : ℕ → Bool
  done2 : ℕ → Bool
  donePartition : ℕ → Bool
  deriving Inhabited

/-- Index of the completion flag of block `(r, c)` of device `csd`. -/
def blockId (numPartitions csd r c : ℕ) : ℕ :=
  csd * numPartitions * numPartitions + r * numPartitions + c

/-- Index of the partial value of vertex `v` on device `csd`. -/
def sectionIndex (numVertices csd v : ℕ) : ℕ :=
  v + (csd + 1) * numVertices

/-- The reset of the shared memory in `init_csds_data`.  The initial vertex
values are all 1 for PageRank, all 0 for Label Propagation, and mark the active
vertices with 1 for Dispersion. -/
def initCsdsData (cfg : Config) (initial : ℕ → ℚ) (mem : Hmb) : Hmb where
  buf0 := fun i =>
    if i < cfg.numVertices then initial i
    else if i < cfg.numVertices * (cfg.numCsds + 1) then 0 else mem.buf0 i
  buf1 := fun i =>
    if i < cfg.numVertices * (cfg.numCsds + 1) then 0 else mem.buf1 i
  buf2 := fun i =>
    if i < cfg.numVertices * (cfg.numCsds + 1) then 0 else mem.buf2 i
  done1 := fun i =>
    if i < cfg.numCsds * cfg.numPartitions * cfg.numPartitions then false
    else mem.done1 i
  done2 := fun i =>
    if i < cfg.numCsds * cfg.numPartitions * cfg.numPartitions then false
    else mem.done2 i
  donePartition := fun i =>
    if i < cfg.numPartitions then false else mem.donePartition i

/-! ## Vertex partitions -/

/-- `get_partition_range`: the half-open vertex interval of a partition. -/
def getPartitionRange (numVertices numPartitions partitionId : ℕ) : ℕ × ℕ :=
  let splitPartition := numVertices % numPartitions
  let partitionSize := numVertices / numPartitions + 1
  if partitionId < splitPartition then
    (partitionId * partitionSize, (partitionId + 1) * partitionSize)
  else
    let splitPoint := splitPartition * partitionSize
    (splitPoint + (partitionId - splitPartition) * (partitionSize - 1),
      splitPoint + (partitionId - splitPartition + 1) * (partitionSize - 1))

/-- First vertex of a partition in closed form. -/
def partitionStart (numVertices numPartitions partitionId : ℕ) : ℕ :=
  partitionId * (numVertices / numPartitions) +
    min partitionId (numVertices % numPartitions)

theorem getPartitionRange_eq (numVertices numPartitions partitionId : ℕ) :
    getPartitionRange numVertices numPartitions partitionId =
      (partitionStart numVertices numPartitions partitionId,
        partitionStart numVertices numPartitions (partitionId + 1)) := by
  simp only [getPartitionRange, partitionStart]
  by_cases hsplit : partitionId < numVertices % numPartitions
  · rw [if_pos hsplit, min_eq_left (by omega), min_eq_left (by omega)]
    apply Prod.ext <;> ring
  · obtain ⟨offset, rfl⟩ := Nat.exists_eq_add_of_le (Nat.le_of_not_lt hsplit)
    rw [if_neg hsplit, min_eq_right (by omega), min_eq_right (by omega),
      Nat.add_sub_cancel_left, Nat.add_sub_cancel]
    apply Prod.ext <;> ring

def inPartition (cfg : Config) (partitionId v : ℕ) : Bool :=
  let range := getPartitionRange cfg.numVertices cfg.numPartitions partitionId
  decide (range.1 ≤ v) && decide (v < range.2)

theorem inPartition_iff (cfg : Config) (partitionId v : ℕ) :
    inPartition cfg partitionId v = true ↔
      partitionStart cfg.numVertices cfg.numPartitions partitionId ≤ v ∧
        v < partitionStart cfg.numVertices cfg.numPartitions
          (partitionId + 1) := by
  simp [inPartition, getPartitionRange_eq]

theorem partitionStart_mono (numVertices numPartitions : ℕ) :
    Monotone (partitionStart numVertices numPartitions) := by
  intro left right hle
  have hmul := Nat.mul_le_mul_right (numVertices / numPartitions) hle
  simp only [partitionStart]
  omega

theorem partitionStart_zero (numVertices numPartitions : ℕ) :
    partitionStart numVertices numPartitions 0 = 0 := by
  simp [partitionStart]

theorem partitionStart_last (numVertices numPartitions : ℕ)
    (hpos : 0 < numPartitions) :
    partitionStart numVertices numPartitions numPartitions = numVertices := by
  have hmod := Nat.mod_lt numVertices hpos
  rw [partitionStart, min_eq_right hmod.le]
  exact Nat.div_add_mod numVertices numPartitions

/-- A vertex lies in at most one partition. -/
theorem inPartition_unique (cfg : Config) {left right v : ℕ}
    (hleft : inPartition cfg left v = true)
    (hright : inPartition cfg right v = true) : left = right := by
  rw [inPartition_iff] at hleft hright
  by_contra hne
  rcases Nat.lt_or_gt_of_ne hne with hlt | hlt
  · have := partitionStart_mono cfg.numVertices cfg.numPartitions
      (show left + 1 ≤ right from hlt)
    omega
  · have := partitionStart_mono cfg.numVertices cfg.numPartitions
      (show right + 1 ≤ left from hlt)
    omega

/-- Every vertex lies in some partition. -/
theorem exists_inPartition (cfg : Config) (hpos : 0 < cfg.numPartitions)
    {v : ℕ} (hv : v < cfg.numVertices) :
    ∃ c < cfg.numPartitions, inPartition cfg c v = true := by
  have hfind : ∀ bound, v < partitionStart cfg.numVertices cfg.numPartitions
      bound → ∃ c < bound, inPartition cfg c v = true := by
    intro bound
    induction bound with
    | zero => simp [partitionStart_zero]
    | succ bound ih =>
        intro hlt
        by_cases hbelow : v < partitionStart cfg.numVertices
            cfg.numPartitions bound
        · obtain ⟨c, hc, hin⟩ := ih hbelow
          exact ⟨c, by omega, hin⟩
        · refine ⟨bound, by omega, ?_⟩
          rw [inPartition_iff]
          exact ⟨Nat.le_of_not_lt hbelow, hlt⟩
  apply hfind
  rwa [partitionStart_last _ _ hpos]

theorem lt_numVertices_of_inPartition (cfg : Config)
    (hpos : 0 < cfg.numPartitions) {c v : ℕ} (hc : c < cfg.numPartitions)
    (hv : inPartition cfg c v = true) : v < cfg.numVertices := by
  rw [inPartition_iff] at hv
  have hmono := partitionStart_mono cfg.numVertices cfg.numPartitions
    (show c + 1 ≤ cfg.numPartitions from hc)
  rw [partitionStart_last _ _ hpos] at hmono
  omega

/-- A graph as the preprocessing step lays it out on disk: block `(r, c)` holds
edges from partition `r` to partition `c`. -/
structure PartitionedGraph extends Config where
  partitions_pos : 0 < numPartitions
  edge_source : ∀ r < numPartitions, ∀ c < numPartitions, ∀ csd < numCsds,
    ∀ edge ∈ blockEdges toConfig r c csd,
      inPartition toConfig r edge.1 = true
  edge_target : ∀ r < numPartitions, ∀ c < numPartitions, ∀ csd < numCsds,
    ∀ edge ∈ blockEdges toConfig r c csd,
      inPartition toConfig c edge.2 = true

/-! ## Flat indices -/

theorem sectionIndex_inj {numVertices csd csd' v v' : ℕ}
    (hv : v < numVertices) (hv' : v' < numVertices) :
    sectionIndex numVertices csd v = sectionIndex numVertices csd' v' ↔
      csd = csd' ∧ v = v' := by
  rw [sectionIndex, sectionIndex, add_comm v, add_comm v', digits_inj hv hv',
    Nat.succ_inj]

theorem le_sectionIndex (numVertices csd v : ℕ) :
    numVertices ≤ sectionIndex numVertices csd v := by
  simp only [sectionIndex, Nat.add_mul, one_mul]
  omega

theorem sectionIndex_lt {numVertices numCsds csd v : ℕ}
    (hv : v < numVertices) (hcsd : csd < numCsds) :
    sectionIndex numVertices csd v < numVertices * (numCsds + 1) := by
  have hle := Nat.mul_le_mul_right numVertices (show csd + 2 ≤ numCsds + 1 by
    omega)
  rw [Nat.add_mul] at hle
  rw [sectionIndex, Nat.add_mul, mul_comm numVertices]
  omega

theorem blockId_inj {numPartitions csd csd' r r' c c' : ℕ}
    (hr : r < numPartitions) (hr' : r' < numPartitions)
    (hc : c < numPartitions) (hc' : c' < numPartitions) :
    blockId numPartitions csd r c = blockId numPartitions csd' r' c' ↔
      csd = csd' ∧ r = r' ∧ c = c' := by
  simp only [blockId, ← Nat.add_mul]
  rw [digits_inj hc hc', digits_inj hr hr', and_assoc]

end NvmeVirt.Csd
