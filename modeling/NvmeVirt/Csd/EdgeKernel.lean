import NvmeVirt.Csd.HostMemory
import NvmeVirt.Lib.Loops

/-!
# Edge processing and partition aggregation

The loop that a device runs over the edges of a task, the same in `__proc_edge`
and in `__do_perform_edge_proc_grafu`, and the loop of `conv_partition` that
folds the devices' partial values into the host's copy.  Both act on each cell
of the buffers separately; the lemmas below state the effect cell by cell.
-/

namespace NvmeVirt.Csd

open Function

/-! ## Dispersion draws -/

/-- `hash_edge` of `io.c`, repeated as `hash_edge1` in `simple_ftl.c`. -/
def hashEdge (u v : UInt32) : UInt32 :=
  (u ^^^ (v + (0x9e3779b9 : UInt32) + (u <<< 6) + (u >>> 2))) &&& 1023

/-- `fast_pseudo_rand`: the drawn number and the next generator state. -/
def fastPseudoRand (state : UInt32) : UInt32 × UInt32 :=
  let next := state * 1664525 + 1013904223
  (next &&& 1023, next)

/-- Whether the edge `(u, v)` passes on an active source in generator state
`state`. -/
def drawSucceeds (state : UInt32) (edge : ℕ × ℕ) : Bool :=
  (fastPseudoRand state).1 <
    hashEdge (UInt32.ofNat edge.1) (UInt32.ofNat edge.2)

/-! ## Label frequencies -/

/-- `(int)` of a buffer value. -/
def toInt32 (value : ℚ) : BitVec 32 :=
  BitVec.ofInt 32 (value.num.tdiv value.den)

/-- The two 16-bit label counters packed in a buffer value. -/
def labelFreqs (value : ℚ) : BitVec 32 × BitVec 32 :=
  (toInt32 value &&& 0xFFFF, (toInt32 value).sshiftRight 16 &&& 0xFFFF)

def packFreqs (arithmetic : Arithmetic) (freqs : BitVec 32 × BitVec 32) : ℚ :=
  arithmetic.single (freqs.1 ||| (freqs.2 <<< 16)).toInt

/-- The counters of the destination after the vote of vertex `u`. -/
def castVote (u : ℕ) (src dst : BitVec 32 × BitVec 32) :
    BitVec 32 × BitVec 32 :=
  if src.2.toNat < src.1.toNat then (dst.1 + 1, dst.2)
  else if src.1.toNat < src.2.toNat then (dst.1, dst.2 + 1)
  else if u % 2 = 0 then (dst.1 + 1, dst.2)
  else (dst.1, dst.2 + 1)

/-! ## The edge loop -/

/-- New value of the destination cell of one edge. -/
def edgeValue (cfg : Config) (degree : ℕ → ℕ) (src : ℕ → ℚ) (state : UInt32)
    (edge : ℕ × ℕ) (dst : ℚ) : ℚ :=
  match cfg.algorithm with
  | .pagerank => dst + cfg.arithmetic.share (src edge.1) (degree edge.1)
  | .labelPropagation =>
      packFreqs cfg.arithmetic
        (castVote edge.1 (labelFreqs (src edge.1)) (labelFreqs dst))
  | .dispersion =>
      if src edge.1 = 1 ∧ drawSucceeds state edge then 1 else dst

/-- Generator state after one edge; a number is drawn for active sources
only. -/
def edgeState (cfg : Config) (src : ℕ → ℚ) (state : UInt32) (edge : ℕ × ℕ) :
    UInt32 :=
  match cfg.algorithm with
  | .dispersion =>
      if src edge.1 = 1 then (fastPseudoRand state).2 else state
  | _ => state

def edgeStep (cfg : Config) (degree : ℕ → ℕ) (src : ℕ → ℚ) (hmbOffset : ℕ)
    (loop : (ℕ → ℚ) × UInt32) (edge : ℕ × ℕ) : (ℕ → ℚ) × UInt32 :=
  (update loop.1 (edge.2 + hmbOffset)
      (edgeValue cfg degree src loop.2 edge (loop.1 (edge.2 + hmbOffset))),
    edgeState cfg src loop.2 edge)

/-- Destination buffer after the whole edge loop; the generator of Dispersion
starts at state 0 for every task. -/
def procEdges (cfg : Config) (degree : ℕ → ℕ) (src : ℕ → ℚ) (hmbOffset : ℕ)
    (dst : ℕ → ℚ) (edges : List (ℕ × ℕ)) : ℕ → ℚ :=
  (edges.foldl (edgeStep cfg degree src hmbOffset) (dst, 0)).1

/-- One edge as seen by the cell of vertex `v`. -/
def cellStep (cfg : Config) (degree : ℕ → ℕ) (src : ℕ → ℚ) (v : ℕ)
    (loop : ℚ × UInt32) (edge : ℕ × ℕ) : ℚ × UInt32 :=
  (if edge.2 = v then edgeValue cfg degree src loop.2 edge loop.1 else loop.1,
    edgeState cfg src loop.2 edge)

/-- The edge loop as seen by the cell of vertex `v`. -/
def cellEdges (cfg : Config) (degree : ℕ → ℕ) (src : ℕ → ℚ)
    (edges : List (ℕ × ℕ)) (v : ℕ) (value : ℚ) : ℚ :=
  (edges.foldl (cellStep cfg degree src v) (value, 0)).1

/-- The edge loop acts on every cell of the section on its own. -/
theorem procEdges_section (cfg : Config) (degree : ℕ → ℕ) (src : ℕ → ℚ)
    (hmbOffset : ℕ) (dst : ℕ → ℚ) (edges : List (ℕ × ℕ)) (v : ℕ) :
    procEdges cfg degree src hmbOffset dst edges (v + hmbOffset) =
      cellEdges cfg degree src edges v (dst (v + hmbOffset)) := by
  let related (loop : (ℕ → ℚ) × UInt32) (cell : ℚ × UInt32) : Prop :=
    loop.1 (v + hmbOffset) = cell.1 ∧ loop.2 = cell.2
  have hbody : ∀ edge ∈ edges, ∀ loop cell, related loop cell →
      related (edgeStep cfg degree src hmbOffset loop edge)
        (cellStep cfg degree src v cell edge) := by
    rintro edge - loop cell ⟨hvalue, hstate⟩
    refine ⟨?_, by simp only [edgeStep, cellStep, hstate]⟩
    simp only [edgeStep, cellStep]
    by_cases hedge : edge.2 = v
    · rw [if_pos hedge, hedge, update_self, hvalue, hstate]
    · rw [if_neg hedge, update_of_ne (by omega), hvalue]
  exact (Loops.foldl_rel related _ _ edges hbody
    (s := (dst, 0)) (t := (dst (v + hmbOffset), 0)) ⟨rfl, rfl⟩).1

theorem procEdges_other (cfg : Config) (degree : ℕ → ℕ) (src : ℕ → ℚ)
    (hmbOffset : ℕ) (dst : ℕ → ℚ) {edges : List (ℕ × ℕ)} {i : ℕ}
    (hi : ∀ edge ∈ edges, edge.2 + hmbOffset ≠ i) :
    procEdges cfg degree src hmbOffset dst edges i = dst i := by
  apply Loops.foldl_frame (fun loop : (ℕ → ℚ) × UInt32 => loop.1 i)
    (edgeStep cfg degree src hmbOffset) edges
  intro edge hedge loop
  exact update_of_ne (hi edge hedge).symm _ _

/-- The edge loop reads source values of its edges only. -/
theorem cellEdges_congr (cfg : Config) (degree : ℕ → ℕ) {src src' : ℕ → ℚ}
    {edges : List (ℕ × ℕ)} (hsrc : ∀ edge ∈ edges, src edge.1 = src' edge.1)
    (v : ℕ) (value : ℚ) :
    cellEdges cfg degree src edges v value =
      cellEdges cfg degree src' edges v value := by
  have hbody : ∀ edge ∈ edges, ∀ loop loop' : ℚ × UInt32, loop = loop' →
      cellStep cfg degree src v loop edge =
        cellStep cfg degree src' v loop' edge := by
    rintro edge hedge loop - rfl
    simp only [cellStep, edgeValue, edgeState, hsrc edge hedge]
  exact congrArg Prod.fst
    (Loops.foldl_rel Eq _ _ edges hbody (rfl : (value, (0 : UInt32)) = _))

theorem cellEdges_of_not_target (cfg : Config) (degree : ℕ → ℕ) (src : ℕ → ℚ)
    {edges : List (ℕ × ℕ)} {v : ℕ} (hv : ∀ edge ∈ edges, edge.2 ≠ v)
    (value : ℚ) : cellEdges cfg degree src edges v value = value := by
  apply Loops.foldl_frame (fun loop : ℚ × UInt32 => loop.1)
    (cellStep cfg degree src v) edges
  intro edge hedge loop
  exact if_neg (hv edge hedge)

/-! ## Aggregation of a partition -/

/-- How one device's partial value is folded into the host's value. -/
def mergeValue (cfg : Config) (host partialValue : ℚ) : ℚ :=
  match cfg.algorithm with
  | .pagerank => host + partialValue
  | .labelPropagation =>
      let src := labelFreqs partialValue
      let dst := labelFreqs host
      packFreqs cfg.arithmetic (dst.1 + src.1, dst.2 + src.2)
  | .dispersion => if partialValue = 1 then 1 else host

/-- The PageRank damping that follows the aggregation. -/
def convValue (cfg : Config) (value : ℚ) : ℚ :=
  match cfg.algorithm with
  | .pagerank => 0.15 + 0.85 * value
  | _ => value

/-- Fold the partial value of one device into the host's cell of vertex `v`
and clear it. -/
def mergeSection (cfg : Config) (merge : ℚ → ℚ → ℚ) (v : ℕ) (buf : ℕ → ℚ)
    (csd : ℕ) : ℕ → ℚ :=
  let i := sectionIndex cfg.numVertices csd v
  update (update buf v (merge (buf v) (buf i))) i 0

def mergeVertex (cfg : Config) (merge : ℚ → ℚ → ℚ) (buf : ℕ → ℚ) (v : ℕ) :
    ℕ → ℚ :=
  (List.range cfg.numCsds).foldl (mergeSection cfg merge v) buf

def partitionVertices (cfg : Config) (partitionId : ℕ) : List ℕ :=
  let range := getPartitionRange cfg.numVertices cfg.numPartitions partitionId
  List.range' range.1 (range.2 - range.1)

/-- Aggregation of all vertices of a partition. -/
def mergePartition (cfg : Config) (merge : ℚ → ℚ → ℚ) (partitionId : ℕ)
    (buf : ℕ → ℚ) : ℕ → ℚ :=
  (partitionVertices cfg partitionId).foldl (mergeVertex cfg merge) buf

def convBuffer (cfg : Config) (partitionId : ℕ) (buf : ℕ → ℚ) : ℕ → ℚ :=
  (partitionVertices cfg partitionId).foldl
    (fun buf v => update buf v (convValue cfg (buf v)))
    (mergePartition cfg (mergeValue cfg) partitionId buf)

/-- `conv_partition`: aggregate the partition, then announce it. -/
def convPartition (cfg : Config) (partitionId : ℕ) (mem : Hmb) : Hmb :=
  { mem with
    buf1 := convBuffer cfg partitionId mem.buf1
    donePartition := update mem.donePartition partitionId true }

/-- The host's value of a vertex after all sections are folded in. -/
def mergeCell (cfg : Config) (merge : ℚ → ℚ → ℚ) (host : ℚ)
    (sections : ℕ → ℚ) : ℚ :=
  (List.range cfg.numCsds).foldl
    (fun value csd => merge value (sections csd)) host

theorem mergeCell_congr (cfg : Config) (merge : ℚ → ℚ → ℚ) (host : ℚ)
    {sections sections' : ℕ → ℚ}
    (heq : ∀ csd < cfg.numCsds, sections csd = sections' csd) :
    mergeCell cfg merge host sections = mergeCell cfg merge host sections' := by
  apply Loops.foldl_rel Eq _ _ _ _ rfl
  rintro csd hcsd value - rfl
  rw [heq csd (List.mem_range.mp hcsd)]

theorem mem_partitionVertices (cfg : Config) (partitionId v : ℕ) :
    v ∈ partitionVertices cfg partitionId ↔
      inPartition cfg partitionId v = true := by
  simp only [partitionVertices, List.mem_range'_1, inPartition,
    Bool.and_eq_true, decide_eq_true_eq]
  omega

theorem nodup_partitionVertices (cfg : Config) (partitionId : ℕ) :
    (partitionVertices cfg partitionId).Nodup :=
  List.nodup_range'

/-- The cells of one vertex: the host's and those of the sections. -/
def vertexCells (cfg : Config) (v : ℕ) (buf : ℕ → ℚ) : ℚ × (ℕ → ℚ) :=
  (buf v, fun csd => buf (sectionIndex cfg.numVertices csd v))

theorem sectionIndex_ne_host {numVertices v w : ℕ} (hw : w < numVertices)
    (csd : ℕ) : sectionIndex numVertices csd v ≠ w := by
  have := le_sectionIndex numVertices csd v
  omega

/-- Aggregating one vertex folds in all sections and clears them. -/
theorem vertexCells_mergeVertex_own (cfg : Config) (merge : ℚ → ℚ → ℚ)
    {v : ℕ} (hv : v < cfg.numVertices) (buf : ℕ → ℚ) :
    vertexCells cfg v (mergeVertex cfg merge buf v) =
      (mergeCell cfg merge (buf v)
          fun csd => buf (sectionIndex cfg.numVertices csd v),
        fun csd => if csd < cfg.numCsds then 0
          else buf (sectionIndex cfg.numVertices csd v)) := by
  let invariant (before : List ℕ) (now : ℕ → ℚ) : Prop :=
    now v = before.foldl (fun value csd => merge value
        (buf (sectionIndex cfg.numVertices csd v))) (buf v) ∧
      ∀ csd, now (sectionIndex cfg.numVertices csd v) =
        if csd ∈ before then 0 else buf (sectionIndex cfg.numVertices csd v)
  have hloop : invariant (List.range cfg.numCsds)
      (mergeVertex cfg merge buf v) := by
    refine Loops.foldl_prefix invariant (mergeSection cfg merge v) _ ?_
      ⟨rfl, by simp⟩
    rintro before csd after now hsplit ⟨hhost, hsection⟩
    -- The devices are visited once each, so this section is still untouched.
    have hfresh : csd ∉ before := by
      have hnodup := List.nodup_range (n := cfg.numCsds)
      rw [hsplit] at hnodup
      intro hmem
      exact List.disjoint_of_nodup_append hnodup hmem List.mem_cons_self
    constructor
    · simp only [mergeSection]
      rw [update_of_ne (sectionIndex_ne_host hv csd).symm, update_self, hhost,
        hsection csd, if_neg hfresh, List.foldl_append]
      rfl
    · intro csd'
      simp only [mergeSection]
      by_cases hcsd : csd' = csd
      · subst hcsd
        simp
      · have hindex : sectionIndex cfg.numVertices csd' v ≠
            sectionIndex cfg.numVertices csd v := by
          rw [Ne, sectionIndex_inj hv hv]
          tauto
        rw [update_of_ne hindex, update_of_ne (sectionIndex_ne_host hv csd'),
          hsection csd']
        simp [hcsd]
  refine Prod.ext hloop.1 (funext fun csd => ?_)
  exact (hloop.2 csd).trans (by simp only [List.mem_range])

/-- Aggregating one vertex touches its own cells only. -/
theorem vertexCells_mergeVertex_other (cfg : Config) (merge : ℚ → ℚ → ℚ)
    {v w : ℕ} (hv : v < cfg.numVertices) (hw : w < cfg.numVertices)
    (hne : w ≠ v) (buf : ℕ → ℚ) :
    vertexCells cfg v (mergeVertex cfg merge buf w) =
      vertexCells cfg v buf := by
  apply Loops.foldl_frame (vertexCells cfg v) (mergeSection cfg merge w)
  intro csd _ now
  apply Prod.ext
  · simp only [vertexCells, mergeSection]
    rw [update_of_ne (sectionIndex_ne_host hv csd).symm,
      update_of_ne hne.symm]
  · funext csd'
    have hindex : sectionIndex cfg.numVertices csd' v ≠
        sectionIndex cfg.numVertices csd w := by
      rw [Ne, sectionIndex_inj hv hw]
      tauto
    simp only [vertexCells, mergeSection]
    rw [update_of_ne hindex, update_of_ne (sectionIndex_ne_host hw csd')]

theorem vertexCells_update_other (cfg : Config) {v w : ℕ}
    (hw : w < cfg.numVertices) (hne : w ≠ v) (value : ℚ) (buf : ℕ → ℚ) :
    vertexCells cfg v (update buf w value) = vertexCells cfg v buf := by
  apply Prod.ext
  · exact update_of_ne hne.symm _ _
  · funext csd
    exact update_of_ne (sectionIndex_ne_host hw csd) _ _

section Partition

variable (cfg : Config) (hpos : 0 < cfg.numPartitions) {partitionId : ℕ}
  (hpartition : partitionId < cfg.numPartitions)
include hpos hpartition

theorem lt_of_mem_partitionVertices {v : ℕ}
    (hv : v ∈ partitionVertices cfg partitionId) : v < cfg.numVertices :=
  lt_numVertices_of_inPartition cfg hpos hpartition
    ((mem_partitionVertices cfg partitionId v).mp hv)

/-- The aggregation loops on the cells of a vertex of the partition. -/
theorem vertexCells_mergePartition_own (merge : ℚ → ℚ → ℚ) {v : ℕ}
    (hv : inPartition cfg partitionId v = true) (buf : ℕ → ℚ) :
    vertexCells cfg v (mergePartition cfg merge partitionId buf) =
      (mergeCell cfg merge (buf v)
          fun csd => buf (sectionIndex cfg.numVertices csd v),
        fun csd => if csd < cfg.numCsds then 0
          else buf (sectionIndex cfg.numVertices csd v)) := by
  have hmem := (mem_partitionVertices cfg partitionId v).mpr hv
  have hlt := lt_of_mem_partitionVertices cfg hpos hpartition hmem
  exact Loops.foldl_once (vertexCells cfg v)
    (fun cells => (mergeCell cfg merge cells.1 cells.2,
      fun csd => if csd < cfg.numCsds then 0 else cells.2 csd))
    (mergeVertex cfg merge) (nodup_partitionVertices cfg partitionId) hmem
    (fun w hw hne now => vertexCells_mergeVertex_other cfg merge hlt
      (lt_of_mem_partitionVertices cfg hpos hpartition hw) hne now)
    (fun now => vertexCells_mergeVertex_own cfg merge hlt now) buf

theorem vertexCells_mergePartition_other (merge : ℚ → ℚ → ℚ) {v : ℕ}
    (hlt : v < cfg.numVertices) (hv : inPartition cfg partitionId v = false)
    (buf : ℕ → ℚ) :
    vertexCells cfg v (mergePartition cfg merge partitionId buf) =
      vertexCells cfg v buf := by
  apply Loops.foldl_frame (vertexCells cfg v) (mergeVertex cfg merge)
  intro w hw now
  apply vertexCells_mergeVertex_other cfg merge hlt
    (lt_of_mem_partitionVertices cfg hpos hpartition hw)
  rintro rfl
  rw [mem_partitionVertices, hv] at hw
  exact Bool.false_ne_true hw

/-- `conv_partition` on the cells of a vertex of the partition. -/
theorem vertexCells_convBuffer_own {v : ℕ}
    (hv : inPartition cfg partitionId v = true) (buf : ℕ → ℚ) :
    vertexCells cfg v (convBuffer cfg partitionId buf) =
      (convValue cfg (mergeCell cfg (mergeValue cfg) (buf v)
          fun csd => buf (sectionIndex cfg.numVertices csd v)),
        fun csd => if csd < cfg.numCsds then 0
          else buf (sectionIndex cfg.numVertices csd v)) := by
  have hmem := (mem_partitionVertices cfg partitionId v).mpr hv
  have hlt := lt_of_mem_partitionVertices cfg hpos hpartition hmem
  have hconv := Loops.foldl_once (vertexCells cfg v)
    (fun cells => (convValue cfg cells.1, cells.2))
    (fun now w => update now w (convValue cfg (now w)))
    (nodup_partitionVertices cfg partitionId) hmem
    (fun w hw hne now => vertexCells_update_other cfg
      (lt_of_mem_partitionVertices cfg hpos hpartition hw) hne _ now)
    (fun now => Prod.ext (update_self _ _ _)
      (funext fun csd => update_of_ne (sectionIndex_ne_host hlt csd) _ _))
    (mergePartition cfg (mergeValue cfg) partitionId buf)
  rw [vertexCells_mergePartition_own cfg hpos hpartition _ hv] at hconv
  exact hconv

/-- `conv_partition` leaves the cells of every other vertex alone. -/
theorem vertexCells_convBuffer_other {v : ℕ} (hlt : v < cfg.numVertices)
    (hv : inPartition cfg partitionId v = false) (buf : ℕ → ℚ) :
    vertexCells cfg v (convBuffer cfg partitionId buf) =
      vertexCells cfg v buf := by
  refine (Loops.foldl_frame (vertexCells cfg v) _ _ ?_ _).trans
    (vertexCells_mergePartition_other cfg hpos hpartition _ hlt hv buf)
  intro w hw now
  apply vertexCells_update_other cfg
    (lt_of_mem_partitionVertices cfg hpos hpartition hw)
  rintro rfl
  rw [mem_partitionVertices, hv] at hw
  exact Bool.false_ne_true hw

end Partition

end NvmeVirt.Csd
