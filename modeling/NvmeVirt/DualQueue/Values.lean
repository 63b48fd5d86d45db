import NvmeVirt.Csd.Pagerank
import NvmeVirt.DualQueue.Copies
import NvmeVirt.DualQueue.Schedules

/-!
# What the buffers hold during a run

For PageRank a partial value is the sum of what the edges processed so far have
added, so the blocks that a device has run determine it.  The invariant says
for each cell which blocks these are: those of the current iteration in `buf1`,
with the blocks that were run ahead of time once the copy has moved them there,
and those of the next iteration in `buf2`.
-/

namespace NvmeVirt.DualQueue

open Function NvmeVirt.Csd

section Sums

variable (s : Setup) (csd : ℕ)

/-- The vertex values before iteration `k` of the synchronous loop. -/
def values (k : ℕ) : ℕ → ℚ :=
  normalValues s.toConfig s.initial k

/-- What edges of a device add to its partial value of vertex `v`. -/
def edgesSum (src : ℕ → ℚ) (edges : List (ℕ × ℕ)) (v : ℕ) : ℚ :=
  cellEdges s.toConfig (outdegree s.toConfig csd s.outdegreeSlba) src edges v 0

/-- What blocks of a device add to its partial value of vertex `v`. -/
def blocksSum (src : ℕ → ℚ) (blocks : List (ℕ × ℕ)) (v : ℕ) : ℚ :=
  (blocks.map fun block =>
    blockSum s.toConfig src block.1 block.2 csd v).sum

/-- The partial value of vertex `v` in iteration `k` when all blocks have been
run. -/
def portionSum (k v : ℕ) : ℚ :=
  ((List.range s.numPartitions).map fun r =>
    blockSum s.toConfig (values s k) r (columnOf s.toConfig v) csd v).sum

/-- The value of vertex `v` in iteration `k` before the damping. -/
def rawValue (k v : ℕ) : ℚ :=
  ((List.range s.numCsds).map fun csd => portionSum s csd k v).sum

end Sums

/-- The edges that the worker has still to process in the task it runs. -/
def Device.pending (dev : Device) (future : Bool) : List (ℕ × ℕ) :=
  match dev.worker with
  | .run f _ edges _ => if f = future then edges else []
  | _ => []

/-- The copy that closes iteration `k - 1` has not reached vertex `v`. -/
def Uncopied (k : ℕ) (dev : Device) (v : ℕ) : Prop :=
  dev.copies < k ∧ ∀ front todo, dev.worker = .copy front todo → v ∈ todo

section Invariant

variable (s : Setup) (k : ℕ) (host : HostPc)

/-- The host has folded in the partial value of a device. -/
def Folded (v csd : ℕ) : Prop :=
  columnOf s.toConfig v ∉ host.unfinished s k ∧
    ∀ c rest todo, host = .merge c rest todo → (v, csd) ∉ todo

/-- The host's cell of a vertex of the column that is being aggregated. -/
def currentValue (v : ℕ) : HostPc → ℚ
  | .merge _ _ todo => rawValue s k v -
      ((todo.filter (·.1 = v)).map fun cell => portionSum s cell.2 k v).sum
  | .damp _ _ todo => if v ∈ todo then rawValue s k v else values s (k + 1) v
  | _ => values s (k + 1) v

/-- The host's cell of vertex `v` in `buf1`. -/
def hostValue (v : ℕ) : ℚ :=
  if columnOf s.toConfig v ∈ host.unfinished s k then 0
  else if columnOf s.toConfig v ∉ host.columns s k then values s (k + 1) v
  else currentValue s k v host

/-- The partial value of vertex `v` in `buf1` and in `buf2`. -/
structure SectionValues (csd : ℕ) (dev : Device) (v : ℕ) (part1 part2 : ℚ) :
    Prop where
  uncopied : Uncopied k dev v → part1 = 0 ∧
    part2 = blocksSum s csd (values s k) (dev.ran true k) v
  folded : ¬ Uncopied k dev v → Folded s k host v csd → part1 = 0
  collected : ¬ Uncopied k dev v → ¬ Folded s k host v csd →
    part1 + edgesSum s csd (values s k) (dev.pending false) v =
      blocksSum s csd (values s k)
        (dev.ran true k ++ dev.ran false k ++ dev.running false) v
  ahead : ¬ Uncopied k dev v →
    part2 + edgesSum s csd (values s (k + 1)) (dev.pending true) v =
      blocksSum s csd (values s (k + 1))
        (dev.ran true (k + 1) ++ dev.running true) v

/-- What the worker has still to visit is a part of what there was. -/
def Remaining (dev : Device) : Prop :=
  match dev.worker with
  | .copy _ todo => todo <:+ List.range s.numVertices
  | .run _ node edges _ => edges <:+ taskEdges s.toConfig node
  | _ => True

end Invariant

/-- The buffers of a run, and what the workers have still to visit. -/
structure Values (s : Setup) (st : State) : Prop where
  buf0_eq : ∀ v < s.numVertices, st.mem.buf0 v = values s st.iter v
  buf1_eq : ∀ v < s.numVertices,
    st.mem.buf1 v = hostValue s st.iter st.host v
  buf2_eq : ∀ v < s.numVertices, st.mem.buf2 v = 0
  sections : ∀ csd < s.numCsds, ∀ v < s.numVertices,
    SectionValues s st.iter st.host csd (st.devices csd) v
      (st.mem.buf1 (sectionIndex s.numVertices csd v))
      (st.mem.buf2 (sectionIndex s.numVertices csd v))
  remaining : ∀ csd < s.numCsds, Remaining s (st.devices csd)

/-- The edges of a block go from its row partition to its column partition. -/
structure WellFormed (s : Setup) : Prop where
  edge_source : ∀ r < s.numPartitions, ∀ c < s.numPartitions,
    ∀ csd < s.numCsds, ∀ edge ∈ blockEdges s.toConfig r c csd,
      inPartition s.toConfig r edge.1 = true
  edge_target : ∀ r < s.numPartitions, ∀ c < s.numPartitions,
    ∀ csd < s.numCsds, ∀ edge ∈ blockEdges s.toConfig r c csd,
      inPartition s.toConfig c edge.2 = true

/-- The graph of a run. -/
def Setup.graph (s : Setup) (hgraph : WellFormed s) : PartitionedGraph :=
  { s.toConfig with
    partitions_pos := lt_of_lt_of_le Nat.two_pos s.two_partitions
    edge_source := hgraph.edge_source
    edge_target := hgraph.edge_target }

variable {s : Setup} {csd k : ℕ} {st st' : State}

theorem WellFormed.columnOf_lt (hgraph : WellFormed s) {v : ℕ}
    (hv : v < s.numVertices) : columnOf s.toConfig v < s.numPartitions :=
  @Csd.columnOf_lt (s.graph hgraph) v hv

theorem WellFormed.columnOf_eq_iff (hgraph : WellFormed s) {c v : ℕ}
    (hc : c < s.numPartitions) (hv : v < s.numVertices) :
    columnOf s.toConfig v = c ↔ inPartition s.toConfig c v = true :=
  @Csd.columnOf_eq_iff (s.graph hgraph) c v hc hv

/-! ## Sums -/

section Pagerank

variable (hpagerank : s.algorithm = .pagerank)
include hpagerank

theorem edgesSum_cons (csd : ℕ) (src : ℕ → ℚ) (edge : ℕ × ℕ)
    (edges : List (ℕ × ℕ)) (v : ℕ) :
    edgesSum s csd src (edge :: edges) v =
      (if edge.2 = v then s.arithmetic.share (src edge.1)
        (outdegree s.toConfig csd s.outdegreeSlba edge.1) else 0) +
      edgesSum s csd src edges v := by
  have hstep : cellStep s.toConfig (outdegree s.toConfig csd s.outdegreeSlba)
      src v (0, 0) edge = (if edge.2 = v then s.arithmetic.share (src edge.1)
        (outdegree s.toConfig csd s.outdegreeSlba edge.1) else 0, 0) := by
    simp only [cellStep, edgeValue, edgeState, hpagerank, zero_add]
  unfold edgesSum
  rw [← cellEdges_pagerank hpagerank, cellEdges, List.foldl_cons, hstep]
  rfl

theorem values_succ (k v : ℕ) :
    values s (k + 1) v = convValue s.toConfig (rawValue s k v) :=
  stepNormal_pagerank hpagerank _ v

end Pagerank

@[simp]
theorem edgesSum_nil (csd : ℕ) (src : ℕ → ℚ) (v : ℕ) :
    edgesSum s csd src [] v = 0 := rfl

@[simp]
theorem blocksSum_nil (csd : ℕ) (src : ℕ → ℚ) (v : ℕ) :
    blocksSum s csd src [] v = 0 := rfl

theorem blocksSum_append (csd : ℕ) (src : ℕ → ℚ) (blocks blocks' : List (ℕ × ℕ))
    (v : ℕ) :
    blocksSum s csd src (blocks ++ blocks') v =
      blocksSum s csd src blocks v + blocksSum s csd src blocks' v := by
  simp [blocksSum]

/-- At its start a task has all edges of its block to process. -/
theorem edgesSum_taskEdges (csd iter : ℕ) (src : ℕ → ℚ) (block : ℕ × ℕ)
    (future : Bool) (v : ℕ) :
    edgesSum s csd src (taskEdges s.toConfig (task s csd iter block future)) v =
      blocksSum s csd src [block] v := by
  rw [blocksSum, List.map_singleton, List.sum_singleton]
  rfl

theorem edgesSum_of_not_target {edges : List (ℕ × ℕ)} {v : ℕ}
    (hv : ∀ edge ∈ edges, edge.2 ≠ v) (csd : ℕ) (src : ℕ → ℚ) :
    edgesSum s csd src edges v = 0 :=
  cellEdges_of_not_target _ _ _ hv 0

theorem blockSum_of_not_column (hgraph : WellFormed s) (hcsd : csd < s.numCsds)
    {r c v : ℕ} (hr : r < s.numPartitions) (hc : c < s.numPartitions)
    (hv : v < s.numVertices) (hne : c ≠ columnOf s.toConfig v)
    (src : ℕ → ℚ) : blockSum s.toConfig src r c csd v = 0 := by
  apply cellBlock_of_not_inPartition (s.graph hgraph) hr hc hcsd
  rw [Bool.eq_false_iff]
  intro hin
  exact hne ((hgraph.columnOf_eq_iff hc hv).mpr hin).symm

theorem blockSum_of_empty {r c : ℕ} (hlength : s.edgeBlocksLength r c csd = 0)
    (src : ℕ → ℚ) (v : ℕ) : blockSum s.toConfig src r c csd v = 0 := by
  have hedges : blockEdges s.toConfig r c csd = [] := by
    rw [blockEdges, hlength]
    rfl
  rw [blockSum, cellBlock, hedges]
  rfl

/-- If all non-empty blocks of the column of `v` are among the blocks, nothing
is missing from its partial value. -/
theorem blocksSum_eq_portionSum (hgraph : WellFormed s)
    (hcsd : csd < s.numCsds) {blocks : List (ℕ × ℕ)} (hnodup : blocks.Nodup)
    (hlt : ∀ block ∈ blocks, block.1 < s.numPartitions ∧
      block.2 < s.numPartitions) {v : ℕ} (hv : v < s.numVertices)
    (hall : ∀ r < s.numPartitions, (r, columnOf s.toConfig v) ∉ blocks →
      s.edgeBlocksLength r (columnOf s.toConfig v) csd = 0) :
    blocksSum s csd (values s k) blocks v = portionSum s csd k v := by
  set c := columnOf s.toConfig v
  let f : ℕ × ℕ → ℚ := fun block =>
    blockSum s.toConfig (values s k) block.1 block.2 csd v
  let column : Finset (ℕ × ℕ) := (Finset.range s.numPartitions) ×ˢ {c}
  have hcolumn : ∀ block, block ∈ column ↔
      block.1 < s.numPartitions ∧ block.2 = c := by
    intro block
    rw [Finset.mem_product, Finset.mem_range, Finset.mem_singleton]
  calc blocksSum s csd (values s k) blocks v
      = ∑ block ∈ blocks.toFinset, f block :=
        (List.sum_toFinset f hnodup).symm
    _ = ∑ block ∈ blocks.toFinset ∪ column, f block := by
        apply Finset.sum_subset Finset.subset_union_left
        rintro ⟨r, c'⟩ hunion hnot
        rw [List.mem_toFinset] at hnot
        have hmem := (Finset.mem_union.mp hunion).resolve_left
          (fun h => hnot (List.mem_toFinset.mp h))
        obtain ⟨hr, rfl⟩ := (hcolumn _).mp hmem
        exact blockSum_of_empty (hall r hr hnot) _ v
    _ = ∑ block ∈ column, f block := by
        symm
        apply Finset.sum_subset Finset.subset_union_right
        rintro ⟨r, c'⟩ hunion hnot
        have hmem := List.mem_toFinset.mp
          ((Finset.mem_union.mp hunion).resolve_right hnot)
        obtain ⟨hr, hc⟩ := hlt _ hmem
        apply blockSum_of_not_column hgraph hcsd hr hc hv
        exact fun heq => hnot ((hcolumn _).mpr ⟨hr, heq⟩)
    _ = ∑ r ∈ Finset.range s.numPartitions, f (r, c) := by
        rw [Finset.sum_product]
        simp only [Finset.sum_singleton]
    _ = portionSum s csd k v := by
        rw [portionSum, ← List.sum_toFinset _ List.nodup_range,
          List.toFinset_range]

/-! ## What a device has collected -/

/-- The ends of an edge that a worker has still to process. -/
theorem edge_ends (hgraph : WellFormed s) (h : Inv s st)
    (hcsd : csd < s.numCsds) (hremaining : Remaining s (st.devices csd))
    {future : Bool} {node : ProcEdge} {edges : List (ℕ × ℕ)} {state : UInt32}
    (hworker : (st.devices csd).worker = .run future node edges state)
    {edge : ℕ × ℕ} (hedge : edge ∈ edges) :
    edge.1 < s.numVertices ∧ inPartition s.toConfig node.r edge.1 = true ∧
      edge.2 < s.numVertices ∧ columnOf s.toConfig edge.2 = node.c := by
  obtain ⟨hr, hc⟩ := h.running_lt hcsd hworker
  have hok := ((h.devices csd hcsd).working (by simp [hworker])
    (by simp [hworker]) (by simp [hworker])).worker_ok
  simp only [WorkerOk, hworker] at hok
  simp only [Remaining, hworker] at hremaining
  have hmem := hremaining.mem hedge
  rw [hok] at hmem
  change edge ∈ blockEdges s.toConfig node.r node.c csd at hmem
  have htarget := hgraph.edge_target _ hr _ hc csd hcsd edge hmem
  refine ⟨source_lt (s.graph hgraph) hr hc hcsd hmem,
    hgraph.edge_source _ hr _ hc csd hcsd edge hmem,
    target_lt (s.graph hgraph) hr hc hcsd hmem, ?_⟩
  exact (hgraph.columnOf_eq_iff hc
    (target_lt (s.graph hgraph) hr hc hcsd hmem)).mpr htarget

/-- A column with a block that is being run is not finished. -/
theorem Inv.running_unfinished (h : Inv s st) (hfinished : Finished s st)
    (hcsd : csd < s.numCsds) {node : ProcEdge} {edges : List (ℕ × ℕ)}
    {state : UInt32}
    (hworker : (st.devices csd).worker = .run false node edges state) :
    node.c ∈ st.host.unfinished s st.iter := by
  have hdev := h.devices csd hcsd
  obtain ⟨hr, hc⟩ := h.running_lt hcsd hworker
  have hrunning : (st.devices csd).running false = [blockOf node] := by
    simp [Device.running, hworker]
  have hnormals := hdev.normals_eq
  rw [hrunning] at hnormals
  have hneeded : needed s csd st.iter (node.r, node.c) = true := by
    have hmem : blockOf node ∈ normals s csd st.iter := by
      rw [← hnormals]
      simp
    exact ((DualQueue.mem_normals s).mp hmem).2
  by_contra hnot
  have hran := hfinished node.c hc hnot csd hcsd node.r hr hneeded
  have hnodup := hnormals ▸ nodup_normals s csd st.iter
  rw [List.append_assoc, List.append_assoc] at hnodup
  exact List.disjoint_of_nodup_append hnodup hran (by simp [blockOf])

/-- The blocks that contribute to an iteration are run once. -/
theorem DeviceInv.collected_blocks {dev : Device} {unsent : List (ℕ × ℕ)}
    (h : DeviceInv s csd k dev unsent) :
    let blocks := dev.ran true k ++ dev.ran false k ++ dev.running false
    blocks.Nodup ∧ ∀ block ∈ blocks, block.1 < s.numPartitions ∧
      block.2 < s.numPartitions := by
  intro blocks
  obtain ⟨hnodup, hcarried⟩ := h.mem_ran_true le_rfl
  have hahead : ∀ block ∈ dev.ran true k, block.1 < s.numPartitions ∧
      block.2 < s.numPartitions := by
    cases k with
    | zero => simp [h.ran_zero]
    | succ k =>
        intro block hblock
        rw [(h.history.future_perm k (Nat.lt_succ_self k)).mem_iff] at hblock
        exact ((DualQueue.mem_normals s).mp (List.mem_filter.mp hblock).1).1
  have hnormal : ∀ block ∈ dev.ran false k ++ dev.running false,
      block ∈ normals s csd k := by
    intro block hblock
    rw [← h.normals_eq, List.append_assoc _ _ unsent]
    exact List.mem_append_left _ hblock
  have hnormals := h.normals_eq ▸ nodup_normals s csd k
  rw [List.append_assoc _ _ unsent] at hnormals
  constructor
  · simp only [blocks, List.append_assoc]
    refine hnodup.append hnormals.of_append_left ?_
    intro block hblock hnow
    obtain ⟨hlt, hneeded⟩ := (DualQueue.mem_normals s).mp (hnormal block hnow)
    have hwas := (hcarried block hlt.1 hlt.2).mp hblock
    simp [needed, hwas] at hneeded
  · intro block hblock
    simp only [blocks, List.append_assoc] at hblock
    rcases List.mem_append.mp hblock with hbefore | hnow
    · exact hahead block hbefore
    · exact ((DualQueue.mem_normals s).mp (hnormal block hnow)).1

/-- In a finished column nothing is missing from a partial value. -/
theorem Inv.collected_eq (h : Inv s st) (hgraph : WellFormed s)
    (hfinished : Finished s st) (hcsd : csd < s.numCsds)
    (hremaining : Remaining s (st.devices csd)) {v : ℕ}
    (hv : v < s.numVertices)
    (hcolumn : columnOf s.toConfig v ∉ st.host.unfinished s st.iter) :
    edgesSum s csd (values s st.iter) ((st.devices csd).pending false) v = 0 ∧
      blocksSum s csd (values s st.iter) ((st.devices csd).ran true st.iter ++
        (st.devices csd).ran false st.iter ++
          (st.devices csd).running false) v = portionSum s csd st.iter v := by
  have hdev := h.devices csd hcsd
  constructor
  · apply edgesSum_of_not_target
    intro edge hedge
    unfold Device.pending at hedge
    split at hedge
    · rename_i future node edges state hworker
      split at hedge
      · rename_i hfuture
        subst hfuture
        rintro rfl
        have hends := edge_ends hgraph h hcsd hremaining hworker hedge
        rw [hends.2.2.2] at hcolumn
        exact hcolumn (h.running_unfinished hfinished hcsd hworker)
      · cases hedge
    · cases hedge
  · obtain ⟨hnodup, hlt⟩ := hdev.collected_blocks
    apply blocksSum_eq_portionSum hgraph hcsd hnodup hlt hv
    intro r hr hnot
    by_contra hlength
    have hc : columnOf s.toConfig v < s.numPartitions :=
      hgraph.columnOf_lt hv
    have hneeded : needed s csd st.iter (r, columnOf s.toConfig v) =
        !carried s csd st.iter (r, columnOf s.toConfig v) :=
      needed_eq_not_carried s hlength
    apply hnot
    cases hcarried : carried s csd st.iter (r, columnOf s.toConfig v) with
    | true =>
        have hmem := ((hdev.mem_ran_true le_rfl).2 _ hr hc).mpr hcarried
        simp [hmem]
    | false =>
        rw [hcarried] at hneeded
        have hmem := hfinished _ hc hcolumn csd hcsd r hr hneeded
        simp [hmem]

end NvmeVirt.DualQueue
