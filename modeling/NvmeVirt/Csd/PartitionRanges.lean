import NvmeVirt.Csd.EdgeKernel

/-!
# The vertex ranges of the partitions

`get_partition_range` gives the first partitions one vertex more than the
others.  The ranges follow each other without a gap, so that one round of
`conv_partition` over all partitions visits every vertex once, whatever the
order of the partitions.
-/

namespace NvmeVirt.Csd

variable {numVertices numPartitions partitionId : ℕ}

/-! ## Machine words -/

/-- A value stored in a `size_t`. -/
def sizeT (value : ℕ) : ℕ := value % 2 ^ 64

theorem sizeT_of_le {value : ℕ} (hle : value ≤ numVertices + 1)
    (hlt : numVertices < 2 ^ 63) : sizeT value = value :=
  Nat.mod_eq_of_lt (by omega)

/-- `get_partition_range` with every result stored in a `size_t`. -/
def getPartitionRangeWords (numVertices numPartitions partitionId : ℕ) :
    ℕ × ℕ :=
  let splitPartition := sizeT (numVertices % numPartitions)
  let partitionSize := sizeT (numVertices / numPartitions + 1)
  if partitionId < splitPartition then
    (sizeT (partitionId * partitionSize),
      sizeT (sizeT (partitionId + 1) * partitionSize))
  else
    let splitPoint := sizeT (splitPartition * partitionSize)
    (sizeT (splitPoint +
        sizeT ((partitionId - splitPartition) * (partitionSize - 1))),
      sizeT (splitPoint +
        sizeT (sizeT (partitionId - splitPartition + 1) * (partitionSize - 1))))

theorem partitionStart_le (hpos : 0 < numPartitions)
    (hpartition : partitionId ≤ numPartitions) :
    partitionStart numVertices numPartitions partitionId ≤ numVertices :=
  calc partitionStart numVertices numPartitions partitionId
      ≤ partitionStart numVertices numPartitions numPartitions :=
        partitionStart_mono numVertices numPartitions hpartition
    _ = numVertices := partitionStart_last numVertices numPartitions hpos

theorem le_getPartitionRange_end (hpos : 0 < numPartitions)
    (hpartition : partitionId < numPartitions) :
    (getPartitionRange numVertices numPartitions partitionId).2 ≤
      numVertices := by
  rw [getPartitionRange_eq]
  exact partitionStart_le hpos hpartition

/-- No step of the computation leaves the words, as the end of a partition is
the largest value that it reaches. -/
theorem getPartitionRangeWords_eq (hpos : 0 < numPartitions)
    (hpartition : partitionId < numPartitions) (hwords : numPartitions < 2 ^ 31)
    (hlt : numVertices < 2 ^ 63) :
    getPartitionRangeWords numVertices numPartitions partitionId =
      getPartitionRange numVertices numPartitions partitionId := by
  have hend : (getPartitionRange numVertices numPartitions partitionId).2 ≤
      numVertices := le_getPartitionRange_end hpos hpartition
  have hsplit : sizeT (numVertices % numPartitions) =
      numVertices % numPartitions :=
    sizeT_of_le ((Nat.mod_le _ _).trans (Nat.le_succ _)) hlt
  have hsize : sizeT (numVertices / numPartitions + 1) =
      numVertices / numPartitions + 1 :=
    sizeT_of_le (Nat.succ_le_succ (Nat.div_le_self _ _)) hlt
  have hsucc : ∀ value ≤ partitionId, sizeT (value + 1) = value + 1 :=
    fun value hvalue => Nat.mod_eq_of_lt (by omega)
  simp only [getPartitionRangeWords, getPartitionRange, hsplit, hsize] at hend ⊢
  by_cases hbefore : partitionId < numVertices % numPartitions
  · rw [if_pos hbefore] at hend
    rw [if_pos hbefore, if_pos hbefore, hsucc _ le_rfl]
    have hstep : partitionId * (numVertices / numPartitions + 1) ≤
        (partitionId + 1) * (numVertices / numPartitions + 1) :=
      Nat.mul_le_mul_right _ (Nat.le_succ _)
    rw [sizeT_of_le (hstep.trans (hend.trans (Nat.le_succ _))) hlt,
      sizeT_of_le (hend.trans (Nat.le_succ _)) hlt]
  · rw [if_neg hbefore] at hend
    rw [if_neg hbefore, if_neg hbefore, hsucc _ (Nat.sub_le _ _)]
    have hstep : (partitionId - numVertices % numPartitions) *
          (numVertices / numPartitions + 1 - 1) ≤
        (partitionId - numVertices % numPartitions + 1) *
          (numVertices / numPartitions + 1 - 1) :=
      Nat.mul_le_mul_right _ (Nat.le_succ _)
    generalize (partitionId - numVertices % numPartitions) *
      (numVertices / numPartitions + 1 - 1) = first at *
    generalize (partitionId - numVertices % numPartitions + 1) *
      (numVertices / numPartitions + 1 - 1) = last at *
    generalize numVertices % numPartitions *
      (numVertices / numPartitions + 1) = splitPoint at *
    have hterm : ∀ value ≤ numVertices, sizeT value = value :=
      fun value hvalue => sizeT_of_le (hvalue.trans (Nat.le_succ _)) hlt
    simp only at hend
    rw [hterm splitPoint (by omega), hterm first (by omega),
      hterm last (by omega), hterm (splitPoint + first) (by omega),
      hterm (splitPoint + last) (by omega)]

/-! ## One round over all partitions -/

theorem partitionVertices_eq (cfg : Config) (partitionId : ℕ) :
    partitionVertices cfg partitionId =
      List.range' (partitionStart cfg.numVertices cfg.numPartitions partitionId)
        (partitionStart cfg.numVertices cfg.numPartitions (partitionId + 1) -
          partitionStart cfg.numVertices cfg.numPartitions partitionId) := by
  rw [partitionVertices, getPartitionRange_eq]

/-- The vertices of the first partitions, one partition after the other. -/
theorem flatMap_partitionVertices (cfg : Config) (count : ℕ) :
    (List.range count).flatMap (partitionVertices cfg) =
      List.range (partitionStart cfg.numVertices cfg.numPartitions count) := by
  induction count with
  | zero => simp [partitionStart_zero]
  | succ count ih =>
      obtain ⟨more, hmore⟩ := Nat.exists_eq_add_of_le
        (partitionStart_mono cfg.numVertices cfg.numPartitions
          (Nat.le_succ count))
      rw [List.range_succ, List.flatMap_append, ih, List.flatMap_singleton,
        partitionVertices_eq, hmore, Nat.add_sub_cancel_left,
        List.range_eq_range', List.range_eq_range', ← List.range'_append_1,
        Nat.zero_add]

/-- Every vertex is visited once in a round over all partitions. -/
theorem count_partitionVertices (cfg : Config) (hpos : 0 < cfg.numPartitions)
    {order : List ℕ} (horder : order.Perm (List.range cfg.numPartitions))
    {v : ℕ} (hv : v < cfg.numVertices) :
    (order.flatMap (partitionVertices cfg)).count v = 1 := by
  rw [(horder.flatMap_right _).count_eq, flatMap_partitionVertices,
    partitionStart_last _ _ hpos]
  exact List.count_eq_one_of_mem List.nodup_range (List.mem_range.mpr hv)

/-- `conv_partition` for the partitions of a list, in its order. -/
def convPartitions (cfg : Config) (order : List ℕ) (mem : Hmb) : Hmb :=
  order.foldl (fun mem partitionId => convPartition cfg partitionId mem) mem

/-- What `conv_partition` makes of the cells of a vertex. -/
def convCells (cfg : Config) (cells : ℚ × (ℕ → ℚ)) : ℚ × (ℕ → ℚ) :=
  (convValue cfg (mergeCell cfg (mergeValue cfg) cells.1 cells.2),
    fun csd => if csd < cfg.numCsds then 0 else cells.2 csd)

/-- A round over all partitions applies the update once to every vertex. -/
theorem vertexCells_convPartitions (cfg : Config)
    (hpos : 0 < cfg.numPartitions) {order : List ℕ}
    (horder : order.Perm (List.range cfg.numPartitions)) {v : ℕ}
    (hv : v < cfg.numVertices) (mem : Hmb) :
    vertexCells cfg v (convPartitions cfg order mem).buf1 =
      convCells cfg (vertexCells cfg v mem.buf1) := by
  obtain ⟨own, hown, hin⟩ := exists_inPartition cfg hpos hv
  refine Loops.foldl_once (fun mem : Hmb => vertexCells cfg v mem.buf1)
    (convCells cfg) _ (horder.nodup_iff.mpr List.nodup_range)
    (horder.mem_iff.mpr (List.mem_range.mpr hown)) ?_ ?_ mem
  · intro other hother hne now
    have hlt := List.mem_range.mp (horder.mem_iff.mp hother)
    apply vertexCells_convBuffer_other cfg hpos hlt hv
    rw [Bool.eq_false_iff]
    intro hin'
    exact hne (inPartition_unique cfg hin' hin)
  · intro now
    exact vertexCells_convBuffer_own cfg hpos hown hin now.buf1

/-! ## The ranges -/

/-- The two formulas of `get_partition_range` differ by one vertex. -/
theorem partitionStart_succ (numVertices numPartitions partitionId : ℕ) :
    partitionStart numVertices numPartitions (partitionId + 1) =
      partitionStart numVertices numPartitions partitionId +
        numVertices / numPartitions +
        if partitionId < numVertices % numPartitions then 1 else 0 := by
  simp only [partitionStart, Nat.succ_mul]
  split <;> omega

/-- The partitions share out the vertices evenly and without a gap, the words
are wide enough for it, and a round of `conv_partition` in any order visits and
updates every vertex exactly once. -/
theorem partition_ranges_cover (cfg : Config) (hpos : 0 < cfg.numPartitions) :
    let range := getPartitionRange cfg.numVertices cfg.numPartitions
    (range 0).1 = 0 ∧
      (range (cfg.numPartitions - 1)).2 = cfg.numVertices ∧
      (∀ left < cfg.numPartitions, (range left).1 ≤ (range left).2 ∧
        (range left).2 = (range (left + 1)).1 ∧
        ∀ right < cfg.numPartitions, (range left).2 - (range left).1 ≤
          (range right).2 - (range right).1 + 1) ∧
      (cfg.numVertices < 2 ^ 63 → cfg.numPartitions < 2 ^ 31 →
        ∀ partitionId < cfg.numPartitions,
          getPartitionRangeWords cfg.numVertices cfg.numPartitions
            partitionId = range partitionId) ∧
      ∀ order : List ℕ, order.Perm (List.range cfg.numPartitions) →
        ∀ v < cfg.numVertices,
          (order.flatMap (partitionVertices cfg)).count v = 1 ∧
          ∀ mem, vertexCells cfg v (convPartitions cfg order mem).buf1 =
            convCells cfg (vertexCells cfg v mem.buf1) := by
  intro range
  have hrange : ∀ partitionId, range partitionId =
      (partitionStart cfg.numVertices cfg.numPartitions partitionId,
        partitionStart cfg.numVertices cfg.numPartitions (partitionId + 1)) :=
    getPartitionRange_eq cfg.numVertices cfg.numPartitions
  refine ⟨?_, ?_, fun left _ => ⟨?_, ?_, fun right _ => ?_⟩, ?_, ?_⟩
  · rw [hrange]
    exact partitionStart_zero _ _
  · rw [hrange, Nat.sub_add_cancel hpos]
    exact partitionStart_last _ _ hpos
  · rw [hrange]
    exact partitionStart_mono _ _ (Nat.le_succ left)
  · rw [hrange, hrange]
  · rw [hrange, hrange]
    simp only [partitionStart_succ]
    split <;> split <;> omega
  · intro hvertices hpartitions partitionId hpartition
    exact getPartitionRangeWords_eq hpos hpartition hpartitions hvertices
  · intro order horder v hv
    exact ⟨count_partitionVertices cfg hpos horder hv,
      vertexCells_convPartitions cfg hpos horder hv⟩

/-- Two vertices and three partitions, one of them empty. -/
def sparseConfig : Config where
  numVertices := 2
  numPartitions := 3
  numCsds := 1
  algorithm := .pagerank
  arithmetic :=
    { share := fun value degree => value / degree
      single := Int.cast }
  outdegreeSlba := 0
  edgeBlocksSlba := fun _ _ _ => 0
  edgeBlocksLength := fun _ _ _ => 0
  storage := fun _ _ => 0

theorem partition_ranges_cover_sparseConfig :
    (List.range 3).map (getPartitionRange 2 3) = [(0, 1), (1, 2), (2, 2)] ∧
      ∀ v < 2, ([2, 1, 0].flatMap (partitionVertices sparseConfig)).count v =
        1 := by
  have hcover := partition_ranges_cover sparseConfig (Nat.succ_pos 2)
  exact ⟨rfl, fun v hv => (hcover.2.2.2.2 [2, 1, 0] (by decide) v hv).1⟩

end NvmeVirt.Csd
