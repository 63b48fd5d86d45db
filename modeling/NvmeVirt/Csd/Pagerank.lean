import NvmeVirt.Csd.SyncLoops

/-!
# PageRank: future values change nothing

For PageRank a block adds its contribution to the cells of its column, whatever
they hold.  The value of a vertex after an iteration is therefore determined by
the set of blocks that have contributed, and the future-value loop contributes
every block of a column exactly once: the rows it processes ahead of time in
one iteration are the rows it skips in the next.
-/

namespace NvmeVirt.Csd

variable {graph : PartitionedGraph}

/-- What one block adds to the partial value of vertex `v`. -/
def blockSum (cfg : Config) (src : ℕ → ℚ) (r c csd v : ℕ) : ℚ :=
  cellBlock cfg src r c csd v 0

section Sums

variable {cfg : Config} (hpagerank : cfg.algorithm = .pagerank)
include hpagerank

theorem cellEdges_pagerank (degree : ℕ → ℕ) (src : ℕ → ℚ)
    (edges : List (ℕ × ℕ)) (v : ℕ) (value : ℚ) :
    cellEdges cfg degree src edges v value =
      value + cellEdges cfg degree src edges v 0 := by
  refine Loops.foldl_rel (fun loop loop' : ℚ × UInt32 =>
    loop.1 = value + loop'.1) _ _ edges ?_ (add_zero value).symm
  rintro edge - loop loop' heq
  simp only [cellStep, edgeValue, hpagerank, heq]
  split
  · rw [add_assoc]
  · rfl

theorem foldRows_pagerank (src : ℕ → ℚ) (rows : List ℕ) (c csd v : ℕ)
    (value : ℚ) :
    foldRows cfg src rows c csd v value =
      value + (rows.map fun r => blockSum cfg src r c csd v).sum := by
  induction rows generalizing value with
  | nil => exact (add_zero value).symm
  | cons r rows ih =>
      have hblock : cellBlock cfg src r c csd v value =
          value + blockSum cfg src r c csd v :=
        cellEdges_pagerank hpagerank _ src _ v value
      rw [List.map_cons, List.sum_cons, ← add_assoc, ← hblock]
      exact ih _

omit hpagerank in
theorem mergeCell_add (host : ℚ) (sections : ℕ → ℚ) :
    mergeCell cfg (· + ·) host sections =
      host + ((List.range cfg.numCsds).map sections).sum := by
  rw [mergeCell, List.sum_eq_foldl, List.foldl_map]
  refine Loops.foldl_rel (fun value value' : ℚ => value = host + value') _ _ _
    ?_ (add_zero host).symm
  rintro csd - value value' rfl
  exact add_assoc _ _ _

theorem mergeCell_pagerank (host : ℚ) (sections : ℕ → ℚ) :
    mergeCell cfg (mergeValue cfg) host sections =
      host + ((List.range cfg.numCsds).map sections).sum := by
  have hmerge : mergeValue cfg = (· + ·) := by
    funext host partialValue
    simp only [mergeValue, hpagerank]
  rw [hmerge, mergeCell_add]

end Sums

/-- The rows processed ahead of time and the rows processed normally in the
following iteration are together all rows of the column. -/
theorem futureRows_append_normalRows (cfg : Config) (iter : ℕ) {c : ℕ}
    (hc : c < cfg.numPartitions) :
    (futureRows cfg iter c ++ normalRows cfg (iter + 1) c).Perm
      (List.range cfg.numPartitions) := by
  have hrange := List.nodup_range (n := cfg.numPartitions)
  have hreverse := List.nodup_reverse.mpr hrange
  rw [List.perm_ext_iff_of_nodup _ hrange]
  · intro r
    by_cases hparity : iter % 2 = 0
    · have hnext : (iter + 1) % 2 ≠ 0 := by omega
      simp only [futureRows, normalRows, if_pos hparity, if_neg hnext,
        List.mem_append, List.mem_filter, List.mem_range, List.mem_singleton,
        List.mem_reverse, decide_eq_true_eq, Bool.not_eq_true',
        decide_eq_false_iff_not]
      omega
    · have hnext : (iter + 1) % 2 = 0 := by omega
      simp only [futureRows, normalRows, if_neg hparity, if_pos hnext,
        List.mem_append, List.mem_filter, List.mem_range, List.mem_reverse,
        Bool.not_eq_true', decide_eq_false_iff_not, Bool.and_eq_false_iff]
      omega
  · by_cases hparity : iter % 2 = 0
    · have hnext : (iter + 1) % 2 ≠ 0 := by omega
      simp only [futureRows, normalRows, if_pos hparity, if_neg hnext]
      rw [List.append_assoc, List.nodup_append]
      refine ⟨hrange.filter _, ?_, ?_⟩
      · rw [List.singleton_append, List.nodup_cons]
        exact ⟨by simp, hreverse.filter _⟩
      · simp only [List.mem_filter, List.mem_range, List.singleton_append,
          List.mem_cons, List.mem_reverse, decide_eq_true_eq,
          Bool.not_eq_true', decide_eq_false_iff_not]
        intro left hleft right hright
        omega
    · have hnext : (iter + 1) % 2 = 0 := by omega
      simp only [futureRows, normalRows, if_neg hparity, if_pos hnext]
      rw [List.nodup_append]
      refine ⟨hreverse.filter _, hrange.filter _, ?_⟩
      simp only [List.mem_filter, List.mem_range, List.mem_reverse,
        Bool.not_eq_true', decide_eq_false_iff_not, Bool.and_eq_false_iff]
      intro left hleft right hright
      omega

/-- Sum of the contributions of the given rows over all devices. -/
def rowsSum (cfg : Config) (src : ℕ → ℚ) (rows : List ℕ) (c v : ℕ) : ℚ :=
  ((List.range cfg.numCsds).map fun csd =>
    (rows.map fun r => blockSum cfg src r c csd v).sum).sum

theorem rowsSum_append (cfg : Config) (src : ℕ → ℚ) (rows rows' : List ℕ)
    (c v : ℕ) :
    rowsSum cfg src (rows ++ rows') c v =
      rowsSum cfg src rows c v + rowsSum cfg src rows' c v := by
  simp only [rowsSum, List.map_append, List.sum_append, List.sum_map_add]

theorem rowsSum_perm (cfg : Config) (src : ℕ → ℚ) {rows rows' : List ℕ}
    (hperm : rows.Perm rows') (c v : ℕ) :
    rowsSum cfg src rows c v = rowsSum cfg src rows' c v := by
  simp only [rowsSum, (hperm.map _).sum_eq]

theorem rowsSum_congr {src src' : ℕ → ℚ}
    (hsrc : ∀ u < graph.numVertices, src u = src' u) {rows : List ℕ}
    (hrows : ∀ r ∈ rows, r < graph.numPartitions) {c : ℕ}
    (hc : c < graph.numPartitions) (v : ℕ) :
    rowsSum graph.toConfig src rows c v =
      rowsSum graph.toConfig src' rows c v := by
  refine congrArg List.sum (List.map_congr_left fun csd hcsd => ?_)
  refine congrArg List.sum (List.map_congr_left fun r hr => ?_)
  exact cellBlock_congr graph (hrows r hr) hc (List.mem_range.mp hcsd)
    (fun u hu _ => hsrc u hu) v 0

theorem stepNormal_pagerank {cfg : Config}
    (hpagerank : cfg.algorithm = .pagerank) (values : ℕ → ℚ) (v : ℕ) :
    stepNormal cfg values v = convValue cfg (rowsSum cfg values
      (List.range cfg.numPartitions) (columnOf cfg v) v) := by
  simp only [stepNormal, mergeCell_pagerank hpagerank,
    foldRows_pagerank hpagerank, zero_add, rowsSum]

theorem stepGrafu_pagerank {cfg : Config}
    (hpagerank : cfg.algorithm = .pagerank) (iter : ℕ)
    (values collected : ℕ → ℚ) (v : ℕ) :
    stepGrafu cfg iter values collected v = convValue cfg (collected v +
      rowsSum cfg values (normalRows cfg iter (columnOf cfg v))
        (columnOf cfg v) v) := by
  simp only [stepGrafu, mergeCell_pagerank hpagerank,
    foldRows_pagerank hpagerank, zero_add, rowsSum]

theorem collectFuture_pagerank {cfg : Config}
    (hpagerank : cfg.algorithm = .pagerank) (iter : ℕ) (values : ℕ → ℚ)
    (v : ℕ) :
    collectFuture cfg iter values v = rowsSum cfg values
      (futureRows cfg iter (columnOf cfg v)) (columnOf cfg v) v := by
  simp only [collectFuture, mergeCell_add, foldRows_pagerank hpagerank,
    zero_add, rowsSum]

/-- Both recurrences give the same PageRank values. -/
theorem grafuValues_pagerank (hpagerank : graph.algorithm = .pagerank)
    (initial : ℕ → ℚ) (iter : ℕ) {v : ℕ} (hv : v < graph.numVertices) :
    (grafuValues graph.toConfig initial iter).1 v =
      normalValues graph.toConfig initial iter v := by
  induction iter generalizing v with
  | zero => rfl
  | succ iter ih =>
      have hc := columnOf_lt hv
      have hrange : ∀ r ∈ List.range graph.numPartitions,
          r < graph.numPartitions := fun r => List.mem_range.mp
      simp only [grafuValues, normalValues, stepGrafu_pagerank hpagerank,
        stepNormal_pagerank hpagerank]
      rw [← rowsSum_congr (fun u hu => ih hu) hrange hc v]
      cases iter with
      | zero =>
          -- Nothing has been collected before the first iteration.
          have hall : normalRows graph.toConfig 0
              (columnOf graph.toConfig v) =
                List.range graph.numPartitions := by
            simp [normalRows]
          rw [hall]
          simp only [grafuValues, zero_add]
      | succ iter =>
          rw [← rowsSum_perm graph.toConfig _
            (futureRows_append_normalRows graph.toConfig iter hc),
            rowsSum_append]
          congr 2
          exact collectFuture_pagerank hpagerank iter _ v

/-- `csd_proc_edge_loop_grafu` and `csd_proc_edge_loop_normal` terminate with
the same PageRank values. -/
theorem pagerank_grafu_eq_normal (graph : PartitionedGraph)
    (hpagerank : graph.algorithm = .pagerank) (stats stats' : ℕ → ℕ → ℚ)
    (numIter : ℕ) (initial : ℕ → ℚ) (mem : Hmb) :
    ∃ normal grafu,
      csdProcEdgeLoopNormal graph.toConfig stats numIter
          (initCsdsData graph.toConfig initial mem) = some normal ∧
        csdProcEdgeLoopGrafu graph.toConfig stats' numIter
          (initCsdsData graph.toConfig initial mem) = some grafu ∧
        ∀ v < graph.numVertices, grafu.buf0 v = normal.buf0 v := by
  obtain ⟨normal, hnormal, hnormalValues⟩ :=
    csdProcEdgeLoopNormal_values stats numIter initial mem
  obtain ⟨grafu, hgrafu, hgrafuValues⟩ :=
    csdProcEdgeLoopGrafu_values stats' numIter initial mem
  refine ⟨normal, grafu, hnormal, hgrafu, fun v hv => ?_⟩
  rw [hgrafuValues v hv, hnormalValues v hv,
    grafuValues_pagerank hpagerank initial numIter hv]

/-- Two vertices in two partitions on one device, with all four edges. -/
def completeGraph : PartitionedGraph where
  numVertices := 2
  numPartitions := 2
  numCsds := 1
  algorithm := .pagerank
  arithmetic := ⟨fun value degree => value / degree, fun value => value⟩
  outdegreeSlba := 0
  edgeBlocksSlba := fun r c _ => 8 + 8 * (2 * r + c)
  edgeBlocksLength := fun _ _ _ => 8
  storage := fun _ word => [2, 2, 0, 0, 0, 1, 1, 0, 1, 1].getD word 0
  partitions_pos := by decide
  edge_source := by decide
  edge_target := by decide

theorem pagerank_completeGraph :
    completeGraph.algorithm = .pagerank ∧
      ∃ normal grafu,
        csdProcEdgeLoopNormal completeGraph.toConfig 0 3
            (initCsdsData completeGraph.toConfig (fun _ => 1) default) =
          some normal ∧
        csdProcEdgeLoopGrafu completeGraph.toConfig 0 3
            (initCsdsData completeGraph.toConfig (fun _ => 1) default) =
          some grafu ∧
        ∀ v < completeGraph.numVertices, grafu.buf0 v = normal.buf0 v :=
  ⟨rfl, pagerank_grafu_eq_normal completeGraph rfl 0 0 3 _ default⟩

end NvmeVirt.Csd
