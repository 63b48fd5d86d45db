import NvmeVirt.Csd.SyncLoops
import NvmeVirt.Csd.Pagerank

/-!
# Dispersion: where the future-value loop loses vertices

Dispersion marks active vertices with 1 and tests for exactly 1.  The normal
loop merges the marks of the devices by disjunction; the future-value loop adds
the marks that were set ahead of time.  A vertex that two devices mark ahead of
time, and that no block marks in the iteration itself, ends with a value other
than 1 and is no longer active.  This is the only difference.
-/

namespace NvmeVirt.Csd

/-- Targets of the successful draws over a list of edges. -/
def drawnTargets (active : ℕ → Bool) : UInt32 → List (ℕ × ℕ) → List ℕ
  | _, [] => []
  | state, edge :: edges =>
      if active edge.1 then
        let rest := drawnTargets active (fastPseudoRand state).2 edges
        if drawSucceeds state edge then edge.2 :: rest else rest
      else drawnTargets active state edges

/-- Whether device `csd` activates `v` through one of the given rows. -/
def csdActivates (cfg : Config) (active : ℕ → Bool) (rows : List ℕ)
    (v csd : ℕ) : Bool :=
  rows.any fun r => decide
    (v ∈ drawnTargets active 0 (blockEdges cfg r (columnOf cfg v) csd))

/-- Whether some device activates `v` through one of the given rows. -/
def rowsActivate (cfg : Config) (active : ℕ → Bool) (rows : List ℕ) (v : ℕ) :
    Bool :=
  (List.range cfg.numCsds).any (csdActivates cfg active rows v)

/-- The number of devices that activate `v` through the given rows. -/
def activations (cfg : Config) (active : ℕ → Bool) (rows : List ℕ) (v : ℕ) :
    ℕ :=
  (List.range cfg.numCsds).countP (csdActivates cfg active rows v)

/-- The diffusion process itself: the vertices active after some iterations. -/
def activeAfter (cfg : Config) (initial : ℕ → Bool) : ℕ → ℕ → Bool
  | 0 => initial
  | iter + 1 => rowsActivate cfg (activeAfter cfg initial iter)
      (List.range cfg.numPartitions)

/-- In iteration `iter + 1`, vertex `v` is activated ahead of time by at least
two devices and by no block of the iteration itself. -/
def overcounted (cfg : Config) (active : ℕ → Bool) (iter v : ℕ) : Bool :=
  decide (2 ≤ activations cfg active (futureRows cfg iter (columnOf cfg v)) v)
    && !rowsActivate cfg active (normalRows cfg (iter + 1) (columnOf cfg v)) v

section Values

variable {cfg : Config} (hdispersion : cfg.algorithm = .dispersion)
include hdispersion

theorem cellEdges_dispersion_from (degree : ℕ → ℕ) (src : ℕ → ℚ)
    (edges : List (ℕ × ℕ)) (v : ℕ) (value : ℚ) (state : UInt32) :
    (edges.foldl (cellStep cfg degree src v) (value, state)).1 =
      if v ∈ drawnTargets (fun u => src u = 1) state edges then 1
      else value := by
  induction edges generalizing value state with
  | nil => simp [drawnTargets]
  | cons edge edges ih =>
      rw [List.foldl_cons]
      by_cases hactive : src edge.1 = 1
      · by_cases hdraw : drawSucceeds state edge
        · by_cases htarget : edge.2 = v
          · simp [cellStep, edgeValue, edgeState, hdispersion, drawnTargets,
              hactive, hdraw, htarget, ih]
          · simp [cellStep, edgeState, hdispersion, drawnTargets, hactive,
              hdraw, htarget, ih, Ne.symm htarget]
        · simp [cellStep, edgeValue, edgeState, hdispersion, drawnTargets,
            hactive, hdraw, ih]
      · simp [cellStep, edgeValue, edgeState, hdispersion, drawnTargets,
          hactive, ih]

theorem foldRows_dispersion (src : ℕ → ℚ) (rows : List ℕ) (csd v : ℕ)
    (value : ℚ) :
    foldRows cfg src rows (columnOf cfg v) csd v value =
      if csdActivates cfg (fun u => src u = 1) rows v csd then 1
      else value := by
  induction rows generalizing value with
  | nil => simp [foldRows, csdActivates]
  | cons r rows ih =>
      have hblock : cellBlock cfg src r (columnOf cfg v) csd v value =
          if v ∈ drawnTargets (fun u => src u = 1) 0
              (blockEdges cfg r (columnOf cfg v) csd) then 1 else value :=
        cellEdges_dispersion_from hdispersion _ src _ v value 0
      refine (ih (cellBlock cfg src r (columnOf cfg v) csd v value)).trans ?_
      rw [hblock]
      by_cases hhead : v ∈ drawnTargets (fun u => src u = 1) 0
          (blockEdges cfg r (columnOf cfg v) csd)
      · simp [csdActivates, hhead]
      · simp [csdActivates, hhead]

theorem mergeCell_dispersion (host : ℚ) (sections : ℕ → ℚ) :
    mergeCell cfg (mergeValue cfg) host sections =
      if (List.range cfg.numCsds).any fun csd => sections csd = 1 then 1
      else host := by
  rw [mergeCell]
  induction List.range cfg.numCsds generalizing host with
  | nil => simp
  | cons csd rest ih =>
      rw [List.foldl_cons, ih]
      by_cases hmark : sections csd = 1
      · simp [mergeValue, hdispersion, hmark]
      · simp [mergeValue, hdispersion, hmark]

/-- Merging the marks of the devices into the host's value. -/
theorem mergeMarks_dispersion (src : ℕ → ℚ) (rows : List ℕ) (host : ℚ)
    (v : ℕ) :
    mergeCell cfg (mergeValue cfg) host
        (fun csd => foldRows cfg src rows (columnOf cfg v) csd v 0) =
      if rowsActivate cfg (fun u => src u = 1) rows v then 1 else host := by
  rw [mergeCell_dispersion hdispersion]
  simp only [foldRows_dispersion hdispersion, rowsActivate]
  congr 2
  refine congrArg (List.any _) (funext fun csd => ?_)
  cases csdActivates cfg (fun u => src u = 1) rows v csd <;> simp

theorem stepNormal_dispersion (values : ℕ → ℚ) (v : ℕ) :
    stepNormal cfg values v =
      if rowsActivate cfg (fun u => values u = 1)
        (List.range cfg.numPartitions) v then 1 else 0 := by
  rw [stepNormal, mergeMarks_dispersion hdispersion]
  simp only [convValue, hdispersion]

theorem stepGrafu_dispersion (iter : ℕ) (values collected : ℕ → ℚ) (v : ℕ) :
    stepGrafu cfg iter values collected v =
      if rowsActivate cfg (fun u => values u = 1)
        (normalRows cfg iter (columnOf cfg v)) v then 1 else collected v := by
  rw [stepGrafu, mergeMarks_dispersion hdispersion]
  simp only [convValue, hdispersion]

/-- The marks set ahead of time are counted. -/
theorem collectFuture_dispersion (iter : ℕ) (values : ℕ → ℚ) (v : ℕ) :
    collectFuture cfg iter values v =
      activations cfg (fun u => values u = 1)
        (futureRows cfg iter (columnOf cfg v)) v := by
  rw [collectFuture, mergeCell_add, zero_add, activations]
  simp only [foldRows_dispersion hdispersion]
  induction List.range cfg.numCsds with
  | nil => simp
  | cons csd rest ih =>
      rw [List.map_cons, List.sum_cons, ih, List.countP_cons]
      split <;> simp [add_comm]

end Values

/-! ## The diffusion process -/

variable {graph : PartitionedGraph}

theorem drawnTargets_congr {active active' : ℕ → Bool}
    {edges : List (ℕ × ℕ)}
    (heq : ∀ edge ∈ edges, active edge.1 = active' edge.1) (state : UInt32) :
    drawnTargets active state edges = drawnTargets active' state edges := by
  induction edges generalizing state with
  | nil => rfl
  | cons edge edges ih =>
      have htail := fun state => ih
        (fun other hother => heq other (List.mem_cons_of_mem _ hother)) state
      simp only [drawnTargets, htail, heq edge List.mem_cons_self]

theorem csdActivates_congr {active active' : ℕ → Bool}
    (heq : ∀ u < graph.numVertices, active u = active' u) {rows : List ℕ}
    (hrows : ∀ r ∈ rows, r < graph.numPartitions) {v csd : ℕ}
    (hv : v < graph.numVertices) (hcsd : csd < graph.numCsds) :
    csdActivates graph.toConfig active rows v csd =
      csdActivates graph.toConfig active' rows v csd := by
  rw [Bool.eq_iff_iff]
  simp only [csdActivates, List.any_eq_true, decide_eq_true_eq]
  refine exists_congr fun r => and_congr_right fun hr => ?_
  rw [drawnTargets_congr (fun edge hedge => heq edge.1
    (source_lt graph (hrows r hr) (columnOf_lt hv) hcsd hedge))]

theorem rowsActivate_congr {active active' : ℕ → Bool}
    (heq : ∀ u < graph.numVertices, active u = active' u) {rows : List ℕ}
    (hrows : ∀ r ∈ rows, r < graph.numPartitions) {v : ℕ}
    (hv : v < graph.numVertices) :
    rowsActivate graph.toConfig active rows v =
      rowsActivate graph.toConfig active' rows v := by
  rw [Bool.eq_iff_iff]
  simp only [rowsActivate, List.any_eq_true]
  refine exists_congr fun csd => and_congr_right fun hcsd => ?_
  rw [csdActivates_congr heq hrows hv (List.mem_range.mp hcsd)]

theorem activations_congr {active active' : ℕ → Bool}
    (heq : ∀ u < graph.numVertices, active u = active' u) {rows : List ℕ}
    (hrows : ∀ r ∈ rows, r < graph.numPartitions) {v : ℕ}
    (hv : v < graph.numVertices) :
    activations graph.toConfig active rows v =
      activations graph.toConfig active' rows v := by
  apply List.countP_congr
  intro csd hcsd
  rw [csdActivates_congr heq hrows hv (List.mem_range.mp hcsd)]

theorem rowsActivate_iff_activations (cfg : Config) (active : ℕ → Bool)
    (rows : List ℕ) (v : ℕ) :
    rowsActivate cfg active rows v = true ↔
      0 < activations cfg active rows v := by
  rw [rowsActivate, activations, List.any_eq_true, List.countP_pos_iff]

/-- All rows are processed ahead of time or in the iteration itself. -/
theorem rowsActivate_split (cfg : Config) (active : ℕ → Bool) (iter : ℕ)
    {v : ℕ} (hc : columnOf cfg v < cfg.numPartitions) :
    rowsActivate cfg active (List.range cfg.numPartitions) v = true ↔
      rowsActivate cfg active (futureRows cfg iter (columnOf cfg v)) v = true ∨
      rowsActivate cfg active
        (normalRows cfg (iter + 1) (columnOf cfg v)) v = true := by
  have hmem : ∀ r, r ∈ List.range cfg.numPartitions ↔
      r ∈ futureRows cfg iter (columnOf cfg v) ∨
        r ∈ normalRows cfg (iter + 1) (columnOf cfg v) := by
    intro r
    rw [← List.mem_append]
    exact (futureRows_append_normalRows cfg iter hc).mem_iff.symm
  simp only [rowsActivate, csdActivates, List.any_eq_true, hmem]
  constructor
  · rintro ⟨csd, hcsd, r, hr | hr, hdrawn⟩
    · exact Or.inl ⟨csd, hcsd, r, hr, hdrawn⟩
    · exact Or.inr ⟨csd, hcsd, r, hr, hdrawn⟩
  · rintro (⟨csd, hcsd, r, hr, hdrawn⟩ | ⟨csd, hcsd, r, hr, hdrawn⟩)
    · exact ⟨csd, hcsd, r, Or.inl hr, hdrawn⟩
    · exact ⟨csd, hcsd, r, Or.inr hr, hdrawn⟩

theorem futureRows_lt (cfg : Config) (iter : ℕ) {c : ℕ}
    (hc : c < cfg.numPartitions) :
    ∀ r ∈ futureRows cfg iter c, r < cfg.numPartitions := by
  intro r hr
  apply List.mem_range.mp
  rw [← (futureRows_append_normalRows cfg iter hc).mem_iff]
  exact List.mem_append_left _ hr

theorem normalRows_lt (cfg : Config) (iter : ℕ) (c : ℕ) :
    ∀ r ∈ normalRows cfg iter c, r < cfg.numPartitions := by
  intro r hr
  simp only [normalRows] at hr
  split at hr <;> simp only [List.mem_filter, List.mem_reverse,
    List.mem_range] at hr <;> exact hr.1

/-- The normal loop computes the diffusion process. -/
theorem normalValues_dispersion (hdispersion : graph.algorithm = .dispersion)
    (initial : ℕ → ℚ) (iter : ℕ) {v : ℕ} (hv : v < graph.numVertices) :
    decide (normalValues graph.toConfig initial iter v = 1) =
      activeAfter graph.toConfig (fun u => initial u = 1) iter v := by
  induction iter generalizing v with
  | zero => rfl
  | succ iter ih =>
      have hrange : ∀ r ∈ List.range graph.numPartitions,
          r < graph.numPartitions := fun r => List.mem_range.mp
      simp only [normalValues, activeAfter, stepNormal_dispersion hdispersion]
      rw [← rowsActivate_congr (fun u hu => ih hu) hrange hv]
      split <;> simp_all

/-- The loops agree on the next active set exactly if no vertex is
overcounted. -/
theorem stepGrafu_active_iff (hdispersion : graph.algorithm = .dispersion)
    (iter : ℕ) {values : ℕ → ℚ} {active : ℕ → Bool}
    (hactive : ∀ u < graph.numVertices, decide (values u = 1) = active u)
    {v : ℕ} (hv : v < graph.numVertices) :
    (stepGrafu graph.toConfig (iter + 1) values
        (collectFuture graph.toConfig iter values) v = 1 ↔
      rowsActivate graph.toConfig active (List.range graph.numPartitions) v =
        true) ↔ overcounted graph.toConfig active iter v = false := by
  have hc := columnOf_lt hv
  rw [stepGrafu_dispersion hdispersion, collectFuture_dispersion hdispersion,
    rowsActivate_split graph.toConfig active iter hc,
    rowsActivate_congr hactive (normalRows_lt _ _ _) hv,
    activations_congr hactive (futureRows_lt _ iter hc) hv,
    rowsActivate_iff_activations graph.toConfig active
      (futureRows graph.toConfig iter (columnOf graph.toConfig v))]
  cases hnormal : rowsActivate graph.toConfig active
      (normalRows graph.toConfig (iter + 1) (columnOf graph.toConfig v)) v with
  | true => simp [overcounted, hnormal]
  | false =>
      simp only [overcounted, hnormal, Bool.false_eq_true, if_false, or_false,
        Bool.not_false, Bool.and_true, decide_eq_false_iff_not,
        Nat.cast_eq_one]
      omega

/-- Both recurrences have the same active sets up to an iteration exactly if
no vertex was overcounted on the way. -/
theorem active_agree_iff (hdispersion : graph.algorithm = .dispersion)
    (initial : ℕ → ℚ) (bound : ℕ) :
    (∀ iter ≤ bound, ∀ v < graph.numVertices,
        ((grafuValues graph.toConfig initial iter).1 v = 1 ↔
          normalValues graph.toConfig initial iter v = 1)) ↔
      ∀ iter, iter + 1 < bound → ∀ v < graph.numVertices,
        overcounted graph.toConfig (activeAfter graph.toConfig
          (fun u => initial u = 1) (iter + 1)) iter v = false := by
  have hstep : ∀ iter, (∀ v < graph.numVertices,
      ((grafuValues graph.toConfig initial (iter + 1)).1 v = 1 ↔
        normalValues graph.toConfig initial (iter + 1) v = 1)) →
      ∀ v < graph.numVertices,
        (((grafuValues graph.toConfig initial (iter + 2)).1 v = 1 ↔
            normalValues graph.toConfig initial (iter + 2) v = 1) ↔
          overcounted graph.toConfig (activeAfter graph.toConfig
            (fun u => initial u = 1) (iter + 1)) iter v = false) := by
    intro iter hagree v hv
    have hactive : ∀ u < graph.numVertices,
        decide ((grafuValues graph.toConfig initial (iter + 1)).1 u = 1) =
          activeAfter graph.toConfig (fun u => initial u = 1) (iter + 1) u := by
      intro u hu
      rw [← normalValues_dispersion hdispersion initial (iter + 1) hu]
      exact decide_eq_decide.mpr (hagree u hu)
    rw [← stepGrafu_active_iff hdispersion iter hactive hv]
    have hnormal := normalValues_dispersion hdispersion initial (iter + 2) hv
    rw [Bool.eq_iff_iff, decide_eq_true_eq] at hnormal
    rw [hnormal]
    rfl
  have hfirst : ∀ v < graph.numVertices,
      ((grafuValues graph.toConfig initial 1).1 v = 1 ↔
        normalValues graph.toConfig initial 1 v = 1) := by
    intro v _
    simp only [grafuValues, normalValues, stepGrafu_dispersion hdispersion,
      stepNormal_dispersion hdispersion]
    simp [normalRows]
  constructor
  · intro hagree iter hiter v hv
    exact (hstep iter (hagree (iter + 1) (by omega)) v hv).mp
      (hagree (iter + 2) (by omega) v hv)
  · intro hclean iter
    -- Induction on the iteration: agreement there carries to the next one.
    induction iter with
    | zero => exact fun _ _ _ => Iff.rfl
    | succ iter ih =>
        intro hiter
        cases iter with
        | zero => exact hfirst
        | succ iter =>
            intro v hv
            exact (hstep iter (ih (by omega)) v hv).mpr
              (hclean iter (by omega) v hv)

/-- `csd_proc_edge_loop_grafu` leaves the same active vertices as
`csd_proc_edge_loop_normal` for every iteration count up to `bound` exactly if
no iteration overcounts a vertex of the diffusion process. -/
theorem dispersion_grafu_eq_normal_iff (graph : PartitionedGraph)
    (hdispersion : graph.algorithm = .dispersion) (stats stats' : ℕ → ℕ → ℚ)
    (initial : ℕ → ℚ) (mem : Hmb) (bound : ℕ) :
    (∀ numIter ≤ bound, ∃ normal grafu,
      csdProcEdgeLoopNormal graph.toConfig stats numIter
          (initCsdsData graph.toConfig initial mem) = some normal ∧
        csdProcEdgeLoopGrafu graph.toConfig stats' numIter
          (initCsdsData graph.toConfig initial mem) = some grafu ∧
        ∀ v < graph.numVertices, (grafu.buf0 v = 1 ↔ normal.buf0 v = 1)) ↔
      ∀ iter, iter + 1 < bound → ∀ v < graph.numVertices,
        overcounted graph.toConfig (activeAfter graph.toConfig
          (fun u => initial u = 1) (iter + 1)) iter v = false := by
  rw [← active_agree_iff hdispersion initial bound]
  refine forall_congr' fun numIter => imp_congr_right fun _ => ?_
  obtain ⟨normal, hnormal, hnormalValues⟩ :=
    csdProcEdgeLoopNormal_values stats numIter initial mem
  obtain ⟨grafu, hgrafu, hgrafuValues⟩ :=
    csdProcEdgeLoopGrafu_values stats' numIter initial mem
  rw [hnormal, hgrafu]
  constructor
  · rintro ⟨normal', grafu', hnormal', hgrafu', hagree⟩ v hv
    rw [← hgrafuValues v hv, ← hnormalValues v hv, Option.some.inj hnormal',
      Option.some.inj hgrafu']
    exact hagree v hv
  · intro hagree
    refine ⟨normal, grafu, rfl, rfl, fun v hv => ?_⟩
    rw [hgrafuValues v hv, hnormalValues v hv]
    exact hagree v hv

/-- Nine vertices in one partition.  Device 0 stores the edges out of vertex 7,
device 1 the edges out of vertex 8, and both have an edge to vertex 0. -/
def sharedTargetGraph : PartitionedGraph where
  numVertices := 9
  numPartitions := 1
  numCsds := 2
  algorithm := .dispersion
  arithmetic := ⟨fun value degree => value / degree, fun value => value⟩
  outdegreeSlba := 0
  edgeBlocksSlba := fun _ _ _ => 36
  edgeBlocksLength := fun _ _ _ => 16
  storage := fun csd word =>
    if csd = 0 then [0, 0, 0, 0, 0, 0, 0, 2, 0, 7, 8, 7, 0].getD word 0
    else [0, 0, 0, 0, 0, 0, 0, 0, 2, 8, 7, 8, 0].getD word 0
  partitions_pos := by decide
  edge_source := by decide
  edge_target := by decide

/-- With vertex 7 active at the start, no vertex is overcounted in the first
two iterations of `sharedTargetGraph`. -/
theorem dispersion_sharedTargetGraph_single_start :
    sharedTargetGraph.algorithm = .dispersion ∧
      ∀ numIter ≤ 2, ∃ normal grafu,
        csdProcEdgeLoopNormal sharedTargetGraph.toConfig 0 numIter
            (initCsdsData sharedTargetGraph.toConfig
              (fun v => if v = 7 then 1 else 0) default) = some normal ∧
          csdProcEdgeLoopGrafu sharedTargetGraph.toConfig 0 numIter
            (initCsdsData sharedTargetGraph.toConfig
              (fun v => if v = 7 then 1 else 0) default) = some grafu ∧
          ∀ v < sharedTargetGraph.numVertices,
            (grafu.buf0 v = 1 ↔ normal.buf0 v = 1) := by
  refine ⟨rfl, (dispersion_grafu_eq_normal_iff sharedTargetGraph rfl 0 0 _
    default 2).mpr ?_⟩
  intro iter hiter
  obtain rfl : iter = 0 := by omega
  decide +kernel

/-- With vertices 7 and 8 active at the start, both devices set the mark of
vertex 0 ahead of time, and after two iterations the future-value loop has lost
the vertex. -/
theorem dispersion_sharedTargetGraph_loses_vertex :
    ∃ normal grafu,
      csdProcEdgeLoopNormal sharedTargetGraph.toConfig 0 2
          (initCsdsData sharedTargetGraph.toConfig
            (fun v => if v = 7 ∨ v = 8 then 1 else 0) default) =
        some normal ∧
      csdProcEdgeLoopGrafu sharedTargetGraph.toConfig 0 2
          (initCsdsData sharedTargetGraph.toConfig
            (fun v => if v = 7 ∨ v = 8 then 1 else 0) default) =
        some grafu ∧
      normal.buf0 0 = 1 ∧ grafu.buf0 0 ≠ 1 := by
  obtain ⟨normal, hnormal, hnormalValues⟩ :=
    csdProcEdgeLoopNormal_values 0 2
      (fun v => if v = 7 ∨ v = 8 then 1 else 0) default
  obtain ⟨grafu, hgrafu, hgrafuValues⟩ :=
    csdProcEdgeLoopGrafu_values 0 2
      (fun v => if v = 7 ∨ v = 8 then 1 else 0) default
  refine ⟨normal, grafu, hnormal, hgrafu, ?_, ?_⟩
  · rw [hnormalValues 0 (by decide)]
    decide +kernel
  · rw [hgrafuValues 0 (by decide)]
    decide +kernel

end NvmeVirt.Csd
