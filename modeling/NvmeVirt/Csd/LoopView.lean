import NvmeVirt.Csd.HostLoops

/-!
# What the synchronous loops do to the vertex values

A `View` is the contents of the three buffers by vertex and by device, without
flat indices and without flags.  Every statement of the host loops has a simple
effect on the view; a memory that shows a view before the statement shows the
changed view afterwards, and no wait of the synchronous loops blocks.
-/

namespace NvmeVirt.Csd

open Function

/-- Vertex values of the host and partial values of the devices. -/
structure View where
  host0 : ℕ → ℚ
  host1 : ℕ → ℚ
  host2 : ℕ → ℚ
  part1 : ℕ → ℕ → ℚ
  part2 : ℕ → ℕ → ℚ

/-- The memory holds exactly these values. -/
structure Shows (cfg : Config) (mem : Hmb) (view : View) : Prop where
  host0 : ∀ v < cfg.numVertices, mem.buf0 v = view.host0 v
  host1 : ∀ v < cfg.numVertices, mem.buf1 v = view.host1 v
  host2 : ∀ v < cfg.numVertices, mem.buf2 v = view.host2 v
  part1 : ∀ v < cfg.numVertices, ∀ csd < cfg.numCsds,
    mem.buf1 (sectionIndex cfg.numVertices csd v) = view.part1 csd v
  part2 : ∀ v < cfg.numVertices, ∀ csd < cfg.numCsds,
    mem.buf2 (sectionIndex cfg.numVertices csd v) = view.part2 csd v

/-- One portion of a block as seen by the partial value of vertex `v`. -/
def cellBlock (cfg : Config) (src : ℕ → ℚ) (r c csd v : ℕ) (value : ℚ) : ℚ :=
  cellEdges cfg (outdegree cfg csd cfg.outdegreeSlba) src
    (blockEdges cfg r c csd) v value

namespace View

/-- A block processed by all devices. -/
def exec (cfg : Config) (r c : ℕ) (isFvc : Bool) (view : View) : View :=
  if isFvc then
    { view with
      part2 := fun csd v =>
        cellBlock cfg view.host1 r c csd v (view.part2 csd v) }
  else
    { view with
      part1 := fun csd v =>
        cellBlock cfg view.host0 r c csd v (view.part1 csd v) }

def conv (cfg : Config) (c : ℕ) (view : View) : View :=
  { view with
    host1 := fun v =>
      if inPartition cfg c v then
        convValue cfg (mergeCell cfg (mergeValue cfg) (view.host1 v)
          fun csd => view.part1 csd v)
      else view.host1 v
    part1 := fun csd v =>
      if inPartition cfg c v then 0 else view.part1 csd v }

def addFuture (cfg : Config) (c : ℕ) (view : View) : View :=
  { view with
    host2 := fun v =>
      if inPartition cfg c v then
        mergeCell cfg (· + ·) (view.host2 v) fun csd => view.part2 csd v
      else view.host2 v
    part2 := fun csd v =>
      if inPartition cfg c v then 0 else view.part2 csd v }

def replace (view : View) : View :=
  { view with
    host0 := view.host1
    host1 := view.host2
    host2 := fun _ => 0 }

end View

variable (graph : PartitionedGraph)

theorem source_lt {r c csd : ℕ} (hr : r < graph.numPartitions)
    (hc : c < graph.numPartitions) (hcsd : csd < graph.numCsds)
    {edge : ℕ × ℕ} (hedge : edge ∈ blockEdges graph.toConfig r c csd) :
    edge.1 < graph.numVertices :=
  lt_numVertices_of_inPartition graph.toConfig graph.partitions_pos hr
    (graph.edge_source r hr c hc csd hcsd edge hedge)

theorem target_lt {r c csd : ℕ} (hr : r < graph.numPartitions)
    (hc : c < graph.numPartitions) (hcsd : csd < graph.numCsds)
    {edge : ℕ × ℕ} (hedge : edge ∈ blockEdges graph.toConfig r c csd) :
    edge.2 < graph.numVertices :=
  lt_numVertices_of_inPartition graph.toConfig graph.partitions_pos hc
    (graph.edge_target r hr c hc csd hcsd edge hedge)

/-- A block reads source values of its own row partition only. -/
theorem cellBlock_congr {src src' : ℕ → ℚ} {r c csd : ℕ}
    (hr : r < graph.numPartitions) (hc : c < graph.numPartitions)
    (hcsd : csd < graph.numCsds)
    (hsrc : ∀ u < graph.numVertices, inPartition graph.toConfig r u = true →
      src u = src' u) (v : ℕ) (value : ℚ) :
    cellBlock graph.toConfig src r c csd v value =
      cellBlock graph.toConfig src' r c csd v value := by
  apply cellEdges_congr
  intro edge hedge
  exact hsrc edge.1 (source_lt graph hr hc hcsd hedge)
    (graph.edge_source r hr c hc csd hcsd edge hedge)

/-- A block changes partial values of its own column partition only. -/
theorem cellBlock_of_not_inPartition {src : ℕ → ℚ} {r c csd v : ℕ}
    (hr : r < graph.numPartitions) (hc : c < graph.numPartitions)
    (hcsd : csd < graph.numCsds)
    (hv : inPartition graph.toConfig c v = false) (value : ℚ) :
    cellBlock graph.toConfig src r c csd v value = value := by
  apply cellEdges_of_not_target
  rintro edge hedge rfl
  rw [graph.edge_target r hr c hc csd hcsd edge hedge] at hv
  exact Bool.false_ne_true hv.symm

/-! ## Blocks -/

section Block

variable {r c : ℕ} (hr : r < graph.numPartitions)
  (hc : c < graph.numPartitions)
include hr hc

/-- A section other than the device's own, or the host's part, is not touched
by the device. -/
theorem procEdges_frame {csd i : ℕ} (hcsd : csd < graph.numCsds)
    (hi : ∀ v < graph.numVertices, i ≠ sectionIndex graph.numVertices csd v)
    (degree : ℕ → ℕ) (src dst : ℕ → ℚ) :
    procEdges graph.toConfig degree src ((csd + 1) * graph.numVertices) dst
      (blockEdges graph.toConfig r c csd) i = dst i := by
  apply procEdges_other
  intro edge hedge
  exact (hi edge.2 (target_lt graph hr hc hcsd hedge)).symm

/-- The command loop of a block, on the cell of vertex `v` on device `csd`. -/
theorem sendLoop_section (iter numIter : ℕ) (isFvc : Bool) {csd v : ℕ}
    (hcsd : csd < graph.numCsds) (hv : v < graph.numVertices) (mem : Hmb) :
    let after := (List.range graph.numCsds).foldl
      (fun mem csd => doPerformEdgeProcGrafu graph.toConfig
        (sendProcEdge graph.toConfig r c csd iter numIter isFvc 0) mem) mem
    let i := sectionIndex graph.numVertices csd v
    after.buf1 i = (if isFvc then mem.buf1 i else
        cellBlock graph.toConfig mem.buf0 r c csd v (mem.buf1 i)) ∧
      after.buf2 i = (if isFvc then
        cellBlock graph.toConfig mem.buf1 r c csd v (mem.buf2 i)
        else mem.buf2 i) := by
  intro after i
  have hother : ∀ other ∈ List.range graph.numCsds, other ≠ csd →
      ∀ w < graph.numVertices, i ≠ sectionIndex graph.numVertices other w := by
    intro other _ hne w hw heq
    exact hne ((sectionIndex_inj hv hw).mp heq).1.symm
  have hmem := List.mem_range.mpr hcsd
  cases isFvc with
  | false =>
      have hloop := Loops.foldl_once
        (fun mem : Hmb => (mem.buf0, mem.buf1 i, mem.buf2))
        (fun cells => (cells.1,
          cellBlock graph.toConfig cells.1 r c csd v cells.2.1, cells.2.2))
        (fun mem csd => doPerformEdgeProcGrafu graph.toConfig
          (sendProcEdge graph.toConfig r c csd iter numIter false 0) mem)
        List.nodup_range hmem
        (fun other hmem hne now => Prod.ext rfl (Prod.ext
          (procEdges_frame graph hr hc (List.mem_range.mp hmem)
            (hother other hmem hne) _ _ _) rfl))
        (fun now => Prod.ext rfl (Prod.ext
          (procEdges_section graph.toConfig _ now.buf0 _ now.buf1 _ v) rfl))
        mem
      exact ⟨congrArg (fun cells => cells.2.1) hloop,
        congrArg (fun cells => cells.2.2 i) hloop⟩
  | true =>
      have hloop := Loops.foldl_once
        (fun mem : Hmb => (mem.buf1, mem.buf2 i))
        (fun cells => (cells.1,
          cellBlock graph.toConfig cells.1 r c csd v cells.2))
        (fun mem csd => doPerformEdgeProcGrafu graph.toConfig
          (sendProcEdge graph.toConfig r c csd iter numIter true 0) mem)
        List.nodup_range hmem
        (fun other hmem hne now => Prod.ext rfl
          (procEdges_frame graph hr hc (List.mem_range.mp hmem)
            (hother other hmem hne) _ _ _))
        (fun now => Prod.ext rfl
          (procEdges_section graph.toConfig _ now.buf1 _ now.buf2 _ v))
        mem
      exact ⟨congrArg (fun cells => cells.1 i) hloop,
        congrArg (fun cells => cells.2) hloop⟩

/-- The command loop of a block leaves the host's values alone. -/
theorem sendLoop_host (iter numIter : ℕ) (isFvc : Bool) {v : ℕ}
    (hv : v < graph.numVertices) (mem : Hmb) :
    let after := (List.range graph.numCsds).foldl
      (fun mem csd => doPerformEdgeProcGrafu graph.toConfig
        (sendProcEdge graph.toConfig r c csd iter numIter isFvc 0) mem) mem
    after.buf0 v = mem.buf0 v ∧ after.buf1 v = mem.buf1 v ∧
      after.buf2 v = mem.buf2 v := by
  have hloop := Loops.foldl_frame
    (fun mem : Hmb => (mem.buf0 v, mem.buf1 v, mem.buf2 v))
    (fun mem csd => doPerformEdgeProcGrafu graph.toConfig
      (sendProcEdge graph.toConfig r c csd iter numIter isFvc 0) mem)
    (List.range graph.numCsds) (by
      intro csd hcsd now
      have hframe : ∀ degree src dst, procEdges graph.toConfig degree src
          ((csd + 1) * graph.numVertices) dst
          (blockEdges graph.toConfig r c csd) v = dst v :=
        procEdges_frame graph hr hc (List.mem_range.mp hcsd)
          fun w _ => (sectionIndex_ne_host hv csd).symm
      cases isFvc with
      | false => exact Prod.ext rfl (Prod.ext (hframe _ _ _) rfl)
      | true => exact Prod.ext rfl (Prod.ext rfl (hframe _ _ _))) mem
  exact ⟨congrArg (fun cells => cells.1) hloop,
    congrArg (fun cells => cells.2.1) hloop,
    congrArg (fun cells => cells.2.2) hloop⟩

omit hr hc in
/-- After the command loop of a block the host does not wait. -/
theorem sendBlock_eq (iter numIter : ℕ) (isFvc : Bool) (mem : Hmb) :
    sendBlock graph.toConfig r c iter numIter isFvc mem =
      some ((List.range graph.numCsds).foldl
        (fun mem csd => doPerformEdgeProcGrafu graph.toConfig
          (sendProcEdge graph.toConfig r c csd iter numIter isFvc 0) mem)
        mem) := by
  let invariant (before : List ℕ) (now : Hmb) : Prop :=
    ∀ csd ∈ before, (if isFvc then now.done2 else now.done1)
      (blockId graph.numPartitions csd r c) = true
  have hloop := Loops.foldl_prefix invariant
    (fun mem csd => doPerformEdgeProcGrafu graph.toConfig
      (sendProcEdge graph.toConfig r c csd iter numIter isFvc 0) mem)
    (List.range graph.numCsds) (by
      intro before csd after now _ hbefore other hother
      cases isFvc <;>
      · simp only [doPerformEdgeProcGrafu, sendProcEdge, Bool.false_eq_true,
          ↓reduceIte, update_apply]
        split
        · rfl
        · rename_i hne
          apply hbefore
          have : other ≠ csd := fun heq => hne (heq ▸ rfl)
          simpa [this] using hother) (s := mem) (by simp [invariant])
  rw [sendBlock, aggrEdgeBlock, if_pos]
  rw [List.all_eq_true]
  intro csd hcsd
  have hdone := hloop csd hcsd
  cases isFvc <;> exact hdone

/-- A block is processed on the view. -/
theorem Shows.block {mem : Hmb} {view : View}
    (hshows : Shows graph.toConfig mem view) (iter numIter : ℕ)
    (isFvc : Bool) :
    ∃ mem', sendBlock graph.toConfig r c iter numIter isFvc mem = some mem' ∧
      Shows graph.toConfig mem' (view.exec graph.toConfig r c isFvc) := by
  refine ⟨_, sendBlock_eq graph iter numIter isFvc mem, ?_⟩
  constructor
  · intro v hv
    rw [(sendLoop_host graph hr hc iter numIter isFvc hv mem).1,
      hshows.host0 v hv]
    cases isFvc <;> rfl
  · intro v hv
    rw [(sendLoop_host graph hr hc iter numIter isFvc hv mem).2.1,
      hshows.host1 v hv]
    cases isFvc <;> rfl
  · intro v hv
    rw [(sendLoop_host graph hr hc iter numIter isFvc hv mem).2.2,
      hshows.host2 v hv]
    cases isFvc <;> rfl
  · intro v hv csd hcsd
    rw [(sendLoop_section graph hr hc iter numIter isFvc hcsd hv mem).1,
      hshows.part1 v hv csd hcsd]
    cases isFvc with
    | false =>
        exact cellBlock_congr graph hr hc hcsd
          (fun u hu _ => hshows.host0 u hu) v _
    | true => rfl
  · intro v hv csd hcsd
    rw [(sendLoop_section graph hr hc iter numIter isFvc hcsd hv mem).2,
      hshows.part2 v hv csd hcsd]
    cases isFvc with
    | false => rfl
    | true =>
        exact cellBlock_congr graph hr hc hcsd
          (fun u hu _ => hshows.host1 u hu) v _

end Block

/-! ## Aggregation and iteration end -/

/-- The aggregation loops of a partition, on the view. -/
theorem Shows.merged {c v : ℕ} (hc : c < graph.numPartitions)
    (hv : v < graph.numVertices) (merge : ℚ → ℚ → ℚ) (buf : ℕ → ℚ)
    {host : ℚ} {sections : ℕ → ℚ} (hhost : buf v = host)
    (hsections : ∀ csd < graph.numCsds,
      buf (sectionIndex graph.numVertices csd v) = sections csd) :
    mergePartition graph.toConfig merge c buf v =
        (if inPartition graph.toConfig c v then
          mergeCell graph.toConfig merge host sections else host) ∧
      ∀ csd < graph.numCsds, mergePartition graph.toConfig merge c buf
          (sectionIndex graph.numVertices csd v) =
        if inPartition graph.toConfig c v then 0 else sections csd := by
  cases hin : inPartition graph.toConfig c v with
  | true =>
      have hcells := vertexCells_mergePartition_own graph.toConfig
        graph.partitions_pos hc merge hin buf
      refine ⟨(congrArg Prod.fst hcells).trans ?_, fun csd hcsd =>
        (congrFun (congrArg Prod.snd hcells) csd).trans (if_pos hcsd)⟩
      rw [if_pos rfl, ← hhost]
      exact mergeCell_congr graph.toConfig merge _ hsections
  | false =>
      have hcells := vertexCells_mergePartition_other graph.toConfig
        graph.partitions_pos hc merge hv hin buf
      exact ⟨(congrArg Prod.fst hcells).trans hhost, fun csd hcsd =>
        (congrFun (congrArg Prod.snd hcells) csd).trans (hsections csd hcsd)⟩

variable {graph}

theorem Shows.conv {mem : Hmb} {view : View}
    (hshows : Shows graph.toConfig mem view) {c : ℕ}
    (hc : c < graph.numPartitions) :
    Shows graph.toConfig (convPartition graph.toConfig c mem)
      (view.conv graph.toConfig c) := by
  have hcells : ∀ v < graph.numVertices,
      (convPartition graph.toConfig c mem).buf1 v =
          (view.conv graph.toConfig c).host1 v ∧
        ∀ csd < graph.numCsds, (convPartition graph.toConfig c mem).buf1
            (sectionIndex graph.numVertices csd v) =
          (view.conv graph.toConfig c).part1 csd v := by
    intro v hv
    cases hin : inPartition graph.toConfig c v with
    | true =>
        have hown := vertexCells_convBuffer_own graph.toConfig
          graph.partitions_pos hc hin mem.buf1
        simp only [View.conv, hin, if_true]
        refine ⟨(congrArg Prod.fst hown).trans ?_, fun csd hcsd =>
          (congrFun (congrArg Prod.snd hown) csd).trans (if_pos hcsd)⟩
        rw [hshows.host1 v hv]
        exact congrArg (convValue graph.toConfig)
          (mergeCell_congr graph.toConfig _ _ (hshows.part1 v hv))
    | false =>
        have hother := vertexCells_convBuffer_other graph.toConfig
          graph.partitions_pos hc hv hin mem.buf1
        simp only [View.conv, hin, Bool.false_eq_true, if_false]
        exact ⟨(congrArg Prod.fst hother).trans (hshows.host1 v hv),
          fun csd hcsd => (congrFun (congrArg Prod.snd hother) csd).trans
            (hshows.part1 v hv csd hcsd)⟩
  exact ⟨hshows.host0, fun v hv => (hcells v hv).1, hshows.host2,
    fun v hv => (hcells v hv).2, hshows.part2⟩

theorem Shows.addFuture {mem : Hmb} {view : View}
    (hshows : Shows graph.toConfig mem view) {c : ℕ}
    (hc : c < graph.numPartitions) :
    Shows graph.toConfig (aggregateFuture graph.toConfig c mem)
      (view.addFuture graph.toConfig c) := by
  have hcells := fun v hv => Shows.merged graph hc hv (· + ·) mem.buf2
    (hshows.host2 v hv) (hshows.part2 v hv)
  exact ⟨hshows.host0, hshows.host1, fun v hv => (hcells v hv).1,
    hshows.part1, fun v hv => (hcells v hv).2⟩

theorem Shows.replace {mem : Hmb} {view : View}
    (hshows : Shows graph.toConfig mem view) :
    Shows graph.toConfig (endOfIterReplacing graph.toConfig mem)
      view.replace := by
  have hsection : ∀ csd v,
      ¬ sectionIndex graph.numVertices csd v < graph.numVertices :=
    fun csd v => Nat.not_lt.mpr (le_sectionIndex _ csd v)
  constructor
  · intro v hv
    exact (if_pos hv).trans (hshows.host1 v hv)
  · intro v hv
    exact (if_pos hv).trans (hshows.host2 v hv)
  · intro v hv
    exact if_pos hv
  · intro v hv csd hcsd
    exact (if_neg (hsection csd v)).trans (hshows.part1 v hv csd hcsd)
  · intro v hv csd hcsd
    exact (if_neg (hsection csd v)).trans (hshows.part2 v hv csd hcsd)

/-- Only the values of actual vertices and devices matter. -/
theorem Shows.congr {mem : Hmb} {view view' : View}
    (hshows : Shows graph.toConfig mem view)
    (heq : ∀ v < graph.numVertices, view.host0 v = view'.host0 v ∧
      view.host1 v = view'.host1 v ∧ view.host2 v = view'.host2 v ∧
      ∀ csd < graph.numCsds, view.part1 csd v = view'.part1 csd v ∧
        view.part2 csd v = view'.part2 csd v) :
    Shows graph.toConfig mem view' where
  host0 v hv := (hshows.host0 v hv).trans (heq v hv).1
  host1 v hv := (hshows.host1 v hv).trans (heq v hv).2.1
  host2 v hv := (hshows.host2 v hv).trans (heq v hv).2.2.1
  part1 v hv csd hcsd := (hshows.part1 v hv csd hcsd).trans
    ((heq v hv).2.2.2 csd hcsd).1
  part2 v hv csd hcsd := (hshows.part2 v hv csd hcsd).trans
    ((heq v hv).2.2.2 csd hcsd).2

/-- The final flush does not block and leaves `buf0` alone. -/
theorem flushCsdDram_buf0 (cfg : Config) (stats : ℕ → ℕ → ℚ) (mem : Hmb) :
    ∃ mem', flushCsdDram cfg stats mem = some mem' ∧
      mem'.buf0 = mem.buf0 := by
  have hdone := Loops.foldl_prefix
    (fun (before : List ℕ) (now : Hmb) => ∀ csd ∈ before, now.done2 csd = true)
    (flushCommand cfg stats) (List.range cfg.numCsds) (by
      intro before csd after now _ hbefore other hother
      simp only [flushCommand, update_apply]
      split
      · rfl
      · rename_i hne
        apply hbefore
        simpa [hne] using hother) (s := mem) (by simp)
  have hbuf0 := Loops.foldl_frame (fun now : Hmb => now.buf0)
    (flushCommand cfg stats) (List.range cfg.numCsds)
    (fun _ _ _ => rfl) mem
  refine ⟨_, if_pos ?_, hbuf0⟩
  rw [List.all_eq_true]
  exact hdone

end NvmeVirt.Csd
