import NvmeVirt.Csd.LoopView

/-!
# The synchronous loops as recurrences on vertex values

For every algorithm the normal loop iterates one map on vertex values, and the
future-value loop iterates a map on pairs: the vertex values and the values
that earlier iterations have already collected for the next one.
-/

namespace NvmeVirt.Csd

/-- The partition of a vertex. -/
def columnOf (cfg : Config) (v : ℕ) : ℕ :=
  ((List.range cfg.numPartitions).find? fun c => inPartition cfg c v).getD 0

/-- Several blocks of one column, in order, as seen by the partial value of
vertex `v` on one device. -/
def foldRows (cfg : Config) (src : ℕ → ℚ) (rows : List ℕ) (c csd v : ℕ)
    (value : ℚ) : ℚ :=
  rows.foldl (fun value r => cellBlock cfg src r c csd v value) value

/-- One iteration of the normal loop. -/
def stepNormal (cfg : Config) (values : ℕ → ℚ) (v : ℕ) : ℚ :=
  convValue cfg (mergeCell cfg (mergeValue cfg) 0 fun csd =>
    foldRows cfg values (List.range cfg.numPartitions) (columnOf cfg v)
      csd v 0)

def normalValues (cfg : Config) (initial : ℕ → ℚ) : ℕ → ℕ → ℚ
  | 0 => initial
  | iter + 1 => stepNormal cfg (normalValues cfg initial iter)

/-- Rows that the future-value loop processes as normal blocks of column `c`,
in the order of the loop. -/
def normalRows (cfg : Config) (iter c : ℕ) : List ℕ :=
  if iter % 2 = 0 then
    (List.range cfg.numPartitions).filter fun r => !(0 < iter && c < r)
  else (List.range cfg.numPartitions).reverse.filter fun r => !(r ≤ c)

/-- Rows that the future-value loop processes ahead of time in column `c`. -/
def futureRows (cfg : Config) (iter c : ℕ) : List ℕ :=
  if iter % 2 = 0 then
    (List.range cfg.numPartitions).filter (fun r => r < c) ++ [c]
  else (List.range cfg.numPartitions).reverse.filter fun r => !(r ≤ c)

/-- One iteration of the future-value loop on the vertex values. -/
def stepGrafu (cfg : Config) (iter : ℕ) (values collected : ℕ → ℚ) (v : ℕ) :
    ℚ :=
  convValue cfg (mergeCell cfg (mergeValue cfg) (collected v) fun csd =>
    foldRows cfg values (normalRows cfg iter (columnOf cfg v)) (columnOf cfg v)
      csd v 0)

/-- What iteration `iter` collects for the next one, from its final values. -/
def collectFuture (cfg : Config) (iter : ℕ) (values : ℕ → ℚ) (v : ℕ) : ℚ :=
  mergeCell cfg (· + ·) 0 fun csd =>
    foldRows cfg values (futureRows cfg iter (columnOf cfg v)) (columnOf cfg v)
      csd v 0

def grafuValues (cfg : Config) (initial : ℕ → ℚ) :
    ℕ → (ℕ → ℚ) × (ℕ → ℚ)
  | 0 => (initial, fun _ => 0)
  | iter + 1 =>
      let before := grafuValues cfg initial iter
      let values := stepGrafu cfg iter before.1 before.2
      (values, collectFuture cfg iter values)

variable {graph : PartitionedGraph}

theorem columnOf_eq_iff {c v : ℕ} (hc : c < graph.numPartitions)
    (hv : v < graph.numVertices) :
    columnOf graph.toConfig v = c ↔ inPartition graph.toConfig c v = true := by
  obtain ⟨found, hlt, hin⟩ :=
    exists_inPartition graph.toConfig graph.partitions_pos hv
  have hfind : (List.range graph.numPartitions).find?
      (fun c => inPartition graph.toConfig c v) = some found := by
    cases hresult : (List.range graph.numPartitions).find?
        (fun c => inPartition graph.toConfig c v) with
    | none =>
        exact absurd hin
          (List.find?_eq_none.mp hresult found (List.mem_range.mpr hlt))
    | some other =>
        rw [inPartition_unique graph.toConfig hin
          (by simpa using List.find?_some hresult)]
  rw [columnOf, hfind, Option.getD_some]
  constructor
  · rintro rfl
    exact hin
  · exact inPartition_unique graph.toConfig hin

theorem columnOf_lt {v : ℕ} (hv : v < graph.numVertices) :
    columnOf graph.toConfig v < graph.numPartitions := by
  obtain ⟨c, hc, hin⟩ :=
    exists_inPartition graph.toConfig graph.partitions_pos hv
  rwa [(columnOf_eq_iff hc hv).mpr hin]

theorem foldRows_congr {src src' : ℕ → ℚ} {rows : List ℕ} {c csd : ℕ}
    (hc : c < graph.numPartitions) (hcsd : csd < graph.numCsds)
    (hrows : ∀ r ∈ rows, r < graph.numPartitions ∧
      ∀ u < graph.numVertices, columnOf graph.toConfig u = r → src u = src' u)
    (v : ℕ) (value : ℚ) :
    foldRows graph.toConfig src rows c csd v value =
      foldRows graph.toConfig src' rows c csd v value := by
  refine Loops.foldl_rel Eq _ _ rows ?_ rfl
  rintro r hr value - rfl
  obtain ⟨hlt, hsrc⟩ := hrows r hr
  exact cellBlock_congr graph hlt hc hcsd
    (fun u hu hin => hsrc u hu ((columnOf_eq_iff hlt hu).mpr hin)) v value

theorem foldRows_of_not_inPartition {src : ℕ → ℚ} {rows : List ℕ}
    {c csd v : ℕ} (hc : c < graph.numPartitions) (hcsd : csd < graph.numCsds)
    (hrows : ∀ r ∈ rows, r < graph.numPartitions)
    (hv : inPartition graph.toConfig c v = false) (value : ℚ) :
    foldRows graph.toConfig src rows c csd v value = value :=
  Loops.foldl_frame id _ rows
    (fun r hr value => cellBlock_of_not_inPartition graph (hrows r hr) hc hcsd
      hv value) value

theorem foldRows_append (cfg : Config) (src : ℕ → ℚ) (rows rows' : List ℕ)
    (c csd v : ℕ) (value : ℚ) :
    foldRows cfg src (rows ++ rows') c csd v value =
      foldRows cfg src rows' c csd v (foldRows cfg src rows c csd v value) :=
  List.foldl_append

/-! ## Rows of a column -/

/-- The row loop collects the partial values of the rows it does not skip. -/
theorem Shows.rows {mem : Hmb} {view : View}
    (hshows : Shows graph.toConfig mem view) {c : ℕ}
    (hc : c < graph.numPartitions) (numIter iter : ℕ) (skip future : ℕ → Bool)
    {rows : List ℕ} (hrows : ∀ r ∈ rows, r < graph.numPartitions) :
    ∃ mem', rows.foldlM (runRow graph.toConfig numIter iter c skip future)
        mem = some mem' ∧
      Shows graph.toConfig mem'
        { view with
          part1 := fun csd v => foldRows graph.toConfig view.host0
            (rows.filter fun r => !skip r) c csd v (view.part1 csd v)
          part2 := fun csd v => foldRows graph.toConfig view.host1
            (rows.filter fun r => !skip r && future r) c csd v
            (view.part2 csd v) } := by
  refine Loops.foldlM_prefix (fun before now => Shows graph.toConfig now
    { view with
      part1 := fun csd v => foldRows graph.toConfig view.host0
        (before.filter fun r => !skip r) c csd v (view.part1 csd v)
      part2 := fun csd v => foldRows graph.toConfig view.host1
        (before.filter fun r => !skip r && future r) c csd v
        (view.part2 csd v) }) _ rows ?_ hshows
  intro before r after now hsplit hnow
  have hr : r < graph.numPartitions := hrows r (by simp [hsplit])
  simp only [List.filter_append]
  cases hskip : skip r with
  | true =>
      refine ⟨now, by simp [runRow, hskip], ?_⟩
      simpa [hskip, List.filter_cons] using hnow
  | false =>
      obtain ⟨normal, hnormal, hshowsNormal⟩ :=
        Shows.block graph hr hc hnow iter numIter false
      cases hfuture : future r with
      | false =>
          refine ⟨normal, by simp [runRow, hskip, hfuture, hnormal], ?_⟩
          simpa [hskip, hfuture, List.filter_cons, foldRows_append, View.exec,
            foldRows] using hshowsNormal
      | true =>
          obtain ⟨both, hboth, hshowsBoth⟩ :=
            Shows.block graph hr hc hshowsNormal (iter + 1) numIter true
          refine ⟨both, by simp [runRow, hskip, hfuture, hnormal, hboth], ?_⟩
          simpa [hskip, hfuture, List.filter_cons, foldRows_append, View.exec,
            foldRows] using hshowsBoth

/-! ## Columns of an iteration -/

/-- The values in the middle of an iteration, when the columns in `before` are
final. -/
def columnView (cfg : Config) (values collected next nextCollected : ℕ → ℚ)
    (before : List ℕ) : View where
  host0 := values
  host1 := fun v => if columnOf cfg v ∈ before then next v else collected v
  host2 := fun v => if columnOf cfg v ∈ before then nextCollected v else 0
  part1 := fun _ _ => 0
  part2 := fun _ _ => 0

/-- After the rows and the aggregation of column `c` the column is final. -/
theorem columnView_conv (values collected next nextCollected : ℕ → ℚ)
    (before rows : List ℕ) {c v : ℕ} (hc : c < graph.numPartitions)
    (hfresh : c ∉ before)
    (hnext : ∀ v < graph.numVertices, columnOf graph.toConfig v = c →
      next v = convValue graph.toConfig (mergeCell graph.toConfig
        (mergeValue graph.toConfig) (collected v) fun csd =>
          foldRows graph.toConfig values rows c csd v 0))
    (hv : v < graph.numVertices) :
    (if inPartition graph.toConfig c v then
        convValue graph.toConfig (mergeCell graph.toConfig
          (mergeValue graph.toConfig)
          ((columnView graph.toConfig values collected next nextCollected
            before).host1 v)
          fun csd => foldRows graph.toConfig values rows c csd v 0)
      else (columnView graph.toConfig values collected next nextCollected
        before).host1 v) =
      (columnView graph.toConfig values collected next nextCollected
        (before ++ [c])).host1 v := by
  simp only [columnView, List.mem_append, List.mem_singleton]
  by_cases hcol : columnOf graph.toConfig v = c
  · rw [if_pos ((columnOf_eq_iff hc hv).mp hcol), hcol, if_neg hfresh,
      if_pos (Or.inr rfl), hnext v hv hcol]
  · rw [if_neg (fun hin => hcol ((columnOf_eq_iff hc hv).mpr hin))]
    simp [hcol]

theorem ite_foldRows_eq_zero {src : ℕ → ℚ} {rows : List ℕ} {c csd v : ℕ}
    (hc : c < graph.numPartitions) (hcsd : csd < graph.numCsds)
    (hrows : ∀ r ∈ rows, r < graph.numPartitions) :
    (if inPartition graph.toConfig c v then 0
      else foldRows graph.toConfig src rows c csd v 0) = 0 := by
  cases hin : inPartition graph.toConfig c v with
  | true => rfl
  | false => exact foldRows_of_not_inPartition hc hcsd hrows hin 0

/-- A column of the normal loop. -/
theorem normalColumn_shows {mem : Hmb} {values next : ℕ → ℚ}
    (hnext : next = stepNormal graph.toConfig values) (numIter iter : ℕ)
    {before : List ℕ} {c : ℕ} (hc : c < graph.numPartitions)
    (hfresh : c ∉ before)
    (hshows : Shows graph.toConfig mem
      (columnView graph.toConfig values (fun _ => 0) next (fun _ => 0)
        before)) :
    ∃ mem', normalColumn graph.toConfig numIter iter mem c = some mem' ∧
      Shows graph.toConfig mem'
        (columnView graph.toConfig values (fun _ => 0) next (fun _ => 0)
          (before ++ [c])) := by
  have hrows : ∀ r ∈ List.range graph.numPartitions,
      r < graph.numPartitions := fun r => List.mem_range.mp
  obtain ⟨mid, hmid, hshowsMid⟩ := Shows.rows hshows hc numIter iter
    (fun _ => false) (fun _ => false) hrows
  have hbody : (fun mem r =>
      sendBlock graph.toConfig r c iter numIter false mem) =
        runRow graph.toConfig numIter iter c (fun _ => false)
          (fun _ => false) := by
    funext mem r
    simp [runRow]
  refine ⟨convPartition graph.toConfig c mid, ?_, ?_⟩
  · simp only [normalColumn, hbody, hmid]
    rfl
  · apply (Shows.conv hshowsMid hc).congr
    intro v hv
    simp only [Bool.not_false, List.filter_true, Bool.and_false,
      List.filter_false]
    refine ⟨rfl, columnView_conv values (fun _ => 0) next (fun _ => 0) before
      (List.range graph.numPartitions) hc hfresh ?_ hv, ?_,
      fun csd hcsd => ⟨ite_foldRows_eq_zero hc hcsd hrows, rfl⟩⟩
    · intro v _ hcol
      rw [hnext, stepNormal, hcol]
    · simp [View.conv, columnView]

/-- A column of the future-value loop, with `ahead` the rows processed ahead of
time before the aggregation. -/
theorem grafuColumn_shows {mid : Hmb} {values collected next : ℕ → ℚ}
    {iter : ℕ} (hnext : next = stepGrafu graph.toConfig iter values collected)
    {before ahead : List ℕ} {c : ℕ} (hc : c < graph.numPartitions)
    (hfresh : c ∉ before)
    (hahead : ∀ r ∈ ahead, r < graph.numPartitions ∧ r ∈ before)
    (nextCollected : ℕ → ℚ)
    (hshows : Shows graph.toConfig mid
      { columnView graph.toConfig values collected next nextCollected before with
        part1 := fun csd v => foldRows graph.toConfig values
          (normalRows graph.toConfig iter c) c csd v 0
        part2 := fun csd v => foldRows graph.toConfig
          (columnView graph.toConfig values collected next nextCollected
            before).host1 ahead c csd v 0 }) :
    Shows graph.toConfig (convPartition graph.toConfig c mid)
      { columnView graph.toConfig values collected next nextCollected
          (before ++ [c]) with
        host2 := (columnView graph.toConfig values collected next
          nextCollected before).host2
        part2 := fun csd v =>
          foldRows graph.toConfig next ahead c csd v 0 } := by
  have hrows : ∀ r ∈ normalRows graph.toConfig iter c,
      r < graph.numPartitions := by
    intro r hr
    simp only [normalRows] at hr
    split at hr <;> simp only [List.mem_filter, List.mem_reverse,
      List.mem_range] at hr <;> exact hr.1
  apply (Shows.conv hshows hc).congr
  intro v hv
  refine ⟨rfl, columnView_conv values collected next nextCollected before
    (normalRows graph.toConfig iter c) hc hfresh ?_ hv, rfl,
    fun csd hcsd => ⟨ite_foldRows_eq_zero hc hcsd hrows, ?_⟩⟩
  · intro v _ hcol
    rw [hnext, stepGrafu, hcol]
  · -- Rows processed ahead of time lie in columns that are final already.
    apply foldRows_congr hc hcsd
    intro r hr
    refine ⟨(hahead r hr).1, fun u _ hcol => ?_⟩
    simp [columnView, hcol, (hahead r hr).2]

/-- Closing a column that collects for the next iteration. -/
theorem Shows.closeColumn {mem : Hmb}
    {values collected next nextCollected : ℕ → ℚ} {before ahead : List ℕ}
    {c : ℕ} (hc : c < graph.numPartitions) (hfresh : c ∉ before)
    (hahead : ∀ r ∈ ahead, r < graph.numPartitions)
    (hcollected : ∀ v < graph.numVertices, columnOf graph.toConfig v = c →
      nextCollected v = mergeCell graph.toConfig (· + ·) 0 fun csd =>
        foldRows graph.toConfig next ahead c csd v 0)
    (hshows : Shows graph.toConfig mem
      { columnView graph.toConfig values collected next nextCollected
          (before ++ [c]) with
        host2 := (columnView graph.toConfig values collected next
          nextCollected before).host2
        part2 := fun csd v =>
          foldRows graph.toConfig next ahead c csd v 0 }) :
    Shows graph.toConfig (aggregateFuture graph.toConfig c mem)
      (columnView graph.toConfig values collected next nextCollected
        (before ++ [c])) := by
  apply (Shows.addFuture hshows hc).congr
  intro v hv
  refine ⟨rfl, rfl, ?_,
    fun csd hcsd => ⟨rfl, ite_foldRows_eq_zero hc hcsd hahead⟩⟩
  simp only [View.addFuture, columnView, List.mem_append, List.mem_singleton]
  by_cases hcol : columnOf graph.toConfig v = c
  · rw [if_pos ((columnOf_eq_iff hc hv).mp hcol), hcol, if_neg hfresh,
      if_pos (Or.inr rfl), hcollected v hv hcol]
  · rw [if_neg (fun hin => hcol ((columnOf_eq_iff hc hv).mpr hin))]
    simp [hcol]

/-- In the last iteration nothing is collected. -/
theorem Shows.lastColumn {mem : Hmb} {values collected next : ℕ → ℚ}
    {before : List ℕ} {c : ℕ}
    (hshows : Shows graph.toConfig mem
      { columnView graph.toConfig values collected next (fun _ => 0)
          (before ++ [c]) with
        host2 := (columnView graph.toConfig values collected next
          (fun _ => 0) before).host2
        part2 := fun csd v => foldRows graph.toConfig next [] c csd v 0 }) :
    Shows graph.toConfig mem
      (columnView graph.toConfig values collected next (fun _ => 0)
        (before ++ [c])) := by
  apply hshows.congr
  intro v _
  exact ⟨rfl, rfl, by simp [columnView], fun csd _ => ⟨rfl, rfl⟩⟩

section Columns

variable {mem : Hmb} {values collected next nextCollected : ℕ → ℚ}
  {numIter iter c : ℕ} {before : List ℕ}
  (hnext : next = stepGrafu graph.toConfig iter values collected)
  (hcollected : nextCollected = fun v =>
    if iter = numIter - 1 then 0 else collectFuture graph.toConfig iter next v)
  (hc : c < graph.numPartitions) (hfresh : c ∉ before)
  (hshows : Shows graph.toConfig mem
    (columnView graph.toConfig values collected next nextCollected before))
include hnext hcollected hc hfresh hshows

/-- A column of an even iteration: rows above the diagonal, and the diagonal
block itself once its column is final, are processed ahead of time. -/
theorem evenColumn_shows (heven : iter % 2 = 0)
    (hbefore : ∀ r < c, r ∈ before) :
    ∃ mem', evenColumn graph.toConfig numIter iter mem c = some mem' ∧
      Shows graph.toConfig mem' (columnView graph.toConfig values collected
        next nextCollected (before ++ [c])) := by
  have hrows : ∀ r ∈ List.range graph.numPartitions,
      r < graph.numPartitions := fun r => List.mem_range.mp
  have hnormal : normalRows graph.toConfig iter c =
      (List.range graph.numPartitions).filter
        fun r => !(0 < iter && c < r) := by
    rw [normalRows, if_pos heven]
  obtain ⟨mid, hmid, hshowsMid⟩ := Shows.rows hshows hc numIter iter
    (fun r => 0 < iter && c < r) (fun r => r < c && iter != numIter - 1) hrows
  rw [← hnormal] at hshowsMid
  have hahead : (List.range graph.numPartitions).filter (fun r =>
      !(0 < iter && c < r) && (r < c && iter != numIter - 1)) =
        if iter = numIter - 1 then [] else
          (List.range graph.numPartitions).filter fun r => r < c := by
    split
    · rename_i hlast
      simp [hlast]
    · rename_i hlast
      apply List.filter_congr
      intro r _
      by_cases hr : r < c
      · simp [hr, hlast, Nat.not_lt.mpr hr.le]
      · simp [hr]
  rw [hahead] at hshowsMid
  by_cases hlast : iter = numIter - 1
  · have hzero : nextCollected = fun _ => 0 := by
      rw [hcollected]
      exact funext fun v => if_pos hlast
    subst hzero
    rw [if_pos hlast] at hshowsMid
    refine ⟨convPartition graph.toConfig c mid, ?_, Shows.lastColumn
      (grafuColumn_shows hnext hc hfresh (by simp) _ hshowsMid)⟩
    simp only [evenColumn, evenRow, hmid, Option.bind_eq_bind,
      Option.bind_some, if_neg (not_not.mpr hlast)]
    rfl
  · rw [if_neg hlast] at hshowsMid
    have hshowsConv := grafuColumn_shows hnext hc hfresh (by
      intro r hr
      simp only [List.mem_filter, List.mem_range, decide_eq_true_eq] at hr
      exact ⟨hr.1, hbefore r hr.2⟩) nextCollected hshowsMid
    obtain ⟨diagonal, hdiagonal, hshowsDiagonal⟩ :=
      Shows.block graph hc hc hshowsConv (iter + 1) numIter true
    refine ⟨aggregateFuture graph.toConfig c diagonal, ?_, ?_⟩
    · simp only [evenColumn, evenRow, hmid, Option.bind_eq_bind,
        Option.bind_some, if_pos hlast, hdiagonal]
      rfl
    · have hfuture : futureRows graph.toConfig iter c =
          (List.range graph.numPartitions).filter (fun r => r < c) ++ [c] := by
        rw [futureRows, if_pos heven]
      refine Shows.closeColumn hc hfresh (?_ : ∀ r ∈
        futureRows graph.toConfig iter c, r < graph.numPartitions) ?_ ?_
      · intro r hr
        simp only [hfuture, List.mem_append, List.mem_filter, List.mem_range,
          List.mem_singleton] at hr
        rcases hr with hr | rfl
        · exact hr.1
        · exact hc
      · intro v _ hcol
        rw [hcollected]
        simp only [if_neg hlast, collectFuture, hcol]
      · apply hshowsDiagonal.congr
        intro v hv
        refine ⟨rfl, rfl, rfl, fun csd hcsd => ⟨rfl, ?_⟩⟩
        simp only [View.exec, if_true, hfuture, foldRows_append]
        -- The diagonal block reads the column that has just become final.
        apply cellBlock_congr graph hc hc hcsd
        intro u hu hin
        simp [columnView, (columnOf_eq_iff hc hu).mpr hin]

/-- A column of an odd iteration: all rows below the diagonal are processed
ahead of time. -/
theorem oddColumn_shows (hodd : iter % 2 ≠ 0)
    (hbefore : ∀ r < graph.numPartitions, c < r → r ∈ before) :
    ∃ mem', oddColumn graph.toConfig numIter iter mem c = some mem' ∧
      Shows graph.toConfig mem' (columnView graph.toConfig values collected
        next nextCollected (before ++ [c])) := by
  have hrows : ∀ r ∈ (List.range graph.numPartitions).reverse,
      r < graph.numPartitions := by simp
  have hnormal : normalRows graph.toConfig iter c =
      (List.range graph.numPartitions).reverse.filter fun r => !(r ≤ c) := by
    rw [normalRows, if_neg hodd]
  have hfuture : futureRows graph.toConfig iter c =
      (List.range graph.numPartitions).reverse.filter fun r => !(r ≤ c) := by
    rw [futureRows, if_neg hodd]
  have hfutureRows : ∀ r ∈ futureRows graph.toConfig iter c,
      r < graph.numPartitions ∧ r ∈ before := by
    intro r hr
    simp only [hfuture, List.mem_filter, List.mem_reverse, List.mem_range,
      Bool.not_eq_true', decide_eq_false_iff_not, Nat.not_le] at hr
    exact ⟨hr.1, hbefore r hr.1 hr.2⟩
  obtain ⟨mid, hmid, hshowsMid⟩ := Shows.rows hshows hc numIter iter
    (fun r => r ≤ c) (fun _ => iter != numIter - 1) hrows
  rw [← hnormal] at hshowsMid
  have hahead : (List.range graph.numPartitions).reverse.filter (fun r =>
      !(r ≤ c) && iter != numIter - 1) =
        if iter = numIter - 1 then [] else futureRows graph.toConfig iter c := by
    split
    · rename_i hlast
      simp [hlast]
    · rename_i hlast
      rw [hfuture]
      apply List.filter_congr
      intro r _
      simp [hlast]
  rw [hahead] at hshowsMid
  by_cases hlast : iter = numIter - 1
  · have hzero : nextCollected = fun _ => 0 := by
      rw [hcollected]
      exact funext fun v => if_pos hlast
    subst hzero
    rw [if_pos hlast] at hshowsMid
    refine ⟨convPartition graph.toConfig c mid, ?_, Shows.lastColumn
      (grafuColumn_shows hnext hc hfresh (by simp) _ hshowsMid)⟩
    simp only [oddColumn, oddRow, hmid, Option.bind_eq_bind,
      Option.bind_some, if_neg (not_not.mpr hlast)]
    rfl
  · rw [if_neg hlast] at hshowsMid
    refine ⟨aggregateFuture graph.toConfig c (convPartition graph.toConfig c
      mid), ?_, Shows.closeColumn hc hfresh (fun r hr => (hfutureRows r hr).1)
        ?_ (grafuColumn_shows hnext hc hfresh hfutureRows nextCollected
          hshowsMid)⟩
    · simp only [oddColumn, oddRow, hmid, Option.bind_eq_bind,
        Option.bind_some, if_pos hlast]
      rfl
    · intro v _ hcol
      rw [hcollected]
      simp only [if_neg hlast, collectFuture, hcol]

end Columns

/-! ## Whole loops -/

/-- The values between two iterations. -/
def iterationView (values collected : ℕ → ℚ) : View where
  host0 := values
  host1 := collected
  host2 := fun _ => 0
  part1 := fun _ _ => 0
  part2 := fun _ _ => 0

theorem Shows.startIteration {mem : Hmb} {values collected : ℕ → ℚ}
    (hshows : Shows graph.toConfig mem (iterationView values collected))
    (next nextCollected : ℕ → ℚ) :
    Shows graph.toConfig mem
      (columnView graph.toConfig values collected next nextCollected []) := by
  apply hshows.congr
  intro v _
  simp [iterationView, columnView]

theorem Shows.endIteration {mem : Hmb}
    {values collected next nextCollected : ℕ → ℚ} {columns : List ℕ}
    (hcolumns : ∀ c < graph.numPartitions, c ∈ columns)
    (hshows : Shows graph.toConfig mem
      (columnView graph.toConfig values collected next nextCollected
        columns)) :
    Shows graph.toConfig (endOfIterReplacing graph.toConfig mem)
      (iterationView next nextCollected) := by
  apply hshows.replace.congr
  intro v hv
  simp [View.replace, columnView, iterationView,
    hcolumns _ (columnOf_lt hv)]

/-- Where a column stands in an ascending enumeration. -/
theorem range_split {bound c : ℕ} {before after : List ℕ}
    (hsplit : List.range bound = before ++ c :: after) :
    c < bound ∧ c ∉ before ∧ ∀ r < c, r ∈ before := by
  have hpairwise := List.pairwise_lt_range (n := bound)
  rw [hsplit, List.pairwise_append, List.pairwise_cons] at hpairwise
  obtain ⟨-, ⟨hafter, -⟩, hbefore⟩ := hpairwise
  have hmem : ∀ r, r < bound ↔ r ∈ before ++ c :: after := by
    intro r
    rw [← hsplit, List.mem_range]
  have hc : c < bound := (hmem c).mpr (by simp)
  refine ⟨hc, fun hin => ?_, fun r hr => ?_⟩
  · exact absurd (hbefore c hin c List.mem_cons_self) (lt_irrefl c)
  · have hsome := (hmem r).mp (by omega)
    simp only [List.mem_append, List.mem_cons] at hsome
    rcases hsome with hsome | rfl | hsome
    · exact hsome
    · exact absurd hr (lt_irrefl r)
    · exact absurd (hafter r hsome) (by omega)

/-- Where a column stands in a descending enumeration. -/
theorem range_reverse_split {bound c : ℕ} {before after : List ℕ}
    (hsplit : (List.range bound).reverse = before ++ c :: after) :
    c < bound ∧ c ∉ before ∧ ∀ r < bound, c < r → r ∈ before := by
  have hpairwise : (List.range bound).reverse.Pairwise (· > ·) :=
    List.pairwise_reverse.mpr (List.pairwise_lt_range (n := bound))
  rw [hsplit, List.pairwise_append, List.pairwise_cons] at hpairwise
  obtain ⟨-, ⟨hafter, -⟩, hbefore⟩ := hpairwise
  have hmem : ∀ r, r < bound ↔ r ∈ before ++ c :: after := by
    intro r
    rw [← hsplit, List.mem_reverse, List.mem_range]
  have hc : c < bound := (hmem c).mpr (by simp)
  refine ⟨hc, fun hin => ?_, fun r hr hlt => ?_⟩
  · exact absurd (hbefore c hin c List.mem_cons_self) (lt_irrefl c)
  · have hsome := (hmem r).mp hr
    simp only [List.mem_append, List.mem_cons] at hsome
    rcases hsome with hsome | rfl | hsome
    · exact hsome
    · exact absurd hlt (lt_irrefl r)
    · exact absurd (hafter r hsome) (by omega)

theorem normalIteration_shows {mem : Hmb} {values : ℕ → ℚ}
    (numIter iter : ℕ)
    (hshows : Shows graph.toConfig mem
      (iterationView values fun _ => 0)) :
    ∃ mem', normalIteration graph.toConfig numIter mem iter = some mem' ∧
      Shows graph.toConfig mem'
        (iterationView (stepNormal graph.toConfig values) fun _ => 0) := by
  obtain ⟨mid, hmid, hshowsMid⟩ := Loops.foldlM_prefix
    (fun before now => Shows graph.toConfig now
      (columnView graph.toConfig values (fun _ => 0)
        (stepNormal graph.toConfig values) (fun _ => 0) before))
    (normalColumn graph.toConfig numIter iter)
    (List.range graph.numPartitions) (by
      intro before c after now hsplit hnow
      obtain ⟨hc, hfresh, -⟩ := range_split hsplit
      exact normalColumn_shows rfl numIter iter hc hfresh hnow)
    (hshows.startIteration _ _)
  refine ⟨endOfIterReplacing graph.toConfig mid, ?_,
    hshowsMid.endIteration fun c hc => List.mem_range.mpr hc⟩
  simp only [normalIteration, hmid, Option.bind_eq_bind, Option.bind_some]
  rfl

theorem grafuIteration_shows {mem : Hmb} {values collected : ℕ → ℚ}
    (numIter iter : ℕ)
    (hshows : Shows graph.toConfig mem (iterationView values collected)) :
    ∃ mem', grafuIteration graph.toConfig numIter mem iter = some mem' ∧
      Shows graph.toConfig mem'
        (iterationView (stepGrafu graph.toConfig iter values collected)
          fun v => if iter = numIter - 1 then 0 else
            collectFuture graph.toConfig iter
              (stepGrafu graph.toConfig iter values collected) v) := by
  let next := stepGrafu graph.toConfig iter values collected
  let nextCollected : ℕ → ℚ := fun v =>
    if iter = numIter - 1 then 0 else
      collectFuture graph.toConfig iter next v
  let invariant (before : List ℕ) (now : Hmb) : Prop :=
    Shows graph.toConfig now
      (columnView graph.toConfig values collected next nextCollected before)
  by_cases hparity : iter % 2 = 0
  · obtain ⟨mid, hmid, hshowsMid⟩ := Loops.foldlM_prefix invariant
      (evenColumn graph.toConfig numIter iter)
      (List.range graph.numPartitions) (by
        intro before c after now hsplit hnow
        obtain ⟨hc, hfresh, hbefore⟩ := range_split hsplit
        exact evenColumn_shows rfl rfl hc hfresh hnow hparity hbefore)
      (hshows.startIteration _ _)
    refine ⟨endOfIterReplacing graph.toConfig mid, ?_,
      hshowsMid.endIteration fun c hc => List.mem_range.mpr hc⟩
    simp only [grafuIteration, if_pos hparity, hmid, Option.bind_eq_bind,
      Option.bind_some]
    rfl
  · obtain ⟨mid, hmid, hshowsMid⟩ := Loops.foldlM_prefix invariant
      (oddColumn graph.toConfig numIter iter)
      (List.range graph.numPartitions).reverse (by
        intro before c after now hsplit hnow
        obtain ⟨hc, hfresh, hbefore⟩ := range_reverse_split hsplit
        exact oddColumn_shows rfl rfl hc hfresh hnow hparity hbefore)
      (hshows.startIteration _ _)
    refine ⟨endOfIterReplacing graph.toConfig mid, ?_,
      hshowsMid.endIteration fun c hc =>
        List.mem_reverse.mpr (List.mem_range.mpr hc)⟩
    simp only [grafuIteration, if_neg hparity, hmid, Option.bind_eq_bind,
      Option.bind_some]
    rfl

theorem initCsdsData_shows (initial : ℕ → ℚ) (mem : Hmb) :
    Shows graph.toConfig (initCsdsData graph.toConfig initial mem)
      (iterationView initial fun _ => 0) := by
  have hhost : ∀ v < graph.numVertices,
      v < graph.numVertices * (graph.numCsds + 1) := fun v hv =>
    lt_of_lt_of_le hv (Nat.le_mul_of_pos_right _ (Nat.succ_pos _))
  exact ⟨fun _ hv => if_pos hv, fun v hv => if_pos (hhost v hv),
    fun v hv => if_pos (hhost v hv),
    fun _ hv _ hcsd => if_pos (sectionIndex_lt hv hcsd),
    fun _ hv _ hcsd => if_pos (sectionIndex_lt hv hcsd)⟩

/-- In `range n`, the visited prefix is as long as the index visited next. -/
theorem eq_length_of_range_split {bound iter : ℕ} {before after : List ℕ}
    (hsplit : List.range bound = before ++ iter :: after) :
    iter = before.length := by
  have hget := congrArg (fun l => l[before.length]?) hsplit
  simp only [List.getElem?_append_right le_rfl, Nat.sub_self,
    List.getElem?_cons_zero] at hget
  obtain ⟨hlt, heq⟩ := List.getElem?_eq_some_iff.mp hget
  rw [← heq, List.getElem_range]

/-- The normal loop terminates and leaves the iterated vertex values. -/
theorem csdProcEdgeLoopNormal_values (stats : ℕ → ℕ → ℚ) (numIter : ℕ)
    (initial : ℕ → ℚ) (mem : Hmb) :
    ∃ mem', csdProcEdgeLoopNormal graph.toConfig stats numIter
        (initCsdsData graph.toConfig initial mem) = some mem' ∧
      ∀ v < graph.numVertices,
        mem'.buf0 v = normalValues graph.toConfig initial numIter v := by
  obtain ⟨mid, hmid, hshowsMid⟩ := Loops.foldlM_prefix
    (fun before now => Shows graph.toConfig now (iterationView
      (normalValues graph.toConfig initial before.length) fun _ => 0))
    (normalIteration graph.toConfig numIter) (List.range numIter) (by
      intro before iter after now _ hnow
      rw [List.length_append, List.length_singleton]
      exact normalIteration_shows numIter iter hnow)
    (initCsdsData_shows initial mem)
  obtain ⟨mem', hflush, hbuf0⟩ := flushCsdDram_buf0 graph.toConfig stats mid
  refine ⟨mem', ?_, fun v hv => ?_⟩
  · simp only [csdProcEdgeLoopNormal, hmid, Option.bind_eq_bind,
      Option.bind_some, hflush]
  · rw [hbuf0, hshowsMid.host0 v hv, List.length_range]
    rfl

/-- The future-value loop terminates and leaves the iterated vertex values. -/
theorem csdProcEdgeLoopGrafu_values (stats : ℕ → ℕ → ℚ) (numIter : ℕ)
    (initial : ℕ → ℚ) (mem : Hmb) :
    ∃ mem', csdProcEdgeLoopGrafu graph.toConfig stats numIter
        (initCsdsData graph.toConfig initial mem) = some mem' ∧
      ∀ v < graph.numVertices,
        mem'.buf0 v = (grafuValues graph.toConfig initial numIter).1 v := by
  obtain ⟨mid, hmid, hshowsMid⟩ := Loops.foldlM_prefix
    (fun before now => Shows graph.toConfig now (iterationView
      (grafuValues graph.toConfig initial before.length).1 fun v =>
        if before.length = numIter then 0 else
          (grafuValues graph.toConfig initial before.length).2 v))
    (grafuIteration graph.toConfig numIter) (List.range numIter) (by
      intro before iter after now hsplit hnow
      have hiter := eq_length_of_range_split hsplit
      have hlt : iter < numIter := (range_split hsplit).1
      simp only [← hiter, hlt.ne, if_false] at hnow
      have hlast : iter + 1 = numIter ↔ iter = numIter - 1 := by omega
      simp only [List.length_append, List.length_singleton, ← hiter, hlast]
      exact grafuIteration_shows numIter iter hnow)
    (s := initCsdsData graph.toConfig initial mem) (by
      apply (initCsdsData_shows initial mem).congr
      intro v _
      simp [iterationView, grafuValues])
  obtain ⟨mem', hflush, hbuf0⟩ := flushCsdDram_buf0 graph.toConfig stats mid
  refine ⟨mem', ?_, fun v hv => ?_⟩
  · simp only [csdProcEdgeLoopGrafu, hmid, Option.bind_eq_bind,
      Option.bind_some, hflush]
  · rw [hbuf0, hshowsMid.host0 v hv, List.length_range]
    rfl

end NvmeVirt.Csd
