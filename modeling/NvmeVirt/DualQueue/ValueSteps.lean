import NvmeVirt.DualQueue.Values

/-!
# Every step keeps the values

An edge moves from the edges that are still to be processed into a partial
value, and the end of a task moves its block from the one that is being run to
those that have been.  The host folds in a partial value when the blocks of its
column are complete, and the end of an iteration makes the future values of a
device its values.
-/

namespace NvmeVirt.DualQueue

open Function NvmeVirt.Csd

variable {s : Setup} {csd : ℕ} {st st' : State} {actor : Actor}

/-! ## Steps of a device -/

section Section

variable {k v : ℕ} {host : HostPc} {dev dev' : Device} {part1 part2 : ℚ}

theorem SectionValues.congr
    (h : SectionValues s k host csd dev v part1 part2)
    (hcopied : Uncopied k dev' v ↔ Uncopied k dev v)
    (hran : ∀ f iter, dev'.ran f iter = dev.ran f iter)
    (hpending : ∀ f, dev'.pending f = dev.pending f)
    (hrunning : ∀ f, dev'.running f = dev.running f) :
    SectionValues s k host csd dev' v part1 part2 where
  uncopied := by
    rw [hcopied, hran]
    exact h.uncopied
  folded := by
    rw [hcopied]
    exact h.folded
  collected := by
    rw [hcopied, hran, hran, hpending, hrunning]
    exact h.collected
  ahead := by
    rw [hcopied, hran, hpending, hrunning]
    exact h.ahead

theorem Device.pending_of_ne_run (hworker : ∀ future node edges state,
    dev.worker ≠ .run future node edges state) (f : Bool) :
    dev.pending f = [] := by
  unfold Device.pending
  split
  · rename_i heq
    exact absurd heq (hworker _ _ _ _)
  · rfl

theorem uncopied_of_ne_copy (hworker : ∀ front todo,
    dev.worker ≠ .copy front todo) : Uncopied k dev v ↔ dev.copies < k :=
  ⟨And.left, fun hlt => ⟨hlt, fun _ _ heq => absurd heq (hworker _ _)⟩⟩

/-- A worker that has finished the copy starts a task. -/
theorem SectionValues.start (h : SectionValues s k host csd dev v part1 part2)
    (hcopies : dev.copies = k) (hworker : ∀ future node edges state,
      dev.worker ≠ .run future node edges state) {future : Bool}
    {block : ℕ × ℕ} {iter : ℕ} {dev' : Device}
    (hstart : dev'.worker =
      startRun s future (task s csd iter block future))
    (hran : ∀ f iter, dev'.ran f iter = dev.ran f iter)
    (hcopies' : dev'.copies = dev.copies) :
    SectionValues s k host csd dev' v part1 part2 := by
  have hcopied : ¬ Uncopied k dev v := fun hun => absurd hun.1 (by omega)
  have hpending := dev.pending_of_ne_run hworker
  have hrunning := dev.running_of_ne_run hworker
  have hedges : ∀ src f, edgesSum s csd src (dev'.pending f) v =
      blocksSum s csd src (dev'.running f) v := by
    intro src f
    simp only [Device.pending, Device.running, hstart, startRun]
    by_cases heq : future = f
    · rw [if_pos heq, if_pos heq, blockOf_task]
      exact edgesSum_taskEdges csd iter src block future v
    · rw [if_neg heq, if_neg heq]
      rfl
  have hcollected := h.collected hcopied
  have hahead := h.ahead hcopied
  simp only [hpending, hrunning, edgesSum_nil, List.append_nil, add_zero]
    at hcollected hahead
  refine ⟨fun hun => absurd hun.1 (by omega), fun _ => h.folded hcopied,
    fun _ hfolded => ?_, fun _ => ?_⟩
  · rw [hedges, hran, hran, blocksSum_append, hcollected hfolded]
  · rw [hedges, hran, blocksSum_append, hahead]

/-- The block of a finished task is one of those that have been run. -/
theorem SectionValues.complete
    (h : SectionValues s k host csd dev v part1 part2)
    (hcopies : dev.copies = k) {future : Bool} {node : ProcEdge}
    {state : UInt32} (hworker : dev.worker = .run future node [] state)
    (hiter : node.iter = if future then k + 1 else k) :
    SectionValues s k host csd (dev.complete k future node) v part1 part2 := by
  have hcopied : ¬ Uncopied k dev v := fun hun => absurd hun.1 (by omega)
  have hpending : ∀ f, dev.pending f = [] := by
    intro f
    simp only [Device.pending, hworker]
    split <;> rfl
  have hrunning : ∀ f, dev.running f =
      if future = f then [blockOf node] else [] := by
    intro f
    simp only [Device.running, hworker]
  have hnone : ∀ f, (dev.complete k future node).pending f = [] :=
    Device.pending_of_ne_run (by simp [Device.complete])
  have hcollected := h.collected hcopied
  have hahead := h.ahead hcopied
  simp only [hpending, hrunning] at hcollected hahead
  refine ⟨fun hun => absurd hun.1 (Nat.not_lt.mpr hcopies.ge),
    fun _ => h.folded hcopied, fun _ hfolded => ?_, fun _ => ?_⟩
  · rw [hnone, hcollected hfolded]
    simp only [Device.ran_complete, Device.running_complete, hiter]
    cases future <;> simp
  · rw [hnone, hahead]
    simp only [Device.ran_complete, Device.running_complete, hiter]
    cases future <;> simp

end Section

/-- A device changes its own partial values at most. -/
theorem Values.device (hvalues : Values s st) {dev' : Device} {mem' : Hmb}
    (hhost : ∀ v < s.numVertices, mem'.buf0 v = st.mem.buf0 v ∧
      mem'.buf1 v = st.mem.buf1 v ∧ mem'.buf2 v = st.mem.buf2 v)
    (hothers : ∀ other, other ≠ csd → ∀ v < s.numVertices,
      mem'.buf1 (sectionIndex s.numVertices other v) =
          st.mem.buf1 (sectionIndex s.numVertices other v) ∧
        mem'.buf2 (sectionIndex s.numVertices other v) =
          st.mem.buf2 (sectionIndex s.numVertices other v))
    (hsections : ∀ v < s.numVertices,
      SectionValues s st.iter st.host csd dev' v
        (mem'.buf1 (sectionIndex s.numVertices csd v))
        (mem'.buf2 (sectionIndex s.numVertices csd v)))
    (hremaining : Remaining s dev') :
    Values s ({ st with mem := mem' }.setDevice csd dev') where
  buf0_eq v hv := (hhost v hv).1.trans (hvalues.buf0_eq v hv)
  buf1_eq v hv := (hhost v hv).2.1.trans (hvalues.buf1_eq v hv)
  buf2_eq v hv := (hhost v hv).2.2.trans (hvalues.buf2_eq v hv)
  sections := by
    intro other hother v hv
    by_cases heq : other = csd
    · subst heq
      simp only [State.setDevice, update_self]
      exact hsections v hv
    · simp only [State.setDevice, update_of_ne heq]
      rw [(hothers other heq v hv).1, (hothers other heq v hv).2]
      exact hvalues.sections other hother v hv
  remaining := by
    intro other hother
    by_cases heq : other = csd
    · subst heq
      simp only [State.setDevice, update_self]
      exact hremaining
    · simp only [State.setDevice, update_of_ne heq]
      exact hvalues.remaining other hother

/-- A step of a device that leaves the buffers alone. -/
theorem Values.quiet (hvalues : Values s st) {dev' : Device} {mem' : Hmb}
    (hbuf0 : mem'.buf0 = st.mem.buf0) (hbuf1 : mem'.buf1 = st.mem.buf1)
    (hbuf2 : mem'.buf2 = st.mem.buf2)
    (hsections : ∀ v < s.numVertices, ∀ part1 part2,
      SectionValues s st.iter st.host csd (st.devices csd) v part1 part2 →
        SectionValues s st.iter st.host csd dev' v part1 part2)
    (hcsd : csd < s.numCsds) (hremaining : Remaining s dev') :
    Values s ({ st with mem := mem' }.setDevice csd dev') := by
  apply hvalues.device
  · intro v _
    rw [hbuf0, hbuf1, hbuf2]
    exact ⟨rfl, rfl, rfl⟩
  · intro other _ v _
    rw [hbuf1, hbuf2]
    exact ⟨rfl, rfl⟩
  · intro v hv
    rw [hbuf1, hbuf2]
    exact hsections v hv _ _ (hvalues.sections csd hcsd v hv)
  · exact hremaining

/-- The source partition of a future task has its final values. -/
theorem Values.source_final (hvalues : Values s st) (hgraph : WellFormed s)
    (h : Inv s st) {r u : ℕ} (hr : r < s.numPartitions)
    (hu : u < s.numVertices) (hin : inPartition s.toConfig r u = true)
    (hflag : st.mem.donePartition r = true) :
    st.mem.buf1 u = values s (st.iter + 1) u := by
  have hcolumn : columnOf s.toConfig u = r :=
    (hgraph.columnOf_eq_iff hr hu).mpr hin
  have hannounced := (h.columns_iff r hr).mp hflag
  have hfinished : r ∉ st.host.unfinished s st.iter := by
    intro hmem
    apply hannounced
    cases hhost : st.host with
    | merge c rest todo | damp c rest todo | notify c rest =>
        rw [hhost] at hmem
        exact List.mem_cons_of_mem _ hmem
    | _ =>
        rw [hhost] at hmem
        exact hmem
  rw [hvalues.buf1_eq u hu, hostValue, hcolumn, if_neg hfinished,
    if_pos hannounced]

/-! ## Edges -/

/-- What an edge adds to the partial value of vertex `v`. -/
def gain (s : Setup) (csd : ℕ) (src : ℕ → ℚ) (edge : ℕ × ℕ) (v : ℕ) : ℚ :=
  if edge.2 = v then s.arithmetic.share (src edge.1)
    (outdegree s.toConfig csd s.outdegreeSlba edge.1)
  else 0

/-- An edge that is processed moves from the edges that are left into the
partial value. -/
theorem SectionValues.edge {k v : ℕ} {host : HostPc} {dev : Device}
    {part1 part2 : ℚ} (hpagerank : s.algorithm = .pagerank)
    (h : SectionValues s k host csd dev v part1 part2)
    (hcopies : dev.copies = k) {future : Bool} {node : ProcEdge}
    {edge : ℕ × ℕ} {edges : List (ℕ × ℕ)} {state : UInt32}
    (hworker : dev.worker = .run future node (edge :: edges) state)
    (hunfolded : future = false → edge.2 = v → ¬ Folded s k host v csd)
    (state' : UInt32) :
    SectionValues s k host csd
      { dev with worker := .run future node edges state' } v
      (if future then part1 else part1 + gain s csd (values s k) edge v)
      (if future then part2 + gain s csd (values s (k + 1)) edge v
        else part2) := by
  have hcopied : ¬ Uncopied k dev v := fun hun => absurd hun.1 (by omega)
  have hcollected := h.collected hcopied
  have hahead := h.ahead hcopied
  have hpending : ∀ src f, edgesSum s csd src (dev.pending f) v =
      (if future = f then gain s csd src edge v else 0) +
        edgesSum s csd src (Device.pending
          { dev with worker := .run future node edges state' } f) v := by
    intro src f
    simp only [Device.pending, hworker]
    by_cases heq : future = f
    · simp only [if_pos heq]
      exact edgesSum_cons hpagerank csd src edge edges v
    · simp only [if_neg heq, zero_add]
  have hrunning : ∀ f, Device.running
      { dev with worker := .run future node edges state' } f =
        dev.running f := by
    intro f
    simp only [Device.running, hworker]
  simp only [hpending] at hcollected hahead
  refine ⟨fun hun => absurd hun.1 (Nat.not_lt.mpr hcopies.ge),
    fun _ hfolded => ?_, fun _ hfolded => ?_, fun _ => ?_⟩
  · have hzero := h.folded hcopied hfolded
    cases future with
    | true => exact hzero
    | false =>
        have hne : edge.2 ≠ v := fun heq => hunfolded rfl heq hfolded
        simp only [Bool.false_eq_true, if_false, gain, if_neg hne, hzero,
          add_zero]
  · rw [hrunning]
    refine Eq.trans ?_ (hcollected hfolded)
    cases future with
    | true => simp
    | false =>
        simp only [Bool.false_eq_true, if_false, if_true]
        exact add_assoc _ _ _
  · rw [hrunning]
    refine Eq.trans ?_ hahead
    cases future with
    | false => simp
    | true =>
        simp only [if_true]
        exact add_assoc _ _ _

/-- One round of the edge loop adds to one cell. -/
theorem edgeRound_eq (hpagerank : s.algorithm = .pagerank) (mem : Hmb)
    (future : Bool) {node : ProcEdge} {iter : ℕ} {block : ℕ × ℕ} {f : Bool}
    (hnode : node = task s csd iter block f) (edge : ℕ × ℕ) (state : UInt32) :
    let i := sectionIndex s.numVertices csd edge.2
    let mem' := (edgeRound s mem future node edge state).1
    mem'.buf0 = mem.buf0 ∧
      mem'.buf1 = (if future then mem.buf1 else
        update mem.buf1 i
          (mem.buf1 i + gain s csd mem.buf0 edge edge.2)) ∧
      mem'.buf2 = (if future then
        update mem.buf2 i
          (mem.buf2 i + gain s csd mem.buf1 edge edge.2)
        else mem.buf2) := by
  intro i mem'
  subst hnode
  simp only [mem', gain, if_true]
  cases future with
  | true =>
      refine ⟨rfl, rfl, ?_⟩
      simp only [edgeRound, edgeStep, edgeValue, hpagerank, if_true]
      rfl
  | false =>
      refine ⟨rfl, ?_, rfl⟩
      simp only [edgeRound, edgeStep, edgeValue, hpagerank,
        Bool.false_eq_true, if_false]
      rfl

theorem Values.edge (hvalues : Values s st) (hgraph : WellFormed s)
    (hpagerank : s.algorithm = .pagerank) (h : Inv s st)
    (hfinished : Finished s st) (hcsd : csd < s.numCsds)
    (hfinal : ReadsFinal csd st) {future : Bool} {node : ProcEdge}
    {edge : ℕ × ℕ} {edges : List (ℕ × ℕ)} {state : UInt32}
    (hworker : (st.devices csd).worker =
      .run future node (edge :: edges) state) :
    Values s ({ st with
      mem := (edgeRound s st.mem future node edge state).1 }.setWorker csd
        (.run future node edges
          (edgeRound s st.mem future node edge state).2)) := by
  have hremaining := hvalues.remaining csd hcsd
  have hworking := (h.devices csd hcsd).working (by simp [hworker])
    (by simp [hworker]) (by simp [hworker])
  have hnode := hworking.worker_ok
  simp only [WorkerOk, hworker] at hnode
  obtain ⟨hu, hsource, hv, hcolumn⟩ :=
    edge_ends hgraph h hcsd hremaining hworker List.mem_cons_self
  obtain ⟨hbuf0, hbuf1, hbuf2⟩ :=
    edgeRound_eq hpagerank st.mem future hnode edge state
  -- The value that is read is final.
  have hread : (if future then st.mem.buf1 edge.1 else st.mem.buf0 edge.1) =
      values s (if future then st.iter + 1 else st.iter) edge.1 := by
    cases future with
    | false => exact hvalues.buf0_eq edge.1 hu
    | true =>
        simp only [ReadsFinal, hworker] at hfinal
        exact hvalues.source_final hgraph h (h.running_lt hcsd hworker).1 hu
          hsource hfinal
  have hunfolded : ∀ v, future = false → edge.2 = v →
      ¬ Folded s st.iter st.host v csd := by
    rintro v rfl rfl hfolded
    have hmem := h.running_unfinished hfinished hcsd hworker
    rw [← hcolumn] at hmem
    exact hfolded.1 hmem
  have hhostCell : ∀ v < s.numVertices,
      sectionIndex s.numVertices csd edge.2 ≠ v :=
    fun v hv => sectionIndex_ne_host hv csd
  change Values s ({ st with mem := _ }.setDevice csd
    { st.devices csd with worker := _ })
  apply hvalues.device
  · intro v hlt
    rw [hbuf0, hbuf1, hbuf2]
    refine ⟨rfl, ?_, ?_⟩
    · split
      · rfl
      · exact update_of_ne (hhostCell v hlt).symm _ _
    · split
      · exact update_of_ne (hhostCell v hlt).symm _ _
      · rfl
  · intro other hne v hlt
    have hindex : sectionIndex s.numVertices other v ≠
        sectionIndex s.numVertices csd edge.2 := by
      rw [Ne, sectionIndex_inj hlt hv]
      exact fun heq => hne heq.1
    rw [hbuf1, hbuf2]
    constructor
    · split
      · rfl
      · exact update_of_ne hindex _ _
    · split
      · exact update_of_ne hindex _ _
      · rfl
  · intro v hlt
    have hsection := (hvalues.sections csd hcsd v hlt).edge hpagerank
      hworking.copies_eq hworker (hunfolded v)
      (edgeRound s st.mem future node edge state).2
    have hupdate : ∀ (buf src : ℕ → ℚ) iter,
        src edge.1 = values s iter edge.1 →
        update buf (sectionIndex s.numVertices csd edge.2)
            (buf (sectionIndex s.numVertices csd edge.2) +
              gain s csd src edge edge.2)
            (sectionIndex s.numVertices csd v) =
          buf (sectionIndex s.numVertices csd v) +
            gain s csd (values s iter) edge v := by
      intro buf src iter hsrc
      by_cases heq : edge.2 = v
      · rw [← heq, update_self]
        simp only [gain, if_true, hsrc]
      · have hindex : sectionIndex s.numVertices csd v ≠
            sectionIndex s.numVertices csd edge.2 := by
          rw [Ne, sectionIndex_inj hlt hv]
          exact fun hsame => heq hsame.2.symm
        rw [update_of_ne hindex, gain, if_neg heq, add_zero]
    rw [hbuf1, hbuf2]
    cases future with
    | false =>
        simp only [Bool.false_eq_true, if_false] at hread hsection ⊢
        rw [hupdate st.mem.buf1 st.mem.buf0 st.iter hread]
        exact hsection
    | true =>
        simp only [if_true] at hread hsection ⊢
        rw [hupdate st.mem.buf2 st.mem.buf1 (st.iter + 1) hread]
        exact hsection
  · simp only [Remaining, hworker] at hremaining ⊢
    exact (List.suffix_cons edge edges).trans hremaining

/-! ## The copy that closes an iteration -/

theorem mem_partitionVertices_columnOf (hgraph : WellFormed s) {v : ℕ}
    (hv : v < s.numVertices) :
    v ∈ partitionVertices s.toConfig (columnOf s.toConfig v) :=
  (mem_partitionVertices s.toConfig _ v).mpr
    ((hgraph.columnOf_eq_iff (hgraph.columnOf_lt hv) hv).mp rfl)

/-- What the host has folded in had been copied. -/
theorem Folded.copies_eq (hgraph : WellFormed s) (h : Inv s st)
    (hcaught : CaughtUp s st) (hearly : RunsEarly s) (hcsd : csd < s.numCsds)
    {v : ℕ} (hv : v < s.numVertices)
    (hfolded : Folded s st.iter st.host v csd) :
    (st.devices csd).copies = st.iter :=
  hcaught.copies_of_finished h hearly hcsd
    (hgraph.columnOf_lt hv) hfolded.1
    (List.ne_nil_of_mem (mem_partitionVertices_columnOf hgraph hv))

theorem uncopied_of_copy {k v : ℕ} {dev : Device} {front : ProcEdge}
    {todo : List ℕ} (hworker : dev.worker = .copy front todo) :
    Uncopied k dev v ↔ dev.copies < k ∧ v ∈ todo := by
  simp [Uncopied, hworker]

theorem Values.copy (hvalues : Values s st) (hgraph : WellFormed s)
    (h : Inv s st) (hcaught : CaughtUp s st) (hearly : RunsEarly s)
    (hcsd : csd < s.numCsds) {front : ProcEdge} {v : ℕ} {todo : List ℕ}
    (hworker : (st.devices csd).worker = .copy front (v :: todo)) :
    Values s ({ st with mem := copyVertex st.mem front v }.setWorker csd
      (.copy front todo)) := by
  obtain ⟨hlagging, hfront⟩ := (h.devices csd hcsd).copy_front hworker
  have hlate : (st.devices csd).copies < st.iter := by
    have := hlagging.copies_eq
    omega
  obtain ⟨hcsdId, -, hvertices, -⟩ :=
    marker_fields s csd (st.devices csd).copies
  have hindex : sectionIndex front.numVertices front.csdId v =
      sectionIndex s.numVertices csd v := by
    rw [hfront, hcsdId, hvertices]
  have hremaining := hvalues.remaining csd hcsd
  simp only [Remaining, hworker] at hremaining
  have hv : v < s.numVertices :=
    List.mem_range.mp (hremaining.mem List.mem_cons_self)
  have hfresh : v ∉ todo :=
    (List.nodup_cons.mp (List.nodup_range.sublist hremaining.sublist)).1
  have hbuf1 : (copyVertex st.mem front v).buf1 =
      update st.mem.buf1 (sectionIndex s.numVertices csd v)
        (st.mem.buf2 (sectionIndex s.numVertices csd v)) := by
    rw [← hindex]
    rfl
  have hbuf2 : (copyVertex st.mem front v).buf2 =
      update st.mem.buf2 (sectionIndex s.numVertices csd v) 0 := by
    rw [← hindex]
    rfl
  have hpending := (st.devices csd).pending_of_ne_run (by simp [hworker])
  have hrunning := (st.devices csd).running_of_ne_run (by simp [hworker])
  change Values s ({ st with mem := _ }.setDevice csd
    { st.devices csd with worker := _ })
  apply hvalues.device
  · intro w hw
    have hne : w ≠ sectionIndex s.numVertices csd v :=
      (sectionIndex_ne_host hw csd).symm
    rw [hbuf1, hbuf2, update_of_ne hne, update_of_ne hne]
    exact ⟨rfl, rfl, rfl⟩
  · intro other hne w hw
    have hne' : sectionIndex s.numVertices other w ≠
        sectionIndex s.numVertices csd v := by
      rw [Ne, sectionIndex_inj hw hv]
      exact fun heq => hne heq.1
    rw [hbuf1, hbuf2, update_of_ne hne', update_of_ne hne']
    exact ⟨rfl, rfl⟩
  · intro w hw
    have hsection := hvalues.sections csd hcsd w hw
    rw [hbuf1, hbuf2]
    by_cases hsame : w = v
    · subst hsame
      rw [update_self, update_self]
      have huncopied : Uncopied st.iter (st.devices csd) w := by
        refine ⟨hlate, fun front' todo' heq => ?_⟩
        rw [hworker] at heq
        cases heq
        exact List.mem_cons_self
      obtain ⟨-, hpart⟩ := hsection.uncopied huncopied
      refine ⟨fun hun => absurd (hun.2 front todo rfl) hfresh,
        fun _ hfolded => ?_, fun _ _ => ?_, fun _ => ?_⟩
      · have hcopies :=
          hfolded.copies_eq hgraph h hcaught hearly hcsd hw
        omega
      · rw [hpart]
        change _ + edgesSum s csd _ [] w = blocksSum s csd _
          ((st.devices csd).ran true st.iter ++
            (st.devices csd).ran false st.iter ++ []) w
        rw [hlagging.ran_normal_eq]
        simp
      · change 0 + edgesSum s csd _ [] w = blocksSum s csd _
          ((st.devices csd).ran true (st.iter + 1) ++ []) w
        rw [hlagging.ran_eq]
        simp
    · have hne : sectionIndex s.numVertices csd w ≠
          sectionIndex s.numVertices csd v := by
        rw [Ne, sectionIndex_inj hw hv]
        exact fun heq => hsame heq.2
      rw [update_of_ne hne, update_of_ne hne]
      apply hsection.congr
      · rw [uncopied_of_copy hworker, uncopied_of_copy rfl]
        simp [hsame]
      · exact fun _ _ => rfl
      · exact fun f => (hpending f).symm ▸ rfl
      · exact fun f => (hrunning f).symm ▸ rfl
  · simp only [Remaining]
    exact (List.suffix_cons v todo).trans hremaining

/-! ## Workers -/

/-- The worker is neither in the copy nor in a task. -/
theorem SectionValues.move {k v : ℕ} {host : HostPc} {dev dev' : Device}
    {part1 part2 : ℚ} (h : SectionValues s k host csd dev v part1 part2)
    (hcopy : ∀ front todo, dev.worker ≠ .copy front todo)
    (hrun : ∀ future node edges state,
      dev.worker ≠ .run future node edges state)
    (hcopy' : ∀ front todo, dev'.worker ≠ .copy front todo)
    (hrun' : ∀ future node edges state,
      dev'.worker ≠ .run future node edges state)
    (hran : ∀ f iter, dev'.ran f iter = dev.ran f iter)
    (hcopies : dev'.copies = dev.copies) :
    SectionValues s k host csd dev' v part1 part2 := by
  apply h.congr
  · rw [uncopied_of_ne_copy hcopy, uncopied_of_ne_copy hcopy', hcopies]
  · exact hran
  · intro f
    rw [dev.pending_of_ne_run hrun, dev'.pending_of_ne_run hrun']
  · intro f
    rw [dev.running_of_ne_run hrun, dev'.running_of_ne_run hrun']

theorem WorkerPc.Idle.ne_copy {worker : WorkerPc} (hidle : worker.Idle)
    (front : ProcEdge) (todo : List ℕ) : worker ≠ .copy front todo := by
  rintro rfl
  exact hidle

theorem WorkerPc.Idle.ne_run {worker : WorkerPc} (hidle : worker.Idle)
    (future : Bool) (node : ProcEdge) (edges : List (ℕ × ℕ)) (state : UInt32) :
    worker ≠ .run future node edges state := by
  rintro rfl
  exact hidle

theorem remaining_of_idle {dev : Device} (hidle : dev.worker.Idle) :
    Remaining s dev := by
  unfold Remaining
  split
  · rename_i heq
    exact absurd heq (hidle.ne_copy _ _)
  · rename_i heq
    exact absurd heq (hidle.ne_run _ _ _ _)
  · trivial

/-- A worker takes a future task. -/
theorem Values.takeFuture (hvalues : Values s st) (hcsd : csd < s.numCsds)
    (hrun : ∀ future node edges state,
      (st.devices csd).worker ≠ .run future node edges state)
    (hworking : Working s csd st.iter (st.devices csd)) {i : ℕ}
    {node : ProcEdge}
    (hnode : (st.devices csd).futureQueue[i]? = some node)
    (hends : endsIteration node = false) :
    Values s (takeFuture s csd st i node) := by
  obtain ⟨waiting, hwaiting⟩ := hworking.waiting
  have hmem := List.mem_of_getElem? hnode
  rw [hwaiting.queue_eq] at hmem
  obtain ⟨block, -, rfl⟩ : ∃ block ∈ waiting,
      task s csd (st.iter + 1) block true = node := by
    rcases List.mem_append.mp hmem with hblock | hmarker
    · exact List.mem_map.mp hblock
    · split at hmarker
      · rw [List.mem_singleton.mp hmarker, endsIteration_marker] at hends
        cases hends
      · cases hmarker
  refine hvalues.quiet rfl rfl rfl (fun v _ part1 part2 hsection => ?_) hcsd
    List.suffix_rfl
  exact hsection.start hworking.copies_eq hrun rfl (fun _ _ => rfl) rfl

theorem values_worker (hvalues : Values s st) (hgraph : WellFormed s)
    (hpagerank : s.algorithm = .pagerank) (h : Inv s st)
    (hfinished : Finished s st) (hcaught : CaughtUp s st)
    (hearly : RunsEarly s) (hcsd : csd < s.numCsds)
    (hfinal : ReadsFinal csd st) (hpicks : PicksBlock csd st)
    (heffect : WorkerEffect s csd st st') : Values s st' := by
  have hdev := h.devices csd hcsd
  cases heffect with
  | move hold hnew =>
      refine hvalues.quiet rfl rfl rfl (fun v _ _ _ hsection => ?_) hcsd
        (remaining_of_idle hnew)
      exact hsection.move hold.ne_copy hold.ne_run hnew.ne_copy hnew.ne_run
        (fun _ _ => rfl) rfl
  | close hworker =>
      refine hvalues.quiet rfl rfl rfl (fun v _ _ _ hsection => ?_) hcsd
        trivial
      exact hsection.move (by simp [hworker]) (by simp [hworker]) (by simp)
        (by simp) (fun _ _ => rfl) rfl
  | raise hworker =>
      refine hvalues.quiet rfl rfl rfl (fun v _ _ _ hsection => ?_) hcsd
        trivial
      exact hsection.move (by simp [hworker]) (by simp [hworker]) (by simp)
        (by simp) (fun _ _ => rfl) rfl
  | @leave front hworker =>
      obtain ⟨-, -, hvertices, -⟩ :=
        marker_fields s csd (st.devices csd).copies
      rw [hdev.barrier_front hworker, hvertices]
      refine hvalues.quiet rfl rfl rfl (fun v hv _ _ hsection => ?_) hcsd
        List.suffix_rfl
      have hrun := (st.devices csd).pending_of_ne_run (by simp [hworker])
      have hrunning := (st.devices csd).running_of_ne_run (by simp [hworker])
      apply hsection.congr
      · rw [uncopied_of_copy rfl, uncopied_of_ne_copy (by simp [hworker])]
        simp [hv]
      · exact fun _ _ => rfl
      · exact fun f => (hrun f).symm ▸ rfl
      · exact fun f => (hrunning f).symm ▸ rfl
  | copy hworker =>
      exact hvalues.copy hgraph h hcaught hearly hcsd hworker
  | @copied front hworker =>
      obtain ⟨hlagging, -⟩ := hdev.copy_front hworker
      have hlate := hlagging.copies_eq
      have hidle := WorkerPc.idle_scanOrCheck (st.devices csd) front
      refine hvalues.quiet rfl rfl rfl (fun v hv _ _ hsection => ?_) hcsd
        (remaining_of_idle hidle)
      have hrun := (st.devices csd).pending_of_ne_run (by simp [hworker])
      have hrunning := (st.devices csd).running_of_ne_run (by simp [hworker])
      apply hsection.congr
      · rw [uncopied_of_ne_copy hidle.ne_copy, uncopied_of_copy hworker]
        simp
        omega
      · exact fun _ _ => rfl
      · intro f
        rw [hrun, Device.pending_of_ne_run hidle.ne_run]
      · intro f
        rw [hrunning, Device.running_of_ne_run _ hidle.ne_run]
  | @normal node rest hworker hqueue =>
      have hworking := hdev.working (by simp [hworker]) (by simp [hworker])
        (by simp [hworker])
      have hnode := hdev.queued_tasks node (by simp [Device.queued, hqueue])
      refine hvalues.quiet rfl rfl rfl (fun v hv _ _ hsection => ?_) hcsd
        List.suffix_rfl
      apply hsection.start hworking.copies_eq (by simp [hworker])
      · rw [← hnode]
      · exact fun _ _ => rfl
      · rfl
  | @front tested node rest hworker hqueue =>
      have hworking := hdev.working (by simp [hworker]) (by simp [hworker])
        (by simp [hworker])
      have hok := hworking.worker_ok
      simp only [WorkerOk, hworker, hqueue, reduceCtorEq, false_or] at hok
      exact hvalues.takeFuture hcsd (by simp [hworker]) hworking
        (by simp [hqueue]) (hok.2.2 node rfl).1
  | found hworker hnode hready =>
      have hworking := hdev.working (by simp [hworker]) (by simp [hworker])
        (by simp [hworker])
      simp only [PicksBlock, hworker] at hpicks
      exact hvalues.takeFuture hcsd (by simp [hworker]) hworking hnode
        (hpicks _ hnode hready)
  | missed hworker =>
      simp only [PicksBlock, hworker] at hpicks
  | edge hworker =>
      exact hvalues.edge hgraph hpagerank h hfinished hcsd hfinal hworker
  | @complete future node state hworker =>
      have hworking := hdev.working (by simp [hworker]) (by simp [hworker])
        (by simp [hworker])
      have hok := hworking.worker_ok
      simp only [WorkerOk, hworker] at hok
      have hiter : node.iter = if future then st.iter + 1 else st.iter := by
        rw [hok, task_iter]
      have hbuffers : ∀ mem : Hmb,
          (raiseDone mem future node).buf0 = mem.buf0 ∧
            (raiseDone mem future node).buf1 = mem.buf1 ∧
            (raiseDone mem future node).buf2 = mem.buf2 := by
        intro mem
        cases future <;> exact ⟨rfl, rfl, rfl⟩
      obtain ⟨hbuf0, hbuf1, hbuf2⟩ := hbuffers st.mem
      refine hvalues.quiet hbuf0 hbuf1 hbuf2 (fun v hv _ _ hsection => ?_) hcsd
        trivial
      exact hsection.complete hworking.copies_eq hworker hiter
end NvmeVirt.DualQueue
