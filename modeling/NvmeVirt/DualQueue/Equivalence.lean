import NvmeVirt.DualQueue.ValueSteps

/-!
# The dual-queue loop computes the values of the normal loop

The steps of the host keep the values, so every run that comes to its end
leaves the vertex values of the synchronous loop, whatever the order in which
the host, the dispatchers and the workers take turns.
-/

namespace NvmeVirt.DualQueue

open Function NvmeVirt.Csd

variable {s : Setup} {csd : ℕ} {st st' : State} {actor : Actor}

/-! ## Steps of the host -/

/-- A step of the host within an iteration. -/
theorem Values.host (hvalues : Values s st) (hiter : st'.iter = st.iter)
    (hdevices : ∀ csd, ∃ sq,
      st'.devices csd = { st.devices csd with sq := sq })
    (hbuf0 : st'.mem.buf0 = st.mem.buf0) (hbuf2 : st'.mem.buf2 = st.mem.buf2)
    (hbuf1 : ∀ v < s.numVertices,
      st'.mem.buf1 v = hostValue s st.iter st'.host v)
    (hsections : ∀ csd < s.numCsds, ∀ v < s.numVertices,
      SectionValues s st.iter st'.host csd (st.devices csd) v
        (st'.mem.buf1 (sectionIndex s.numVertices csd v))
        (st.mem.buf2 (sectionIndex s.numVertices csd v))) : Values s st' where
  buf0_eq := by
    rw [hbuf0, hiter]
    exact hvalues.buf0_eq
  buf1_eq := by
    rw [hiter]
    exact hbuf1
  buf2_eq := by
    rw [hbuf2]
    exact hvalues.buf2_eq
  sections := by
    intro csd hcsd v hv
    obtain ⟨sq, hsq⟩ := hdevices csd
    rw [hsq, hiter, hbuf2]
    exact (hsections csd hcsd v hv).congr Iff.rfl (fun _ _ => rfl)
      (fun _ => rfl) fun _ => rfl
  remaining := by
    intro csd hcsd
    obtain ⟨sq, hsq⟩ := hdevices csd
    rw [hsq]
    exact hvalues.remaining csd hcsd

theorem SectionValues.refold {k v : ℕ} {host host' : HostPc} {dev : Device}
    {part1 part2 : ℚ} (h : SectionValues s k host csd dev v part1 part2)
    (hfolded : Folded s k host' v csd ↔ Folded s k host v csd) :
    SectionValues s k host' csd dev v part1 part2 where
  uncopied := h.uncopied
  folded := by
    rw [hfolded]
    exact h.folded
  collected := by
    rw [hfolded]
    exact h.collected
  ahead := h.ahead

/-- A step of the host that leaves the buffers alone. -/
theorem Values.quietHost (hvalues : Values s st) (hiter : st'.iter = st.iter)
    (hdevices : ∀ csd, ∃ sq,
      st'.devices csd = { st.devices csd with sq := sq })
    (hbuf0 : st'.mem.buf0 = st.mem.buf0) (hbuf1 : st'.mem.buf1 = st.mem.buf1)
    (hbuf2 : st'.mem.buf2 = st.mem.buf2)
    (hhost : ∀ v < s.numVertices,
      hostValue s st.iter st'.host v = hostValue s st.iter st.host v)
    (hfolded : ∀ csd < s.numCsds, ∀ v < s.numVertices,
      Folded s st.iter st'.host v csd ↔ Folded s st.iter st.host v csd) :
    Values s st' := by
  refine hvalues.host hiter hdevices hbuf0 hbuf2 ?_ ?_
  · intro v hv
    rw [hbuf1, hhost v hv]
    exact hvalues.buf1_eq v hv
  · intro csd hcsd v hv
    rw [hbuf1]
    exact (hvalues.sections csd hcsd v hv).refold (hfolded csd hcsd v hv)

theorem folded_of_ne_merge {k v : ℕ} {host : HostPc}
    (hhost : ∀ c rest todo, host ≠ .merge c rest todo) :
    Folded s k host v csd ↔ columnOf s.toConfig v ∉ host.unfinished s k :=
  ⟨And.left, fun hnot => ⟨hnot, fun _ _ _ heq => absurd heq (hhost _ _ _)⟩⟩

theorem folded_merge {k v c : ℕ} {rest : List ℕ} {todo : List (ℕ × ℕ)} :
    Folded s k (.merge c rest todo) v csd ↔
      columnOf s.toConfig v ∉ rest ∧ (v, csd) ∉ todo := by
  simp [Folded, HostPc.unfinished]

theorem mem_partitionVertices_iff (hgraph : WellFormed s) {c v : ℕ}
    (hc : c < s.numPartitions) (hv : v < s.numVertices) :
    v ∈ partitionVertices s.toConfig c ↔ columnOf s.toConfig v = c := by
  rw [mem_partitionVertices]
  exact (hgraph.columnOf_eq_iff hc hv).symm

theorem filter_mergeTodo {c v : ℕ}
    (hv : v ∈ partitionVertices s.toConfig c) :
    (mergeTodo s c).filter (·.1 = v) =
      (List.range s.numCsds).map (Prod.mk v) := by
  have hnodup := nodup_partitionVertices s.toConfig c
  obtain ⟨before, after, hsplit⟩ := List.append_of_mem hv
  rw [hsplit, List.nodup_append, List.nodup_cons] at hnodup
  have hnone : ∀ vertices : List ℕ, v ∉ vertices →
      (vertices.flatMap fun w => (List.range s.numCsds).map fun csd =>
        (w, csd)).filter (·.1 = v) = [] := by
    intro vertices hnot
    rw [List.filter_eq_nil_iff]
    intro cell hcell
    obtain ⟨w, hw, hmem⟩ := List.mem_flatMap.mp hcell
    obtain ⟨csd, -, rfl⟩ := List.mem_map.mp hmem
    simp only [decide_eq_true_eq]
    rintro rfl
    exact hnot hw
  have hall : ((List.range s.numCsds).map fun csd => (v, csd)).filter
      (·.1 = v) = (List.range s.numCsds).map (Prod.mk v) := by
    rw [List.filter_eq_self]
    intro cell hcell
    obtain ⟨csd, -, rfl⟩ := List.mem_map.mp hcell
    simp
  rw [mergeTodo, hsplit, List.flatMap_append, List.flatMap_cons,
    List.filter_append, List.filter_append, hall,
    hnone before (fun hmem => hnodup.2.2 v hmem v List.mem_cons_self rfl),
    hnone after hnodup.2.1.1, List.nil_append, List.append_nil]

/-- At the start of the aggregation everything is still to be folded in. -/
theorem sum_mergeTodo {k c v : ℕ} (hv : v ∈ partitionVertices s.toConfig c) :
    (((mergeTodo s c).filter (·.1 = v)).map
      fun cell => portionSum s cell.2 k v).sum = rawValue s k v := by
  rw [filter_mergeTodo hv, List.map_map]
  rfl

theorem nodup_mergeTodo (s : Setup) (c : ℕ) : (mergeTodo s c).Nodup := by
  have hproduct := (nodup_partitionVertices s.toConfig c).product
    (List.nodup_range (n := s.numCsds))
  exact hproduct

/-! ## The aggregation of a column -/

/-- The host's cells while column `c` is aggregated. -/
theorem hostValue_current {k c v : ℕ} {rest : List ℕ} {host : HostPc}
    (hcolumns : host.columns s k = c :: rest)
    (hunfinished : host.unfinished s k = rest) :
    hostValue s k host v =
      if columnOf s.toConfig v ∈ rest then 0
      else if columnOf s.toConfig v = c then currentValue s k v host
      else values s (k + 1) v := by
  rw [hostValue, hcolumns, hunfinished]
  by_cases hlater : columnOf s.toConfig v ∈ rest
  · rw [if_pos hlater, if_pos hlater]
  · rw [if_neg hlater, if_neg hlater]
    by_cases heq : columnOf s.toConfig v = c
    · simp [heq]
    · simp [heq, hlater]

/-- The host's cells while the columns in `columns` are left. -/
theorem hostValue_between {k v : ℕ} {columns : List ℕ} {host : HostPc}
    (hcolumns : host.columns s k = columns)
    (hunfinished : host.unfinished s k = columns) :
    hostValue s k host v =
      if columnOf s.toConfig v ∈ columns then 0 else values s (k + 1) v := by
  rw [hostValue, hcolumns, hunfinished]
  by_cases hlater : columnOf s.toConfig v ∈ columns
  · simp [hlater]
  · simp [hlater]

/-- The host folds in one partial value. -/
theorem Values.merge (hvalues : Values s st) (hgraph : WellFormed s)
    (hpagerank : s.algorithm = .pagerank) (h : Inv s st)
    (hfinished : Finished s st) (hcaught : CaughtUp s st)
    (hremaining : HostRemaining s st.host) (hearly : RunsEarly s) {c v : ℕ}
    {rest : List ℕ} {todo : List (ℕ × ℕ)}
    (hhost : st.host = .merge c rest ((v, csd) :: todo)) :
    Values s { st with
      host := .merge c rest todo
      mem := { st.mem with
        buf1 := mergeSection s.toConfig (mergeValue s.toConfig) v st.mem.buf1
          csd } } := by
  have hsuffix := hremaining
  rw [hhost] at hsuffix
  obtain ⟨hvertex, hcsd⟩ := mem_mergeTodo.mp
    (hsuffix.mem List.mem_cons_self)
  have hcolumns : st.host.columns s st.iter = c :: rest := by rw [hhost]; rfl
  have hunfinished : st.host.unfinished s st.iter = rest := by rw [hhost]; rfl
  obtain ⟨hc, hfresh⟩ := h.current_column hcolumns
  have hv : v < s.numVertices := lt_of_mem_partitionVertices s.toConfig
    (s.graph hgraph).partitions_pos hc hvertex
  have hcolumn : columnOf s.toConfig v = c :=
    (mem_partitionVertices_iff hgraph hc hv).mp hvertex
  have hnodup := (nodup_mergeTodo s c).sublist hsuffix.sublist
  have hvisited : (v, csd) ∉ todo := (List.nodup_cons.mp hnodup).1
  have hdone : columnOf s.toConfig v ∉ st.host.unfinished s st.iter := by
    rw [hunfinished, hcolumn]
    exact hfresh
  have hcopies := hcaught.copies_of_finished h hearly hcsd
    (hgraph.columnOf_lt hv) hdone
    (List.ne_nil_of_mem (mem_partitionVertices_columnOf hgraph hv))
  have hcopied : ¬ Uncopied st.iter (st.devices csd) v :=
    fun hun => absurd hun.1 (Nat.not_lt.mpr hcopies.ge)
  -- The partial value is complete.
  have hpart : st.mem.buf1 (sectionIndex s.numVertices csd v) =
      portionSum s csd st.iter v := by
    have hunfolded : ¬ Folded s st.iter st.host v csd := by
      rw [hhost, folded_merge]
      simp
    have hcollected :=
      (hvalues.sections csd hcsd v hv).collected hcopied hunfolded
    obtain ⟨hpending, hblocks⟩ := h.collected_eq hgraph hfinished hcsd
      (hvalues.remaining csd hcsd) hv hdone
    rwa [hpending, hblocks, add_zero] at hcollected
  have hmerge : mergeValue s.toConfig (st.mem.buf1 v)
      (portionSum s csd st.iter v) =
        st.mem.buf1 v + portionSum s csd st.iter v := by
    simp only [mergeValue, hpagerank]
  have hbuf1 : mergeSection s.toConfig (mergeValue s.toConfig) v st.mem.buf1
      csd = update (update st.mem.buf1 v
        (st.mem.buf1 v + portionSum s csd st.iter v))
          (sectionIndex s.numVertices csd v) 0 := by
    simp only [mergeSection]
    rw [hpart, hmerge]
  refine hvalues.host rfl (fun _ => ⟨_, rfl⟩) rfl rfl ?_ ?_
  · intro w hw
    have hbefore := hvalues.buf1_eq w hw
    rw [hostValue_current hcolumns hunfinished, hhost] at hbefore
    rw [@hostValue_current s _ c _ rest _ rfl rfl]
    change mergeSection s.toConfig (mergeValue s.toConfig) v st.mem.buf1 csd w
      = _
    rw [hbuf1, update_of_ne (sectionIndex_ne_host hw csd).symm]
    by_cases hsame : w = v
    · subst hsame
      rw [update_self, hbefore, hcolumn, if_neg hfresh, if_pos rfl,
        if_neg hfresh, if_pos rfl]
      simp only [currentValue]
      rw [List.filter_cons_of_pos (by simp), List.map_cons, List.sum_cons]
      ring
    · rw [update_of_ne hsame, hbefore]
      simp only [currentValue]
      rw [List.filter_cons_of_neg (by simpa using Ne.symm hsame)]
  · intro other hother w hw
    change SectionValues s st.iter (.merge c rest todo) other
      (st.devices other) w (mergeSection s.toConfig (mergeValue s.toConfig) v
        st.mem.buf1 csd (sectionIndex s.numVertices other w)) _
    have hsection := hvalues.sections other hother w hw
    rw [hbuf1]
    by_cases hsame : other = csd ∧ w = v
    · obtain ⟨rfl, rfl⟩ := hsame
      rw [update_self]
      have hfolded : Folded s st.iter (.merge c rest todo) w other := by
        rw [folded_merge, hcolumn]
        exact ⟨hfresh, hvisited⟩
      exact ⟨fun hun => absurd hun hcopied, fun _ _ => rfl,
        fun _ hnot => absurd hfolded hnot, hsection.ahead⟩
    · have hindex : sectionIndex s.numVertices other w ≠
          sectionIndex s.numVertices csd v := by
        rw [Ne, sectionIndex_inj hw hv]
        exact hsame
      rw [update_of_ne hindex,
        update_of_ne (sectionIndex_ne_host hv other)]
      apply hsection.refold
      rw [hhost, folded_merge, folded_merge, List.mem_cons, Prod.mk.injEq,
        and_comm (a := w = v), or_iff_right hsame]

/-- The host damps the value of one vertex. -/
theorem Values.damp (hvalues : Values s st) (hgraph : WellFormed s)
    (hpagerank : s.algorithm = .pagerank) (h : Inv s st)
    (hremaining : HostRemaining s st.host) {c v : ℕ} {rest todo : List ℕ}
    (hhost : st.host = .damp c rest (v :: todo)) :
    Values s { st with
      host := .damp c rest todo
      mem := { st.mem with
        buf1 := update st.mem.buf1 v
          (convValue s.toConfig (st.mem.buf1 v)) } } := by
  have hsuffix := hremaining
  rw [hhost] at hsuffix
  have hvertex := hsuffix.mem List.mem_cons_self
  have hcolumns : st.host.columns s st.iter = c :: rest := by rw [hhost]; rfl
  have hunfinished : st.host.unfinished s st.iter = rest := by rw [hhost]; rfl
  obtain ⟨hc, hfresh⟩ := h.current_column hcolumns
  have hv : v < s.numVertices := lt_of_mem_partitionVertices s.toConfig
    (s.graph hgraph).partitions_pos hc hvertex
  have hcolumn : columnOf s.toConfig v = c :=
    (mem_partitionVertices_iff hgraph hc hv).mp hvertex
  have hnodup := (nodup_partitionVertices s.toConfig c).sublist hsuffix.sublist
  have hvisited : v ∉ todo := (List.nodup_cons.mp hnodup).1
  refine hvalues.host rfl (fun _ => ⟨_, rfl⟩) rfl rfl ?_ ?_
  · intro w hw
    have hbefore := hvalues.buf1_eq w hw
    rw [hostValue_current hcolumns hunfinished, hhost] at hbefore
    rw [@hostValue_current s _ c _ rest _ rfl rfl]
    change update st.mem.buf1 v (convValue s.toConfig (st.mem.buf1 v)) w = _
    by_cases hsame : w = v
    · subst hsame
      rw [update_self, hbefore, hcolumn, if_neg hfresh, if_pos rfl,
        if_neg hfresh, if_pos rfl]
      simp only [currentValue]
      rw [if_pos List.mem_cons_self, if_neg hvisited, values_succ hpagerank]
    · rw [update_of_ne hsame, hbefore]
      simp only [currentValue, List.mem_cons, hsame, false_or]
  · intro csd hcsd w hw
    change SectionValues s st.iter (.damp c rest todo) csd (st.devices csd) w
      (update st.mem.buf1 v _ (sectionIndex s.numVertices csd w)) _
    rw [update_of_ne (sectionIndex_ne_host hv csd)]
    apply (hvalues.sections csd hcsd w hw).refold
    rw [hhost, folded_of_ne_merge (by simp), folded_of_ne_merge (by simp)]
    rfl

/-- The values of the next iteration become those of the current one. -/
theorem Values.replace (hvalues : Values s st) (hgraph : WellFormed s)
    (h : Inv s st) (hhost : st.host = .wait)
    (hready : endReady s st.mem = true) : Values s (replaceStep s st) := by
  have hsection : ∀ csd v,
      ¬ sectionIndex s.numVertices csd v < s.numVertices :=
    fun csd v => Nat.not_lt.mpr (le_sectionIndex _ csd v)
  constructor
  · intro v hv
    refine (if_pos hv).trans ?_
    rw [hvalues.buf1_eq v hv, hhost, hostValue_between rfl rfl]
    exact if_neg List.not_mem_nil
  · intro v hv
    refine ((if_pos hv).trans (hvalues.buf2_eq v hv)).trans ?_
    have hcolumn := hgraph.columnOf_lt hv
    exact (if_pos (mem_columnOrder.mpr hcolumn)).symm
  · intro v hv
    exact if_pos hv
  · intro csd hcsd v hv
    obtain ⟨hclosed, hworker⟩ := h.closed hhost hready hcsd
    have hcopies := hclosed.copies_eq
    have hold := hvalues.sections csd hcsd v hv
    have hcopied : ¬ Uncopied st.iter (st.devices csd) v :=
      fun hun => absurd hun.1 (Nat.not_lt.mpr hcopies.ge)
    have huncopied : Uncopied (st.iter + 1) (st.devices csd) v := by
      rw [uncopied_of_ne_copy (by simp [hworker])]
      omega
    have hbuf1 : (replaceStep s st).mem.buf1
        (sectionIndex s.numVertices csd v) =
        st.mem.buf1 (sectionIndex s.numVertices csd v) :=
      if_neg (hsection csd v)
    have hbuf2 : (replaceStep s st).mem.buf2
        (sectionIndex s.numVertices csd v) =
        st.mem.buf2 (sectionIndex s.numVertices csd v) :=
      if_neg (hsection csd v)
    rw [hbuf1, hbuf2]
    refine ⟨fun _ => ⟨?_, ?_⟩, fun hnot => absurd huncopied hnot,
      fun hnot => absurd huncopied hnot, fun hnot => absurd huncopied hnot⟩
    · apply hold.folded hcopied
      rw [hhost, folded_of_ne_merge (by simp)]
      exact List.not_mem_nil
    · have hahead := hold.ahead hcopied
      rwa [Device.pending_of_ne_run (by simp [hworker]),
        Device.running_of_ne_run _ (by simp [hworker]), edgesSum_nil, add_zero,
        List.append_nil] at hahead
  · exact hvalues.remaining

theorem sendStep_frame (s : Setup) (st : State) (r c csd : ℕ)
    (rest : List (ℕ × ℕ × ℕ)) :
    let st' := sendStep s st r c csd rest
    st'.iter = st.iter ∧ st'.host = .send rest ∧
      st'.mem.buf0 = st.mem.buf0 ∧ st'.mem.buf1 = st.mem.buf1 ∧
      st'.mem.buf2 = st.mem.buf2 := by
  have hmark : ∀ mem, (markEmpty s st.iter r c csd mem).buf0 = mem.buf0 ∧
      (markEmpty s st.iter r c csd mem).buf1 = mem.buf1 ∧
      (markEmpty s st.iter r c csd mem).buf2 = mem.buf2 := by
    intro mem
    unfold markEmpty
    split <;> exact ⟨rfl, rfl, rfl⟩
  rw [sendStep_eq]
  dsimp only
  split <;> exact ⟨rfl, rfl, hmark st.mem⟩

theorem values_host (hvalues : Values s st) (hgraph : WellFormed s)
    (hpagerank : s.algorithm = .pagerank) (h : Inv s st)
    (hfinished : Finished s st) (hcaught : CaughtUp s st)
    (hremaining : HostRemaining s st.host) (hearly : RunsEarly s)
    (hstep : hostStep s st = some st') : Values s st' := by
  have hdevices := (hostStep_frame hstep).1
  cases hostStep_effect hstep with
  | merge hhost =>
      exact hvalues.merge hgraph hpagerank h hfinished hcaught hremaining
        hearly hhost
  | damp hhost => exact hvalues.damp hgraph hpagerank h hremaining hhost
  | replace hhost hready => exact hvalues.replace hgraph h hhost hready
  | @column c rest hhost =>
      have hcolumns : st.host.columns s st.iter = c :: rest := by
        rw [hhost]
        rfl
      obtain ⟨hc, hfresh⟩ := h.current_column hcolumns
      refine hvalues.quietHost rfl hdevices rfl rfl rfl ?_ ?_
      · intro v hv
        rw [hhost, @hostValue_current s _ c _ rest _ rfl rfl,
          @hostValue_between s _ _ (c :: rest) _ rfl rfl]
        by_cases hcolumn : columnOf s.toConfig v = c
        · have hvertex := (mem_partitionVertices_iff hgraph hc hv).mpr hcolumn
          simp only [currentValue]
          rw [sum_mergeTodo hvertex, sub_self]
          simp [hcolumn]
        · simp [hcolumn]
      · intro csd hcsd v hv
        rw [hhost, folded_merge, folded_of_ne_merge (by simp)]
        change _ ↔ columnOf s.toConfig v ∉ c :: rest
        rw [mem_mergeTodo, mem_partitionVertices_iff hgraph hc hv,
          List.mem_cons]
        tauto
  | @merged c rest hhost =>
      have hcolumns : st.host.columns s st.iter = c :: rest := by
        rw [hhost]
        rfl
      obtain ⟨hc, hfresh⟩ := h.current_column hcolumns
      refine hvalues.quietHost rfl hdevices rfl rfl rfl ?_ ?_
      · intro v hv
        rw [hhost, @hostValue_current s _ c _ rest _ rfl rfl,
          @hostValue_current s _ c _ rest _ rfl rfl]
        simp only [currentValue, mem_partitionVertices_iff hgraph hc hv]
        by_cases hcolumn : columnOf s.toConfig v = c
        · simp [hcolumn]
        · simp [hcolumn]
      · intro csd _ v _
        rw [hhost, folded_merge, folded_of_ne_merge (by simp)]
        simp [HostPc.unfinished]
  | @damped c rest hhost =>
      refine hvalues.quietHost rfl hdevices rfl rfl rfl ?_ ?_
      · intro v _
        rw [hhost, @hostValue_current s _ c _ rest _ rfl rfl,
          @hostValue_current s _ c _ rest _ rfl rfl]
        simp [currentValue]
      · intro csd _ v _
        rw [hhost, folded_of_ne_merge (by simp), folded_of_ne_merge (by simp)]
        rfl
  | @notify c rest hhost =>
      refine hvalues.quietHost rfl hdevices rfl rfl rfl ?_ ?_
      · intro v _
        rw [hhost, @hostValue_between s _ _ rest _ rfl rfl,
          @hostValue_current s _ c _ rest _ rfl rfl]
        simp [currentValue]
      · intro csd _ v _
        rw [hhost, folded_of_ne_merge (by simp), folded_of_ne_merge (by simp)]
        rfl
  | @send r c csd rest hhost =>
      obtain ⟨hiter, hnext, hbuf0, hbuf1, hbuf2⟩ :=
        sendStep_frame s st r c csd rest
      refine hvalues.quietHost hiter hdevices hbuf0 hbuf1 hbuf2 ?_ ?_
      · intro v _
        rw [hnext, hhost]
        rfl
      · intro csd _ v _
        rw [hnext, hhost, folded_of_ne_merge (by simp),
          folded_of_ne_merge (by simp)]
        rfl
  | sent hhost | aggregated hhost | release hhost | start hhost
  | finish hhost =>
      refine hvalues.quietHost rfl hdevices rfl rfl rfl ?_ ?_
      · intro v _
        rw [hhost]
        rfl
      · intro csd _ v _
        rw [hhost, folded_of_ne_merge (by simp), folded_of_ne_merge (by simp)]
        rfl

/-! ## Runs -/

theorem values_initial (hgraph : WellFormed s) : Values s (initialState s) := by
  have hhost : ∀ v < s.numVertices, v < s.numVertices * (s.numCsds + 1) :=
    fun v hv => lt_of_lt_of_le hv
      (Nat.le_mul_of_pos_right _ (Nat.succ_pos _))
  constructor
  · exact fun v hv => if_pos hv
  · intro v hv
    refine (if_pos (hhost v hv)).trans ?_
    exact (if_pos (mem_columnOrder.mpr (hgraph.columnOf_lt hv))).symm
  · exact fun v hv => if_pos (hhost v hv)
  · intro csd hcsd v hv
    have hzero : ∀ buf : ℕ → ℚ, (if sectionIndex s.numVertices csd v <
        s.numVertices * (s.numCsds + 1) then 0
        else buf (sectionIndex s.numVertices csd v)) = 0 :=
      fun buf => if_pos (sectionIndex_lt hv hcsd)
    change SectionValues s 0 (.release []) csd initialDevice v (if _ then _
      else _) (if _ then _ else _)
    rw [hzero, hzero]
    exact ⟨fun hun => absurd hun.1 (Nat.not_lt_zero _), fun _ _ => rfl,
      fun _ _ => add_zero 0, fun _ => add_zero 0⟩
  · exact fun _ _ => trivial

/-- What is kept by every step with `row_overlap` 0. -/
structure RunValues (s : Setup) (st : State) : Prop where
  inv : Inv s st
  sources : SourcesFinal s st
  finished : Finished s st
  remaining : HostRemaining s st.host
  values : Values s st

theorem runValues_step (hgraph : WellFormed s)
    (hpagerank : s.algorithm = .pagerank) (hmode : s.rowOverlap = 0)
    (hearly : RunsEarly s) (hrun : RunValues s st)
    (hstep : step s actor st = some st') : RunValues s st' := by
  have hpicks := picksBlocks_of_mode hrun.inv (by omega) (by omega) actor
  have hready := takesReady_of_mode hrun.inv hmode actor
  refine ⟨step_inv hpicks hrun.inv hstep,
    sourcesFinal_step hrun.inv hrun.sources hpicks hready hstep,
    finished_step hrun.inv hrun.finished hstep,
    hostRemaining_step hrun.remaining hstep, ?_⟩
  have hcaught := hrun.finished.caughtUp hrun.inv hrun.remaining
  cases actor with
  | host =>
      exact values_host hrun.values hgraph hpagerank hrun.inv hrun.finished
        hcaught hrun.remaining hearly hstep
  | dispatcher csd =>
      simp only [step] at hstep
      split at hstep
      · obtain ⟨devices, rfl, hdevices⟩ := dispatchStep_frame hstep
        have hvalues := hrun.values
        refine ⟨hvalues.buf0_eq, hvalues.buf1_eq, hvalues.buf2_eq, ?_, ?_⟩
        · intro other hother v hv
          obtain ⟨sq, dispatched, normalQueue, hdev⟩ := hdevices other
          change SectionValues s st.iter st.host other (devices other) v _ _
          rw [hdev]
          exact (hvalues.sections other hother v hv).congr Iff.rfl
            (fun _ _ => rfl) (fun _ => rfl) fun _ => rfl
        · intro other hother
          obtain ⟨sq, dispatched, normalQueue, hdev⟩ := hdevices other
          change Remaining s (devices other)
          rw [hdev]
          exact hvalues.remaining other hother
      · cases hstep
  | worker csd =>
      simp only [step] at hstep
      split at hstep
      · rename_i hcsd
        exact values_worker hrun.values hgraph hpagerank hrun.inv hrun.finished
          hcaught hearly hcsd (hrun.sources csd hcsd) (hpicks hcsd)
          (workerStep_effect hstep)
      · cases hstep

theorem runValues_stateAfter (hgraph : WellFormed s)
    (hpagerank : s.algorithm = .pagerank) (hmode : s.rowOverlap = 0)
    (hearly : RunsEarly s) (schedule : List Actor) :
    RunValues s (stateAfter s schedule) :=
  Interleaving.run_invariant (step s)
    (fun _ _ _ hrun hstep =>
      runValues_step hgraph hpagerank hmode hearly hrun hstep)
    schedule ⟨inv_initial s, fun _ _ => trivial, finished_initial s, trivial,
      values_initial hgraph⟩

/-- For PageRank with `row_overlap` 0, on a graph with an edge of both corner
blocks on each device: every run of the dual-queue loop can be finished, and
when the host has left the loop and flushed the devices, the vertex values are
those of the normal loop. -/
theorem dual_queue_eq_normal (s : Setup) (hgraph : WellFormed s)
    (hpagerank : s.algorithm = .pagerank) (hmode : s.rowOverlap = 0)
    (hcorners : ∀ csd < s.numCsds, blockEdges s.toConfig 0 0 csd ≠ [] ∧
      blockEdges s.toConfig (s.numPartitions - 1) (s.numPartitions - 1) csd ≠
        [])
    (stats stats' : ℕ → ℕ → ℚ) (schedule : List Actor) :
    let st := stateAfter s schedule
    (∃ schedule', (stateAfter s (schedule ++ schedule')).host = .finished) ∧
      (st.host = .finished → ∃ normal dual,
        csdProcEdgeLoopNormal s.toConfig stats s.numIters
            (initCsdsData s.toConfig s.initial s.mem) = some normal ∧
          flushCsdDram s.toConfig stats' st.mem = some dual ∧
          ∀ v < s.numVertices, dual.buf0 v = normal.buf0 v) := by
  intro st
  have hearly : RunsEarly s := by
    apply runsEarly_of_corners
    intro k _ _ csd hcsd hlength
    have hempty : blockEdges s.toConfig (firstColumn s k) (firstColumn s k)
        csd = [] := by
      rw [blockEdges, hlength]
      rfl
    unfold firstColumn at hempty
    split at hempty
    · exact (hcorners csd hcsd).1 hempty
    · exact (hcorners csd hcsd).2 hempty
  have hrun : RunValues s st :=
    runValues_stateAfter hgraph hpagerank hmode hearly schedule
  constructor
  · obtain ⟨schedule', hfinished⟩ := finish_reachable hmode hrun.inv
    refine ⟨schedule', ?_⟩
    rw [stateAfter, Interleaving.run_append]
    exact hfinished
  · intro hhost
    obtain ⟨normal, hnormal, hvalues⟩ := @csdProcEdgeLoopNormal_values
      (s.graph hgraph) stats s.numIters s.initial s.mem
    obtain ⟨dual, hdual, hbuf0⟩ := flushCsdDram_buf0 s.toConfig stats' st.mem
    refine ⟨normal, dual, hnormal, hdual, fun v hv => ?_⟩
    rw [hbuf0, hrun.values.buf0_eq v hv, hrun.inv.finished hhost]
    exact (hvalues v hv).symm

theorem fullGrid_wellFormed : WellFormed fullGrid where
  edge_source := by decide
  edge_target := by decide

theorem dual_queue_eq_normal_fullGrid :
    ∃ schedule, (stateAfter fullGrid schedule).host = .finished ∧
      ∃ normal dual,
        csdProcEdgeLoopNormal fullGrid.toConfig 0 2
            (initCsdsData fullGrid.toConfig (fun _ => 1) default) =
          some normal ∧
        flushCsdDram fullGrid.toConfig 0 (stateAfter fullGrid schedule).mem =
          some dual ∧
        ∀ v < 2, dual.buf0 v = normal.buf0 v := by
  have hcorners : ∀ csd < fullGrid.numCsds,
      blockEdges fullGrid.toConfig 0 0 csd ≠ [] ∧
        blockEdges fullGrid.toConfig (fullGrid.numPartitions - 1)
          (fullGrid.numPartitions - 1) csd ≠ [] := by
    decide
  obtain ⟨⟨schedule, hfinished⟩, -⟩ := dual_queue_eq_normal fullGrid
    fullGrid_wellFormed rfl rfl hcorners 0 0 []
  exact ⟨schedule, hfinished, (dual_queue_eq_normal fullGrid
    fullGrid_wellFormed rfl rfl hcorners 0 0 schedule).2 hfinished⟩

end NvmeVirt.DualQueue
