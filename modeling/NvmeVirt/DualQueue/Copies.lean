import NvmeVirt.DualQueue.Sources

/-!
# The copy that closes an iteration

Nothing tells the host that a device has finished the copy from `buf2` to
`buf1` after it was released.  The host only waits for the columns of the next
iteration, one after the other.  A device that has a block of one of these
columns to run runs it after the copy, so the host cannot overtake the copy
once it has passed such a column.
-/

namespace NvmeVirt.DualQueue

open Function NvmeVirt.Csd

variable {s : Setup} {csd : ℕ} {st st' : State} {actor : Actor}

/-- The host folds a section in and clears it only when the device has finished
the copies that close all iterations before. -/
def MergesCopied (st : State) : Prop :=
  ∀ c rest v csd todo, st.host = .merge c rest ((v, csd) :: todo) →
    (st.devices csd).copies = st.iter

/-- In every iteration but the first, each device has a block to run in the
first column with vertices that is aggregated, or in a column before. -/
def RunsEarly (s : Setup) : Prop :=
  ∀ k < s.numIters, 0 < k → ∀ csd < s.numCsds, ∀ before c after,
    columnOrder s k = before ++ c :: after →
    partitionVertices s.toConfig c ≠ [] →
    ∃ column ∈ before ++ [c], ∃ r < s.numPartitions,
      needed s csd k (r, column) = true

/-- The column that is aggregated first. -/
def firstColumn (s : Setup) (k : ℕ) : ℕ :=
  if k % 2 = 0 then 0 else s.numPartitions - 1

theorem columnOrder_eq_cons (s : Setup) (k : ℕ) :
    ∃ rest, columnOrder s k = firstColumn s k :: rest := by
  obtain ⟨p, hp⟩ := Nat.exists_eq_add_of_le' s.two_partitions
  unfold columnOrder firstColumn
  split
  · rw [hp, List.range_succ_eq_map]
    exact ⟨_, rfl⟩
  · rw [hp, List.range_succ, List.reverse_concat]
    exact ⟨_, rfl⟩

/-- The block on the diagonal of the first column is never run ahead of time.
-/
theorem needed_firstColumn (k : ℕ)
    (hlength : s.edgeBlocksLength (firstColumn s k) (firstColumn s k) csd ≠ 0) :
    needed s csd k (firstColumn s k, firstColumn s k) = true := by
  rw [needed_eq_not_carried s hlength, Bool.not_eq_true']
  rw [Bool.eq_false_iff]
  intro hcarried
  have hside := carried_side s hcarried
  unfold firstColumn at hside
  split at hside
  · exact lt_irrefl _ hside
  · exact hside.2 rfl

/-- It is enough that the portions of the two corner blocks on the diagonal are
not empty. -/
theorem runsEarly_of_corners
    (hcorners : ∀ k < s.numIters, 0 < k → ∀ csd < s.numCsds,
      s.edgeBlocksLength (firstColumn s k) (firstColumn s k) csd ≠ 0) :
    RunsEarly s := by
  intro k hk hpos csd hcsd before c after horder _
  have htwo := s.two_partitions
  obtain ⟨rest, hrest⟩ := columnOrder_eq_cons s k
  refine ⟨firstColumn s k, ?_, firstColumn s k, ?_,
    needed_firstColumn k (hcorners k hk hpos csd hcsd)⟩
  · rw [hrest] at horder
    cases before with
    | nil => simp [(List.cons.inj horder).1]
    | cons first others => simp [(List.cons.inj horder).1]
  · unfold firstColumn
    split <;> omega

/-! ## Invariant -/

/-- The columns of iteration `k` that the host has not yet found finished. -/
def HostPc.unfinished (s : Setup) (k : ℕ) : HostPc → List ℕ
  | .aggr columns => columns
  | .merge _ rest _ | .damp _ rest _ | .notify _ rest => rest
  | .wait => []
  | .send _ | .release _ | .finished => columnOrder s k

/-- A device with a block in a finished column has finished its copy. -/
structure CaughtUp (s : Setup) (st : State) : Prop where
  copies_eq : ∀ c < s.numPartitions, c ∉ st.host.unfinished s st.iter →
    ∀ csd < s.numCsds, ∀ r < s.numPartitions,
      needed s csd st.iter (r, c) = true → (st.devices csd).copies = st.iter
  cells : ∀ c rest todo, st.host = .merge c rest todo → todo ⊆ mergeTodo s c

/-- All blocks of a finished column that were to be run have been run. -/
def Finished (s : Setup) (st : State) : Prop :=
  ∀ c < s.numPartitions, c ∉ st.host.unfinished s st.iter →
    ∀ csd < s.numCsds, ∀ r < s.numPartitions,
      needed s csd st.iter (r, c) = true →
        (r, c) ∈ (st.devices csd).ran false st.iter

/-- What the host has still to visit is a part of what there was. -/
def HostRemaining (s : Setup) : HostPc → Prop
  | .merge c _ todo => todo <:+ mergeTodo s c
  | .damp c _ todo => todo <:+ partitionVertices s.toConfig c
  | _ => True

theorem DeviceInv.copies_of_ran {k : ℕ} {dev : Device}
    {unsent : List (ℕ × ℕ)} (h : DeviceInv s csd k dev unsent)
    (hran : dev.ran false k ≠ []) : dev.copies = k := by
  rcases h.phase with hlagging | hworking | hclosed
  · exact absurd hlagging.ran_normal_eq hran
  · exact hworking.copies_eq
  · exact hclosed.copies_eq

/-- A block that is needed and done has been run. -/
theorem Inv.ran_of_done (h : Inv s st) (hcsd : csd < s.numCsds) {r c : ℕ}
    (hr : r < s.numPartitions) (hc : c < s.numPartitions)
    (hneeded : needed s csd st.iter (r, c) = true)
    (hdone : st.mem.done1 (blockId s.numPartitions csd r c) = true) :
    (r, c) ∈ (st.devices csd).ran false st.iter := by
  rw [needed, Bool.and_eq_true, Bool.not_eq_true'] at hneeded
  rcases ((h.flags csd hcsd).done1_iff r hr c hc).mp hdone with
    hran | hcarried | ⟨hempty, -⟩
  · exact hran
  · rw [hneeded.2] at hcarried
    cases hcarried
  · rw [hneeded.1] at hempty
    cases hempty

theorem aggrReady_iff (mem : Hmb) (c : ℕ) :
    aggrReady s mem c = true ↔ ∀ r < s.numPartitions, ∀ csd < s.numCsds,
      mem.done1 (blockId s.numPartitions csd r c) = true := by
  simp only [aggrReady, List.all_eq_true, List.mem_range]

/-- A worker leaves the iteration and the host alone. -/
theorem WorkerEffect.host_eq (heffect : WorkerEffect s csd st st') :
    st'.iter = st.iter ∧ st'.host = st.host := by
  cases heffect <;> exact ⟨rfl, rfl⟩

theorem finished_initial (s : Setup) : Finished s (initialState s) :=
  fun _ hc hnot => absurd (mem_columnOrder.mpr hc) hnot

theorem Finished.frame (hfinished : Finished s st) (hiter : st'.iter = st.iter)
    (hhost : st'.host = st.host)
    (hran : ∀ csd < s.numCsds, (st.devices csd).ran false st.iter ⊆
      (st'.devices csd).ran false st.iter) : Finished s st' := by
  intro c hc hnot csd hcsd r hr hneeded
  rw [hiter, hhost] at hnot
  rw [hiter] at hneeded ⊢
  exact hran csd hcsd (hfinished c hc hnot csd hcsd r hr hneeded)

/-- A worker forgets no execution. -/
theorem WorkerEffect.ran_subset (heffect : WorkerEffect s csd st st')
    (other : ℕ) (future : Bool) (iter : ℕ) :
    (st.devices other).ran future iter ⊆
      (st'.devices other).ran future iter := by
  by_cases hne : other ≠ csd
  · rw [heffect.others hne]
    exact List.Subset.refl _
  · obtain rfl := not_not.mp hne
    cases heffect with
    | complete =>
        rw [State.devices_setDevice_self, Device.ran_complete]
        exact List.subset_append_left _ _
    | move | close | raise | leave | copy | copied | normal | front | found
    | missed | edge =>
        simp only [State.setWorker, takeFuture, State.devices_setDevice_self]
        exact List.Subset.refl _

theorem finished_host (h : Inv s st) (hfinished : Finished s st)
    (hstep : hostStep s st = some st') : Finished s st' := by
  have hcolumns : ∀ k, ∀ c < s.numPartitions, c ∉ columnOrder s k → False :=
    fun k c hc hnot => hnot (mem_columnOrder.mpr hc)
  have hbefore := hfinished
  unfold Finished at hbefore
  cases hostStep_effect hstep with
  | @column c rest hhost hready =>
      rw [hhost] at hbefore
      intro c' hc' hnot csd hcsd r hr hneeded
      by_cases hsame : c' = c
      · subst hsame
        have hdone := (aggrReady_iff st.mem c').mp hready r hr csd hcsd
        exact h.ran_of_done hcsd hr hc' hneeded hdone
      · exact hbefore c' hc' (List.not_mem_cons_of_ne_of_not_mem hsame hnot)
          csd hcsd r hr hneeded
  | sent hhost | aggregated hhost | merge hhost | merged hhost | damp hhost
  | damped hhost | notify hhost =>
      rw [hhost] at hbefore
      exact hbefore
  | @send r c csd rest hhost =>
      have hnext : (sendStep s st r c csd rest).host = .send rest := by
        rw [sendStep_eq]
        dsimp only
        split <;> rfl
      intro c' hc' hnot
      rw [hnext] at hnot
      exact (hcolumns _ c' hc' hnot).elim
  | replace hhost | release hhost | start hhost | finish hhost =>
      exact fun c hc hnot => (hcolumns _ c hc hnot).elim

theorem finished_step (h : Inv s st) (hfinished : Finished s st)
    (hstep : step s actor st = some st') : Finished s st' := by
  cases actor with
  | host => exact finished_host h hfinished hstep
  | dispatcher csd =>
      simp only [step] at hstep
      split at hstep
      · obtain ⟨devices, rfl, hdevices⟩ := dispatchStep_frame hstep
        refine hfinished.frame rfl rfl (fun other _ => ?_)
        obtain ⟨sq, dispatched, normalQueue, hdev⟩ := hdevices other
        change _ ⊆ (devices other).ran false st.iter
        rw [hdev]
        exact List.Subset.refl _
      · cases hstep
  | worker csd =>
      simp only [step] at hstep
      split at hstep
      · rename_i hcsd
        have heffect := workerStep_effect hstep
        obtain ⟨hiter, hhost⟩ := heffect.host_eq
        exact hfinished.frame hiter hhost
          fun other _ => heffect.ran_subset other false st.iter
      · cases hstep

theorem hostRemaining_host (hremaining : HostRemaining s st.host)
    (hstep : hostStep s st = some st') : HostRemaining s st'.host := by
  cases hostStep_effect hstep with
  | column | merged => exact List.suffix_rfl
  | merge hhost =>
      rw [hhost] at hremaining
      exact (List.suffix_cons _ _).trans hremaining
  | damp hhost =>
      rw [hhost] at hremaining
      exact (List.suffix_cons _ _).trans hremaining
  | @send r c csd rest hhost =>
      rw [sendStep_eq]
      dsimp only
      split <;> trivial
  | sent | aggregated | damped | notify | replace | release | start | finish =>
      trivial

theorem hostRemaining_step (hremaining : HostRemaining s st.host)
    (hstep : step s actor st = some st') : HostRemaining s st'.host := by
  cases actor with
  | host => exact hostRemaining_host hremaining hstep
  | dispatcher csd =>
      simp only [step] at hstep
      split at hstep
      · obtain ⟨devices, rfl, -⟩ := dispatchStep_frame hstep
        exact hremaining
      · cases hstep
  | worker csd =>
      simp only [step] at hstep
      split at hstep
      · rw [(workerStep_effect hstep).host_eq.2]
        exact hremaining
      · cases hstep

theorem Finished.caughtUp (hfinished : Finished s st) (h : Inv s st)
    (hremaining : HostRemaining s st.host) : CaughtUp s st where
  copies_eq := by
    intro c hc hnot csd hcsd r hr hneeded
    have hran := hfinished c hc hnot csd hcsd r hr hneeded
    exact (h.devices csd hcsd).copies_of_ran (List.ne_nil_of_mem hran)
  cells := by
    intro c rest todo hhost
    rw [hhost] at hremaining
    exact hremaining.subset

theorem Inv.unfinished_suffix (h : Inv s st) :
    st.host.unfinished s st.iter <:+ columnOrder s st.iter := by
  have hsuffix := h.columns_suffix
  cases hhost : st.host with
  | merge c rest todo | damp c rest todo | notify c rest =>
      rw [hhost] at hsuffix
      exact (List.suffix_cons c rest).trans hsuffix
  | aggr columns =>
      rw [hhost] at hsuffix
      exact hsuffix
  | wait => exact List.nil_suffix
  | send | release | finished => exact List.suffix_rfl

/-- A device has finished its copy when a column with vertices is finished. -/
theorem CaughtUp.copies_of_finished (hcaught : CaughtUp s st) (h : Inv s st)
    (hearly : RunsEarly s) (hcsd : csd < s.numCsds) {c : ℕ}
    (hc : c < s.numPartitions)
    (hnot : c ∉ st.host.unfinished s st.iter)
    (hvertices : partitionVertices s.toConfig c ≠ []) :
    (st.devices csd).copies = st.iter := by
  have hdev := h.devices csd hcsd
  rcases Nat.eq_zero_or_pos st.iter with hzero | hpos
  · -- There is no copy before the first iteration.
    rcases hdev.phase with hlagging | hworking | hclosed
    · have hlate := hlagging.copies_eq
      omega
    · exact hworking.copies_eq
    · exact hclosed.copies_eq
  · have htimely : st.iter < s.numIters := by
      have htimely := h.timely
      cases hhost : st.host with
      | release | finished =>
          rw [hhost] at hnot
          exact absurd (mem_columnOrder.mpr hc) hnot
      | _ =>
          rw [hhost] at htimely
          exact htimely
    obtain ⟨visited, hvisited⟩ := h.unfinished_suffix
    have hmem : c ∈ visited := by
      have hmem := mem_columnOrder (s := s) (k := st.iter).mpr hc
      rw [← hvisited] at hmem
      exact (List.mem_append.mp hmem).resolve_right hnot
    obtain ⟨before, after, hsplit⟩ := List.append_of_mem hmem
    have horder : columnOrder s st.iter =
        before ++ c :: (after ++ st.host.unfinished s st.iter) := by
      rw [← hvisited, hsplit]
      simp
    obtain ⟨column, hcolumn, r, hr, hneeded⟩ := hearly st.iter htimely hpos
      csd hcsd before c _ horder hvertices
    have hbefore : column ∈ visited := by
      rw [hsplit, List.append_cons]
      exact List.mem_append_left _ hcolumn
    have hnodup := nodup_columnOrder s st.iter
    rw [← hvisited] at hnodup
    have hlt : column < s.numPartitions := by
      rw [← mem_columnOrder (k := st.iter), ← hvisited]
      exact List.mem_append_left _ hbefore
    exact hcaught.copies_eq column hlt
      (fun hlater => List.disjoint_of_nodup_append hnodup hbefore hlater)
      csd hcsd r hr hneeded

/-! ## Runs -/

theorem mem_mergeTodo {c v : ℕ} : (v, csd) ∈ mergeTodo s c ↔
    v ∈ partitionVertices s.toConfig c ∧ csd < s.numCsds := by
  simp [mergeTodo]

/-- The column that the host aggregates has not been announced. -/
theorem Inv.current_column (h : Inv s st) {c : ℕ} {rest : List ℕ}
    (hcolumns : st.host.columns s st.iter = c :: rest) :
    c < s.numPartitions ∧ c ∉ rest := by
  have hsuffix := h.columns_suffix
  rw [hcolumns] at hsuffix
  have hnodup := (nodup_columnOrder s st.iter).sublist hsuffix.sublist
  exact ⟨mem_columnOrder.mp (hsuffix.mem List.mem_cons_self),
    (List.nodup_cons.mp hnodup).1⟩

/-- The host merges a section only after its device has caught up. -/
theorem mergesCopied_of_caughtUp (h : Inv s st) (hcaught : CaughtUp s st)
    (hearly : RunsEarly s) : MergesCopied st := by
  intro c rest v csd todo hhost
  have hmem := hcaught.cells c rest _ hhost List.mem_cons_self
  obtain ⟨hv, hcsd⟩ := mem_mergeTodo.mp hmem
  have hcolumns : st.host.columns s st.iter = c :: rest := by rw [hhost]; rfl
  obtain ⟨hc, hfresh⟩ := h.current_column hcolumns
  apply hcaught.copies_of_finished h hearly hcsd hc _ (List.ne_nil_of_mem hv)
  rw [hhost]
  exact hfresh

/-- With `row_overlap` 0 no section is folded in and cleared before its device
has copied the future values into it. -/
theorem sections_merged_after_copy (s : Setup) (hmode : s.rowOverlap = 0)
    (hearly : RunsEarly s) (schedule : List Actor) :
    MergesCopied (stateAfter s schedule) := by
  have hone : s.rowOverlap ≠ 1 := by omega
  have htwo : s.rowOverlap ≠ 2 := by omega
  have hkeeps : ∀ actor st st',
      Inv s st ∧ Finished s st ∧ HostRemaining s st.host →
      step s actor st = some st' →
      Inv s st' ∧ Finished s st' ∧ HostRemaining s st'.host := by
    rintro actor st st' ⟨h, hfinished, hremaining⟩ hstep
    exact ⟨step_inv (picksBlocks_of_mode h hone htwo actor) h hstep,
      finished_step h hfinished hstep, hostRemaining_step hremaining hstep⟩
  obtain ⟨h, hfinished, hremaining⟩ := Interleaving.run_invariant (step s)
    hkeeps schedule ⟨inv_initial s, finished_initial s, trivial⟩
  exact mergesCopied_of_caughtUp h (hfinished.caughtUp h hremaining) hearly

/-- The first iteration of a grid of two partitions, in which the device runs
its four blocks before the host looks for them, up to the wait of both at the
barrier. -/
def firstIteration : List Actor :=
  List.replicate 6 Actor.host ++ List.replicate 8 (Actor.dispatcher 0) ++
    List.replicate 20 (Actor.worker 0) ++ List.replicate 13 Actor.host ++
    List.replicate 12 (Actor.worker 0)

/-- The start of the second iteration: the device copies its section and runs
block `(1, 1)`, and the host goes on to the first column. -/
def secondIteration : List Actor :=
  firstIteration ++ List.replicate 9 Actor.host ++
    List.replicate 4 (Actor.dispatcher 0) ++
    List.replicate 8 (Actor.worker 0) ++ [Actor.host]

theorem sections_merged_after_copy_corners :
    (stateAfter fullGrid secondIteration).host = .merge 1 [0] [(1, 0)] ∧
      MergesCopied (stateAfter fullGrid secondIteration) := by
  have hcorners : RunsEarly fullGrid := by
    apply runsEarly_of_corners
    intro k _ _ csd _
    exact Nat.succ_ne_zero 7
  refine ⟨by decide +kernel, ?_⟩
  exact sections_merged_after_copy fullGrid rfl hcorners secondIteration

/-- The grid without an edge in block `(1, 1)`. -/
def cornerlessGrid : Setup :=
  gridSetup 2 2 0 (fun r c => if r = 1 ∧ c = 1 then 0 else 8)
    fullGrid.two_partitions

/-- The host passes the first column of the second iteration at once, while the
device stands before its copy. -/
theorem section_merged_before_copy :
    let st := stateAfter cornerlessGrid
      (firstIteration ++ List.replicate 9 Actor.host)
    st.host = .merge 1 [0] [(1, 0)] ∧ st.iter = 1 ∧
      (st.devices 0).copies = 0 ∧ ¬ MergesCopied st := by
  intro st
  have hhost : st.host = .merge 1 [0] [(1, 0)] := by decide +kernel
  have hiter : st.iter = 1 := by decide +kernel
  have hcopies : (st.devices 0).copies = 0 := by decide +kernel
  refine ⟨hhost, hiter, hcopies, fun hmerges => ?_⟩
  have heq := hmerges 1 [0] 1 0 [] hhost
  rw [hiter, hcopies] at heq
  cases heq

end NvmeVirt.DualQueue
