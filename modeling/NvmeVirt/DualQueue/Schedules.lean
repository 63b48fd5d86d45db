import NvmeVirt.DualQueue.Progress

/-!
# Every schedule carries out the plan

What the invariant says of a run of the engine with `row_overlap` 0: which
blocks a device runs, how often, and for which iteration.
-/

namespace NvmeVirt.DualQueue

open Function NvmeVirt.Csd

variable {s : Setup} {csd : ℕ} {st : State}

/-- The calls of `__proc_edge` for a block and an iteration. -/
def Device.runsOf (dev : Device) (r c iter : ℕ) : List Execution :=
  dev.executions.filter fun e => e.r = r ∧ e.c = c ∧ e.iter = iter

theorem Device.length_runsOf (dev : Device) (r c iter : ℕ) :
    (dev.runsOf r c iter).length =
      (dev.ran false iter).count (r, c) + (dev.ran true iter).count (r, c) := by
  unfold Device.runsOf Device.ran
  simp only [← List.countP_eq_length_filter, List.count, List.countP_map,
    List.countP_filter, Function.comp_def]
  induction dev.executions with
  | nil => rfl
  | cons e rest ih =>
      have hsplit : (e.r = r ∧ e.c = c ∧ e.iter = iter) ↔
          ((e.r, e.c) = (r, c) ∧ e.iter = iter) := by
        rw [Prod.mk.injEq, and_assoc]
      simp only [List.countP_cons, ih, hsplit]
      by_cases hblock : (e.r, e.c) = (r, c) ∧ e.iter = iter
      · cases hfuture : e.future <;> simp [hblock] <;> omega
      · have hother : ∀ future, ((e.r, e.c) == (r, c) &&
            (e.future == future && e.iter == iter)) = false := by
          intro future
          rw [Bool.eq_false_iff]
          intro h
          simp only [Bool.and_eq_true, beq_iff_eq] at h
          exact hblock ⟨h.1, h.2.2⟩
        simp only [hblock, hother, decide_false, Bool.false_eq_true, if_false,
          add_zero]

/-- No future task belongs to the first iteration. -/
theorem DeviceInv.ran_zero {k : ℕ} {dev : Device} {unsent : List (ℕ × ℕ)}
    (h : DeviceInv s csd k dev unsent) : dev.ran true 0 = [] := by
  simp only [Device.ran, List.map_eq_nil_iff, List.filter_eq_nil_iff,
    Bool.and_eq_true, beq_iff_eq]
  rintro e he ⟨hfuture, hiter⟩
  have hhost := (h.history.host_iter e he).1
  rw [hfuture, hiter, if_pos rfl] at hhost
  omega

/-- What a device has run ahead of a finished or the current iteration is what
is carried. -/
theorem DeviceInv.mem_ran_true {k : ℕ} {dev : Device}
    {unsent : List (ℕ × ℕ)} (h : DeviceInv s csd k dev unsent) {iter : ℕ}
    (hiter : iter ≤ k) : (dev.ran true iter).Nodup ∧
      ∀ block : ℕ × ℕ, block.1 < s.numPartitions →
        block.2 < s.numPartitions →
        (block ∈ dev.ran true iter ↔ carried s csd iter block = true) := by
  cases iter with
  | zero =>
      rw [h.ran_zero]
      exact ⟨List.nodup_nil, fun _ _ _ => by simp [carried]⟩
  | succ iter =>
      have hperm := h.history.future_perm iter hiter
      refine ⟨hperm.nodup_iff.mpr ((nodup_normals s csd iter).filter _), ?_⟩
      intro block hr hc
      rw [hperm.mem_iff, List.mem_filter, DualQueue.mem_normals, carried_succ,
        Bool.and_eq_true]
      simp only [hr, hc, true_and]
      exact and_comm

theorem DeviceInv.nodup_ran_next {k : ℕ} {dev : Device}
    {unsent : List (ℕ × ℕ)} (h : DeviceInv s csd k dev unsent) :
    (dev.ran true (k + 1)).Nodup := by
  have hnormals : (dev.ran false k).Nodup := by
    have hnodup := h.normals_eq ▸ nodup_normals s csd k
    rw [List.append_assoc, List.append_assoc] at hnodup
    exact hnodup.of_append_left
  rcases h.phase with hlagging | hworking | hclosed
  · rw [hlagging.ran_eq]
    exact List.nodup_nil
  · obtain ⟨waiting, hwaiting⟩ := hworking.waiting
    have hnodup := hwaiting.perm.nodup_iff.mpr (hnormals.filter (ahead s k))
    exact hnodup.of_append_left.of_append_left
  · exact hclosed.perm.nodup_iff.mpr (hnormals.filter _)

theorem History.ran_later {k : ℕ} {dev : Device} (h : History s csd k dev)
    {future : Bool} {iter : ℕ} (hlt : k + (if future then 1 else 0) < iter) :
    dev.ran future iter = [] := by
  simp only [Device.ran, List.map_eq_nil_iff, List.filter_eq_nil_iff,
    Bool.and_eq_true, beq_iff_eq]
  rintro e he ⟨rfl, rfl⟩
  have hhost := h.host_iter e he
  omega

/-- A portion that is not empty is run once for each iteration that has ended,
and at most once for the others. -/
theorem DeviceInv.length_runsOf {k : ℕ} {dev : Device}
    {unsent : List (ℕ × ℕ)} (h : DeviceInv s csd k dev unsent) {r c : ℕ}
    (hr : r < s.numPartitions) (hc : c < s.numPartitions)
    (hlength : s.edgeBlocksLength r c csd ≠ 0) (iter : ℕ) :
    (dev.runsOf r c iter).length ≤ 1 ∧
      (iter < k → (dev.runsOf r c iter).length = 1) := by
  rw [Device.length_runsOf]
  have hneeded : needed s csd iter (r, c) = !carried s csd iter (r, c) :=
    needed_eq_not_carried s hlength
  have hnormal : (normals s csd iter).count (r, c) =
      if carried s csd iter (r, c) then 0 else 1 := by
    rw [(nodup_normals s csd iter).count]
    simp only [DualQueue.mem_normals, hr, hc, hneeded, and_self, true_and]
    cases carried s csd iter (r, c) <;> rfl
  have hfuture : iter ≤ k → (dev.ran true iter).count (r, c) =
      if carried s csd iter (r, c) then 1 else 0 := by
    intro hle
    obtain ⟨hnodup, hmem⟩ := h.mem_ran_true hle
    rw [hnodup.count]
    simp only [hmem (r, c) hr hc]
  rcases Nat.lt_trichotomy iter k with hlt | rfl | hgt
  · rw [h.history.normal_eq iter hlt, hnormal, hfuture hlt.le]
    split <;> simp
  · have hle : (dev.ran false iter).count (r, c) ≤
        (normals s csd iter).count (r, c) := by
      rw [← h.normals_eq, List.append_assoc, List.append_assoc,
        List.count_append]
      exact Nat.le_add_right _ _
    rw [hfuture le_rfl]
    rw [hnormal] at hle
    refine ⟨?_, fun hlt => absurd hlt (lt_irrefl _)⟩
    split at hle <;> simp_all
  · rw [h.history.ran_later (by simpa using hgt), List.count_nil, zero_add]
    refine ⟨?_, fun hlt => absurd hlt (by omega)⟩
    rcases Nat.lt_or_ge (k + 1) iter with hlater | hnext
    · rw [h.history.ran_later (by simpa using hlater), List.count_nil]
      exact Nat.zero_le _
    · obtain rfl : iter = k + 1 := by omega
      exact List.nodup_iff_count_le_one.mp h.nodup_ran_next _

theorem Inv.finished (h : Inv s st) (hhost : st.host = .finished) :
    st.iter = s.numIters := by
  have htimely := h.timely
  rw [hhost] at htimely
  exact le_antisymm h.iter_le htimely

/-- A future task is run in the iteration before its own, a normal task in its
own. -/
theorem DeviceInv.hostIter_eq {k : ℕ} {dev : Device} {unsent : List (ℕ × ℕ)}
    (h : DeviceInv s csd k dev unsent) {r c iter : ℕ} {e : Execution}
    (he : e ∈ dev.runsOf r c iter) :
    if e.future then e.hostIter + 1 = iter else e.hostIter = iter := by
  obtain ⟨hmem, hmatch⟩ := List.mem_filter.mp he
  simp only [decide_eq_true_eq] at hmatch
  have hhost := (h.history.host_iter e hmem).1
  rw [hmatch.2.2] at hhost
  cases hfuture : e.future <;> simp [hfuture] at hhost ⊢ <;> omega

/-- The engine with `row_overlap` 0, after any schedule of the host, the
dispatchers and the workers.  The loop of the host can still be finished.  A
non-empty portion has been run at most once for each iteration, and when the
loop is finished exactly once, as a normal task in its iteration or as a future
task in the one before.  The source partition of a future task that is running
has been announced.  A worker is in the end-of-iteration branch with an empty
normal queue and with the marker alone in the future queue. -/
theorem portions_run_exactly_once (s : Setup) (hmode : s.rowOverlap = 0)
    (schedule : List Actor) :
    let st := stateAfter s schedule
    (∃ schedule', (stateAfter s (schedule ++ schedule')).host = .finished) ∧
      (∀ csd < s.numCsds, ∀ r < s.numPartitions, ∀ c < s.numPartitions,
        s.edgeBlocksLength r c csd ≠ 0 → ∀ iter,
          ((st.devices csd).runsOf r c iter).length ≤ 1 ∧
            (st.host = .finished → iter < s.numIters →
              ((st.devices csd).runsOf r c iter).length = 1) ∧
            ∀ e ∈ (st.devices csd).runsOf r c iter,
              if e.future then e.hostIter + 1 = iter
              else e.hostIter = iter) ∧
      SourcesFinal s st ∧
      ∀ csd < s.numCsds, ∀ front, (st.devices csd).worker = .await front →
        (st.devices csd).normalQueue = [] ∧
          (st.devices csd).futureQueue = [front] ∧
          front = marker s csd st.iter := by
  intro st
  have hone : s.rowOverlap ≠ 1 := by omega
  have htwo : s.rowOverlap ≠ 2 := by omega
  have h : Inv s st := inv_stateAfter hone htwo schedule
  refine ⟨?_, ?_, ?_, ?_⟩
  · obtain ⟨schedule', hfinished⟩ := finish_reachable hmode h
    refine ⟨schedule', ?_⟩
    rw [stateAfter, Interleaving.run_append]
    exact hfinished
  · intro csd hcsd r hr c hc hlength iter
    have hdev := h.devices csd hcsd
    obtain ⟨hle, hended⟩ := hdev.length_runsOf hr hc hlength iter
    refine ⟨hle, fun hhost hiter => ?_, fun e he => hdev.hostIter_eq he⟩
    exact hended (h.finished hhost ▸ hiter)
  · exact sourcesFinal_of_mode hmode schedule
  · intro csd hcsd front hworker
    have hdev := h.devices csd hcsd
    have hworking := hdev.working (by simp [hworker]) (by simp [hworker])
      (by simp [hworker])
    obtain ⟨hnormal, hfuture, -⟩ := hdev.closeIteration hworking hworker
    have hok := hworking.worker_ok
    simp only [WorkerOk, hworker] at hok
    exact ⟨hnormal, hfuture, hok.1⟩

theorem portions_run_exactly_once_fullGrid :
    ∃ schedule, (stateAfter fullGrid schedule).host = .finished ∧
      (((stateAfter fullGrid schedule).devices 0).runsOf 0 1 1).length = 1 := by
  obtain ⟨⟨schedule, hfinished⟩, -⟩ :=
    portions_run_exactly_once fullGrid rfl []
  refine ⟨schedule, hfinished, ?_⟩
  exact ((portions_run_exactly_once fullGrid rfl schedule).2.1 0 (by decide) 0
    (by decide) 1 (by decide) (by decide) 1).2.1 hfinished (by decide)

end NvmeVirt.DualQueue
