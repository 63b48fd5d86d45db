import NvmeVirt.DualQueue.Devices

/-!
# Steps of a device

Each change that a worker, a dispatcher or the host makes to a device keeps the
invariant of the device.
-/

namespace NvmeVirt.DualQueue

open Function NvmeVirt.Csd

variable {s : Setup} {csd k : ℕ} {dev : Device} {unsent : List (ℕ × ℕ)}

/-- The worker goes to another place in its loop. -/
theorem DeviceInv.moveWorker (h : DeviceInv s csd k dev unsent)
    (hworking : Working s csd k dev) {worker : WorkerPc}
    (hrunning : ∀ f, { dev with worker := worker }.running f = dev.running f)
    (hok : WorkerOk s csd k { dev with worker := worker }) :
    DeviceInv s csd k { dev with worker := worker } unsent where
  history := ⟨h.history.normal_eq, h.history.future_perm,
    h.history.host_iter⟩
  normals_eq := by
    rw [hrunning]
    exact h.normals_eq
  queued_tasks := h.queued_tasks
  all_unsent := h.all_unsent
  phase := by
    obtain ⟨waiting, hwaiting⟩ := hworking.waiting
    refine .inr (.inl ⟨hworking.copies_eq, hok, waiting, hwaiting.queue_eq, ?_,
      hwaiting.sublist⟩)
    rw [hrunning]
    exact hwaiting.perm

/-- The worker takes the front of the normal queue. -/
theorem DeviceInv.takeNormal (h : DeviceInv s csd k dev unsent)
    (hworking : Working s csd k dev) (hidle : ∀ f, dev.running f = [])
    {node : ProcEdge} {rest : List ProcEdge}
    (hqueue : dev.normalQueue = node :: rest) :
    DeviceInv s csd k { dev with
      normalQueue := rest
      worker := startRun s false node } unsent where
  history := ⟨h.history.normal_eq, h.history.future_perm,
    h.history.host_iter⟩
  normals_eq := by
    have heq := h.normals_eq
    rw [hidle, Device.queued, hqueue] at heq
    simpa [Device.running, startRun, Device.queued, Device.ran] using heq
  queued_tasks := by
    intro other hother
    apply h.queued_tasks
    rw [Device.queued, hqueue, List.append_assoc, List.cons_append]
    apply List.mem_cons_of_mem
    simpa [Device.queued] using hother
  all_unsent := h.all_unsent
  phase := by
    obtain ⟨waiting, hwaiting⟩ := hworking.waiting
    refine .inr (.inl ⟨hworking.copies_eq, ?_, waiting, hwaiting.queue_eq, ?_,
      hwaiting.sublist⟩)
    · exact h.queued_tasks node (by simp [Device.queued, hqueue])
    · have hperm := hwaiting.perm
      rw [hidle] at hperm
      exact hperm

/-- `find_next_future_task` takes a task that is not the marker. -/
theorem DeviceInv.takeFuture (h : DeviceInv s csd k dev unsent)
    (hworking : Working s csd k dev) (hidle : ∀ f, dev.running f = [])
    {i : ℕ} {node : ProcEdge} (hnode : dev.futureQueue[i]? = some node)
    (hmarker : endsIteration node = false) :
    DeviceInv s csd k { dev with
      futureQueue := dev.futureQueue.eraseIdx i
      worker := startRun s true node } unsent where
  history := ⟨h.history.normal_eq, h.history.future_perm,
    h.history.host_iter⟩
  normals_eq := by
    have heq := h.normals_eq
    rw [hidle] at heq
    exact heq
  queued_tasks := h.queued_tasks
  all_unsent := h.all_unsent
  phase := by
    obtain ⟨waiting, hwaiting⟩ := hworking.waiting
    have hqueue := hwaiting.queue_eq
    -- The marker is the last element, so the position is one of a block.
    have hlt : i < waiting.length := by
      by_contra hge
      rw [hqueue, List.getElem?_append_right (by simpa using hge)] at hnode
      have hmem := List.mem_of_getElem? hnode
      split at hmem
      · rw [List.mem_singleton.mp hmem, endsIteration_marker] at hmarker
        cases hmarker
      · simp at hmem
    have hnode' : node = task s csd (k + 1) waiting[i] true := by
      rw [hqueue, List.getElem?_append_left (by simpa using hlt),
        List.getElem?_map, List.getElem?_eq_getElem hlt] at hnode
      exact (Option.some.inj hnode).symm
    refine .inr (.inl ⟨hworking.copies_eq, ?_, waiting.eraseIdx i, ?_, ?_,
      (List.eraseIdx_sublist _ _).trans hwaiting.sublist⟩)
    · rw [hnode']
      exact rfl
    · change dev.futureQueue.eraseIdx i = _
      rw [hqueue, List.eraseIdx_append_of_lt_length (by simpa using hlt),
        List.eraseIdx_map]
      rfl
    · have hperm := hwaiting.perm
      rw [hidle, List.append_nil] at hperm
      refine List.Perm.trans ?_ hperm
      change (dev.ran true (k + 1) ++ [blockOf node] ++
        waiting.eraseIdx i).Perm _
      rw [hnode', blockOf_task, List.append_assoc]
      exact (List.getElem_cons_eraseIdx_perm hlt).append_left _

/-! ## The end of a task -/

/-- The device after the worker has finished a task in iteration `hostIter`. -/
def Device.complete (dev : Device) (hostIter : ℕ) (future : Bool)
    (node : ProcEdge) : Device :=
  { dev with
    futureQueue := dev.futureQueue ++
      if future then afterFuture node else afterNormal node
    worker := .top
    executions := dev.executions ++
      [⟨node.r, node.c, node.iter, future, hostIter⟩] }

theorem Device.ran_complete (dev : Device) (hostIter : ℕ) (future : Bool)
    (node : ProcEdge) (f : Bool) (iter : ℕ) :
    (dev.complete hostIter future node).ran f iter =
      dev.ran f iter ++
        if future = f ∧ node.iter = iter then [blockOf node] else [] := by
  simp only [Device.ran, Device.complete, List.filter_append, List.map_append]
  congr 1
  by_cases hmatch : future = f ∧ node.iter = iter
  · simp [hmatch, blockOf]
  · rw [if_neg hmatch]
    simp only [List.map_eq_nil_iff, List.filter_eq_nil_iff,
      List.mem_singleton, forall_eq, Bool.and_eq_true, beq_iff_eq]
    exact hmatch

theorem History.complete (h : History s csd k dev) {future : Bool}
    {node : ProcEdge}
    (hiter : node.iter = k + if future then 1 else 0) :
    History s csd k (dev.complete k future node) where
  normal_eq := by
    intro iter hlt
    rw [Device.ran_complete, h.normal_eq iter hlt, if_neg, List.append_nil]
    rintro ⟨rfl, heq⟩
    simp only [Bool.false_eq_true, if_false] at hiter
    omega
  future_perm := by
    intro iter hlt
    rw [Device.ran_complete, if_neg, List.append_nil]
    · exact h.future_perm iter hlt
    · rintro ⟨rfl, heq⟩
      simp only [if_true] at hiter
      omega
  host_iter := by
    intro e he
    rcases List.mem_append.mp he with hold | hnew
    · exact h.host_iter e hold
    · rw [List.mem_singleton.mp hnew]
      exact ⟨hiter, le_rfl⟩

theorem Device.queued_complete (dev : Device) (hostIter : ℕ) (future : Bool)
    (node : ProcEdge) : (dev.complete hostIter future node).queued =
      dev.queued := rfl

theorem Device.running_complete (dev : Device) (hostIter : ℕ) (future : Bool)
    (node : ProcEdge) (f : Bool) :
    (dev.complete hostIter future node).running f = [] := rfl

/-- A normal task ends: its block is put into the future queue again if it is
run ahead of time, and the marker follows the end block. -/
theorem DeviceInv.completeNormal (h : DeviceInv s csd k dev unsent)
    (hworking : Working s csd k dev) {node : ProcEdge}
    (hworker : ∀ f, dev.running f = if f then [] else [blockOf node])
    (hnode : node = task s csd k (blockOf node) false) :
    DeviceInv s csd k (dev.complete k false node) unsent := by
  set block := blockOf node with hblock
  have hrunning : dev.running false = [block] := by simpa using hworker false
  have hrunningFuture : dev.running true = [] := by simpa using hworker true
  have hk : k < s.numIters := h.lt_of_started (by simp [hrunning])
  have hiter : node.iter = k := by rw [hnode, task_iter]
  have hran : (dev.complete k false node).ran false k =
      dev.ran false k ++ [block] := by
    rw [Device.ran_complete, if_pos ⟨rfl, hiter⟩]
  have hranFuture : (dev.complete k false node).ran true (k + 1) =
      dev.ran true (k + 1) := by
    rw [Device.ran_complete, if_neg (by simp), List.append_nil]
  refine ⟨h.history.complete (by simpa using hiter), ?_, h.queued_tasks,
    h.all_unsent, .inr (.inl ⟨hworking.copies_eq, trivial, ?_⟩)⟩
  · have heq := h.normals_eq
    rw [hrunning] at heq
    rw [hran, Device.running_complete, Device.queued_complete, List.append_nil]
    exact heq
  · obtain ⟨waiting, hwaiting⟩ := hworking.waiting
    have hnot : ¬ Marked s k dev :=
      not_marked_of_running h hwaiting (by simp [hrunning])
    have hmarked : Marked s k (dev.complete k false node) ↔
        block = endBlock s k ∧ markedLate s k = false := by
      simp only [Marked] at hnot ⊢
      rw [hran, hranFuture]
      by_cases hlate : markedLate s k = true
      · simp only [if_pos hlate] at hnot ⊢
        simp [hnot, hlate]
      · simp only [if_neg hlate] at hnot ⊢
        simp [hnot, hlate, eq_comm]
    have hafter : afterNormal (task s csd k block false) = _ :=
      afterNormal_task s csd hk
    rw [← hnode] at hafter
    refine ⟨waiting ++ if ahead s k block then [block] else [], ?_, ?_, ?_⟩
    · change dev.futureQueue ++ afterNormal node = _
      rw [hwaiting.queue_eq, if_neg hnot, List.append_nil, hafter,
        List.map_append, List.append_assoc]
      simp only [hmarked]
      by_cases hahead : ahead s k block = true
      · simp [hahead]
      · simp [hahead]
    · have hperm := hwaiting.perm
      rw [hrunningFuture, List.append_nil] at hperm
      rw [hran, hranFuture, Device.running_complete, List.append_nil,
        List.filter_append, ← List.append_assoc]
      refine hperm.append ?_
      by_cases hahead : ahead s k block = true
      · simp [hahead]
      · simp [hahead]
    · rw [hran, List.filter_append]
      refine hwaiting.sublist.append ?_
      by_cases hahead : ahead s k block = true
      · simp [hahead]
      · simp [hahead]

/-- A future task ends; in an iteration that goes backwards the marker follows
the end block. -/
theorem DeviceInv.completeFuture (h : DeviceInv s csd k dev unsent)
    (hworking : Working s csd k dev) {node : ProcEdge}
    (hworker : ∀ f, dev.running f = if f then [blockOf node] else [])
    (hnode : node = task s csd (k + 1) (blockOf node) true) :
    DeviceInv s csd k (dev.complete k true node) unsent := by
  set block := blockOf node with hblock
  have hrunning : dev.running true = [block] := by simpa using hworker true
  have hrunningNormal : dev.running false = [] := by simpa using hworker false
  have hiter : node.iter = k + 1 := by rw [hnode, task_iter]
  have hran : (dev.complete k true node).ran false k = dev.ran false k := by
    rw [Device.ran_complete, if_neg (by simp), List.append_nil]
  have hranFuture : (dev.complete k true node).ran true (k + 1) =
      dev.ran true (k + 1) ++ [block] := by
    rw [Device.ran_complete, if_pos ⟨rfl, hiter⟩]
  refine ⟨h.history.complete (by simpa using hiter), ?_, h.queued_tasks,
    h.all_unsent, .inr (.inl ⟨hworking.copies_eq, trivial, ?_⟩)⟩
  · have heq := h.normals_eq
    rw [hrunningNormal] at heq
    rw [hran, Device.running_complete, Device.queued_complete]
    exact heq
  · obtain ⟨waiting, hwaiting⟩ := hworking.waiting
    have hahead := (hwaiting.mem_ran (show block ∈ _ by simp [hrunning])).2
    have hk : k + 1 < s.numIters := by
      simp only [ahead, Bool.and_eq_true, decide_eq_true_eq] at hahead
      exact hahead.1
    -- A block is run ahead of time once, so it has not been run before.
    have hfresh : block ∉ dev.ran true (k + 1) := by
      have hnodup : (dev.ran true (k + 1) ++ dev.running true ++
          waiting).Nodup := by
        rw [hwaiting.perm.nodup_iff]
        have hnormals := h.normals_eq ▸ nodup_normals s csd k
        rw [List.append_assoc, List.append_assoc] at hnormals
        exact (List.Nodup.of_append_left hnormals).filter _
      rw [hrunning] at hnodup
      have hleft := List.Nodup.of_append_left hnodup
      exact fun hmem => List.disjoint_of_nodup_append hleft hmem (by simp)
    have hafter := afterFuture_task s csd block hk
    rw [← hnode] at hafter
    refine ⟨waiting, ?_, ?_, ?_⟩
    · change dev.futureQueue ++ afterFuture node = _
      rw [hwaiting.queue_eq, hafter, List.append_assoc]
      congr 1
      simp only [Marked, hran, hranFuture]
      by_cases hlate : markedLate s k = true
      · by_cases hend : block = endBlock s k
        · simp [hlate, ← hend, hfresh]
        · simp [hlate, hend, Ne.symm hend]
      · simp [hlate]
    · have hperm := hwaiting.perm
      rw [hrunning] at hperm
      rw [hran, hranFuture, Device.running_complete, List.append_nil]
      exact hperm
    · rw [hran]
      exact hwaiting.sublist

/-! ## The end of an iteration -/

/-- Only the marker itself looks like a marker. -/
theorem Waiting.front_marker (h : DeviceInv s csd k dev unsent)
    {waiting : List (ℕ × ℕ)} (hwaiting : Waiting s csd k dev waiting)
    {front : ProcEdge} {rest : List ProcEdge}
    (hqueue : dev.futureQueue = front :: rest)
    (hends : endsIteration front = true) :
    front = marker s csd k ∧ rest = [] ∧ waiting = [] ∧ Marked s k dev := by
  have heq := hwaiting.queue_eq
  rw [hqueue] at heq
  cases hsplit : waiting with
  | nil =>
      rw [hsplit, List.map_nil, List.nil_append] at heq
      split at heq
      · rename_i hmarked
        obtain ⟨hfront, hrest⟩ := List.cons.inj heq
        exact ⟨hfront, hrest, rfl, hmarked⟩
      · cases heq
  | cons block others =>
      rw [hsplit, List.map_cons, List.cons_append] at heq
      have hnot := hwaiting.not_endsIteration h
        (show block ∈ waiting by simp [hsplit])
      rw [← (List.cons.inj heq).1, hends] at hnot
      cases hnot

/-- The worker enters the end-of-iteration branch. -/
theorem DeviceInv.enterEnd (h : DeviceInv s csd k dev unsent)
    (hworking : Working s csd k dev) (hidle : ∀ f, dev.running f = [])
    {front : ProcEdge} {rest : List ProcEdge}
    (hqueue : dev.futureQueue = front :: rest)
    (hends : endsIteration front = true) :
    DeviceInv s csd k { dev with worker := .await front } unsent := by
  obtain ⟨waiting, hwaiting⟩ := hworking.waiting
  obtain ⟨hfront, hrest, -, -⟩ := hwaiting.front_marker h hqueue hends
  apply h.moveWorker hworking
  · intro f
    rw [hidle]
    rfl
  · exact ⟨hfront, by rw [hqueue, hrest]⟩

/-- The marker is the only task left when the queues are swapped. -/
theorem DeviceInv.closeIteration (h : DeviceInv s csd k dev unsent)
    (hworking : Working s csd k dev) {front : ProcEdge}
    (hworker : dev.worker = .await front) :
    dev.normalQueue = [] ∧ dev.futureQueue = [front] ∧
      DeviceInv s csd k { dev with
        normalQueue := dev.futureQueue.tail
        futureQueue := dev.normalQueue
        worker := .raise front } unsent := by
  obtain ⟨waiting, hwaiting⟩ := hworking.waiting
  have hok := hworking.worker_ok
  simp only [WorkerOk, hworker] at hok
  obtain ⟨hfront, hqueue⟩ := hok
  obtain ⟨-, -, hnone, hmarked⟩ := hwaiting.front_marker h hqueue
    (hfront ▸ endsIteration_marker s csd k)
  obtain ⟨-, hqueued, hunsent⟩ := h.all_ran (hwaiting.endBlock_ran hmarked)
  simp only [Device.queued, List.append_eq_nil_iff, Option.toList_eq_nil_iff]
    at hqueued
  obtain ⟨⟨hnormal, hdispatched⟩, hsq⟩ := hqueued
  have hidle : ∀ f, dev.running f = [] := by
    intro f
    simp only [Device.running, hworker]
  refine ⟨hnormal, hqueue, ⟨h.history.normal_eq, h.history.future_perm,
    h.history.host_iter⟩, ?_, ?_, h.all_unsent, .inr (.inr ⟨?_, .inl ?_, ?_,
    ?_, hunsent, ?_⟩)⟩
  · have heq := h.normals_eq
    rw [hidle] at heq
    simpa [Device.ran, Device.running, Device.queued, hnormal, hdispatched,
      hsq, hqueue] using heq
  · simp [Device.queued, hqueue, hdispatched, hsq]
  · exact hworking.copies_eq
  · rw [hfront]
  · exact hnormal
  · simp [Device.queued, hqueue, hdispatched, hsq]
  · have hperm := hwaiting.perm
    rw [hidle, hnone, List.append_nil, List.append_nil] at hperm
    exact hperm

/-- A device that has closed the iteration goes to the barrier. -/
theorem DeviceInv.reachBarrier (h : DeviceInv s csd k dev unsent)
    (hclosed : Closed s csd k dev unsent) {front : ProcEdge}
    (hworker : dev.worker = .raise front) :
    front = marker s csd k ∧
      DeviceInv s csd k { dev with worker := .barrier front } unsent := by
  have hfront : front = marker s csd k := by
    rcases hclosed.worker_eq with heq | heq
    · rw [hworker] at heq
      exact WorkerPc.raise.inj heq
    · rw [hworker] at heq
      cases heq
  refine ⟨hfront, ⟨h.history.normal_eq, h.history.future_perm,
    h.history.host_iter⟩, ?_, h.queued_tasks, h.all_unsent,
    .inr (.inr ⟨hclosed.copies_eq, .inr (by rw [hfront]), hclosed.future_eq,
      hclosed.queued_eq, hclosed.unsent_eq, hclosed.perm⟩)⟩
  have heq := h.normals_eq
  rw [show dev.running false = [] by simp [Device.running, hworker]] at heq
  exact heq

/-- A lagging device copies its section. -/
theorem DeviceInv.copySection (h : DeviceInv s csd k dev unsent)
    (hlagging : Lagging s csd k dev) (todo : List ℕ) :
    DeviceInv s csd k { dev with
      worker := .copy (marker s csd dev.copies) todo } unsent := by
  have hidle : dev.running false = [] := by
    rcases hlagging.worker_eq with heq | ⟨todo, heq⟩ <;>
      simp [Device.running, heq]
  refine ⟨⟨h.history.normal_eq, h.history.future_perm, h.history.host_iter⟩,
    ?_, h.queued_tasks, h.all_unsent, .inl ⟨hlagging.copies_eq,
      .inr ⟨todo, rfl⟩, hlagging.future_eq, hlagging.ran_eq,
      hlagging.ran_normal_eq⟩⟩
  have heq := h.normals_eq
  rw [hidle] at heq
  exact heq

/-- The copy is finished; nothing has been run yet, so the worker goes on to
the normal queue. -/
theorem DeviceInv.finishCopy (h : DeviceInv s csd k dev unsent)
    (hlagging : Lagging s csd k dev) :
    DeviceInv s csd k { dev with
      worker := scanOrCheck dev (marker s csd dev.copies)
      copies := dev.copies + 1 } unsent := by
  have hidle : dev.running false = [] := by
    rcases hlagging.worker_eq with heq | ⟨todo, heq⟩ <;>
      simp [Device.running, heq]
  have hcheck : scanOrCheck dev (marker s csd dev.copies) =
      .check (marker s csd dev.copies) := by
    rw [scanOrCheck, if_neg (fun h => h.2 hlagging.future_eq)]
  have hnot : ¬ Marked s k dev := by
    simp [Marked, hlagging.ran_eq, hlagging.ran_normal_eq]
  refine ⟨⟨h.history.normal_eq, h.history.future_perm, h.history.host_iter⟩,
    ?_, h.queued_tasks, h.all_unsent, .inr (.inl ⟨hlagging.copies_eq, ?_, [],
      ?_, ?_, List.nil_sublist _⟩)⟩
  · have heq := h.normals_eq
    rw [hidle] at heq
    rw [hcheck]
    exact heq
  · simp only [WorkerOk, hcheck]
    exact ⟨(marker_fields s csd dev.copies).2.2.2, .inl hlagging.future_eq⟩
  · change dev.futureQueue = _ ++ if Marked s k dev then _ else _
    rw [if_neg hnot, hlagging.future_eq]
    rfl
  · rw [hcheck]
    change (dev.ran true (k + 1) ++ [] ++ []).Perm
      ((dev.ran false k).filter _)
    rw [hlagging.ran_eq, hlagging.ran_normal_eq]
    exact List.Perm.refl _

/-- The host starts iteration `k + 1`. -/
theorem DeviceInv.nextIteration (h : DeviceInv s csd k dev unsent)
    (hclosed : Closed s csd k dev unsent) {front : ProcEdge}
    (hworker : dev.worker = .barrier front) :
    DeviceInv s csd (k + 1) dev (normals s csd (k + 1)) := by
  have hidle : dev.running false = [] := by simp [Device.running, hworker]
  have hran : dev.ran false k = normals s csd k := by
    have heq := h.normals_eq
    rw [hidle, hclosed.queued_eq, hclosed.unsent_eq] at heq
    simpa using heq
  -- No execution belongs to a later iteration than the current one.
  have hnone : ∀ f iter, k + (if f then 1 else 0) < iter →
      dev.ran f iter = [] := by
    intro f iter hlt
    simp only [Device.ran, List.map_eq_nil_iff, List.filter_eq_nil_iff,
      Bool.and_eq_true, beq_iff_eq]
    rintro e he ⟨rfl, rfl⟩
    have := h.history.host_iter e he
    omega
  refine ⟨⟨?_, ?_, ?_⟩, ?_, ?_, fun _ => rfl, .inl ⟨?_, .inl ?_,
    hclosed.future_eq, hnone true _ (by simp),
    hnone false _ (by simp)⟩⟩
  · intro iter hlt
    rcases Nat.lt_succ_iff_lt_or_eq.mp hlt with hold | rfl
    · exact h.history.normal_eq iter hold
    · exact hran
  · intro iter hlt
    rcases Nat.lt_succ_iff_lt_or_eq.mp hlt with hold | rfl
    · exact h.history.future_perm iter hold
    · rw [← hran]
      exact hclosed.perm
  · intro e he
    have := h.history.host_iter e he
    omega
  · rw [hnone false _ (by simp), hidle, hclosed.queued_eq]
    rfl
  · simp [hclosed.queued_eq]
  · rw [hclosed.copies_eq]
  · rcases hclosed.worker_eq with heq | heq
    · rw [hworker] at heq
      cases heq
    · rw [heq, hclosed.copies_eq]

/-! ## Queues -/

/-- A change of the queues that keeps the sent tasks in their order. -/
theorem DeviceInv.requeue (h : DeviceInv s csd k dev unsent)
    {sq normalQueue : List ProcEdge} {dispatched : Option ProcEdge}
    (hqueued : normalQueue ++ dispatched.toList ++ sq = dev.queued) :
    DeviceInv s csd k { dev with
      sq := sq
      dispatched := dispatched
      normalQueue := normalQueue } unsent where
  history := ⟨h.history.normal_eq, h.history.future_perm,
    h.history.host_iter⟩
  normals_eq := by
    have heq := h.normals_eq
    rw [← hqueued] at heq
    exact heq
  queued_tasks := by
    intro node hnode
    apply h.queued_tasks
    rw [← hqueued]
    exact hnode
  all_unsent := h.all_unsent
  phase := by
    rcases h.phase with hlagging | hworking | hclosed
    · exact .inl ⟨hlagging.copies_eq, hlagging.worker_eq, hlagging.future_eq,
        hlagging.ran_eq, hlagging.ran_normal_eq⟩
    · obtain ⟨waiting, hwaiting⟩ := hworking.waiting
      exact .inr (.inl ⟨hworking.copies_eq, hworking.worker_ok, waiting,
        hwaiting.queue_eq, hwaiting.perm, hwaiting.sublist⟩)
    · exact .inr (.inr ⟨hclosed.copies_eq, hclosed.worker_eq,
        hclosed.future_eq, hqueued.trans hclosed.queued_eq, hclosed.unsent_eq,
        hclosed.perm⟩)

/-- The blocks that have been sent are distinct, so `queue_find` never finds a
duplicate. -/
theorem DeviceInv.queueFind_eq (h : DeviceInv s csd k dev unsent)
    (hdispatched : dev.dispatched = none) {node : ProcEdge}
    {rest : List ProcEdge} (hsq : dev.sq = node :: rest) :
    queueFind dev.normalQueue node = false := by
  have hnodup := h.normals_eq ▸ nodup_normals s csd k
  have hqueued : (dev.queued.map blockOf).Nodup :=
    List.Nodup.of_append_right (List.Nodup.of_append_left hnodup)
  rw [Device.queued, hdispatched, hsq, Option.toList_none, List.append_nil,
    List.map_append] at hqueued
  rw [Bool.eq_false_iff]
  intro hfind
  simp only [queueFind, List.any_eq_true, Bool.and_eq_true,
    decide_eq_true_eq] at hfind
  obtain ⟨other, hother, hr, hc⟩ := hfind
  apply List.disjoint_of_nodup_append hqueued
    (List.mem_map_of_mem hother)
  simp [blockOf, hr, hc]

/-- The host sends the next block. -/
theorem DeviceInv.submit {block : ℕ × ℕ}
    (h : DeviceInv s csd k dev (block :: unsent)) (hk : k < s.numIters) :
    DeviceInv s csd k { dev with
      sq := dev.sq ++ [task s csd k block false] } unsent where
  history := ⟨h.history.normal_eq, h.history.future_perm,
    h.history.host_iter⟩
  normals_eq := by
    have heq := h.normals_eq
    simpa [Device.queued, Device.ran, Device.running] using heq
  queued_tasks := by
    intro node hnode
    simp only [Device.queued, ← List.append_assoc] at hnode
    rcases List.mem_append.mp hnode with hold | hnew
    · exact h.queued_tasks node hold
    · rw [List.mem_singleton.mp hnew, blockOf_task]
  all_unsent := fun hover => absurd hk (by omega)
  phase := by
    rcases h.phase with hlagging | hworking | hclosed
    · exact .inl ⟨hlagging.copies_eq, hlagging.worker_eq, hlagging.future_eq,
        hlagging.ran_eq, hlagging.ran_normal_eq⟩
    · obtain ⟨waiting, hwaiting⟩ := hworking.waiting
      exact .inr (.inl ⟨hworking.copies_eq, hworking.worker_ok, waiting,
        hwaiting.queue_eq, hwaiting.perm, hwaiting.sublist⟩)
    · cases hclosed.unsent_eq

end NvmeVirt.DualQueue
