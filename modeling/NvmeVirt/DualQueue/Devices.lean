import NvmeVirt.DualQueue.Tasks

/-!
# Invariant of a device

What the queues, the worker and the past of a device look like while the host
is in iteration `k`.  A device first finishes the copy that closes iteration
`k - 1` (`Lagging`), then works (`Working`), and has closed iteration `k` when
its marker has left the future queue (`Closed`).
-/

namespace NvmeVirt.DualQueue

open Function NvmeVirt.Csd

def blockOf (task : ProcEdge) : ℕ × ℕ := (task.r, task.c)

@[simp]
theorem blockOf_task (s : Setup) (csd k : ℕ) (block : ℕ × ℕ) (future : Bool) :
    blockOf (task s csd k block future) = block := rfl

namespace Device

/-- The blocks that the device has run for iteration `iter`, as normal or as
future tasks. -/
def ran (dev : Device) (future : Bool) (iter : ℕ) : List (ℕ × ℕ) :=
  (dev.executions.filter fun e => e.future == future && e.iter == iter).map
    fun e => (e.r, e.c)

/-- The block that the worker is running. -/
def running (dev : Device) (future : Bool) : List (ℕ × ℕ) :=
  match dev.worker with
  | .run f task _ _ => if f = future then [blockOf task] else []
  | _ => []

/-- The tasks that have been sent and not been started. -/
def queued (dev : Device) : List ProcEdge :=
  dev.normalQueue ++ dev.dispatched.toList ++ dev.sq

end Device

section Invariant

variable (s : Setup) (csd k : ℕ) (dev : Device)

/-- The marker of iteration `k` has been appended to the future queue. -/
def Marked : Prop :=
  if markedLate s k then endBlock s k ∈ dev.ran true (k + 1)
  else endBlock s k ∈ dev.ran false k

instance : Decidable (Marked s k dev) := by
  unfold Marked
  infer_instance

/-- `waiting` are the blocks in the future queue, without the marker. -/
structure Waiting (waiting : List (ℕ × ℕ)) : Prop where
  queue_eq : dev.futureQueue = waiting.map (task s csd (k + 1) · true) ++
    if Marked s k dev then [marker s csd k] else []
  perm : (dev.ran true (k + 1) ++ dev.running true ++ waiting).Perm
    ((dev.ran false k).filter (ahead s k))
  sublist : waiting.Sublist ((dev.ran false k).filter (ahead s k))

/-- What the worker knows at its place in the loop. -/
def WorkerOk : Prop :=
  match dev.worker with
  | .top => True
  | .normalCheck => True
  | .await task => task = marker s csd k ∧ dev.futureQueue = [task]
  | .scan task nodes => task.rowOverlap = s.rowOverlap ∧ s.rowOverlap ≠ 0 ∧
      task ∈ dev.futureQueue ∧ nodes ⊆ dev.futureQueue ∧
      ∀ front ∈ dev.futureQueue.head?, endsIteration front = false
  | .check task => task.rowOverlap = s.rowOverlap ∧
      (dev.futureQueue = [] ∨ task ∈ dev.futureQueue ∧
        ∀ front ∈ dev.futureQueue.head?, endsIteration front = false ∧
          (s.rowOverlap = 0 → front = task))
  | .find task _ => task.rowOverlap = s.rowOverlap ∧
      (s.rowOverlap = 1 ∨ s.rowOverlap = 2)
  | .run future node _ _ => node =
      task s csd (if future then k + 1 else k) (blockOf node) future
  | _ => False

structure Working : Prop where
  copies_eq : dev.copies = k
  worker_ok : WorkerOk s csd k dev
  waiting : ∃ waiting, Waiting s csd k dev waiting

structure Closed (unsent : List (ℕ × ℕ)) : Prop where
  copies_eq : dev.copies = k
  worker_eq : dev.worker = .raise (marker s csd k) ∨
    dev.worker = .barrier (marker s csd k)
  future_eq : dev.futureQueue = []
  queued_eq : dev.queued = []
  unsent_eq : unsent = []
  perm : (dev.ran true (k + 1)).Perm ((dev.ran false k).filter (ahead s k))

structure Lagging : Prop where
  copies_eq : dev.copies + 1 = k
  worker_eq : dev.worker = .barrier (marker s csd dev.copies) ∨
    ∃ todo, dev.worker = .copy (marker s csd dev.copies) todo
  future_eq : dev.futureQueue = []
  ran_eq : dev.ran true (k + 1) = []
  ran_normal_eq : dev.ran false k = []

/-- The past of the device: the iterations before `k` are complete. -/
structure History : Prop where
  normal_eq : ∀ iter < k, dev.ran false iter = normals s csd iter
  future_perm : ∀ iter < k, (dev.ran true (iter + 1)).Perm
    ((normals s csd iter).filter (ahead s iter))
  host_iter : ∀ e ∈ dev.executions,
    e.iter = e.hostIter + (if e.future then 1 else 0) ∧ e.hostIter ≤ k

/-- Invariant of a device in iteration `k`, when the blocks in `unsent` have
still to be sent to it. -/
structure DeviceInv (unsent : List (ℕ × ℕ)) : Prop where
  history : History s csd k dev
  normals_eq : dev.ran false k ++ dev.running false ++
    dev.queued.map blockOf ++ unsent = normals s csd k
  queued_tasks : ∀ node ∈ dev.queued, node = task s csd k (blockOf node) false
  all_unsent : s.numIters ≤ k → unsent = normals s csd k
  phase : Lagging s csd k dev ∨ Working s csd k dev ∨
    Closed s csd k dev unsent

end Invariant

section Lemmas

variable {s : Setup} {csd k : ℕ} {dev : Device} {unsent : List (ℕ × ℕ)}

/-! ## What follows from the marker -/

/-- Nothing comes after the last element of a list without repetitions. -/
theorem eq_nil_of_append_eq {α : Type*} {before after front : List α} {x : α}
    (heq : before ++ after = front ++ [x]) (hnodup : (front ++ [x]).Nodup)
    (hx : x ∈ before) : after = [] := by
  by_contra hne
  have hlast : after.getLast hne = x := by
    have := List.getLast_append_of_right_ne_nil before after hne
    rw [← this]
    simp [heq]
  rw [← heq] at hnodup
  exact List.disjoint_of_nodup_append hnodup hx
    (hlast ▸ List.getLast_mem hne)

theorem DeviceInv.lt_of_started (h : DeviceInv s csd k dev unsent)
    (hstarted : dev.ran false k ++ dev.running false ++
      dev.queued.map blockOf ≠ []) : k < s.numIters := by
  by_contra hover
  have hall := h.all_unsent (by omega)
  have heq := h.normals_eq
  rw [hall] at heq
  exact hstarted (List.append_left_eq_self.mp heq)

theorem Waiting.mem_ran {waiting : List (ℕ × ℕ)}
    (h : Waiting s csd k dev waiting) {block : ℕ × ℕ}
    (hblock : block ∈ dev.ran true (k + 1) ++ dev.running true ++ waiting) :
    block ∈ dev.ran false k ∧ ahead s k block = true :=
  List.mem_filter.mp (h.perm.mem_iff.mp hblock)

/-- When the marker has been appended, the end block has been run. -/
theorem Waiting.endBlock_ran {waiting : List (ℕ × ℕ)}
    (h : Waiting s csd k dev waiting) (hmarked : Marked s k dev) :
    endBlock s k ∈ dev.ran false k := by
  simp only [Marked] at hmarked
  split at hmarked
  · exact (h.mem_ran (by simp [hmarked])).1
  · exact hmarked

/-- The end block is the last one, so all normal tasks have been run when the
marker is appended. -/
theorem DeviceInv.all_ran (h : DeviceInv s csd k dev unsent)
    (hend : endBlock s k ∈ dev.ran false k) :
    dev.running false = [] ∧ dev.queued = [] ∧ unsent = [] := by
  have hk : k < s.numIters :=
    h.lt_of_started (by simp [List.ne_nil_of_mem hend])
  obtain ⟨front, hfront⟩ := normals_split s csd hk
  have heq := h.normals_eq
  rw [List.append_assoc, List.append_assoc, hfront] at heq
  have hnil := eq_nil_of_append_eq heq (hfront ▸ nodup_normals s csd k) hend
  simpa using hnil

theorem not_marked_of_running (h : DeviceInv s csd k dev unsent)
    {waiting : List (ℕ × ℕ)} (hwaiting : Waiting s csd k dev waiting)
    (hrunning : dev.running false ≠ []) : ¬ Marked s k dev :=
  fun hmarked => hrunning (h.all_ran (hwaiting.endBlock_ran hmarked)).1

theorem DeviceInv.mem_normals (h : DeviceInv s csd k dev unsent)
    {block : ℕ × ℕ} (hblock : block ∈ dev.ran false k ++ dev.running false ++
      dev.queued.map blockOf ++ unsent) :
    block.1 < s.numPartitions ∧ block.2 < s.numPartitions := by
  rw [h.normals_eq] at hblock
  exact ((DualQueue.mem_normals s).mp hblock).1

/-- A task in the future queue that is not the marker is one that waits. -/
theorem Waiting.not_endsIteration {waiting : List (ℕ × ℕ)}
    (hinv : DeviceInv s csd k dev unsent)
    (h : Waiting s csd k dev waiting) {block : ℕ × ℕ}
    (hblock : block ∈ waiting) :
    endsIteration (task s csd (k + 1) block true) = false := by
  obtain ⟨hran, hahead⟩ := h.mem_ran (List.mem_append_right _ hblock)
  exact endsIteration_task s hahead (hinv.mem_normals (by simp [hran])).2

end Lemmas

end NvmeVirt.DualQueue
