import NvmeVirt.Io.Dispatch
import NvmeVirt.Lib.Counting

/-!
# The loop of an I/O worker

`nvmev_io_worker` walks along its busy list without a lock, while the dispatcher
inserts entries and moves finished ones to the free list.  The dispatcher can
lead a worker into the free list, but only along finished entries, which the
worker passes over.  So the worker moves the data of every request once, before
the completion, and completes only requests that wait in its busy list.
-/

namespace NvmeVirt.Io

open Counting Function IndexList Interleaving

/-- Where a worker stands: in the outer loop, at the test for the end of the
list, at the tests and actions for an entry, or before the link to the next. -/
inductive WorkerPc where
  | top
  | scan (curr : ℕ)
  | test (curr : ℕ)
  | copy (curr : ℕ)
  | due (curr : ℕ)
  | next (curr : ℕ)
  deriving DecidableEq

/-- A worker after a step, with the requests whose data the step has moved and
those it has completed. -/
structure WorkerResult where
  worker : IoWorker
  pc : WorkerPc
  transferred : List Request
  served : List Request

/-- One step of `nvmev_io_worker`, with what its clock shows; the clock does not
go back.  The local `curr_nsecs` is what the step before has stored in
`latest_nsecs`. -/
def nvmevIoWorker (worker : IoWorker) (nsecs : ℕ) :
    WorkerPc → Option WorkerResult
  | .top => some ⟨worker, .scan worker.ioSeq, [], []⟩
  | .scan curr =>
      if curr = noEntry then some ⟨worker, .top, [], []⟩
      else if worker.latestNsecs ≤ nsecs then
        some ⟨{ worker with latestNsecs := nsecs }, .test curr, [], []⟩
      else none
  | .test curr =>
      if (worker.workQueue curr).isCompleted then
        some ⟨worker, .next curr, [], []⟩
      else some ⟨worker, .copy curr, [], []⟩
  | .copy curr =>
      let work := worker.workQueue curr
      if work.isCopied then some ⟨worker, .due curr, [], []⟩
      else some ⟨worker.markCopied curr, .due curr,
        if work.isInternal then [] else [work.request], []⟩
  | .due curr =>
      if worker.target curr ≤ worker.latestNsecs then
        some ⟨worker.markCompleted curr, .next curr, [],
          [(worker.workQueue curr).request]⟩
      else some ⟨worker, .next curr, [], []⟩
  | .next curr => some ⟨worker, .scan (worker.next curr), [], []⟩

/-- The device with the positions of its workers and the requests whose data has
been moved. -/
structure LoopState where
  sys : IoSystem
  pc : ℕ → WorkerPc
  transfers : List Request

/-- A step of the dispatcher, or of a worker whose clock shows a time. -/
inductive LoopEvent where
  | dispatch (event : IoEvent)
  | work (id nsecs : ℕ)

namespace LoopState

def init (nrIoWorkers : ℕ) : LoopState :=
  ⟨.init nrIoWorkers, fun _ => .top, []⟩

def worker (st : LoopState) (id : ℕ) : IoWorker := st.sys.device.workers id

def apply (st : LoopState) (id : ℕ) (result : WorkerResult) : LoopState where
  sys :=
    { st.sys with
      device := st.sys.device.setWorker id result.worker
      served := st.sys.served ++ result.served }
  pc := update st.pc id result.pc
  transfers := st.transfers ++ result.transferred

def step (event : LoopEvent) (st : LoopState) : Option LoopState :=
  match event with
  | .dispatch event =>
      if event.byDispatcher then
        (IoSystem.step event st.sys).map fun sys => { st with sys }
      else none
  | .work id nsecs =>
      if id < st.sys.device.nrIoWorkers then
        (nvmevIoWorker (st.worker id) nsecs (st.pc id)).map (st.apply id)
      else none

end LoopState

/-! ## Where the dispatcher can lead a worker -/

/-- An entry of the busy list, or one of the free list from which on all entries
are finished. -/
def Visitable (worker : IoWorker) (free busy : List ℕ) (entry : ℕ) : Prop :=
  entry ∈ busy ∨ ∃ front back, free = front ++ entry :: back ∧
    ∀ other ∈ entry :: back, (worker.workQueue other).isCompleted = true

/-- A worker acts only on entries of its busy list that are not completed. -/
def Placed (worker : IoWorker) (free busy : List ℕ) : WorkerPc → Prop
  | .top => True
  | .scan curr => curr = noEntry ∨ Visitable worker free busy curr
  | .test curr => Visitable worker free busy curr
  | .copy curr =>
      curr ∈ busy ∧ (worker.workQueue curr).isCompleted = false
  | .due curr =>
      curr ∈ busy ∧ (worker.workQueue curr).isCompleted = false ∧
        (worker.workQueue curr).isCopied = true
  | .next curr => Visitable worker free busy curr

variable {worker worker' : IoWorker} {free busy free' busy' : List ℕ}
  {pc : WorkerPc}

theorem marks_of_content {entry : ℕ}
    (hentry : worker'.content entry = worker.content entry) :
    (worker'.workQueue entry).isCompleted =
        (worker.workQueue entry).isCompleted ∧
      (worker'.workQueue entry).isCopied =
        (worker.workQueue entry).isCopied := by
  have hcompleted := congrArg IoWork.isCompleted hentry
  have hcopied := congrArg IoWork.isCopied hentry
  exact ⟨hcompleted, hcopied⟩

/-- What is left of a chain behind an entry. -/
theorem links_after {link : ℕ → ℕ} {head last entry : ℕ}
    {front back : List ℕ} (hlinks : Links link head (front ++ entry :: back)
      last) :
    Links link (link entry) back last :=
  (Links.append_iff.mp hlinks).elim fun _ hmiddle => by
    obtain ⟨-, rfl, hback⟩ := hmiddle
    exact hback

/-- The link of an entry that a worker may visit. -/
theorem Visitable.next (hchained : worker.Chained free busy) {entry : ℕ}
    (hentry : Visitable worker free busy entry) :
    worker.next entry = noEntry ∨
      Visitable worker free busy (worker.next entry) := by
  rcases hentry with hentry | ⟨front, back, hsplit, hfinished⟩
  · obtain ⟨front, back, hsplit⟩ := List.append_of_mem hentry
    have hback := links_after (hsplit ▸ hchained.onBusy.links)
    rcases back with _ | ⟨other, back⟩
    · exact .inl hback
    · rw [hback.1]
      exact .inr (.inl (by simp [hsplit]))
  · have hback := links_after (hsplit ▸ hchained.onFree.links)
    rcases back with _ | ⟨other, back⟩
    · exact .inl hback
    · rw [hback.1]
      refine .inr (.inr ⟨front ++ [entry], back, by simp [hsplit],
        fun entry' hentry' => hfinished entry' ?_⟩)
      exact List.mem_cons_of_mem _ hentry'

/-- The dispatcher takes the first free entry and puts it into the busy list. -/
theorem Placed.enqueue {entry : ℕ} {front back : List ℕ}
    (hchained : worker.Chained (entry :: free) (front ++ back))
    (hplaced : Placed worker (entry :: free) (front ++ back) pc) {work : IoWork}
    (hcontent : worker'.content = update worker.content entry work) :
    Placed worker' free (front ++ entry :: back) pc := by
  have hnodup := hchained.nodup
  rw [List.cons_append, List.nodup_cons, List.mem_append] at hnodup
  have hsame : ∀ other ≠ entry,
      (worker'.workQueue other).isCompleted =
          (worker.workQueue other).isCompleted ∧
        (worker'.workQueue other).isCopied =
          (worker.workQueue other).isCopied := by
    intro other hne
    have hother := congrFun hcontent other
    rw [update_of_ne hne] at hother
    exact marks_of_content hother
  have hbusy : ∀ {other}, other ∈ front ++ back →
      other ∈ front ++ entry :: back ∧ other ≠ entry := by
    intro other hother
    refine ⟨?_, ?_⟩
    · rw [List.mem_append, List.mem_cons]
      rw [List.mem_append] at hother
      tauto
    · rintro rfl
      exact hnodup.1 (.inr hother)
  have hvisitable : ∀ {other}, Visitable worker (entry :: free) (front ++ back)
      other → Visitable worker' free (front ++ entry :: back) other := by
    rintro other (hother | ⟨before, after, hsplit, hfinished⟩)
    · exact .inl (hbusy hother).1
    · rcases before with _ | ⟨first, before⟩
      · cases hsplit
        exact .inl (by simp)
      · cases hsplit
        refine .inr ⟨before, after, rfl, fun other' hother' => ?_⟩
        have hne : other' ≠ entry := by
          rintro rfl
          exact hnodup.1 (.inl (List.mem_append_right _ hother'))
        rw [(hsame other' hne).1]
        exact hfinished other' hother'
  cases pc with
  | top => trivial
  | scan curr => exact hplaced.imp_right hvisitable
  | test curr => exact hvisitable hplaced
  | copy curr =>
      obtain ⟨hmem, hne⟩ := hbusy hplaced.1
      exact ⟨hmem, (hsame curr hne).1.trans hplaced.2⟩
  | due curr =>
      obtain ⟨hmem, hne⟩ := hbusy hplaced.1
      exact ⟨hmem, (hsame curr hne).1.trans hplaced.2.1,
        (hsame curr hne).2.trans hplaced.2.2⟩
  | next curr => exact hvisitable hplaced

/-- The dispatcher moves a finished stretch to the tail of the free list. -/
theorem Placed.reclaim {finished : List ℕ}
    (hplaced : Placed worker free (finished ++ busy) pc)
    (hfinished : ∀ entry ∈ finished, worker.isFinished entry)
    (hcontent : worker'.content = worker.content) :
    Placed worker' (free ++ finished) busy pc := by
  have hsame : ∀ entry, (worker'.workQueue entry).isCompleted =
        (worker.workQueue entry).isCompleted ∧
      (worker'.workQueue entry).isCopied =
        (worker.workQueue entry).isCopied := fun entry =>
    marks_of_content (congrFun hcontent entry)
  have hdone : ∀ entry ∈ finished,
      (worker.workQueue entry).isCompleted = true := by
    intro entry hentry
    have hentry := hfinished entry hentry
    simp only [IoWorker.isFinished, Bool.and_eq_true] at hentry
    exact hentry.1.1
  have hvisitable : ∀ {entry}, Visitable worker free (finished ++ busy) entry →
      Visitable worker' (free ++ finished) busy entry := by
    rintro entry (hentry | ⟨front, back, hsplit, hall⟩)
    · rcases List.mem_append.mp hentry with hentry | hentry
      · obtain ⟨front, back, hsplit⟩ := List.append_of_mem hentry
        refine .inr ⟨free ++ front, back, by simp [hsplit], ?_⟩
        intro other hother
        rw [(hsame other).1]
        exact hdone other (hsplit ▸ List.mem_append_right _ hother)
      · exact .inl hentry
    · refine .inr ⟨front, back ++ finished, by simp [hsplit], ?_⟩
      intro other hother
      rw [(hsame other).1]
      rcases List.mem_append.mp (List.cons_append ▸ hother) with hother | hother
      · exact hall other hother
      · exact hdone other hother
  have hbusy : ∀ {entry}, entry ∈ finished ++ busy →
      (worker.workQueue entry).isCompleted = false → entry ∈ busy := by
    intro entry hentry hopen
    refine (List.mem_append.mp hentry).resolve_left fun hmem => ?_
    rw [hdone entry hmem] at hopen
    cases hopen
  cases pc with
  | top => trivial
  | scan curr => exact hplaced.imp_right hvisitable
  | test curr => exact hvisitable hplaced
  | copy curr =>
      exact ⟨hbusy hplaced.1 hplaced.2, (hsame curr).1.trans hplaced.2⟩
  | due curr =>
      exact ⟨hbusy hplaced.1 hplaced.2.1, (hsame curr).1.trans hplaced.2.1,
        (hsame curr).2.trans hplaced.2.2⟩
  | next curr => exact hvisitable hplaced

/-! ## What a turn of a worker does -/

theorem nvmevIoWorker_cases {nsecs : ℕ} {result : WorkerResult}
    (hchained : worker.Chained free busy) (hplaced : Placed worker free busy pc)
    (hstep : nvmevIoWorker worker nsecs pc = some result) :
    (∃ pc', result = ⟨worker, pc', [], []⟩ ∧ Placed worker free busy pc') ∨
    (∃ curr, worker.latestNsecs ≤ nsecs ∧ Visitable worker free busy curr ∧
      result = ⟨{ worker with latestNsecs := nsecs }, .test curr, [], []⟩) ∨
    (∃ curr ∈ busy, (worker.workQueue curr).isCompleted = false ∧
      (worker.workQueue curr).isCopied = false ∧
      result = ⟨worker.markCopied curr, .due curr,
        if (worker.workQueue curr).isInternal then []
        else [(worker.workQueue curr).request], []⟩) ∨
    ∃ curr ∈ busy, (worker.workQueue curr).isCompleted = false ∧
      (worker.workQueue curr).isCopied = true ∧
      worker.target curr ≤ worker.latestNsecs ∧
      result = ⟨worker.markCompleted curr, .next curr, [],
        [(worker.workQueue curr).request]⟩ := by
  cases pc with
  | top =>
      cases hstep
      refine .inl ⟨_, rfl, ?_⟩
      have hlinks := hchained.onBusy.links
      rcases busy with _ | ⟨entry, busy⟩
      · exact .inl hlinks
      · exact .inr (.inl (hlinks.1 ▸ List.mem_cons_self))
  | scan curr =>
      rw [nvmevIoWorker] at hstep
      by_cases hend : curr = noEntry
      · rw [if_pos hend] at hstep
        cases hstep
        exact .inl ⟨_, rfl, trivial⟩
      · rw [if_neg hend, Option.ite_none_right_eq_some] at hstep
        obtain ⟨hclock, hstep⟩ := hstep
        cases hstep
        exact .inr (.inl ⟨curr, hclock, hplaced.resolve_left hend, rfl⟩)
  | test curr =>
      rw [nvmevIoWorker] at hstep
      by_cases hcompleted : (worker.workQueue curr).isCompleted = true
      · rw [if_pos hcompleted] at hstep
        cases hstep
        exact .inl ⟨_, rfl, hplaced⟩
      · rw [if_neg hcompleted] at hstep
        cases hstep
        refine .inl ⟨_, rfl, hplaced.resolve_right ?_,
          Bool.eq_false_iff.mpr hcompleted⟩
        rintro ⟨front, back, -, hfinished⟩
        exact hcompleted (hfinished curr List.mem_cons_self)
  | copy curr =>
      simp only [nvmevIoWorker] at hstep
      by_cases hcopied : (worker.workQueue curr).isCopied = true
      · rw [if_pos hcopied] at hstep
        cases hstep
        exact .inl ⟨_, rfl, hplaced.1, hplaced.2, hcopied⟩
      · rw [if_neg hcopied] at hstep
        cases hstep
        exact .inr (.inr (.inl ⟨curr, hplaced.1, hplaced.2,
          Bool.eq_false_iff.mpr hcopied, rfl⟩))
  | due curr =>
      rw [nvmevIoWorker] at hstep
      by_cases hdue : worker.target curr ≤ worker.latestNsecs
      · rw [if_pos hdue] at hstep
        cases hstep
        exact .inr (.inr (.inr ⟨curr, hplaced.1, hplaced.2.1, hplaced.2.2, hdue,
          rfl⟩))
      · rw [if_neg hdue] at hstep
        cases hstep
        exact .inl ⟨_, rfl, .inl hplaced.1⟩
  | next curr =>
      cases hstep
      exact .inl ⟨_, rfl, hplaced.next hchained⟩

/-! ## The transfers -/

def Request.isIo : Request → Bool
  | .io .. => true
  | .release .. => false

/-- The request of an entry whose data has been moved, but which is not
completed. -/
def IoWork.moved (work : IoWork) : List Request :=
  if !work.isCompleted && work.isCopied && !work.isInternal then
    [work.request]
  else []

def movedIn (content : ℕ → IoWork) (busy : List ℕ) : List Request :=
  busy.flatMap fun entry => (content entry).moved

def IoWorker.moved (worker : IoWorker) : List Request :=
  movedIn worker.content worker.busyChain

def IoDevice.moved (dev : IoDevice) : List Request :=
  (List.range dev.nrIoWorkers).flatMap fun id => (dev.workers id).moved

/-- An entry whose data has not been moved joins the list. -/
theorem movedIn_insert {content : ℕ → IoWork} {front back : List ℕ} {entry : ℕ}
    {work : IoWork} (hentry : entry ∉ front ++ back) (hwork : work.moved = []) :
    movedIn (update content entry work) (front ++ entry :: back) =
      movedIn content (front ++ back) := by
  have hsame : ∀ {busy}, entry ∉ busy →
      movedIn (update content entry work) busy = movedIn content busy :=
    fun hbusy => List.flatMap_congr fun other hother => by
      rw [update_of_ne (ne_of_mem_of_not_mem hother hbusy)]
  rw [List.mem_append, not_or] at hentry
  calc movedIn (update content entry work) (front ++ entry :: back)
      = movedIn (update content entry work) front ++
          (work.moved ++ movedIn (update content entry work) back) := by
        rw [movedIn, List.flatMap_append, List.flatMap_cons, update_self]
        rfl
    _ = movedIn content front ++ movedIn content back := by
        rw [hsame hentry.1, hsame hentry.2, hwork, List.nil_append]
    _ = movedIn content (front ++ back) := List.flatMap_append.symm

theorem IoWorker.Chained.moved_eq (hchained : worker.Chained free busy) :
    worker.moved = movedIn worker.content busy := by
  rw [IoWorker.moved, hchained.busyChain_eq]

theorem moved_of_completed {work : IoWork} (hwork : work.isCompleted = true) :
    work.moved = [] := by
  simp [IoWork.moved, hwork]

theorem moved_of_not_copied {work : IoWork} (hwork : work.isCopied = false) :
    work.moved = [] := by
  simp [IoWork.moved, hwork]

/-- The I/O request of an entry. -/
theorem request_filter (work : IoWork) :
    [work.request].filter Request.isIo =
      if work.isInternal then [] else [work.request] := by
  cases hinternal : work.isInternal <;>
    simp [IoWork.request, hinternal, Request.isIo]

theorem moved_of_copied {work : IoWork} (hopen : work.isCompleted = false)
    (hcopied : work.isCopied = true) :
    work.moved = if work.isInternal then [] else [work.request] := by
  cases hinternal : work.isInternal <;>
    simp [IoWork.moved, hopen, hcopied, hinternal]

/-- The moved requests of a worker around one entry. -/
theorem IoWorker.Chained.moved_setWork (hchained : worker.Chained free busy)
    {entry : ℕ} (hentry : entry ∈ busy) {work : IoWork}
    (hchained' : (worker.setWork entry work).Chained free busy) :
    ∃ before after,
      worker.moved = before ++ (worker.workQueue entry).moved ++ after ∧
      (worker.setWork entry work).moved = before ++ work.moved ++ after := by
  obtain ⟨before, after, hbefore, hafter⟩ := flatMap_update
    hchained.onBusy.nodup hentry worker.content IoWork.moved
  refine ⟨before, after, hchained.moved_eq.trans hbefore, ?_⟩
  rw [hchained'.moved_eq, IoWorker.content_setWork]
  exact hafter work.unlinked

/-- The data of an entry is moved before its completion, so a completion takes
the request from the moved ones. -/
theorem IoWorker.Chained.worker_step {nsecs : ℕ} {result : WorkerResult}
    (hchained : worker.Chained free busy) (hplaced : Placed worker free busy pc)
    (hstep : nvmevIoWorker worker nsecs pc = some result) :
    result.worker.Chained free busy ∧
      Placed result.worker free busy result.pc ∧
      (worker.moved ++ result.transferred).Perm
        (result.served.filter Request.isIo ++ result.worker.moved) := by
  rcases nvmevIoWorker_cases hchained hplaced hstep with
    ⟨pc', rfl, hpc⟩ | ⟨curr, hclock, hcurr, rfl⟩ |
    ⟨curr, hmem, hopen, hcopied, rfl⟩ | ⟨curr, hmem, hopen, hcopied, hdue, rfl⟩
  · exact ⟨hchained, hpc, by simp⟩
  · refine ⟨hchained.mark rfl rfl rfl rfl rfl rfl rfl hclock, hcurr, ?_⟩
    rw [List.append_nil]
    exact .refl _
  · have hchained' := hchained.markCopied curr
    refine ⟨hchained', ⟨hmem, ?_, ?_⟩, ?_⟩
    · simpa [IoWorker.markCopied, IoWorker.setWork] using hopen
    · simp [IoWorker.markCopied, IoWorker.setWork]
    · obtain ⟨before, after, hbefore, hafter⟩ :=
        hchained.moved_setWork hmem hchained'
      rw [moved_of_not_copied hcopied, List.append_nil] at hbefore
      have hmoved : ({ worker.workQueue curr with isCopied := true }).moved =
          if (worker.workQueue curr).isInternal then []
          else [(worker.workQueue curr).request] := moved_of_copied hopen rfl
      change (worker.moved ++ _).Perm ((worker.markCopied curr).moved)
      rw [hbefore, IoWorker.markCopied, hafter, hmoved, List.append_assoc,
        List.append_assoc]
      exact List.perm_append_comm.append_left before
  · have hchained' := hchained.markCompleted curr
    refine ⟨hchained', .inl hmem, ?_⟩
    obtain ⟨before, after, hbefore, hafter⟩ :=
      hchained.moved_setWork hmem hchained'
    rw [moved_of_copied hopen hcopied, ← request_filter] at hbefore
    rw [moved_of_completed rfl, List.append_nil] at hafter
    change (worker.moved ++ []).Perm (_ ++ (worker.markCompleted curr).moved)
    rw [hbefore, IoWorker.markCompleted, hafter, List.append_nil,
      ← List.append_assoc]
    exact List.perm_append_comm.append_right after

/-! ## The invariant of the loops -/

/-- Every worker stands where its lists allow it, and the data moved is that of
the served requests and of those about to be completed. -/
structure LoopState.Inv (st : LoopState) : Prop where
  placed : ∀ id, ∃ free busy, (st.worker id).Chained free busy ∧
    Placed (st.worker id) free busy (st.pc id)
  moved : st.transfers.Perm
    (st.sys.served.filter Request.isIo ++ st.sys.device.moved)

/-- The step of the dispatcher in an event. -/
def LoopEvent.dispatched : LoopEvent → List IoEvent
  | .dispatch event => [event].filter IoEvent.byDispatcher
  | .work .. => []

namespace LoopState

variable {st : LoopState} {id : ℕ}

theorem Inv.apply (hst : st.Inv) (hid : id < st.sys.device.nrIoWorkers)
    {nsecs : ℕ} {result : WorkerResult}
    (hresult : nvmevIoWorker (st.worker id) nsecs (st.pc id) = some result) :
    (st.apply id result).Inv := by
  obtain ⟨free, busy, hchained, hplaced⟩ := hst.placed id
  obtain ⟨hchained', hplaced', hmoved⟩ := hchained.worker_step hplaced hresult
  constructor
  · intro other
    by_cases hother : other = id
    · subst hother
      refine ⟨free, busy, ?_⟩
      simp only [worker, LoopState.apply, IoDevice.setWorker, update_self]
      exact ⟨hchained', hplaced'⟩
    · simp only [worker, LoopState.apply, IoDevice.setWorker,
        update_of_ne hother]
      exact hst.placed other
  · obtain ⟨before, after, hbefore, hafter⟩ := flatMap_update
      List.nodup_range (List.mem_range.mpr hid) st.sys.device.workers
      IoWorker.moved
    have htotal := hst.moved
    rw [IoDevice.moved, hbefore] at htotal
    simp only [LoopState.apply, IoDevice.moved, IoDevice.setWorker,
      List.filter_append]
    rw [hafter]
    refine List.perm_iff_count.mpr fun request => ?_
    have hcount := htotal.count_eq request
    have hcount' := hmoved.count_eq request
    simp only [List.count_append, worker] at hcount hcount' ⊢
    omega

/-- Every step of a worker is a step on the work queues, or leaves them alone.
-/
theorem Inv.simulates (hst : st.Inv) (hid : id < st.sys.device.nrIoWorkers)
    {nsecs : ℕ} {result : WorkerResult}
    (hresult : nvmevIoWorker (st.worker id) nsecs (st.pc id) = some result) :
    ∃ events, run IoSystem.step events st.sys = (st.apply id result).sys ∧
      events.filter IoEvent.byDispatcher = [] := by
  obtain ⟨free, busy, hchained, hplaced⟩ := hst.placed id
  have hbusy : (st.sys.device.workers id).busyChain = busy :=
    hchained.busyChain_eq
  rcases nvmevIoWorker_cases hchained hplaced hresult with
    ⟨pc', rfl, -⟩ | ⟨curr, hclock, -, rfl⟩ |
    ⟨curr, hmem, hopen, hcopied, rfl⟩ | ⟨curr, hmem, hopen, hcopied, hdue, rfl⟩
  · refine ⟨[], ?_, rfl⟩
    simp [LoopState.apply, IoDevice.setWorker, worker, run]
  · refine ⟨[.advance id nsecs], ?_, rfl⟩
    have hstep : IoDevice.step (.advance id nsecs) st.sys.device = some _ :=
      if_pos ⟨hid, hclock⟩
    simp only [run, List.foldl_cons, List.foldl_nil, turn, IoSystem.step, hstep]
    simp [LoopState.apply, IoSystem.enabled, IoSystem.accepts, IoSystem.serves,
      worker]
  · refine ⟨[.copy id curr], ?_, rfl⟩
    have hstep : IoDevice.step (.copy id curr) st.sys.device = some _ :=
      if_pos ⟨hid, hbusy ▸ hmem⟩
    simp only [run, List.foldl_cons, List.foldl_nil, turn, IoSystem.step, hstep]
    simp [LoopState.apply, IoSystem.enabled, IoSystem.accepts, IoSystem.serves,
      worker]
  · refine ⟨[.complete id curr], ?_, rfl⟩
    have hstep : IoDevice.step (.complete id curr) st.sys.device = some _ :=
      if_pos ⟨hid, hbusy ▸ hmem, hdue⟩
    have henabled : IoSystem.enabled st.sys.device (.complete id curr) = true :=
      congrArg not hopen
    simp only [run, List.foldl_cons, List.foldl_nil, turn, IoSystem.step, hstep,
      henabled]
    simp [LoopState.apply, IoSystem.accepts, IoSystem.serves, worker]

/-- An insertion may happen under the feet of a worker. -/
theorem Inv.enqueue (hst : st.Inv) (sqid : ℕ) {nsecsTarget : ℕ}
    {fill : IoWork → IoWork} (hfills : Fills fill nsecsTarget)
    (hmoved : ∀ work, (fill work).moved = []) {sys : IoSystem}
    (hdevice : sys.device = st.sys.device.enqueue sqid nsecsTarget fill)
    (hserved : sys.served = st.sys.served) : { st with sys }.Inv := by
  obtain ⟨free, busy, hchained, hplaced⟩ :=
    hst.placed (st.sys.device.getIoWorker sqid)
  rcases enqueue_spec st.sys.device sqid hfills hchained with
    ⟨-, hsame⟩ | ⟨entry, rest, front, back, worker', rfl, -, rfl, hworkers,
      hchained', hcontent⟩
  · rw [hsame] at hdevice
    refine ⟨?_, ?_⟩
    · simp only [worker, hdevice]
      exact hst.placed
    · simp only [hdevice, hserved]
      exact hst.moved
  · have hnodup := hchained'.onBusy.nodup
    rw [List.nodup_middle, List.nodup_cons] at hnodup
    have hworker : worker'.moved =
        (st.worker (st.sys.device.getIoWorker sqid)).moved := by
      rw [hchained'.moved_eq, hchained.moved_eq, hcontent]
      exact movedIn_insert hnodup.1 (hmoved _)
    refine ⟨fun id => ?_, ?_⟩
    · simp only [worker, hdevice, hworkers]
      by_cases hid : id = st.sys.device.getIoWorker sqid
      · subst hid
        rw [update_self]
        exact ⟨rest, front ++ entry :: back, hchained',
          hplaced.enqueue hchained hcontent⟩
      · rw [update_of_ne hid]
        exact hst.placed id
    · have hdev : sys.device.moved = st.sys.device.moved := by
        rw [IoDevice.moved, IoDevice.moved, hdevice,
          IoSystem.nrIoWorkers_enqueue, hworkers]
        refine List.flatMap_congr fun id _ => ?_
        by_cases hid : id = st.sys.device.getIoWorker sqid
        · subst hid
          rw [update_self]
          exact hworker
        · rw [update_of_ne hid]
      simp only [hdev, hserved]
      exact hst.moved

/-- So may a reclaim. -/
theorem Inv.reclaim (hst : st.Inv) {sys : IoSystem}
    (hdevice : sys.device = st.sys.device.reclaimCompletedReqs)
    (hserved : sys.served = st.sys.served) : { st with sys }.Inv := by
  have hworker : ∀ id, (∃ free busy, (sys.device.workers id).Chained free busy ∧
      Placed (sys.device.workers id) free busy (st.pc id)) ∧
      (sys.device.workers id).moved = (st.worker id).moved := by
    intro id
    obtain ⟨free, busy, hchained, hplaced⟩ := hst.placed id
    simp only [hdevice, IoDevice.reclaimCompletedReqs]
    by_cases hid : id < st.sys.device.nrIoWorkers
    · rw [if_pos hid]
      obtain ⟨finished, rest, rfl, hfinished, hchained', hcontent⟩ :=
        hchained.reclaim
      refine ⟨⟨_, _, hchained', hplaced.reclaim hfinished hcontent⟩, ?_⟩
      have hdone : movedIn (st.worker id).content finished = [] := by
        refine List.flatMap_eq_nil_iff.mpr fun entry hentry => ?_
        have hentry := hfinished entry hentry
        simp only [IoWorker.isFinished, Bool.and_eq_true] at hentry
        exact moved_of_completed hentry.1.1
      change (IoWorker.reclaimCompletedReqs (st.worker id)).moved = _
      rw [hchained'.moved_eq, hchained.moved_eq, hcontent, movedIn, movedIn,
        List.flatMap_append]
      exact (congrArg (· ++ _) hdone).symm
    · rw [if_neg hid]
      exact ⟨⟨free, busy, hchained, hplaced⟩, rfl⟩
  refine ⟨fun id => (hworker id).1, ?_⟩
  have hdev : sys.device.moved = st.sys.device.moved := by
    have hcount : sys.device.nrIoWorkers = st.sys.device.nrIoWorkers := by
      rw [hdevice]
      rfl
    rw [IoDevice.moved, IoDevice.moved, hcount]
    exact List.flatMap_congr fun id _ => (hworker id).2
  simp only [hdev, hserved]
  exact hst.moved

theorem Inv.dispatch (hst : st.Inv) {event : IoEvent} {sys : IoSystem}
    (hdispatcher : event.byDispatcher = true)
    (hstep : IoSystem.step event st.sys = some sys) : { st with sys }.Inv := by
  obtain ⟨dev, -, hdev, rfl⟩ := IoSystem.step_eq_some hstep
  cases event with
  | enqueueIoReq sqid cqid sqEntry commandId nsecsTarget status =>
      cases hdev
      exact hst.enqueue sqid
        (fills_fillIo sqid cqid sqEntry commandId nsecsTarget status)
        (fun _ => rfl) rfl (List.append_nil _)
  | internalOperation sqid nsecsTarget writeBuffer buffsToRelease =>
      cases hdev
      exact hst.enqueue sqid
        (fills_fillInternal sqid nsecsTarget writeBuffer buffsToRelease)
        (fun _ => rfl) rfl (List.append_nil _)
  | reclaim =>
      cases hdev
      exact hst.reclaim rfl (List.append_nil _)
  | advance | copy | complete => cases hdispatcher

/-- The loops refine the steps on the work queues. -/
theorem Inv.step (hst : st.Inv) {event : LoopEvent} {st' : LoopState}
    (hstep : LoopState.step event st = some st') :
    st'.Inv ∧ ∃ events, run IoSystem.step events st.sys = st'.sys ∧
      events.filter IoEvent.byDispatcher = event.dispatched := by
  cases event with
  | dispatch event =>
      rw [LoopState.step, Option.ite_none_right_eq_some] at hstep
      obtain ⟨hdispatcher, hmap⟩ := hstep
      obtain ⟨sys, hsys, rfl⟩ := Option.map_eq_some_iff.mp hmap
      refine ⟨hst.dispatch hdispatcher hsys, [event], ?_, rfl⟩
      rw [run, List.foldl_cons, turn, hsys]
      rfl
  | work id nsecs =>
      rw [LoopState.step, Option.ite_none_right_eq_some] at hstep
      obtain ⟨hid, hmap⟩ := hstep
      obtain ⟨result, hresult, rfl⟩ := Option.map_eq_some_iff.mp hmap
      exact ⟨hst.apply hid hresult, hst.simulates hid hresult⟩

theorem init_inv (nrIoWorkers : ℕ) : (init nrIoWorkers).Inv := by
  refine ⟨fun _ => ⟨_, _, IoWorker.init_chained, trivial⟩, ?_⟩
  have hempty : (IoDevice.init nrIoWorkers).moved = [] :=
    List.flatMap_eq_nil_iff.mpr fun _ _ => IoWorker.init_chained.moved_eq
  change [].Perm ([] ++ (IoDevice.init nrIoWorkers).moved)
  rw [hempty]
  exact .refl _

/-- A turn that is not taken is no turn of the dispatcher. -/
theorem dispatched_of_blocked {event : LoopEvent}
    (hstep : LoopState.step event st = none) : event.dispatched = [] := by
  cases event with
  | work id nsecs => rfl
  | dispatch event =>
      cases event with
      | enqueueIoReq | internalOperation | reclaim => cases hstep
      | advance | copy | complete => rfl

theorem Inv.along (hst : st.Inv) (schedule : List LoopEvent) :
    (run LoopState.step schedule st).Inv ∧
      ∃ events, run IoSystem.step events st.sys =
          (run LoopState.step schedule st).sys ∧
        events.filter IoEvent.byDispatcher =
          schedule.flatMap LoopEvent.dispatched := by
  induction schedule generalizing st with
  | nil => exact ⟨hst, [], rfl, rfl⟩
  | cons event rest ih =>
      cases hstep : LoopState.step event st with
      | none =>
          have hturn : turn LoopState.step st event = st := by
            rw [turn, hstep]
            rfl
          rw [run, List.foldl_cons, hturn, List.flatMap_cons,
            dispatched_of_blocked hstep]
          exact ih hst
      | some st' =>
          have hturn : turn LoopState.step st event = st' := by
            rw [turn, hstep]
            rfl
          obtain ⟨hst', first, hfirst, hfilter⟩ := hst.step hstep
          obtain ⟨hend, others, hothers, hfilters⟩ := ih hst'
          rw [run, List.foldl_cons, hturn, List.flatMap_cons]
          refine ⟨hend, first ++ others, ?_, ?_⟩
          · rw [run_append, hfirst, hothers]
            rfl
          · rw [List.filter_append, hfilter, hfilters]

end LoopState

/-- Under any interleaving of the dispatcher with the loops of the workers, the
device gets to a state of the queue model by the same steps of the dispatcher.
The data of each served I/O request has been moved once, and else only the data
of requests that wait for their target time. -/
theorem worker_loops_refine (nrIoWorkers : ℕ) (schedule : List LoopEvent) :
    let st := run LoopState.step schedule (.init nrIoWorkers)
    st.transfers.Perm
        (st.sys.served.filter Request.isIo ++ st.sys.device.moved) ∧
      ∃ events, run IoSystem.step events (.init nrIoWorkers) = st.sys ∧
        events.filter IoEvent.byDispatcher =
          schedule.flatMap LoopEvent.dispatched := by
  intro st
  obtain ⟨hst, hevents⟩ := (LoopState.init_inv nrIoWorkers).along schedule
  exact ⟨hst.moved, hevents⟩

end NvmeVirt.Io
