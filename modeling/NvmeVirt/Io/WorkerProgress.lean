import NvmeVirt.Io.WorkerLoop

/-!
# The progress of the I/O workers

A worker passes along its busy list again and again.  When the dispatcher is
idle and the clocks are past the target times, one whole pass completes
everything that is left in the list; but the worker may be on its way through
entries that the dispatcher has given back, and must finish that pass first.
-/

namespace NvmeVirt.Io

open Function IndexList Interleaving

variable {worker : IoWorker} {free busy : List ℕ} {pc : WorkerPc}

/-- The entries that a pass has still to look at, and a number of turns that is
enough for them. -/
def Pass (worker : IoWorker) (turns : ℕ) : WorkerPc → List ℕ → Prop
  | .top, _ => False
  | .scan curr, ahead =>
      Links worker.next curr ahead noEntry ∧ 5 * ahead.length + 1 ≤ turns
  | .test curr, ahead =>
      ∃ rest, ahead = curr :: rest ∧
        Links worker.next (worker.next curr) rest noEntry ∧
        5 * rest.length + 5 ≤ turns
  | .copy curr, ahead =>
      ∃ rest, ahead = curr :: rest ∧
        Links worker.next (worker.next curr) rest noEntry ∧
        5 * rest.length + 4 ≤ turns
  | .due curr, ahead =>
      ∃ rest, ahead = curr :: rest ∧
        Links worker.next (worker.next curr) rest noEntry ∧
        5 * rest.length + 3 ≤ turns
  | .next curr, ahead =>
      Links worker.next (worker.next curr) ahead noEntry ∧
        5 * ahead.length + 2 ≤ turns

theorem Pass.mono {turns turns' : ℕ} {ahead : List ℕ} (hle : turns ≤ turns')
    (hpass : Pass worker turns pc ahead) : Pass worker turns' pc ahead := by
  cases pc with
  | top => exact hpass
  | scan curr | next curr => exact ⟨hpass.1, hpass.2.trans hle⟩
  | test curr | copy curr | due curr =>
      obtain ⟨rest, hahead, hrest, hturns⟩ := hpass
      exact ⟨rest, hahead, hrest, hturns.trans hle⟩

theorem Pass.pos {turns : ℕ} {ahead : List ℕ}
    (hpass : Pass worker turns pc ahead) : 0 < turns := by
  cases pc with
  | top => exact hpass.elim
  | scan curr | next curr => exact hpass.2.trans_lt' (by omega)
  | test curr | copy curr | due curr =>
      obtain ⟨_, -, -, hturns⟩ := hpass
      exact hturns.trans_lt' (by omega)

theorem next_markCopied (worker : IoWorker) (entry : ℕ) :
    (worker.markCopied entry).next = worker.next :=
  (IoWorker.next_setWork ..).trans (update_eq_self _ _)

theorem next_markCompleted (worker : IoWorker) (entry : ℕ) :
    (worker.markCompleted entry).next = worker.next :=
  (IoWorker.next_setWork ..).trans (update_eq_self _ _)

/-- A turn ends the pass, or it brings the pass on and leaves an entry behind
only if that is completed or not due. -/
theorem Pass.step {nsecs turns : ℕ} {ahead : List ℕ} {result : WorkerResult}
    (hpass : Pass worker (turns + 1) pc ahead) (hahead : noEntry ∉ ahead)
    (hstep : nvmevIoWorker worker nsecs pc = some result) :
    (ahead = [] ∧ result = ⟨worker, .top, [], []⟩) ∨
    ∃ ahead' ⊆ ahead, Pass result.worker turns result.pc ahead' ∧
      ∀ entry ∈ ahead, entry ∈ ahead' ∨
        (result.worker.workQueue entry).isCompleted = true ∨
        pc = .due entry ∧ ¬ worker.target entry ≤ worker.latestNsecs := by
  have hkeep : ∀ {result : WorkerResult},
      Pass result.worker turns result.pc ahead →
      ∃ ahead' ⊆ ahead, Pass result.worker turns result.pc ahead' ∧
        ∀ entry ∈ ahead, entry ∈ ahead' ∨
          (result.worker.workQueue entry).isCompleted = true ∨
          pc = .due entry ∧ ¬ worker.target entry ≤ worker.latestNsecs :=
    fun hpass' => ⟨ahead, List.Subset.refl _, hpass', fun _ => .inl⟩
  cases pc with
  | top => exact hpass.elim
  | scan curr =>
      obtain ⟨hlinks, hturns⟩ := hpass
      rw [nvmevIoWorker] at hstep
      by_cases hend : curr = noEntry
      · rw [if_pos hend] at hstep
        cases hstep
        refine .inl ⟨?_, rfl⟩
        cases ahead with
        | nil => rfl
        | cons entry rest =>
            exact absurd (hend ▸ hlinks.1 ▸ List.mem_cons_self) hahead
      · rw [if_neg hend, Option.ite_none_right_eq_some] at hstep
        obtain ⟨-, hstep⟩ := hstep
        cases hstep
        refine .inr (hkeep ?_)
        cases ahead with
        | nil => exact absurd hlinks hend
        | cons entry rest =>
            obtain ⟨rfl, hrest⟩ := hlinks
            rw [List.length_cons] at hturns
            exact ⟨rest, rfl, hrest, by omega⟩
  | test curr =>
      obtain ⟨rest, rfl, hrest, hturns⟩ := hpass
      rw [nvmevIoWorker] at hstep
      by_cases hcompleted : (worker.workQueue curr).isCompleted = true
      · rw [if_pos hcompleted] at hstep
        cases hstep
        refine .inr ⟨rest, List.subset_cons_self .., ⟨hrest, by omega⟩, ?_⟩
        intro entry hentry
        rcases List.mem_cons.mp hentry with rfl | hentry
        · exact .inr (.inl hcompleted)
        · exact .inl hentry
      · rw [if_neg hcompleted] at hstep
        cases hstep
        exact .inr (hkeep ⟨rest, rfl, hrest, by omega⟩)
  | copy curr =>
      obtain ⟨rest, rfl, hrest, hturns⟩ := hpass
      simp only [nvmevIoWorker] at hstep
      split at hstep
      · cases hstep
        exact .inr (hkeep ⟨rest, rfl, hrest, by omega⟩)
      · cases hstep
        refine .inr (hkeep ⟨rest, rfl, ?_, by omega⟩)
        rwa [next_markCopied]
  | due curr =>
      obtain ⟨rest, rfl, hrest, hturns⟩ := hpass
      rw [nvmevIoWorker] at hstep
      by_cases hdue : worker.target curr ≤ worker.latestNsecs
      · rw [if_pos hdue] at hstep
        cases hstep
        refine .inr ⟨rest, List.subset_cons_self .., ⟨?_, by omega⟩, ?_⟩
        · rwa [next_markCompleted]
        intro entry hentry
        rcases List.mem_cons.mp hentry with rfl | hentry
        · exact .inr (.inl (by simp [IoWorker.markCompleted,
            IoWorker.setWork]))
        · exact .inl hentry
      · rw [if_neg hdue] at hstep
        cases hstep
        refine .inr ⟨rest, List.subset_cons_self .., ⟨hrest, by omega⟩, ?_⟩
        intro entry hentry
        rcases List.mem_cons.mp hentry with rfl | hentry
        · exact .inr (.inr ⟨rfl, hdue⟩)
        · exact .inl hentry
  | next curr =>
      cases hstep
      exact .inr (hkeep ⟨hpass.1, by have := hpass.2; omega⟩)

/-- A number of turns that is enough for any pass. -/
def passTurns : ℕ := 5 * nrMaxParallelIo + 1

/-- The chain that begins with an entry a worker may visit. -/
theorem Visitable.exists_rest (hchained : worker.Chained free busy)
    {entry : ℕ} (hentry : Visitable worker free busy entry) :
    ∃ rest, Links worker.next (worker.next entry) rest noEntry ∧
      rest.length + 1 ≤ nrMaxParallelIo ∧ noEntry ∉ entry :: rest := by
  have htail : ∀ {list front rest : List ℕ} {head : ℕ},
      Links worker.next head list noEntry → list = front ++ entry :: rest →
      list ⊆ free ++ busy → list.Nodup →
      ∃ rest, Links worker.next (worker.next entry) rest noEntry ∧
        rest.length + 1 ≤ nrMaxParallelIo ∧ noEntry ∉ entry :: rest := by
    intro list front rest head hlinks hsplit hsubset hnodup
    subst hsplit
    refine ⟨rest, links_after hlinks, ?_, fun hmem => ?_⟩
    · have hlength := (hnodup.subperm hsubset).length_le
      rw [hchained.perm.length_eq, List.length_range, List.length_append,
        List.length_cons] at hlength
      omega
    · exact IoWorker.ne_noEntry
        (hchained.lt (hsubset (List.mem_append_right _ hmem))) rfl
  have hnodup := hchained.nodup
  rcases hentry with hentry | ⟨front, back, hsplit, -⟩
  · obtain ⟨front, back, hsplit⟩ := List.append_of_mem hentry
    exact htail hchained.onBusy.links hsplit (List.subset_append_right ..)
      hnodup.of_append_right
  · exact htail hchained.onFree.links hsplit (List.subset_append_left ..)
      hnodup.of_append_left

/-- A worker is in its outer loop or in a pass. -/
theorem Placed.exists_pass (hchained : worker.Chained free busy)
    (hplaced : Placed worker free busy pc) :
    pc = .top ∨ ∃ ahead, Pass worker passTurns pc ahead ∧ noEntry ∉ ahead := by
  rw [passTurns]
  cases pc with
  | top => exact .inl rfl
  | scan curr =>
      rcases hplaced with rfl | hvisitable
      · exact .inr ⟨[], ⟨rfl, by simp⟩, by simp⟩
      · obtain ⟨rest, hrest, hlength, hentries⟩ :=
          hvisitable.exists_rest hchained
        refine .inr ⟨curr :: rest, ⟨⟨rfl, hrest⟩, ?_⟩, hentries⟩
        rw [List.length_cons]
        omega
  | test curr =>
      obtain ⟨rest, hrest, hlength, hentries⟩ := hplaced.exists_rest hchained
      exact .inr ⟨_, ⟨rest, rfl, hrest, by omega⟩, hentries⟩
  | copy curr | due curr =>
      obtain ⟨rest, hrest, hlength, hentries⟩ :=
        Visitable.exists_rest hchained (.inl hplaced.1)
      exact .inr ⟨_, ⟨rest, rfl, hrest, by omega⟩, hentries⟩
  | next curr =>
      obtain ⟨rest, hrest, hlength, hentries⟩ := hplaced.exists_rest hchained
      exact .inr ⟨rest, ⟨hrest, by omega⟩,
        fun hmem => hentries (List.mem_cons_of_mem _ hmem)⟩

/-- The worker is about to look at an entry by the time it has read. -/
def WorkerPc.atEntry : WorkerPc → Bool
  | .test _ | .copy _ | .due _ => true
  | _ => false

/-- In a sweep, the entries that are no longer ahead are completed. -/
structure Sweep (worker : IoWorker) (busy : List ℕ) (turns : ℕ) (pc : WorkerPc)
    (ahead : List ℕ) : Prop where
  pass : Pass worker turns pc ahead
  entries : noEntry ∉ ahead
  done : ∀ entry ∈ busy, entry ∈ ahead ∨
    (worker.workQueue entry).isCompleted = true
  late : pc.atEntry = true → ∀ entry ∈ busy,
    worker.target entry ≤ worker.latestNsecs

/-- So many turns are enough to complete the entries of the busy list. -/
inductive Within (worker : IoWorker) (busy : List ℕ) (pc : WorkerPc)
    (count : ℕ) : Prop where
  | drained
      (hdone : ∀ entry ∈ busy, (worker.workQueue entry).isCompleted = true)
  | sweep {ahead : List ℕ} (hsweep : Sweep worker busy count pc ahead)
  | start (hpc : pc = .top) (hcount : passTurns + 1 ≤ count)
  | finishing {turns : ℕ} {ahead : List ℕ} (hpass : Pass worker turns pc ahead)
      (hahead : noEntry ∉ ahead) (hcount : turns + passTurns + 1 ≤ count)

theorem Within.mono {count : ℕ} (hwithin : Within worker busy pc count) :
    Within worker busy pc (count + 1) := by
  cases hwithin with
  | drained hdone => exact .drained hdone
  | sweep hsweep =>
      exact .sweep ⟨hsweep.pass.mono (Nat.le_succ count), hsweep.entries,
        hsweep.done, hsweep.late⟩
  | start hpc hcount => exact .start hpc (hcount.trans (Nat.le_succ count))
  | finishing hpass hahead hcount =>
      exact .finishing hpass hahead (hcount.trans (Nat.le_succ count))

theorem Within.drained_of_zero (hwithin : Within worker busy pc 0) :
    ∀ entry ∈ busy, (worker.workQueue entry).isCompleted = true := by
  cases hwithin with
  | drained hdone => exact hdone
  | sweep hsweep => exact absurd hsweep.pass.pos (lt_irrefl 0)
  | start hpc hcount => exact absurd hcount (by omega)
  | finishing hpass hahead hcount => exact absurd hcount (by omega)

/-- Two passes are enough. -/
theorem Placed.within (hchained : worker.Chained free busy)
    (hplaced : Placed worker free busy pc) :
    Within worker busy pc (2 * passTurns + 1) := by
  rcases hplaced.exists_pass hchained with hpc | ⟨ahead, hpass, hahead⟩
  · exact .start hpc (by omega)
  · exact .finishing hpass hahead (by omega)

/-- What a turn leaves alone: a completed entry stays so, and neither the target
times nor the list change. -/
theorem worker_frame {nsecs : ℕ} {result : WorkerResult}
    (hchained : worker.Chained free busy) (hplaced : Placed worker free busy pc)
    (hstep : nvmevIoWorker worker nsecs pc = some result) :
    (∀ entry, (worker.workQueue entry).isCompleted = true →
        (result.worker.workQueue entry).isCompleted = true) ∧
      result.worker.target = worker.target := by
  have hmark : ∀ {curr : ℕ} {work : IoWork},
      ((worker.workQueue curr).isCompleted = true → work.isCompleted = true) →
      work.nsecsTarget = (worker.workQueue curr).nsecsTarget →
      (∀ entry, (worker.workQueue entry).isCompleted = true →
        ((worker.setWork curr work).workQueue entry).isCompleted = true) ∧
      (worker.setWork curr work).target = worker.target := by
    intro curr work hcompleted htarget
    refine ⟨fun entry hentry => ?_, ?_⟩
    · by_cases hcurr : entry = curr
      · subst hcurr
        simpa [IoWorker.setWork] using hcompleted hentry
      · simpa [IoWorker.setWork, hcurr] using hentry
    · rw [IoWorker.target_setWork, htarget]
      exact update_eq_self _ _
  rcases nvmevIoWorker_cases hchained hplaced hstep with
    ⟨pc', rfl, -⟩ | ⟨curr, -, -, rfl⟩ | ⟨curr, -, -, -, rfl⟩ |
    ⟨curr, -, -, -, -, rfl⟩
  · exact ⟨fun _ => id, rfl⟩
  · exact ⟨fun _ => id, rfl⟩
  · exact hmark id rfl
  · exact hmark (fun _ => rfl) rfl

/-- The time a worker looks at an entry by is the one its clock has shown. -/
theorem worker_late {nsecs : ℕ} {result : WorkerResult} {entry : ℕ}
    (hstep : nvmevIoWorker worker nsecs pc = some result)
    (hclock : worker.target entry ≤ nsecs)
    (hlate : pc.atEntry = true → worker.target entry ≤ worker.latestNsecs)
    (hentry : result.pc.atEntry = true) :
    worker.target entry ≤ result.worker.latestNsecs := by
  cases pc with
  | top | next curr =>
      cases hstep
      cases hentry
  | scan curr =>
      rw [nvmevIoWorker] at hstep
      split at hstep
      · cases hstep
        cases hentry
      · rw [Option.ite_none_right_eq_some] at hstep
        obtain ⟨-, hstep⟩ := hstep
        cases hstep
        exact hclock
  | test curr | copy curr | due curr =>
      simp only [nvmevIoWorker] at hstep
      split at hstep <;> cases hstep <;> exact hlate rfl

/-- A turn of the worker by a clock past the target times. -/
theorem Within.step {nsecs count : ℕ} {result : WorkerResult}
    (hchained : worker.Chained free busy) (hplaced : Placed worker free busy pc)
    (hclock : ∀ entry ∈ busy, worker.target entry ≤ nsecs)
    (hstep : nvmevIoWorker worker nsecs pc = some result)
    (hwithin : Within worker busy pc (count + 1)) :
    Within result.worker busy result.pc count := by
  obtain ⟨hframe, htarget⟩ := worker_frame hchained hplaced hstep
  cases hwithin with
  | drained hdone =>
      exact .drained fun entry hentry => hframe entry (hdone entry hentry)
  | sweep hsweep =>
      rcases hsweep.pass.step hsweep.entries hstep with
        ⟨rfl, rfl⟩ | ⟨ahead', hsubset, hpass', hbehind⟩
      · exact .drained fun entry hentry =>
          (hsweep.done entry hentry).resolve_left List.not_mem_nil
      · refine .sweep ⟨hpass', fun hmem => hsweep.entries (hsubset hmem), ?_,
          ?_⟩
        · intro entry hentry
          rcases hsweep.done entry hentry with hahead | hdone
          · rcases hbehind entry hahead with hahead' | hdone | ⟨rfl, hearly⟩
            · exact .inl hahead'
            · exact .inr hdone
            · exact absurd (hsweep.late rfl entry hentry) hearly
          · exact .inr (hframe entry hdone)
        · intro hat entry hentry
          rw [htarget]
          exact worker_late hstep (hclock entry hentry)
            (fun hat => hsweep.late hat entry hentry) hat
  | start hpc hcount =>
      subst hpc
      cases hstep
      refine .sweep ⟨⟨hchained.onBusy.links, ?_⟩, fun hmem => ?_,
        fun entry => .inl, fun hat => ?_⟩
      · have hlength := hchained.onBusy.length_le
        rw [passTurns] at hcount
        omega
      · exact IoWorker.ne_noEntry (hchained.onBusy.entries _ hmem) rfl
      · cases hat
  | @finishing turns ahead hpass hahead hcount =>
      obtain ⟨turns, rfl⟩ := Nat.exists_eq_succ_of_ne_zero hpass.pos.ne'
      rcases hpass.step hahead hstep with
        ⟨-, rfl⟩ | ⟨ahead', hsubset, hpass', -⟩
      · exact .start rfl (by omega)
      · exact .finishing hpass' (fun hmem => hahead (hsubset hmem)) (by omega)

/-- Only a clock that goes back stops a worker. -/
theorem exists_worker_step {nsecs : ℕ}
    (hclock : worker.latestNsecs ≤ nsecs) (pc : WorkerPc) :
    ∃ result, nvmevIoWorker worker nsecs pc = some result := by
  cases pc with
  | top | next curr => exact ⟨_, rfl⟩
  | scan curr | test curr | copy curr | due curr =>
      simp only [nvmevIoWorker, hclock, if_true]
      split <;> simp

/-! ## The device while the dispatcher is idle -/

def LoopEvent.isWork (id : ℕ) : LoopEvent → Bool
  | .work id' _ => id' = id
  | .dispatch _ => false

/-- A step that is not the dispatcher's keeps the requests that are served or
pending. -/
theorem IoSystem.perm_step {sys sys' : IoSystem} {event : IoEvent}
    (hintact : sys.device.Intact) (hpos : 0 < sys.device.nrIoWorkers)
    (hevent : event.byDispatcher = false)
    (hstep : IoSystem.step event sys = some sys') {requests : List Request}
    (hrequests : requests.Perm (sys.served ++ sys.device.pending)) :
    requests.Perm (sys'.served ++ sys'.device.pending) := by
  obtain ⟨dev, henabled, hdev, rfl⟩ := step_eq_some hstep
  have haccepts : accepts event = [] := by
    cases event with
    | enqueueIoReq | internalOperation | reclaim => cases hevent
    | advance | copy | complete => rfl
  have hspare : HasSpare event { sys with accepted := requests } := by
    cases event with
    | enqueueIoReq | internalOperation => cases hevent
    | reclaim | advance | copy | complete => trivial
  have hstep' : IoSystem.step event { sys with accepted := requests } =
      some ⟨dev, requests ++ accepts event,
        sys.served ++ serves sys.device event⟩ := by
    simp only [IoSystem.step, henabled, if_true, hdev, Option.map_some]
  have hsys : IoSystem.Inv { sys with accepted := requests } :=
    { intact := hintact, workers := hpos, conserved := hrequests }
  have hconserved := (hsys.step hstep' hspare).conserved
  rwa [Conserved, haccepts, List.append_nil] at hconserved

namespace LoopState

/-- A turn of a worker whose clock is past the target times in its busy list. -/
def Quiet (event : LoopEvent) (st : LoopState) : Prop :=
  match event with
  | .dispatch _ => False
  | .work id nsecs => (st.worker id).latestNsecs ≤ nsecs ∧
      ∀ entry ∈ (st.worker id).busyChain, (st.worker id).target entry ≤ nsecs

/-- So many turns of a worker are enough for the requests in its list. -/
def WithinTurns (id count : ℕ) (st : LoopState) : Prop :=
  Within (st.worker id) (st.worker id).busyChain (st.pc id) count

variable {st : LoopState} {id nsecs : ℕ}

theorem turn_work (hid : id < st.sys.device.nrIoWorkers)
    (hquiet : Quiet (.work id nsecs) st) :
    ∃ result, nvmevIoWorker (st.worker id) nsecs (st.pc id) = some result ∧
      LoopState.step (.work id nsecs) st = some (st.apply id result) := by
  obtain ⟨result, hresult⟩ := exists_worker_step hquiet.1 (st.pc id)
  refine ⟨result, hresult, ?_⟩
  rw [LoopState.step, if_pos hid, hresult]
  rfl

/-- A turn of the worker brings it nearer to the end of its requests. -/
theorem Inv.within_own {count : ℕ} (hst : st.Inv)
    (hid : id < st.sys.device.nrIoWorkers) (hquiet : Quiet (.work id nsecs) st)
    (hwithin : WithinTurns id (count + 1) st) :
    WithinTurns id count (turn LoopState.step st (.work id nsecs)) := by
  set st' := turn LoopState.step st (.work id nsecs)
  obtain ⟨result, hresult, hstep⟩ := turn_work hid hquiet
  have hturn : st' = st.apply id result := by
    simp only [st', turn, hstep, Option.getD_some]
  obtain ⟨free, busy, hchained, hplaced⟩ := hst.placed id
  obtain ⟨hchained', -, -⟩ := hchained.worker_step hplaced hresult
  have hbusy : (st.worker id).busyChain = busy := hchained.busyChain_eq
  have hworker : st'.worker id = result.worker := by
    rw [hturn]
    exact update_self ..
  have hpc : st'.pc id = result.pc := by
    rw [hturn]
    exact update_self ..
  rw [WithinTurns, hworker, hpc, hchained'.busyChain_eq]
  rw [WithinTurns, hbusy] at hwithin
  exact hwithin.step hchained hplaced (fun entry hentry =>
    hquiet.2 entry (hbusy ▸ hentry)) hresult

/-- A turn of another worker does not concern it. -/
theorem turn_other {event : LoopEvent} (hquiet : Quiet event st)
    (hother : event.isWork id = false) :
    (turn LoopState.step st event).worker id = st.worker id ∧
      (turn LoopState.step st event).pc id = st.pc id := by
  cases event with
  | dispatch event => exact hquiet.elim
  | work other nsecs =>
      have hne : id ≠ other := by
        rintro rfl
        simp [LoopEvent.isWork] at hother
      by_cases hid : other < st.sys.device.nrIoWorkers
      · obtain ⟨result, -, hstep⟩ := turn_work hid hquiet
        simp only [turn, hstep, Option.getD_some]
        exact ⟨update_of_ne hne _ _, update_of_ne hne _ _⟩
      · have hstep : LoopState.step (.work other nsecs) st = none := if_neg hid
        have hturn : turn LoopState.step st (.work other nsecs) = st := by
          rw [turn, hstep]
          rfl
        rw [hturn]
        exact ⟨rfl, rfl⟩

theorem Inv.intact (hst : st.Inv) : st.sys.device.Intact := fun id => by
  obtain ⟨free, busy, hchained, -⟩ := hst.placed id
  exact ⟨free, busy, hchained⟩

/-- A state in which the requests are served or pending. -/
structure Serving (nrIoWorkers : ℕ) (requests : List Request) (st : LoopState) :
    Prop where
  inv : st.Inv
  workers : st.sys.device.nrIoWorkers = nrIoWorkers
  perm : requests.Perm (st.sys.served ++ st.sys.device.pending)

/-- An idle turn neither adds nor loses a request. -/
theorem Serving.turn {nrIoWorkers : ℕ} (hpos : 0 < nrIoWorkers)
    {requests : List Request} {event : LoopEvent}
    (hst : Serving nrIoWorkers requests st) (hquiet : Quiet event st) :
    Serving nrIoWorkers requests (turn LoopState.step st event) := by
  obtain ⟨hinv, hworkers, hperm⟩ := hst
  cases event with
  | dispatch event => exact hquiet.elim
  | work id nsecs =>
      by_cases hid : id < st.sys.device.nrIoWorkers
      · obtain ⟨result, hresult, hstep⟩ := turn_work hid hquiet
        obtain ⟨events, hevents, hidle⟩ := hinv.simulates hid hresult
        have hkeeps : ∀ (event : IoEvent) (sys sys' : IoSystem),
            event.byDispatcher = false →
            (sys.device.Intact ∧ sys.device.nrIoWorkers = nrIoWorkers ∧
              requests.Perm (sys.served ++ sys.device.pending)) →
            IoSystem.step event sys = some sys' →
            sys'.device.Intact ∧ sys'.device.nrIoWorkers = nrIoWorkers ∧
              requests.Perm (sys'.served ++ sys'.device.pending) := by
          rintro event sys sys' hevent ⟨hintact, hcount, hperm⟩ hsys
          have hperm' := IoSystem.perm_step hintact (hcount ▸ hpos) hevent hsys
            hperm
          obtain ⟨dev, -, hdev, rfl⟩ := IoSystem.step_eq_some hsys
          exact ⟨hintact.step hdev,
            (IoSystem.nrIoWorkers_step hdev).trans hcount, hperm'⟩
        have hmeets := meets_of_forall IoSystem.step (fun event hevent =>
          Bool.eq_false_iff.mpr (List.filter_eq_nil_iff.mp hidle event hevent))
          st.sys
        have hend := run_invariant_of_meets IoSystem.step hkeeps
          ⟨hinv.intact, hworkers, hperm⟩ hmeets
        rw [hevents] at hend
        rw [Interleaving.turn, hstep]
        exact ⟨hinv.apply hid hresult, hend.2.1, hend.2.2⟩
      · have hstep : LoopState.step (.work id nsecs) st = none := if_neg hid
        rw [Interleaving.turn, hstep]
        exact ⟨hinv, hworkers, hperm⟩

theorem Serving.along {nrIoWorkers : ℕ} (hpos : 0 < nrIoWorkers)
    {requests : List Request} {idle : List LoopEvent}
    (hst : Serving nrIoWorkers requests st)
    (hidle : Meets LoopState.step Quiet idle st) :
    Serving nrIoWorkers requests (run LoopState.step idle st) := by
  refine run_invariant_of_meets LoopState.step ?_ hst hidle
  intro event next next' hquiet hnext hstep
  have hturn := hnext.turn hpos hquiet
  rwa [Interleaving.turn, hstep] at hturn

/-- A worker that gets its turns completes its requests, whatever the other
workers do. -/
theorem within_along {nrIoWorkers count : ℕ} (hpos : 0 < nrIoWorkers)
    (hid : id < nrIoWorkers) {requests : List Request} {idle : List LoopEvent}
    (hst : Serving nrIoWorkers requests st)
    (hidle : Meets LoopState.step Quiet idle st)
    (hwithin : WithinTurns id count st)
    (hcount : count ≤ idle.countP (LoopEvent.isWork id)) :
    WithinTurns id 0 (run LoopState.step idle st) := by
  have hown : ∀ (event : LoopEvent) (next : LoopState) (count : ℕ),
      event.isWork id = true → Serving nrIoWorkers requests next →
      Quiet event next → WithinTurns id (count + 1) next →
      WithinTurns id count (turn LoopState.step next event) := by
    intro event next count howner hnext hquiet hwithin
    cases event with
    | dispatch event => exact hquiet.elim
    | work other nsecs =>
        have hother : other = id := of_decide_eq_true howner
        subst hother
        exact hnext.inv.within_own (hnext.workers ▸ hid) hquiet hwithin
  refine run_countdown LoopState.step
    (fun event next hnext hquiet => Serving.turn hpos hnext hquiet) hown ?_
    (fun _ _ => Within.mono) hst hidle hwithin hcount
  intro event next count howner _ hquiet hwithin
  obtain ⟨hworker, hpc⟩ := turn_other hquiet howner
  rwa [WithinTurns, hworker, hpc]

/-- Workers that have had their turns have completed all requests. -/
theorem pending_eq_nil
    (hwithin : ∀ id < st.sys.device.nrIoWorkers, WithinTurns id 0 st) :
    st.sys.device.pending = [] := by
  refine List.flatMap_eq_nil_iff.mpr fun id hid => ?_
  have hdone := (hwithin id (List.mem_range.mp hid)).drained_of_zero
  rw [IoWorker.pending, pendingIn, List.map_eq_nil_iff, List.filter_eq_nil_iff]
  intro entry hentry
  have hcompleted : ((st.sys.device.workers id).content entry).isCompleted =
      true := hdone entry hentry
  simp [hcompleted]

theorem nrIoWorkers_run (schedule : List LoopEvent) (nrIoWorkers : ℕ) :
    (run LoopState.step schedule (init nrIoWorkers)).sys.device.nrIoWorkers =
      nrIoWorkers := by
  obtain ⟨-, events, hevents, -⟩ := (init_inv nrIoWorkers).along schedule
  rw [← hevents]
  have hkeeps : ∀ (event : IoEvent) (sys sys' : IoSystem),
      sys.device.nrIoWorkers = nrIoWorkers →
      IoSystem.step event sys = some sys' →
      sys'.device.nrIoWorkers = nrIoWorkers := by
    intro event sys sys' hcount hstep
    obtain ⟨dev, -, hdev, rfl⟩ := IoSystem.step_eq_some hstep
    exact (IoSystem.nrIoWorkers_step hdev).trans hcount
  exact run_invariant IoSystem.step hkeeps events rfl

/-- A time that no clock and no target time is past. -/
def Late (nsecs : ℕ) (st : LoopState) : Prop :=
  ∀ id, (st.worker id).latestNsecs ≤ nsecs ∧
    ∀ entry ∈ (st.worker id).busyChain, (st.worker id).target entry ≤ nsecs

theorem Late.turn (hst : st.Inv) (hlate : st.Late nsecs) :
    (turn LoopState.step st (.work id nsecs)).Inv ∧
      (turn LoopState.step st (.work id nsecs)).Late nsecs := by
  by_cases hid : id < st.sys.device.nrIoWorkers
  · obtain ⟨result, hresult, hstep⟩ := turn_work hid (hlate id)
    rw [Interleaving.turn, hstep]
    refine ⟨hst.apply hid hresult, fun other => ?_⟩
    by_cases hother : other = id
    · subst hother
      obtain ⟨free, busy, hchained, hplaced⟩ := hst.placed other
      obtain ⟨hchained', -, -⟩ := hchained.worker_step hplaced hresult
      have htarget := (worker_frame hchained hplaced hresult).2
      have hworker : (st.apply other result).worker other = result.worker :=
        update_self ..
      rw [Option.getD_some, hworker, hchained'.busyChain_eq, htarget,
        ← hchained.busyChain_eq]
      refine ⟨?_, (hlate other).2⟩
      rcases nvmevIoWorker_cases hchained hplaced hresult with
        ⟨pc', rfl, -⟩ | ⟨curr, -, -, rfl⟩ | ⟨curr, -, -, -, rfl⟩ |
        ⟨curr, -, -, -, -, rfl⟩
      · exact (hlate other).1
      · exact le_rfl
      · exact (hlate other).1
      · exact (hlate other).1
    · have hworker : (st.apply id result).worker other = st.worker other :=
        update_of_ne hother ..
      rw [Option.getD_some, hworker]
      exact hlate other
  · have hstep : LoopState.step (.work id nsecs) st = none := if_neg hid
    rw [Interleaving.turn, hstep]
    exact ⟨hst, hlate⟩

/-- All turns may be taken at such a time. -/
theorem Late.quiet (hst : st.Inv) (hlate : st.Late nsecs)
    {idle : List LoopEvent}
    (hidle : ∀ event ∈ idle, ∃ id, event = .work id nsecs) :
    Meets LoopState.step Quiet idle st := by
  have hquiet : ∀ (event : LoopEvent) (next : LoopState),
      next.Inv ∧ next.Late nsecs → (∃ id, event = .work id nsecs) →
      Quiet event next := by
    rintro event next ⟨-, hlate⟩ ⟨id, rfl⟩
    exact hlate id
  have hkeeps : ∀ (event : LoopEvent) (next : LoopState),
      next.Inv ∧ next.Late nsecs → (∃ id, event = .work id nsecs) →
      (Interleaving.turn LoopState.step next event).Inv ∧
        (Interleaving.turn LoopState.step next event).Late nsecs := by
    rintro event next ⟨hnext, hlate⟩ ⟨id, rfl⟩
    exact hlate.turn hnext
  exact meets_of_meets LoopState.step hquiet hkeeps ⟨hst, hlate⟩
    (meets_of_forall LoopState.step hidle st)

end LoopState

/-- From every state the device can get to: once the dispatcher is idle and the
clocks are past the target times, the requests that wait are served, each of
them once, as soon as every worker has had enough turns. -/
theorem pending_requests_served {nrIoWorkers : ℕ} (hpos : 0 < nrIoWorkers)
    (schedule idle : List LoopEvent)
    (hidle : Meets LoopState.step LoopState.Quiet idle
      (run LoopState.step schedule (.init nrIoWorkers)))
    (hturns : ∀ id < nrIoWorkers,
      2 * passTurns + 1 ≤ idle.countP (LoopEvent.isWork id)) :
    let st := run LoopState.step schedule (.init nrIoWorkers)
    let st' := run LoopState.step idle st
    st'.sys.device.pending = [] ∧
      st'.sys.served.Perm (st.sys.served ++ st.sys.device.pending) := by
  intro st st'
  have hst : LoopState.Serving nrIoWorkers
      (st.sys.served ++ st.sys.device.pending) st :=
    ⟨((LoopState.init_inv nrIoWorkers).along schedule).1,
      LoopState.nrIoWorkers_run schedule nrIoWorkers, .refl _⟩
  have hend := hst.along hpos hidle
  have hpending : st'.sys.device.pending = [] := by
    refine LoopState.pending_eq_nil fun id hid => ?_
    rw [hend.workers] at hid
    obtain ⟨free, busy, hchained, hplaced⟩ := hst.inv.placed id
    have hwithin : LoopState.WithinTurns id (2 * passTurns + 1) st := by
      rw [LoopState.WithinTurns, hchained.busyChain_eq]
      exact hplaced.within hchained
    exact LoopState.within_along hpos hid hst hidle hwithin (hturns id hid)
  have hperm := hend.perm.symm
  rw [hpending, List.append_nil] at hperm
  exact ⟨hpending, hperm⟩

/-- A device with one worker and one request, due at 1000 ns. -/
def oneRequest : List LoopEvent := [.dispatch (.enqueueIoReq 1 1 0 7 1000 0)]

theorem late_oneRequest :
    (run LoopState.step oneRequest (.init 1)).Late 1000 := by
  intro id
  rcases id with _ | id
  · refine ⟨Nat.zero_le _, fun entry _ => ?_⟩
    rcases entry with _ | entry
    · exact le_rfl
    · exact Nat.zero_le _
  · exact ⟨Nat.zero_le _, fun entry _ => Nat.zero_le _⟩

/-- Two passes of its worker. -/
def twoPasses : List LoopEvent := .replicate (2 * passTurns + 1) (.work 0 1000)

theorem pending_requests_served_one :
    let st := run LoopState.step oneRequest (.init 1)
    let st' := run LoopState.step twoPasses st
    st'.sys.device.pending = [] ∧
      st'.sys.served.Perm (st.sys.served ++ st.sys.device.pending) := by
  have hidle : Meets LoopState.step LoopState.Quiet twoPasses
      (run LoopState.step oneRequest (.init 1)) :=
    late_oneRequest.quiet ((LoopState.init_inv 1).along oneRequest).1
      fun event hevent => ⟨0, List.eq_of_mem_replicate hevent⟩
  have hturns : ∀ id < 1,
      2 * passTurns + 1 ≤ twoPasses.countP (LoopEvent.isWork id) := by
    intro id hid
    rw [Nat.lt_one_iff] at hid
    have hwork : LoopEvent.isWork 0 (.work 0 1000) = true := rfl
    simp only [hid, twoPasses, List.countP_replicate, hwork, if_true, le_refl]
  exact pending_requests_served Nat.one_pos oneRequest twoPasses hidle hturns

end NvmeVirt.Io
