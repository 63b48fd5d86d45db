import NvmeVirt.Io.Dispatch
import NvmeVirt.Lib.Ring

/-!
# The submission ring

`nvmev_proc_dbs` compares a doorbell with its value at the last call and hands
the difference to `nvmev_proc_io_sq`, which dispatches the new entries until one
is refused.  The cursor of the loop and the index that is stored as the new old
doorbell are computed apart from each other; they agree at every position of the
ring, so that the next call goes on at the entry that was refused.
-/

namespace NvmeVirt.Io

open Interleaving

/-- `struct nvmev_sq_stat`. -/
structure SqStat where
  nrDispatched : UInt32
  nrDispatch : UInt32
  nrInFlight : UInt32
  maxNrInFlight : UInt32
  totalIo : UInt64
  deriving DecidableEq

def SqStat.zero : SqStat := ⟨0, 0, 0, 0, 0⟩

/-- `max_t(int, ..)`: the counters are compared as signed numbers. -/
def maxInt (a b : UInt32) : UInt32 :=
  if b.toInt32 ≤ a.toInt32 then a else b

/-- What the namespace answers to the entries of one call, in order, and the
size of the commands in the ring. -/
structure CallInput where
  accepts : ℕ → Bool
  ioSize : ℕ → UInt64

/-- The local variables of `nvmev_proc_io_sq`, the statistics, and the entries
dispatched so far. -/
structure SqCursor where
  seq : ℕ
  sqEntry : ℕ
  stat : SqStat
  dispatched : List ℕ

/-- A round of the loop after the namespace has accepted the entry. -/
def SqCursor.advance (queueSize : ℕ) (input : CallInput) (cursor : SqCursor) :
    SqCursor where
  seq := cursor.seq + 1
  sqEntry :=
    if cursor.sqEntry + 1 = queueSize then 0 else cursor.sqEntry + 1
  stat := { cursor.stat with
    nrDispatched := cursor.stat.nrDispatched + 1
    nrInFlight := cursor.stat.nrInFlight + 1
    totalIo := cursor.stat.totalIo + input.ioSize cursor.sqEntry }
  dispatched := cursor.dispatched ++ [cursor.sqEntry]

def procIoSqLoop (queueSize : ℕ) (input : CallInput) : ℕ → SqCursor → SqCursor
  | 0, cursor => cursor
  | numProc + 1, cursor =>
      if input.accepts cursor.seq then
        procIoSqLoop queueSize input numProc (cursor.advance queueSize input)
      else cursor

/-- A submission queue with its doorbell.  `dispatched` is the record of the
entries dispatched, `submitted` the number of entries the host has put into the
ring by moving the doorbell, and `overrun` tells whether it has ever put more
entries into the ring than fit. -/
structure SqRing where
  queueSize : ℕ
  db : ℕ
  oldDb : ℕ
  stat : SqStat
  dispatched : List ℕ
  submitted : ℕ
  overrun : Bool

/-- `nvmev_proc_io_sq`: the new old doorbell, the statistics and the record. -/
def procIoSq (queueSize newDb oldDb : ℕ) (input : CallInput) (stat : SqStat)
    (dispatched : List ℕ) : ℕ × SqStat × List ℕ :=
  let numProc :=
    if newDb < oldDb then newDb + queueSize - oldDb else newDb - oldDb
  let cursor := procIoSqLoop queueSize input numProc
    ⟨0, oldDb, stat, dispatched⟩
  let stat := { cursor.stat with
    nrDispatch := cursor.stat.nrDispatch + 1
    maxNrInFlight :=
      maxInt cursor.stat.maxNrInFlight cursor.stat.nrInFlight }
  ((oldDb + cursor.seq) % queueSize, stat, cursor.dispatched)

/-- The part of `nvmev_proc_dbs` for one submission queue. -/
def SqRing.procDbs (ring : SqRing) (input : CallInput) : SqRing :=
  if ring.db ≠ ring.oldDb then
    let (oldDb, stat, dispatched) := procIoSq ring.queueSize ring.db ring.oldDb
      input ring.stat ring.dispatched
    { ring with oldDb, stat, dispatched }
  else ring

/-- The host moves the doorbell. -/
def SqRing.writeDb (ring : SqRing) (value : ℕ) : SqRing :=
  let submitted :=
    ring.submitted + Ring.distance ring.queueSize ring.db value
  { ring with
    db := value
    submitted
    overrun := ring.overrun ||
      ring.dispatched.length + ring.queueSize ≤ submitted }

inductive RingEvent where
  | doorbell (value : ℕ)
  | call (input : CallInput)

def ringStep (event : RingEvent) (ring : SqRing) : Option SqRing :=
  match event with
  | .doorbell value => some (ring.writeDb value)
  | .call input => some (ring.procDbs input)

/-- The ring after `__nvmev_admin_create_sq`. -/
def ringInit (queueSize : ℕ) : SqRing :=
  ⟨queueSize, 0, 0, .zero, [], 0, false⟩

/-! ## One call -/

/-- The number of entries accepted before the first refusal. -/
def acceptedCount (accepts : ℕ → Bool) : ℕ → ℕ → ℕ
  | 0, _ => 0
  | numProc + 1, seq =>
      if accepts seq then acceptedCount accepts numProc (seq + 1) + 1 else 0

variable {size : ℕ} {input : CallInput}

theorem acceptedCount_le (accepts : ℕ → Bool) (numProc seq : ℕ) :
    acceptedCount accepts numProc seq ≤ numProc := by
  induction numProc generalizing seq with
  | zero => exact le_rfl
  | succ numProc ih =>
      rw [acceptedCount]
      split
      · exact Nat.succ_le_succ (ih (seq + 1))
      · exact Nat.zero_le _

/-- A call stops short only at an entry that is refused. -/
theorem acceptedCount_stops {accepts : ℕ → Bool} {numProc seq : ℕ}
    (hlt : acceptedCount accepts numProc seq < numProc) :
    accepts (seq + acceptedCount accepts numProc seq) = false := by
  induction numProc generalizing seq with
  | zero => exact absurd hlt (Nat.not_lt_zero _)
  | succ numProc ih =>
      rw [acceptedCount] at hlt ⊢
      split at hlt
      · rename_i haccepts
        rw [if_pos haccepts, ← Nat.add_assoc, Nat.add_right_comm]
        exact ih (by omega)
      · rename_i hrefused
        rw [if_neg hrefused, Nat.add_zero]
        simpa using hrefused

/-- The loop dispatches the accepted entries one after the other. -/
theorem procIoSqLoop_eq (hsize : 0 < size) (numProc : ℕ) {cursor : SqCursor}
    {n : ℕ} (hentry : cursor.sqEntry = n % size) :
    let count := acceptedCount input.accepts numProc cursor.seq
    let last := procIoSqLoop size input numProc cursor
    last.seq = cursor.seq + count ∧
      last.sqEntry = (n + count) % size ∧
      last.dispatched = cursor.dispatched ++ Ring.visited size n count ∧
      last.stat.nrDispatched =
        cursor.stat.nrDispatched + UInt32.ofNat count := by
  induction numProc generalizing cursor n with
  | zero => exact ⟨rfl, hentry, by simp [procIoSqLoop, acceptedCount,
      Ring.visited], by simp [procIoSqLoop, acceptedCount]⟩
  | succ numProc ih =>
      dsimp only
      by_cases haccepts : input.accepts cursor.seq = true
      · have hnext : (cursor.advance size input).sqEntry = (n + 1) % size := by
          rw [← Ring.next_mod hsize, ← hentry]
          rfl
        obtain ⟨hseq, hlast, hdispatched, hstat⟩ := ih hnext
        rw [acceptedCount, procIoSqLoop, if_pos haccepts, if_pos haccepts]
        refine ⟨?_, ?_, ?_, ?_⟩
        · rw [hseq]
          simp only [SqCursor.advance]
          omega
        · rw [hlast]
          simp only [SqCursor.advance]
          congr 1
          omega
        · rw [hdispatched, Ring.visited_succ]
          simp only [SqCursor.advance, hentry]
          simp
        · rw [hstat]
          simp only [SqCursor.advance, UInt32.ofNat_add]
          rw [UInt32.add_assoc, UInt32.add_comm 1]
          rfl
      · rw [acceptedCount, procIoSqLoop, if_neg haccepts, if_neg haccepts]
        exact ⟨rfl, hentry, by simp [Ring.visited], by simp⟩

theorem acceptedCount_accepts {accepts : ℕ → Bool} {numProc seq i : ℕ}
    (hi : i < acceptedCount accepts numProc seq) : accepts (seq + i) = true := by
  induction numProc generalizing seq i with
  | zero => exact absurd hi (Nat.not_lt_zero _)
  | succ numProc ih =>
      rw [acceptedCount] at hi
      split at hi
      · rename_i haccepts
        cases i with
        | zero => exact haccepts
        | succ i =>
            rw [← Nat.add_assoc, Nat.add_right_comm]
            exact ih (by omega)
      · exact absurd hi (Nat.not_lt_zero _)

/-- The index that a call returns is the one its loop has reached, also when
the whole device takes part. -/
theorem nvmevProcIoSq_index (sq : SubmissionQueue) (newDb oldDb : ℕ)
    (outcomes : ℕ → CmdOutcome) (dev : IoDevice) (ioSize : ℕ → UInt64)
    (stat : SqStat) (dispatched : List ℕ) :
    (nvmevProcIoSq sq newDb oldDb outcomes dev).1 =
      (procIoSq sq.queueSize newDb oldDb
        ⟨fun seq => (outcomes seq).accepted, ioSize⟩ stat dispatched).1 := by
  have hloop : ∀ numProc (cursor : SqCursor) dev,
      (procIoLoop sq outcomes numProc cursor.seq cursor.sqEntry dev).1 =
        (procIoSqLoop sq.queueSize
          ⟨fun seq => (outcomes seq).accepted, ioSize⟩ numProc cursor).seq := by
    intro numProc
    induction numProc with
    | zero => exact fun _ _ => rfl
    | succ numProc ih =>
        intro cursor dev
        rw [procIoLoop, procIoSqLoop, run_procIoEvents]
        by_cases haccepted : (outcomes cursor.seq).accepted = true
        · simp only [haccepted, if_true]
          exact ih (cursor.advance sq.queueSize _) _
        · simp only [haccepted, Bool.false_eq_true, if_false]
  exact congrArg (fun seq => (oldDb + seq) % sq.queueSize)
    (hloop _ ⟨0, oldDb, stat, dispatched⟩ dev)

/-! ## Runs -/

/-- The entries dispatched so far are the first ones round the ring, and the
old doorbell is the entry after them. -/
structure SqRing.InOrder (size : ℕ) (ring : SqRing) : Prop where
  queueSize_eq : ring.queueSize = size
  dispatched_eq :
    ring.dispatched = Ring.visited size 0 ring.dispatched.length
  oldDb_eq : ring.oldDb = ring.dispatched.length % size
  nrDispatched_eq :
    ring.stat.nrDispatched = UInt32.ofNat ring.dispatched.length
  db_eq : ring.db = ring.submitted % size
  submitted_eq : ring.overrun = false →
    ring.dispatched.length ≤ ring.submitted ∧
      ring.submitted < ring.dispatched.length + size

namespace SqRing.InOrder

variable {ring : SqRing}

theorem pending_eq (hring : ring.InOrder size) (hfits : ring.overrun = false) :
    ring.dispatched.length + Ring.distance size ring.oldDb ring.db =
      ring.submitted := by
  obtain ⟨hle, hlt⟩ := hring.submitted_eq hfits
  obtain ⟨steps, hsteps⟩ := Nat.exists_eq_add_of_le hle
  rw [hring.oldDb_eq, hring.db_eq, hsteps,
    Ring.distance_mod_add (by omega)]

/-- What one call does: it dispatches the next entries up to the doorbell or to
the first one that is refused. -/
theorem procDbs_eq (hsize : 0 < size) (hring : ring.InOrder size)
    (input : CallInput) :
    let count := acceptedCount input.accepts
      (Ring.distance size ring.oldDb ring.db) 0
    let next := ring.procDbs input
    next.dispatched = ring.dispatched ++
        Ring.visited size ring.dispatched.length count ∧
      next.oldDb = (ring.dispatched.length + count) % size ∧
      next.stat.nrDispatched =
        ring.stat.nrDispatched + UInt32.ofNat count ∧
      next.queueSize = ring.queueSize ∧ next.db = ring.db ∧
      next.submitted = ring.submitted ∧ next.overrun = ring.overrun := by
  dsimp only
  by_cases hmoved : ring.db = ring.oldDb
  · have hnone : Ring.distance size ring.oldDb ring.db = 0 := by
      rw [hmoved, Ring.distance, if_neg (lt_irrefl _), Nat.sub_self]
    rw [SqRing.procDbs, if_neg (not_not.mpr hmoved), hnone, acceptedCount]
    exact ⟨by simp [Ring.visited], hring.oldDb_eq, by simp, rfl, rfl, rfl, rfl⟩
  · set start : SqCursor := ⟨0, ring.oldDb, ring.stat, ring.dispatched⟩
      with hstart
    have hentry : start.sqEntry = ring.dispatched.length % size :=
      hring.oldDb_eq
    obtain ⟨hseq, -, hdispatched, hstat⟩ := @procIoSqLoop_eq _ input hsize
      (Ring.distance size ring.oldDb ring.db) start _ hentry
    rw [SqRing.procDbs, if_pos hmoved, procIoSq, hring.queueSize_eq]
    refine ⟨hdispatched, ?_, hstat, rfl, rfl, rfl, rfl⟩
    change (ring.oldDb + (procIoSqLoop size input
      (Ring.distance size ring.oldDb ring.db) start).seq) % size = _
    rw [hseq, hring.oldDb_eq, Nat.mod_add_mod]
    simp only [hstart, Nat.zero_add, hring.oldDb_eq]

theorem procDbs (hsize : 0 < size) (hring : ring.InOrder size)
    (input : CallInput) :
    (ring.procDbs input).InOrder size := by
  obtain ⟨hdispatched, holdDb, hstat, hqueueSize, hdbEq, hsubmitted,
    hoverrun⟩ := hring.procDbs_eq hsize input
  have hcount := acceptedCount_le input.accepts
    (Ring.distance size ring.oldDb ring.db) 0
  have hlength : (ring.procDbs input).dispatched.length =
      ring.dispatched.length + acceptedCount input.accepts
        (Ring.distance size ring.oldDb ring.db) 0 := by
    rw [hdispatched, List.length_append, Ring.visited, List.length_map,
      List.length_range']
  refine ⟨hqueueSize.trans hring.queueSize_eq, ?_, ?_, ?_, ?_, ?_⟩
  · rw [hlength, hdispatched]
    nth_rewrite 1 [hring.dispatched_eq]
    have hstart : ring.dispatched.length = 0 + ring.dispatched.length :=
      (Nat.zero_add _).symm
    nth_rewrite 2 [hstart]
    exact Ring.visited_append 0 _ _
  · rw [hlength, holdDb]
  · rw [hlength, hstat, hring.nrDispatched_eq, UInt32.ofNat_add]
  · rw [hdbEq, hsubmitted]
    exact hring.db_eq
  · intro hfits
    rw [hoverrun] at hfits
    have hpending := hring.pending_eq hfits
    obtain ⟨-, hlt⟩ := hring.submitted_eq hfits
    rw [hlength, hsubmitted]
    omega

theorem writeDb (hring : ring.InOrder size) {value : ℕ}
    (hvalue : value < size) : (ring.writeDb value).InOrder size where
  queueSize_eq := hring.queueSize_eq
  dispatched_eq := hring.dispatched_eq
  oldDb_eq := hring.oldDb_eq
  nrDispatched_eq := hring.nrDispatched_eq
  db_eq := by
    have hdb : ring.db < size := by
      rw [hring.db_eq]
      exact Nat.mod_lt _ (by omega)
    have hmoved := Ring.add_distance_mod hdb hvalue
    simp only [SqRing.writeDb, hring.queueSize_eq]
    rw [← Nat.mod_add_mod, ← hring.db_eq, hmoved]
  submitted_eq := by
    simp only [SqRing.writeDb, hring.queueSize_eq, Bool.or_eq_false_iff,
      decide_eq_false_iff_not]
    rintro ⟨hfits, hroom⟩
    obtain ⟨hle, -⟩ := hring.submitted_eq hfits
    omega

end SqRing.InOrder

theorem ringInit_inOrder {size : ℕ} (hsize : 0 < size) :
    (ringInit size).InOrder size where
  queueSize_eq := rfl
  dispatched_eq := rfl
  oldDb_eq := (Nat.zero_mod size).symm
  nrDispatched_eq := rfl
  db_eq := (Nat.zero_mod size).symm
  submitted_eq := fun _ => ⟨le_rfl, by simpa [ringInit] using hsize⟩

/-- In every run of doorbell writes and calls, whatever is refused, the entries
are dispatched in the order of the ring, each one once.  The old doorbell is the
first entry that is not dispatched, and a call dispatches the entries from there
up to the doorbell or to the first refusal.  As long as the host keeps to the
size of the ring, these are the entries submitted and not yet dispatched. -/
theorem submission_ring_in_order (size : ℕ) (hsize : 2 ≤ size)
    (events : List RingEvent)
    (hevents : ∀ value, .doorbell value ∈ events → value < size) :
    let ring := run ringStep events (ringInit size)
    let total := ring.dispatched.length
    ring.dispatched = (List.range total).map (· % size) ∧
      ring.oldDb = total % size ∧
      ring.stat.nrDispatched = UInt32.ofNat total ∧
      (ring.overrun = false →
        total + Ring.distance size ring.oldDb ring.db = ring.submitted) ∧
      ∀ input : CallInput,
        let next := ring.procDbs input
        ∃ count ≤ Ring.distance size ring.oldDb ring.db,
          (∀ i < count, input.accepts i = true) ∧
            (count < Ring.distance size ring.oldDb ring.db →
              input.accepts count = false) ∧
            next.dispatched = ring.dispatched ++
              (List.range' total count).map (· % size) ∧
            next.stat.nrDispatched =
              ring.stat.nrDispatched + UInt32.ofNat count := by
  intro ring total
  have hpos : 0 < size := by omega
  have hring : ring.InOrder size := by
    have hmeets : Meets ringStep
        (fun event _ => ∀ value, event = .doorbell value → value < size) events
        (ringInit size) := by
      refine meets_of_forall ringStep ?_ _
      intro event hmem value heq
      exact hevents value (heq ▸ hmem)
    refine run_invariant_of_meets ringStep ?_ (ringInit_inOrder hpos) hmeets
    intro event st st' hevent hst hstep
    cases event with
    | doorbell value =>
        cases hstep
        exact hst.writeDb (hevent value rfl)
    | call input =>
        cases hstep
        exact hst.procDbs hpos input
  refine ⟨?_, hring.oldDb_eq, hring.nrDispatched_eq, hring.pending_eq,
    fun input => ?_⟩
  · rw [List.range_eq_range']
    exact hring.dispatched_eq
  · obtain ⟨hdispatched, -, hstat, -⟩ := hring.procDbs_eq hpos input
    refine ⟨_, acceptedCount_le _ _ _, fun i hi => ?_, fun hlt => ?_,
      hdispatched, hstat⟩
    · have haccepts := acceptedCount_accepts hi
      rwa [Nat.zero_add] at haccepts
    · have hstops := acceptedCount_stops hlt
      rwa [Nat.zero_add] at hstops

/-- Six entries in a ring of five, with a refusal before the wrap. -/
theorem submission_ring_in_order_refused :
    let stop : CallInput := ⟨fun seq => seq ≠ 2, fun _ => 512⟩
    let ring := run ringStep [.doorbell 4, .call stop, .doorbell 1, .call stop,
      .call stop] (ringInit 5)
    ring.dispatched = [0, 1, 2, 3, 4, 0] ∧ ring.oldDb = 1 ∧
      ring.stat.nrDispatched = 6 := by
  obtain ⟨-, holdDb, hstat, -⟩ := submission_ring_in_order 5 (by decide)
    [.doorbell 4, .call ⟨fun seq => seq ≠ 2, fun _ => 512⟩, .doorbell 1,
      .call ⟨fun seq => seq ≠ 2, fun _ => 512⟩,
      .call ⟨fun seq => seq ≠ 2, fun _ => 512⟩] (by simp)
  exact ⟨by decide, holdDb, hstat⟩

end NvmeVirt.Io
