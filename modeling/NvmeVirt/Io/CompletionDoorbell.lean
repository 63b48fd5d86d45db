import NvmeVirt.Io.CompletionQueue
import NvmeVirt.Lib.WhileLoops

/-!
# The doorbell of a completion queue

The host rings the doorbell of a completion queue when it has taken entries from
it.  The dispatcher walks from the old value of the doorbell to the new one and
takes each entry off the count of its submission queue.  The walk wraps by a
round that has already read the entry after the last one, and its only exit is
the new value itself, which the host chooses.
-/

namespace NvmeVirt.Io

open Function WhileLoops

/-- The index of `cq_entry(i)`: a negative counter is converted to a size. -/
def cqEntry (i : ℤ) : ℕ := (i % 2 ^ 64).toNat

/-- The loop's counter, the number of requests in flight of each submission
queue that exists, the entries read, and the counters that passed the test. -/
structure CqWalk where
  i : ℤ
  inFlight : ℕ → Option UInt32
  read : List ℕ
  visited : List ℤ

/-- A request of the queue that the entry names is no longer in flight. -/
def retire (cq : CompletionQueue) (inFlight : ℕ → Option UInt32) (i : ℤ) :
    ℕ → Option UInt32 :=
  let sqid := (cq.entries (cqEntry i)).sqId
  match inFlight sqid with
  | none => inFlight
  | some count => update inFlight sqid (some (count - 1))

/-- A round of the loop of `nvmev_proc_io_cq`.  The counter that wraps is set to
-1 and then incremented. -/
def cqRound (cq : CompletionQueue) (newDb : ℤ) (walk : CqWalk) :
    Option CqWalk :=
  if walk.i = newDb then none
  else
    let read := walk.read ++ [cqEntry walk.i]
    if cq.queueSize ≤ walk.i then some { walk with i := -1 + 1, read := read }
    else some
      { i := walk.i + 1
        inFlight := retire cq walk.inFlight walk.i
        read := read
        visited := walk.visited ++ [walk.i] }

def cqWalkFrom (oldDb : ℤ) (inFlight : ℕ → Option UInt32) : CqWalk where
  i := oldDb
  inFlight := inFlight
  read := []
  visited := []

/-- The `cq_tail` that `nvmev_proc_io_cq` leaves. -/
def cqTail (cq : CompletionQueue) (newDb : ℤ) : ℤ :=
  if newDb = -1 then cq.queueSize - 1 else newDb - 1

/-- `nvmev_proc_io_cq`: the walk and the tail, if the walk ends in the given
number of rounds. -/
def nvmevProcIoCq (cq : CompletionQueue) (newDb oldDb : ℤ)
    (inFlight : ℕ → Option UInt32) (rounds : ℕ) : Option (CqWalk × ℤ) :=
  (runLoop (cqRound cq newDb) rounds (cqWalkFrom oldDb inFlight)).map
    fun walk => (walk, cqTail cq newDb)

/-! ## Rounds that do not wrap -/

/-- The integers from `a` on. -/
def upFrom (a : ℤ) (count : ℕ) : List ℤ :=
  (List.range count).map fun k : ℕ => a + k

theorem upFrom_succ (a : ℤ) (count : ℕ) :
    upFrom a (count + 1) = upFrom a count ++ [a + count] := by
  rw [upFrom, List.range_succ, List.map_append]
  rfl

section Rounds

variable {cq : CompletionQueue} {newDb : ℤ}

/-- Below the size of the queue, the walk goes up one entry a round until it
meets the new doorbell. -/
theorem reaches_up (walk : CqWalk) {count : ℕ}
    (hsize : walk.i + count ≤ cq.queueSize)
    (hnew : newDb < walk.i ∨ walk.i + count ≤ newDb) :
    Reaches (cqRound cq newDb) walk
      { i := walk.i + count
        inFlight := (upFrom walk.i count).foldl (retire cq) walk.inFlight
        read := walk.read ++ (upFrom walk.i count).map cqEntry
        visited := walk.visited ++ upFrom walk.i count } := by
  induction count with
  | zero =>
      simp only [upFrom, List.range_zero, List.map_nil, List.foldl_nil,
        List.append_nil, Nat.cast_zero, add_zero]
      exact .refl
  | succ count ih =>
      refine (ih (by omega) (by omega)).tail ?_
      rw [cqRound, if_neg (show walk.i + (count : ℤ) ≠ newDb by omega),
        if_neg (show ¬ (cq.queueSize : ℤ) ≤ walk.i + count by omega),
        upFrom_succ, List.foldl_append, List.map_append, ← List.append_assoc,
        ← List.append_assoc, Nat.cast_succ, ← Int.add_assoc]
      rfl

theorem reaches_wrap {walk : CqWalk} (hsize : cq.queueSize ≤ walk.i)
    (hnew : walk.i ≠ newDb) :
    Reaches (cqRound cq newDb) walk
      { walk with i := 0, read := walk.read ++ [cqEntry walk.i] } := by
  refine .single ?_
  rw [cqRound, if_neg hnew, if_pos hsize]
  rfl

theorem endsIn_of_eq {walk : CqWalk} (hnew : walk.i = newDb) :
    EndsIn (cqRound cq newDb) walk walk :=
  endsIn_of_none (if_pos hnew)

/-- The walk ends once it is at most at the new doorbell, below or at the size
of the queue. -/
theorem ends_of_le {walk : CqWalk} (hle : walk.i ≤ newDb)
    (hsize : newDb ≤ cq.queueSize) : Ends (cqRound cq newDb) walk := by
  obtain ⟨count, hcount⟩ := Int.eq_ofNat_of_zero_le (sub_nonneg.mpr hle)
  have hreaches := @reaches_up cq newDb walk count (by omega) (by omega)
  exact ⟨_, (endsIn_reaches hreaches).mpr (endsIn_of_eq (by dsimp only; omega))⟩

end Rounds

/-! ## A walk around the ring -/

/-- The entries of a ring of `size` from `oldDb` up to the one before `newDb`.
-/
def ringInterval (size oldDb newDb : ℕ) : List ℤ :=
  (List.range ((newDb + size - oldDb) % size)).map fun k =>
    ((oldDb + k) % size : ℕ)

theorem ringInterval_of_le {size oldDb newDb : ℕ} (hle : oldDb ≤ newDb)
    (hnew : newDb < size) :
    ringInterval size oldDb newDb = upFrom oldDb (newDb - oldDb) := by
  have hcount : (newDb + size - oldDb) % size = newDb - oldDb := by
    rw [show newDb + size - oldDb = newDb - oldDb + size by omega,
      Nat.add_mod_right, Nat.mod_eq_of_lt (by omega)]
  rw [ringInterval, hcount, upFrom]
  apply List.map_congr_left
  intro k hk
  have hlt := List.mem_range.mp hk
  rw [Nat.mod_eq_of_lt (by omega), Nat.cast_add]

theorem ringInterval_of_lt {size oldDb newDb : ℕ} (hlt : newDb < oldDb)
    (hold : oldDb < size) :
    ringInterval size oldDb newDb =
      upFrom oldDb (size - oldDb) ++ upFrom 0 newDb := by
  have hcount : (newDb + size - oldDb) % size = (size - oldDb) + newDb := by
    rw [Nat.mod_eq_of_lt (by omega)]
    omega
  rw [ringInterval, hcount, List.range_add, List.map_append, List.map_map]
  congr 1
  · rw [upFrom]
    apply List.map_congr_left
    intro k hk
    have hbelow := List.mem_range.mp hk
    rw [Nat.mod_eq_of_lt (by omega), Nat.cast_add]
  · rw [upFrom]
    apply List.map_congr_left
    intro k hk
    have hbelow := List.mem_range.mp hk
    rw [comp_apply, show oldDb + (size - oldDb + k) = k + size by omega,
      Nat.add_mod_right, Nat.mod_eq_of_lt (by omega), zero_add]

/-- The walk visits the entries between the doorbells and retires them, it reads
nothing beyond the queue, and the tail is the entry before the new doorbell. -/
structure WalksRing (cq : CompletionQueue) (oldDb newDb : ℕ)
    (inFlight : ℕ → Option UInt32) (walk : CqWalk) (tail : ℤ) : Prop where
  visited_eq : walk.visited = ringInterval cq.queueSize oldDb newDb
  inFlight_eq : walk.inFlight =
    (ringInterval cq.queueSize oldDb newDb).foldl (retire cq) inFlight
  read_lt : ∀ entry ∈ walk.read, entry < cq.queueSize
  tail_eq : tail = (newDb - 1) % cq.queueSize

theorem cqEntry_natCast {entry : ℕ} (hentry : entry < 2 ^ 64) :
    cqEntry entry = entry := by
  rw [cqEntry, Int.emod_eq_of_lt (by omega) (by exact_mod_cast hentry),
    Int.toNat_natCast]

theorem read_upFrom {a count entry : ℕ}
    (hentry : entry ∈ (upFrom a count).map cqEntry)
    (hmax : a + count ≤ 2 ^ 64) : entry < a + count := by
  obtain ⟨i, hi, rfl⟩ := List.mem_map.mp hentry
  obtain ⟨k, hk, rfl⟩ := List.mem_map.mp hi
  have hlt := List.mem_range.mp hk
  rw [← Nat.cast_add, cqEntry_natCast (by omega)]
  omega

section Walks

variable (cq : CompletionQueue) {oldDb newDb : ℕ}
  (hold : oldDb < cq.queueSize) (hnew : newDb < cq.queueSize)
  (inFlight : ℕ → Option UInt32)
include hnew

theorem endsIn_straight (hle : oldDb ≤ newDb) :
    EndsIn (cqRound cq newDb) (cqWalkFrom oldDb inFlight)
      { i := newDb
        inFlight := (ringInterval cq.queueSize oldDb newDb).foldl (retire cq)
          inFlight
        read := (ringInterval cq.queueSize oldDb newDb).map cqEntry
        visited := ringInterval cq.queueSize oldDb newDb } := by
  have hreaches := @reaches_up cq newDb (cqWalkFrom oldDb inFlight)
    (newDb - oldDb) (by simp only [cqWalkFrom]; omega)
    (by simp only [cqWalkFrom]; omega)
  have hend : (oldDb : ℤ) + (newDb - oldDb : ℕ) = newDb := by omega
  simp only [cqWalkFrom, hend, List.nil_append] at hreaches
  rw [ringInterval_of_le hle hnew]
  exact (endsIn_reaches hreaches).mpr (endsIn_of_eq rfl)

include hold in
/-- A walk that wraps reads the entry after the last one. -/
theorem endsIn_wrapped (hlt : newDb < oldDb) :
    EndsIn (cqRound cq newDb) (cqWalkFrom oldDb inFlight)
      { i := newDb
        inFlight := (ringInterval cq.queueSize oldDb newDb).foldl (retire cq)
          inFlight
        read := (upFrom oldDb (cq.queueSize - oldDb)).map cqEntry ++
          [cqEntry cq.queueSize] ++ (upFrom 0 newDb).map cqEntry
        visited := ringInterval cq.queueSize oldDb newDb } := by
  have hup := @reaches_up cq newDb (cqWalkFrom oldDb inFlight)
    (cq.queueSize - oldDb) (by simp only [cqWalkFrom]; omega)
    (by simp only [cqWalkFrom]; omega)
  have hend : (oldDb : ℤ) + (cq.queueSize - oldDb : ℕ) = cq.queueSize := by
    omega
  simp only [cqWalkFrom, hend, List.nil_append] at hup
  rw [cqWalkFrom, endsIn_reaches hup]
  rw [endsIn_reaches (reaches_wrap le_rfl
    (show (cq.queueSize : ℤ) ≠ newDb by omega))]
  have hagain := @reaches_up cq newDb
    { i := 0
      inFlight := (upFrom oldDb (cq.queueSize - oldDb)).foldl (retire cq)
        inFlight
      read := (upFrom oldDb (cq.queueSize - oldDb)).map cqEntry ++
        [cqEntry cq.queueSize]
      visited := upFrom oldDb (cq.queueSize - oldDb) }
    newDb (by dsimp only; omega) (by dsimp only; omega)
  rw [endsIn_reaches hagain, ringInterval_of_lt hlt hold, List.foldl_append]
  simp only [zero_add]
  exact endsIn_of_eq rfl

end Walks

/-- The tail is right unless the new doorbell is 0: the code asks for -1. -/
theorem cqTail_eq_iff {cq : CompletionQueue} {newDb : ℕ}
    (hnew : newDb < cq.queueSize) :
    cqTail cq newDb = (newDb - 1) % cq.queueSize ↔ newDb ≠ 0 := by
  rw [cqTail, if_neg (show (newDb : ℤ) ≠ -1 by omega)]
  rcases Nat.eq_zero_or_pos newDb with rfl | hpos
  · have hwrap : ((0 : ℕ) - 1 : ℤ) % cq.queueSize = cq.queueSize - 1 := by
      rw [← Int.add_emod_right, Int.emod_eq_of_lt] <;> omega
    rw [hwrap]
    omega
  · rw [Int.emod_eq_of_lt (by omega) (by omega)]
    exact iff_of_true rfl hpos.ne'

/-- For doorbells inside the queue, `nvmev_proc_io_cq` returns; it does what it
should exactly if the walk does not wrap and does not end at entry 0. -/
theorem completion_ring_walked_iff (cq : CompletionQueue)
    (hint : cq.queueSize < 2 ^ 31) {oldDb newDb : ℕ}
    (hold : oldDb < cq.queueSize) (hnew : newDb < cq.queueSize)
    (inFlight : ℕ → Option UInt32) :
    ∃ rounds walk tail,
      nvmevProcIoCq cq newDb oldDb inFlight rounds = some (walk, tail) ∧
        (WalksRing cq oldDb newDb inFlight walk tail ↔
          oldDb ≤ newDb ∧ newDb ≠ 0) := by
  rcases Nat.lt_or_ge newDb oldDb with hlt | hle
  · obtain ⟨rounds, hrun⟩ := endsIn_wrapped cq hold hnew inFlight hlt
    refine ⟨rounds, _, _, by rw [nvmevProcIoCq, hrun]; rfl, ?_⟩
    refine iff_of_false (fun hwalks => ?_) fun hle => absurd hle.1 (by omega)
    -- The entry after the last one is among those that have been read.
    have hbeyond := hwalks.read_lt cq.queueSize (by
      rw [cqEntry_natCast (by omega)]
      simp)
    exact lt_irrefl _ hbeyond
  · obtain ⟨rounds, hrun⟩ := endsIn_straight cq hnew inFlight hle
    refine ⟨rounds, _, _, by rw [nvmevProcIoCq, hrun]; rfl, ?_⟩
    rw [and_iff_right hle, ← cqTail_eq_iff hnew]
    refine ⟨fun hwalks => hwalks.tail_eq, fun htail => ⟨rfl, rfl, ?_, htail⟩⟩
    intro entry hentry
    rw [ringInterval_of_le hle hnew] at hentry
    have hlt := read_upFrom hentry (by omega)
    omega

/-- A queue of four entries that all name the submission queue 1. -/
def fourEntries : CompletionQueue where
  queueSize := 4
  phase := true
  cqHead := 0
  entries _ := { emptyEntry with sqId := 1 }
  interruptReady := false

theorem completion_ring_walked_iff_middle :
    ∃ rounds walk tail,
      nvmevProcIoCq fourEntries 3 1 (fun _ => some 2) rounds =
          some (walk, tail) ∧
        WalksRing fourEntries 1 3 (fun _ => some 2) walk tail := by
  obtain ⟨rounds, walk, tail, hrun, hiff⟩ := completion_ring_walked_iff
    fourEntries (by decide) (show 1 < fourEntries.queueSize by decide)
    (show 3 < fourEntries.queueSize by decide) fun _ => some 2
  exact ⟨rounds, walk, tail, hrun, hiff.mpr (by decide)⟩

/-- A walk from the last entry to the first one reads the entry after the last
one, and leaves the tail at -1. -/
theorem completion_ring_overrun :
    (nvmevProcIoCq fourEntries 0 3 (fun _ => some 2) 8).map
        (fun result => (result.1.read, result.2)) = some ([3, 4], -1) ∧
      ¬ ∃ rounds walk tail,
        nvmevProcIoCq fourEntries 0 3 (fun _ => some 2) rounds =
            some (walk, tail) ∧
          WalksRing fourEntries 3 0 (fun _ => some 2) walk tail := by
  refine ⟨by decide, ?_⟩
  rintro ⟨rounds, walk, tail, hrun, hwalks⟩
  obtain ⟨_, -, heq⟩ := Option.map_eq_some_iff.mp hrun
  have htail : cqTail fourEntries 0 = tail := (Prod.ext_iff.mp heq).2
  rw [hwalks.tail_eq] at htail
  exact absurd htail (by decide)

/-! ## The exit of the loop -/

section Exit

variable {cq : CompletionQueue} {newDb : ℤ} {walk : CqWalk}

/-- Above the new doorbell, the walk comes to the size of the queue and wraps.
-/
theorem reaches_zero (hnew : newDb < walk.i) :
    ∃ walk', walk'.i = 0 ∧ Reaches (cqRound cq newDb) walk walk' := by
  rcases lt_or_ge walk.i cq.queueSize with hlt | hge
  · obtain ⟨count, hcount⟩ := Int.eq_ofNat_of_zero_le (sub_nonneg.mpr hlt.le)
    have hup := @reaches_up cq newDb walk count (by omega) (.inl hnew)
    exact ⟨_, rfl, hup.trans (reaches_wrap (by dsimp only; omega)
      (by dsimp only; omega))⟩
  · exact ⟨_, rfl, reaches_wrap hge hnew.ne'⟩

/-- A doorbell beyond the queue is never met. -/
theorem not_ends_beyond (hbeyond : cq.queueSize < newDb)
    (hstart : walk.i ≠ newDb) : ¬ Ends (cqRound cq newDb) walk := by
  apply not_ends_of_invariant (fun walk => walk.i ≠ newDb) _ hstart
  intro walk hne
  rw [cqRound, if_neg hne]
  split
  · exact ⟨_, rfl, by dsimp only; omega⟩
  · exact ⟨_, rfl, by dsimp only; omega⟩

/-- Neither is a negative one, once the counter is above it. -/
theorem not_ends_negative (hnegative : newDb < 0) (hstart : newDb < walk.i) :
    ¬ Ends (cqRound cq newDb) walk := by
  apply not_ends_of_invariant (fun walk => newDb < walk.i) _ hstart
  intro walk habove
  rw [cqRound, if_neg habove.ne']
  split
  · exact ⟨_, rfl, by dsimp only; omega⟩
  · exact ⟨_, rfl, by dsimp only; omega⟩

end Exit

/-- The walk ends exactly if the new doorbell is inside the queue or at its end,
if it is the old one, or if it is negative and the old one lies below it. -/
theorem completion_walk_ends_iff (cq : CompletionQueue) (newDb oldDb : ℤ)
    (inFlight : ℕ → Option UInt32) :
    Ends (cqRound cq newDb) (cqWalkFrom oldDb inFlight) ↔
      (0 ≤ newDb ∧ newDb ≤ cq.queueSize) ∨ oldDb = newDb ∨
        (oldDb < newDb ∧ newDb < 0) := by
  constructor
  · intro hends
    by_contra hnone
    simp only [not_or, not_and, not_lt, not_le] at hnone
    obtain ⟨hinside, hne, hbelow⟩ := hnone
    rcases lt_or_ge newDb 0 with hnegative | hnonneg
    · refine not_ends_negative hnegative ?_ hends
      simp only [cqWalkFrom]
      by_contra hle
      exact absurd (hbelow (by omega)) (by omega)
    · exact not_ends_beyond (hinside hnonneg) hne hends
  · rintro (⟨hnonneg, hle⟩ | heq | ⟨hlt, hnegative⟩)
    · rcases lt_or_ge newDb oldDb with habove | hbelow
      · obtain ⟨walk', hzero, hreaches⟩ := @reaches_zero cq newDb
          (cqWalkFrom oldDb inFlight) habove
        obtain ⟨final, hends⟩ := @ends_of_le cq newDb walk'
          (hzero.le.trans hnonneg) hle
        exact ⟨final, (endsIn_reaches hreaches).mpr hends⟩
      · exact ends_of_le hbelow hle
    · exact ⟨_, endsIn_of_eq heq⟩
    · exact ends_of_le hlt.le (by omega)

/-- A doorbell of 5 keeps the dispatcher in a queue of four entries for ever. -/
theorem completion_walk_endless :
    ¬ Ends (cqRound fourEntries 5) (cqWalkFrom 0 fun _ => some 2) :=
  not_ends_beyond (by decide) (by decide)

end NvmeVirt.Io
