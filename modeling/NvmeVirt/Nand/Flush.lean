import NvmeVirt.Lib.Bookings
import NvmeVirt.Lib.Interleaving
import NvmeVirt.Lib.Loops
import NvmeVirt.Nand.Timing

/-!
# NAND commands and flushes

Commands book the dies of a namespace one after the other, as long as no time
reaches the end of the 64-bit clock.  A flush waits for the latest time at which
a die of any partition is available, and so for every write and erase before it.
-/

namespace NvmeVirt.Nand

open Function Channel Bookings Interleaving
open NvmeVirt.Ftl (Ppa)

/-! ## Namespaces -/

/-- The partitions of a namespace, which share a PCIe link. -/
structure NandSystem where
  ch : ℕ → ℕ → SsdChannel
  pcie : ChannelModel

structure Lun where
  part : ℕ
  ch : ℕ
  lun : ℕ
  deriving DecidableEq

/-- A call of `ssd_advance_nand` for a partition. -/
structure NandEvent where
  part : ℕ
  cmd : NandCmd
  clocks : Clocks

namespace NandSystem

variable (sys : NandSystem)

def ssd (part : ℕ) : Ssd := ⟨sys.ch part, sys.pcie⟩

def availTime (lun : Lun) : ℕ :=
  (sys.ch lun.part lun.ch).nextLunAvailTime lun.lun

end NandSystem

section Operations

variable (spp : NandParams)

/-- The returned time, and the namespace after the call. -/
def advanceNand (event : NandEvent) (sys : NandSystem) : ℕ × NandSystem :=
  let (completedTime, ssd) :=
    ssdAdvanceNand spp event.clocks (sys.ssd event.part) event.cmd
  (completedTime, ⟨update sys.ch event.part ssd.ch, ssd.pcie⟩)

def nandStep (event : NandEvent) (sys : NandSystem) : Option NandSystem :=
  some (advanceNand spp event sys).2

/-- The loop over the partitions of a namespace.  The clocks are those that the
flush and then each `ssd_next_idle_time` read. -/
def convFlush (nrParts localClock : ℕ) (ioclock : ℕ → ℕ) (sys : NandSystem) :
    ℕ :=
  (List.range nrParts).foldl (fun latest i =>
    max latest (ssdNextIdleTime spp (ioclock i) (sys.ssd i))) localClock

/-- The code of `conv_flush` once more. -/
def znsFlush (nrParts localClock : ℕ) (ioclock : ℕ → ℕ) (sys : NandSystem) :
    ℕ :=
  convFlush spp nrParts localClock ioclock sys

/-- What a command has been given: its die from its start to the time at which
the die is next available, and the time that the call returns. -/
structure Service where
  lun : Lun
  op : NandOp
  start : ℕ
  availTime : ℕ
  completedTime : ℕ
  deriving DecidableEq

/-- The service of a call; there is none for an unmapped page. -/
def service (event : NandEvent) (sys : NandSystem) : Option Service :=
  event.cmd.ppa.map fun ppa =>
    let lun : Lun := ⟨event.part, ppa.ch, ppa.lun⟩
    { lun := lun
      op := event.cmd.op
      start := startTime event.clocks (sys.ssd event.part) event.cmd ppa
      availTime := (advanceNand spp event sys).2.availTime lun
      completedTime := (advanceNand spp event sys).1 }

def services : List NandEvent → NandSystem → List Service
  | [], _ => []
  | event :: rest, sys => (service spp event sys).toList ++
      services rest (turn (nandStep spp) sys event)

/-- The page of a command is one of the namespace, and a read transfers
something. -/
def NandEvent.InGeometry (nrParts : ℕ) (event : NandEvent) : Prop :=
  ∀ ppa ∈ event.cmd.ppa, event.part < nrParts ∧ ppa.ch < spp.nchs ∧
    ppa.lun < spp.lunsPerCh ∧
    (event.cmd.op = .read → 0 < event.cmd.xferSize)

/-- The transfers of a read end before the clock does. -/
def TransferInTime (interleave : Bool) (clocks : Clocks)
    (round remaining : ℕ) (transfer : Transfer) : Prop :=
  if _ : remaining = 0 then True
  else
    let xferSize := min remaining spp.maxChXferSize
    transfer.chnlEtime + requestLatency transfer.perfModel
        ⟨clocks.channel round, transfer.chnlEtime, xferSize⟩ < 2 ^ 64 ∧
      TransferInTime interleave clocks (round + 1) (remaining - xferSize)
        (transferRound interleave clocks round xferSize transfer)
termination_by remaining
decreasing_by
  have := spp.maxChXferSize_pos
  omega

/-- No time that the command computes for its die is beyond the clock. -/
def InTime (event : NandEvent) (sys : NandSystem) : Prop :=
  ∀ ppa ∈ event.cmd.ppa,
    let ssd := sys.ssd event.part
    let cmd := event.cmd
    let start := startTime event.clocks ssd cmd ppa
    let perfModel := (ssd.ch ppa.ch).perfModel
    match cmd.op with
    | .read =>
        let nandEtime := start + if cmd.xferSize = 4096 then
          spp.pg4kbRdLat (spp.getCell ppa) else spp.pgRdLat (spp.getCell ppa)
        nandEtime < 2 ^ 64 ∧
          TransferInTime spp cmd.interleavePciDma event.clocks 0 cmd.xferSize
            ⟨nandEtime, nandEtime, perfModel, ssd.pcie⟩
    | .write => start + requestLatency perfModel
        ⟨event.clocks.channel 0, start, cmd.xferSize⟩ + spp.pgWrLat < 2 ^ 64
    | .erase => start + spp.blkErLat < 2 ^ 64
    | .nop => True

end Operations

variable {spp : NandParams} {sys : NandSystem} {event : NandEvent}

/-! ## One command -/

theorem chnlEtime_transferRound (interleave : Bool) (clocks : Clocks)
    (round xferSize : ℕ) (transfer : Transfer) :
    (transferRound interleave clocks round xferSize transfer).chnlEtime =
      (chmodelRequest transfer.perfModel
        ⟨clocks.channel round, transfer.chnlEtime, xferSize⟩).1 := by
  cases interleave <;> rfl

/-- A transfer that ends in time does not end before it starts. -/
theorem le_transferLoop {interleave : Bool} {clocks : Clocks}
    (round remaining : ℕ) (transfer : Transfer)
    (hintime : TransferInTime spp interleave clocks round remaining transfer) :
    transfer.chnlEtime ≤ (transferLoop spp interleave clocks round remaining
      transfer).chnlEtime := by
  induction round, remaining, transfer
    using transferLoop.induct spp interleave clocks with
  | case1 round transfer => rw [transferLoop, dif_pos rfl]
  | case2 round remaining transfer hremaining xferSize ih =>
      rw [TransferInTime, dif_neg hremaining] at hintime
      obtain ⟨hfits, hrest⟩ := hintime
      rw [transferLoop, dif_neg hremaining]
      have hnext : transfer.chnlEtime ≤ (transferRound interleave clocks round
          xferSize transfer).chnlEtime := by
        rw [chnlEtime_transferRound, chmodelRequest_time _ _ hfits]
        exact Nat.le_add_right _ _
      exact hnext.trans (ih hrest)

@[simp]
theorem lunAvailTime_setLun (ssd : Ssd) (ppa : Ppa) (availTime : ℕ)
    (perfModel : ChannelModel) :
    (ssd.setLun ppa availTime perfModel).lunAvailTime ppa = availTime := by
  simp [Ssd.setLun, Ssd.lunAvailTime]

theorem setLun_others (ssd : Ssd) {ppa : Ppa} (availTime : ℕ)
    (perfModel : ChannelModel) {ch lun : ℕ}
    (hother : ¬ (ch = ppa.ch ∧ lun = ppa.lun)) :
    ((ssd.setLun ppa availTime perfModel).ch ch).nextLunAvailTime lun =
      (ssd.ch ch).nextLunAvailTime lun := by
  by_cases hch : ch = ppa.ch
  · have hlun : lun ≠ ppa.lun := fun hlun => hother ⟨hch, hlun⟩
    simp [Ssd.setLun, hch, hlun]
  · simp [Ssd.setLun, hch]

@[simp]
theorem ch_setPcie (ssd : Ssd) (pcie : ChannelModel) :
    (ssd.setPcie pcie).ch = ssd.ch := rfl

@[simp]
theorem lunAvailTime_setPcie (ssd : Ssd) (pcie : ChannelModel) :
    (ssd.setPcie pcie).lunAvailTime = ssd.lunAvailTime := rfl

section Serve

variable {clocks : Clocks} {ssd : Ssd} {cmd : NandCmd} {ppa : Ppa} {start : ℕ}

theorem serve_others {ch lun : ℕ} (hother : ¬ (ch = ppa.ch ∧ lun = ppa.lun)) :
    (((serve spp clocks ssd cmd ppa start).2.ch ch).nextLunAvailTime lun) =
      (ssd.ch ch).nextLunAvailTime lun := by
  unfold serve
  cases cmd.op <;> simp [setLun_others ssd _ _ hother]

/-- A write and an erase complete when their die is available again. -/
theorem serve_completed (hop : cmd.op = .write ∨ cmd.op = .erase) :
    (serve spp clocks ssd cmd ppa start).1 =
      (serve spp clocks ssd cmd ppa start).2.lunAvailTime ppa := by
  unfold serve
  rcases hop with hop | hop <;> simp [hop]

end Serve

/-- The die of a command is available again no earlier than the command starts.
-/
theorem start_le_serve {ppa : Ppa} (hppa : event.cmd.ppa = some ppa)
    (hintime : InTime spp event sys) :
    let start := startTime event.clocks (sys.ssd event.part) event.cmd ppa
    start ≤ (serve spp event.clocks (sys.ssd event.part) event.cmd ppa
      start).2.lunAvailTime ppa := by
  intro start
  have hintime := hintime ppa hppa
  dsimp only at hintime
  unfold serve
  cases hop : event.cmd.op with
  | read =>
      rw [hop] at hintime
      obtain ⟨hread, htransfer⟩ := hintime
      have hetime : readEtime spp event.cmd ppa start = _ :=
        Nat.mod_eq_of_lt hread
      have hloop := le_transferLoop _ _ _ htransfer
      rw [← hetime] at hloop
      rw [lunAvailTime_setPcie, lunAvailTime_setLun]
      exact (Nat.le_add_right _ _).trans (hetime.ge.trans hloop)
  | write =>
      rw [hop] at hintime
      have htime := chmodelRequest_time
        ((sys.ssd event.part).ch ppa.ch).perfModel
        ⟨event.clocks.channel 0, start, event.cmd.xferSize⟩
        ((Nat.le_add_right _ _).trans_lt hintime)
      rw [lunAvailTime_setLun, htime, uint64, Nat.mod_eq_of_lt hintime]
      exact (Nat.le_add_right _ _).trans (Nat.le_add_right _ _)
  | erase =>
      rw [hop] at hintime
      rw [lunAvailTime_setLun, uint64, Nat.mod_eq_of_lt hintime]
      exact Nat.le_add_right _ _
  | nop => rw [lunAvailTime_setLun]

/-! ## Runs -/

def Service.booking (served : Service) : Booking Lun ℕ :=
  ⟨served.lun, served.start, served.availTime⟩

/-- A command that ends in time books its die. -/
theorem service_books {served : Service}
    (hservice : service spp event sys = some served)
    (hintime : InTime spp event sys) :
    Books sys.availTime (turn (nandStep spp) sys event).availTime
      served.booking := by
  obtain ⟨ppa, hppa, rfl⟩ := Option.map_eq_some_iff.mp hservice
  have hserve : ssdAdvanceNand spp event.clocks (sys.ssd event.part) event.cmd =
      serve spp event.clocks (sys.ssd event.part) event.cmd ppa
        (startTime event.clocks (sys.ssd event.part) event.cmd ppa) := by
    rw [ssdAdvanceNand, hppa]
  constructor
  · exact le_max_left _ _
  · refine (start_le_serve hppa hintime).trans_eq ?_
    simp [Service.booking, advanceNand, NandSystem.availTime, hserve]
    rfl
  · rfl
  · intro other hother
    by_cases hpart : other.part = event.part
    · have hlun : ¬ (other.ch = ppa.ch ∧ other.lun = ppa.lun) := by
        rintro ⟨hch, hlun⟩
        exact hother (by cases other; simp_all [Service.booking])
      simp only [turn, nandStep, advanceNand, NandSystem.availTime, hserve,
        Option.getD_some, hpart, update_self]
      exact serve_others hlun
    · simp [turn, nandStep, advanceNand, NandSystem.availTime, hpart]

theorem turn_of_unmapped (hservice : service spp event sys = none) :
    (turn (nandStep spp) sys event).availTime = sys.availTime := by
  have hppa : event.cmd.ppa = none := Option.map_eq_none_iff.mp hservice
  funext lun
  by_cases hpart : lun.part = event.part
  · simp [turn, nandStep, advanceNand, ssdAdvanceNand, hppa,
      NandSystem.availTime, NandSystem.ssd, hpart]
  · simp [turn, nandStep, advanceNand, NandSystem.availTime, hpart]

/-- Commands that all end in time book their dies one after the other. -/
theorem services_books {events : List NandEvent}
    (hintime : Meets (nandStep spp) (InTime spp) events sys) :
    BooksAll sys.availTime ((services spp events sys).map Service.booking)
      (run (nandStep spp) events sys).availTime := by
  induction events generalizing sys with
  | nil => exact .nil
  | cons event rest ih =>
      obtain ⟨hevent, hrest⟩ := hintime
      have hbooked := ih hrest
      rw [services, List.map_append]
      cases hservice : service spp event sys with
      | none =>
          rw [turn_of_unmapped hservice] at hbooked
          exact hbooked
      | some served => exact .cons (service_books hservice hevent) hbooked

theorem exists_of_mem_services {events : List NandEvent} {served : Service}
    (hserved : served ∈ services spp events sys) :
    ∃ event ∈ events, ∃ sys', service spp event sys' = some served := by
  induction events generalizing sys with
  | nil => cases hserved
  | cons event rest ih =>
      rcases List.mem_append.mp hserved with hfirst | hrest
      · exact ⟨event, List.mem_cons_self, sys, Option.mem_toList.mp hfirst⟩
      · obtain ⟨other, hother, hservice⟩ := ih hrest
        exact ⟨other, List.mem_cons_of_mem _ hother, hservice⟩

theorem service_completed {served : Service}
    (hservice : service spp event sys = some served)
    (hop : served.op = .write ∨ served.op = .erase) :
    served.completedTime = served.availTime := by
  obtain ⟨ppa, hppa, rfl⟩ := Option.map_eq_some_iff.mp hservice
  simp only [advanceNand, ssdAdvanceNand, hppa, NandSystem.availTime,
    update_self]
  exact serve_completed hop

/-! ## Flushes -/

/-- An SSD is not idle while one of its dies is not available. -/
theorem le_ssdNextIdleTime (ioclock : ℕ) (ssd : Ssd) {ch lun : ℕ}
    (hch : ch < spp.nchs) (hlun : lun < spp.lunsPerCh) :
    (ssd.ch ch).nextLunAvailTime lun ≤ ssdNextIdleTime spp ioclock ssd := by
  have hdie : ∀ latest, (ssd.ch ch).nextLunAvailTime lun ≤
      (List.range spp.lunsPerCh).foldl (fun latest j =>
        max latest ((ssd.ch ch).nextLunAvailTime j)) latest :=
    Loops.le_foldl_of_mem (fun _ _ => le_max_left _ _) (List.mem_range.mpr hlun)
      fun _ => le_max_right _ _
  exact Loops.le_foldl_of_mem
    (fun latest _ => Loops.le_foldl (fun _ _ => le_max_left _ _) _ latest)
    (List.mem_range.mpr hch) hdie ioclock

theorem availTime_le_convFlush {nrParts : ℕ} (localClock : ℕ)
    (ioclock : ℕ → ℕ) (sys : NandSystem) {lun : Lun}
    (hpart : lun.part < nrParts) (hch : lun.ch < spp.nchs)
    (hlun : lun.lun < spp.lunsPerCh) :
    sys.availTime lun ≤ convFlush spp nrParts localClock ioclock sys := by
  refine Loops.le_foldl_of_mem (fun _ _ => le_max_left _ _)
    (List.mem_range.mpr hpart) (fun latest => ?_) localClock
  exact (le_ssdNextIdleTime _ (sys.ssd lun.part) hch hlun).trans
    (le_max_right latest _)

/-- A command that ends in time makes no die available earlier. -/
theorem availTime_le_turn (hintime : InTime spp event sys) (lun : Lun) :
    sys.availTime lun ≤ (turn (nandStep spp) sys event).availTime lun := by
  cases hservice : service spp event sys with
  | none => rw [turn_of_unmapped hservice]
  | some served => exact (service_books hservice hintime).mono lun

/-- Available times never decrease, the services of a die follow each other, and
a flush of either kind waits for every write and erase before it. -/
theorem nand_services_ordered (spp : NandParams) (nrParts : ℕ)
    (sys : NandSystem) (events : List NandEvent)
    (hevents : ∀ event ∈ events, event.InGeometry spp nrParts)
    (hintime : Meets (nandStep spp) (InTime spp) events sys) :
    let sys' := run (nandStep spp) events sys
    let log := services spp events sys
    Meets (nandStep spp) (fun event st => ∀ lun,
        st.availTime lun ≤ (turn (nandStep spp) st event).availTime lun)
        events sys ∧
      log.Pairwise (fun earlier later => earlier.lun = later.lun →
        earlier.availTime ≤ later.start) ∧
      ∀ served ∈ log, served.op = .write ∨ served.op = .erase →
        ∀ localClock ioclock,
          served.completedTime ≤ convFlush spp nrParts localClock ioclock sys' ∧
          served.completedTime ≤
            znsFlush spp nrParts localClock ioclock sys' := by
  intro sys' log
  have hbooked := services_books hintime
  refine ⟨?_, List.pairwise_map.mp hbooked.pairwise, ?_⟩
  · exact meets_of_meets (nandStep spp)
      (fun _ _ (_ : True) hintime lun => availTime_le_turn hintime lun)
      (fun _ _ _ _ => trivial) trivial hintime
  · intro served hserved hop localClock ioclock
    obtain ⟨event, hevent, st, hservice⟩ := exists_of_mem_services hserved
    have hstop := hbooked.stop_le (List.mem_map_of_mem hserved)
    have hcompleted := service_completed hservice hop
    obtain ⟨ppa, hppa, rfl⟩ := Option.map_eq_some_iff.mp hservice
    obtain ⟨hpart, hch, hlun, -⟩ := hevents event hevent ppa hppa
    have hflush : sys'.availTime ⟨event.part, ppa.ch, ppa.lun⟩ ≤
        convFlush spp nrParts localClock ioclock sys' :=
      availTime_le_convFlush localClock ioclock sys' hpart hch hlun
    have hle := (hcompleted.trans_le hstop).trans hflush
    exact ⟨hle, hle⟩

/-- One of the four partitions of the 970 PRO configuration. -/
def samsung970Pro : NandParams where
  nchs := 2
  lunsPerCh := 2
  pgsPerFlashpg := 8
  cellMode := 2
  pg4kbRdLat cell := if cell = 0 then 29760 else 41760
  pgRdLat cell := if cell = 0 then 30013 else 42013
  pgWrLat := 185000
  blkErLat := 0
  maxChXferSize := 16384
  maxChXferSize_pos := Nat.succ_pos _

/-- The namespace before its first command. -/
def nandInit : NandSystem where
  ch _ _ := ⟨fun _ => 0, chmodelInit (fun _ => 0) 800⟩
  pcie := chmodelInit (fun _ => 0) 3360

/-- A command on the first die of the first partition, while the wall clock
shows `now`. -/
def firstDie (op : NandOp) (stime now : ℕ) : NandEvent where
  part := 0
  cmd := ⟨op, 32768, stime, false, some ⟨0, 0, 0, 0, 0⟩⟩
  clocks := ⟨now, fun _ => now, fun _ => now⟩

theorem firstDie_inGeometry (op : NandOp) (stime now : ℕ) :
    (firstDie op stime now).InGeometry samsung970Pro 4 := by
  rintro ppa ⟨⟩
  exact ⟨Nat.succ_pos 3, Nat.two_pos, Nat.two_pos, fun _ => Nat.succ_pos _⟩

/-- The second of two writes to a die waits for the first, and a flush waits for
both. -/
theorem nand_services_ordered_writes :
    let events := [firstDie .write 1000 2000, firstDie .write 3000 200000]
    let sys := run (nandStep samsung970Pro) events nandInit
    services samsung970Pro events nandInit =
        [⟨⟨0, 0, 0⟩, .write, 1000, 186000, 186000⟩,
          ⟨⟨0, 0, 0⟩, .write, 186000, 371000, 371000⟩] ∧
      371000 ≤ convFlush samsung970Pro 4 5000 (fun _ => 5000) sys := by
  intro events sys
  have hservices : services samsung970Pro events nandInit =
      [⟨⟨0, 0, 0⟩, .write, 1000, 186000, 186000⟩,
        ⟨⟨0, 0, 0⟩, .write, 186000, 371000, 371000⟩] := by
    decide
  have hevents : ∀ event ∈ events, event.InGeometry samsung970Pro 4 := by
    intro event hevent
    rcases List.mem_pair.mp hevent with rfl | rfl
    · exact firstDie_inGeometry _ _ _
    · exact firstDie_inGeometry _ _ _
  have hintime : Meets (nandStep samsung970Pro) (InTime samsung970Pro) events
      nandInit := by
    refine ⟨?_, ?_, trivial⟩
    · rintro ppa ⟨⟩
      exact (show 1000 + 0 + 185000 < 2 ^ 64 by decide)
    · rintro ppa ⟨⟩
      exact (show 186000 + 0 + 185000 < 2 ^ 64 by decide)
  obtain ⟨-, -, hflush⟩ :=
    nand_services_ordered samsung970Pro 4 nandInit events hevents hintime
  refine ⟨hservices, (hflush ⟨⟨0, 0, 0⟩, .write, 186000, 371000, 371000⟩ ?_
    (.inl rfl) 5000 fun _ => 5000).1⟩
  rw [hservices]
  simp

/-- A write that starts two nanoseconds before the clock ends makes its die
available long before. -/
theorem avail_time_wraps :
    let events := [firstDie .nop (2 ^ 64 - 2) (2 ^ 64 - 1),
      firstDie .write (2 ^ 64 - 2) (2 ^ 64 - 1)]
    (∀ event ∈ events, event.InGeometry samsung970Pro 4) ∧
      (run (nandStep samsung970Pro) (events.take 1) nandInit).availTime
          ⟨0, 0, 0⟩ = 2 ^ 64 - 2 ∧
      (run (nandStep samsung970Pro) events nandInit).availTime ⟨0, 0, 0⟩ =
        184998 := by
  refine ⟨fun event hevent => ?_, by decide, by decide⟩
  rcases List.mem_pair.mp hevent with rfl | rfl
  · exact firstDie_inGeometry _ _ _
  · exact firstDie_inGeometry _ _ _

end NvmeVirt.Nand
