import NvmeVirt.Ftl.WriteBuffer

/-!
# The zoned FTL

The zone descriptors, resource counters and write buffers of `zns_ftl.h`,
`zns_read_write.c` and `zns_mgmt_send.c`.  Latencies are not modelled: the NAND
timing calls do not touch this state, and a scheduled buffer release may run at
any later time.
-/

namespace NvmeVirt.Zns

open Function Ftl

inductive ZoneState where
  | empty
  | openedImpl
  | openedExpl
  | closed
  | readOnly
  | full
  | offline
  deriving DecidableEq

inductive ZoneResourceType where
  | activeZone
  | openZone
  | zrwaZone
  deriving DecidableEq

/-- `NVME_SC_*`. -/
inductive Status where
  | success
  | invalidField
  | invalidZoneOperation
  | zrwaRsrcUnavail
  | errBoundary
  | errFull
  | errReadOnly
  | errOffline
  | invalidWrite
  | noActiveZone
  | noOpenZone
  | invalidTransition
  deriving DecidableEq

structure ZoneDescriptor where
  state : ZoneState
  zrwav : Bool
  zoneCapacity : ℕ
  zslba : ℕ
  wp : ℕ
  deriving DecidableEq

structure ZoneResourceInfo where
  acquiredCnt : ℕ
  totalCnt : ℕ
  deriving DecidableEq

/-- Bytes of a logical block. -/
def secsz : ℕ := 512

/-- Logical blocks of a page. -/
def secsPerPg : ℕ := 8

/-- Bytes of a page. -/
def pgsz : ℕ := 4096

/-- The configuration of a zoned namespace, with the checks of
`zns_init_params`, the widths of its fields, and divisors that are not zero.
Sizes are in bytes. -/
structure ZnsParams where
  zoneSize : ℕ
  nrZones : ℕ
  zoneWbSize : ℕ
  writeBufferSize : ℕ
  writeUnitSize : ℕ
  pgsPerOneshotpg : ℕ
  zrwaSize : ℕ
  zrwafgSize : ℕ
  zrwaBufferSize : ℕ
  zoneSize_pos : 0 < zoneSize
  zoneSize_lt : zoneSize < 2 ^ 32
  nrZones_lt : nrZones < 2 ^ 32
  pgsz_dvd : pgsz ∣ zoneSize
  writeUnitSize_pos : 0 < writeUnitSize
  pgsPerOneshotpg_pos : 0 < pgsPerOneshotpg

theorem secsz_pos : 0 < secsz := Nat.succ_pos _

theorem pgsz_pos : 0 < pgsz := Nat.succ_pos _

theorem pgsz_lt_uint32 : pgsz < 2 ^ 32 := Nat.le_of_ble_eq_true rfl

theorem pgsz_dvd_pgsz : pgsz ∣ pgsz := dvd_rfl

theorem one_lt_uint32 : 1 < 2 ^ 32 := Nat.le_of_ble_eq_true rfl

theorem two_lt_uint32 : 2 < 2 ^ 32 := Nat.le_of_ble_eq_true rfl

def lbaToByte (lbas : ℕ) : ℕ := lbas * secsz

/-- A value stored in a `uint32_t`. -/
def uint32 (value : ℕ) : ℕ := value % 2 ^ 32

/-- One less than an unsigned 64-bit value: below zero it wraps. -/
def predUint64 (value : ℕ) : ℕ :=
  if value = 0 then 2 ^ 64 - 1 else value - 1

theorem predUint64_of_pos {value : ℕ} (hpos : 0 < value) :
    predUint64 value = value - 1 :=
  if_neg hpos.ne'

namespace ZnsParams

variable (zp : ZnsParams)

def lbasPerZone : ℕ := zp.zoneSize / secsz

def pgsPerZone : ℕ := zp.zoneSize / pgsz

def lbasPerZrwa : ℕ := zp.zrwaSize / secsz

def lbasPerZrwafg : ℕ := zp.zrwafgSize / secsz

def lpnToZone (lpn : ℕ) : ℕ := uint32 (lpn / zp.pgsPerZone)

def zoneToSlpn (zid : ℕ) : ℕ := uint32 (zid * zp.pgsPerZone)

def lbaToZone (lba : ℕ) : ℕ := uint32 (lba / zp.lbasPerZone)

def zoneToSlba (zid : ℕ) : ℕ := uint32 (zid * zp.lbasPerZone)

/-- The last block of a zone, as an unsigned 64-bit difference. -/
def zoneToElba (zid : ℕ) : ℕ :=
  (zp.zoneToSlba (uint32 (zid + 1)) + (2 ^ 64 - 1)) % 2 ^ 64

def zoneToElpn (zid : ℕ) : ℕ := zp.zoneToElba zid / secsPerPg

end ZnsParams

def lbaToLpn (lba : ℕ) : ℕ := lba / secsPerPg

/-- The write buffers: the global one, and for each zone its own and the one of
its random write area. -/
inductive BufferId where
  | global
  | zone (zid : ℕ)
  | zrwa (zid : ℕ)
  deriving DecidableEq

/-- An internal operation that waits to release buffer space.  The code does not
record the zone whose pages were flushed. -/
structure BufferRelease where
  buffer : BufferId
  zid : ℕ
  bytes : ℕ
  deriving DecidableEq

structure ZnsFtl where
  zoneDescs : ℕ → ZoneDescriptor
  resInfos : ZoneResourceType → ZoneResourceInfo
  buffers : BufferId → Buffer
  scheduled : List BufferRelease
  /-- Whether every `ASSERT` met so far held; the macro itself is empty. -/
  asserted : Bool
  /-- Whether every divisor met so far was nonzero. -/
  divisorsOk : Bool

section State

variable (ftl : ZnsFtl)

def modifyZone (zid : ℕ) (f : ZoneDescriptor → ZoneDescriptor) : ZnsFtl :=
  { ftl with zoneDescs := update ftl.zoneDescs zid (f (ftl.zoneDescs zid)) }

def setAcquired (type : ZoneResourceType) (count : ℕ) : ZnsFtl :=
  { ftl with
    resInfos := update ftl.resInfos type
      { ftl.resInfos type with acquiredCnt := count } }

def isZoneResourceAvail (type : ZoneResourceType) : Bool :=
  (ftl.resInfos type).acquiredCnt < (ftl.resInfos type).totalCnt

def isZoneResourceFull (type : ZoneResourceType) : Bool :=
  (ftl.resInfos type).acquiredCnt = (ftl.resInfos type).totalCnt

def acquireZoneResource (type : ZoneResourceType) : Bool × ZnsFtl :=
  if isZoneResourceAvail ftl type then
    (true, setAcquired ftl type ((ftl.resInfos type).acquiredCnt + 1))
  else (false, ftl)

/-- The counter is unsigned: below zero it wraps. -/
def releaseZoneResource (type : ZoneResourceType) : ZnsFtl :=
  let count := (ftl.resInfos type).acquiredCnt
  { setAcquired ftl type (if count = 0 then 2 ^ 32 - 1 else count - 1) with
    asserted := ftl.asserted && 0 < count }

def changeZoneState (zid : ℕ) (state : ZoneState) : ZnsFtl :=
  modifyZone ftl zid fun desc => { desc with state := state }

def setBuffer (buffer : BufferId) (buf : Buffer) : ZnsFtl :=
  { ftl with buffers := update ftl.buffers buffer buf }

def scheduleReleases (releases : List BufferRelease) : ZnsFtl :=
  { ftl with scheduled := ftl.scheduled ++ releases }

/-- Notes the divisor of a division or remainder that comes next. -/
def divideBy (divisor : ℕ) : ZnsFtl :=
  { ftl with divisorsOk := ftl.divisorsOk && divisor ≠ 0 }

end State

section Operations

variable (zp : ZnsParams)

/-- The state set up by `zns_init_ftl`. -/
def znsInitFtl : ZnsFtl where
  zoneDescs zid :=
    { state := .empty
      zrwav := false
      zoneCapacity := zp.lbasPerZone
      zslba := zid * zp.lbasPerZone
      wp := zid * zp.lbasPerZone }
  resInfos _ := ⟨0, zp.nrZones⟩
  buffers
    | .global => bufferInit zp.writeBufferSize
    | .zone _ => bufferInit zp.zoneWbSize
    | .zrwa _ => bufferInit zp.zrwaBufferSize
  scheduled := []
  asserted := true
  divisorsOk := true

/-- Whether the blocks of a command lie in one zone. -/
def checkBoundaryError (slba nrLba : ℕ) : Bool :=
  zp.lbaToZone slba = zp.lbaToZone (slba + nrLba - 1)

def increaseWritePtr (ftl : ZnsFtl) (zid nrLba : ℕ) : ZnsFtl :=
  let wp := (ftl.zoneDescs zid).wp + nrLba
  let ftl := modifyZone ftl zid fun desc => { desc with wp := wp }
  let desc := ftl.zoneDescs zid
  if wp = zp.zoneToSlba zid + desc.zoneCapacity then
    let ftl := releaseZoneResource ftl .openZone
    let ftl := releaseZoneResource ftl .activeZone
    let ftl := { ftl with asserted := ftl.asserted && !desc.zrwav }
    changeZoneState ftl zid .full
  else ftl

/-- The page of a logical page within its one-shot page. -/
def lpnToPg (lpn : ℕ) : ℕ :=
  (lpn - zp.zoneToSlpn (zp.lpnToZone lpn)) % zp.pgsPerOneshotpg

/-- Bytes of a one-shot page. -/
def oneshotBytes : ℕ := zp.pgsPerOneshotpg * pgsz

/-- What the flush of the group of pages that ends at `lpn` gives back. -/
def bufsToRelease (zoneElpn lpn : ℕ) : ℕ :=
  let unalignedSpace := zp.zoneSize % oneshotBytes zp
  if lpn = zoneElpn ∧ 0 < unalignedSpace then unalignedSpace
  else oneshotBytes zp

/-- The loop of `__zns_write` over the one-shot pages of a command. -/
def flushLoop (buffer : BufferId) (zid zoneElpn elpn : ℕ) :
    ℕ → ℕ → List BufferRelease
  | 0, _ => []
  | fuel + 1, lpn =>
      if elpn < lpn then []
      else
        let pgOff := lpnToPg zp lpn % zp.pgsPerOneshotpg
        let pgs := min (elpn - lpn + 1) (zp.pgsPerOneshotpg - pgOff)
        let flushed :=
          if pgOff + pgs = zp.pgsPerOneshotpg ∨ lpn + pgs - 1 = zoneElpn then
            [⟨buffer, zid, bufsToRelease zp zoneElpn (lpn + pgs - 1)⟩]
          else []
        flushed ++ flushLoop buffer zid zoneElpn elpn fuel (lpn + pgs)

/-- The buffer that `__zns_write` uses for a zone. -/
def writeBufferOf (zid : ℕ) : BufferId :=
  if zp.zoneWbSize ≠ 0 then .zone zid else .global

/-- The checks of `__zns_write` before it looks at the state of the zone. -/
def checkWrite (ftl : ZnsFtl) (zid slba nrLba : ℕ) : Status :=
  if lbaToByte nrLba % zp.writeUnitSize ≠ 0 then .invalidWrite
  else if !checkBoundaryError zp slba nrLba then .errBoundary
  else if slba ≠ (ftl.zoneDescs zid).wp then .invalidWrite
  else .success

/-- The `CLOSED` case of the switch of `__zns_write`. -/
def openImplicitly (ftl : ZnsFtl) (zid : ℕ) : Status × ZnsFtl :=
  let (acquired, ftl) := acquireZoneResource ftl .openZone
  if !acquired then (.noOpenZone, ftl)
  else (.success, changeZoneState ftl zid .openedImpl)

/-- The switch of `__zns_write` over the state of the zone.  The `EMPTY` case
goes through to the `CLOSED` case. -/
def prepareZone (ftl : ZnsFtl) (zid slba : ℕ) : Status × ZnsFtl :=
  match (ftl.zoneDescs zid).state with
  | .empty =>
      if slba ≠ (ftl.zoneDescs zid).zslba then (.invalidWrite, ftl)
      else if isZoneResourceFull ftl .activeZone then (.noActiveZone, ftl)
      else if isZoneResourceFull ftl .openZone then (.noOpenZone, ftl)
      else openImplicitly (acquireZoneResource ftl .activeZone).2 zid
  | .closed => openImplicitly ftl zid
  | .openedImpl | .openedExpl => (.success, ftl)
  | .full => (.errFull, ftl)
  | .readOnly => (.errReadOnly, ftl)
  | .offline => (.errOffline, ftl)

/-- What a write command comes to: it is put off, or it ends with a status. -/
inductive WriteResult where
  | putOff
  | done (status : Status)
  deriving DecidableEq

/-- `__zns_write` from its checks on, once the buffer space is reserved. -/
def writeReserved (ftl : ZnsFtl) (zid slba nrLba : ℕ) : Status × ZnsFtl :=
  match checkWrite zp ftl zid slba nrLba with
  | .success =>
      match prepareZone ftl zid slba with
      | (.success, ftl) =>
          let ftl := increaseWritePtr zp ftl zid nrLba
          let slpn := lbaToLpn slba
          let elpn := lbaToLpn (slba + nrLba - 1)
          (.success, scheduleReleases ftl (flushLoop zp (writeBufferOf zp zid)
            zid (zp.zoneToElpn zid) elpn (elpn + 1 - slpn) slpn))
      | (status, ftl) => (status, ftl)
  | status => (status, ftl)

/-- `__zns_write`; `append` tells a zone append from a write.  There is no
result if the kernel stops on an assertion. -/
def znsWritePlain (ftl : ZnsFtl) (append : Bool) (slba nrLba : ℕ) :
    Option (WriteResult × ZnsFtl) :=
  let zid := zp.lbaToZone slba
  let slba := if append then (ftl.zoneDescs zid).wp else slba
  let buffer := writeBufferOf zp zid
  match bufferAllocate (ftl.buffers buffer) (lbaToByte nrLba) with
  | none => none
  | some (allocated, buf) =>
      let ftl := setBuffer ftl buffer buf
      if allocated < lbaToByte nrLba then some (.putOff, ftl)
      else
        let (status, ftl) := writeReserved zp ftl zid slba nrLba
        some (.done status, ftl)

/-- The checks of `__zns_write_zrwa`: the write lies between the write pointer
and the end of the implicit flush region. -/
def checkWriteZrwa (ftl : ZnsFtl) (zid slba nrLba : ℕ) : Status :=
  let wp := (ftl.zoneDescs zid).wp
  if lbaToByte nrLba % zp.writeUnitSize ≠ 0 then .invalidWrite
  else if !checkBoundaryError zp slba nrLba then .errBoundary
  else if slba < wp ∨
      predUint64 (wp + 2 * zp.lbasPerZrwa) < slba + nrLba - 1 then
    .invalidWrite
  else .success

/-- The switch of `__zns_write_zrwa`; the kernel stops if the random write area
finds no buffer. -/
def prepareZrwaZone (ftl : ZnsFtl) (zid : ℕ) : Option (Status × ZnsFtl) :=
  match (ftl.zoneDescs zid).state with
  | .closed | .empty =>
      let (acquired, ftl) := acquireZoneResource ftl .openZone
      if !acquired then some (.noOpenZone, ftl)
      else
        match bufferAllocate (ftl.buffers (.zrwa zid)) zp.zrwaSize with
        | none => none
        | some (allocated, buf) =>
            if allocated = 0 then none
            else
              let ftl := setBuffer ftl (.zrwa zid) buf
              some (.success, changeZoneState ftl zid .openedImpl)
  | .openedImpl | .openedExpl => some (.success, ftl)
  | .full => some (.errFull, ftl)
  | .readOnly => some (.errReadOnly, ftl)
  | .offline => some (.errOffline, ftl)

/-- The blocks that a write into the random write area flushes: whole flush
granules once it reaches the implicit flush region, or everything once it
reaches the end of the zone. -/
def nrLbasFlush (zid wp elba : ℕ) : ℕ :=
  let zrwaImplStart := wp + zp.lbasPerZrwa
  if zrwaImplStart ≤ elba then
    (elba - zrwaImplStart + 1 + zp.lbasPerZrwafg - 1) / zp.lbasPerZrwafg *
      zp.lbasPerZrwafg
  else if elba = zp.zoneToElba zid then elba - wp + 1
  else 0

/-- The division of `nrLbasFlush`. -/
def divideForFlush (ftl : ZnsFtl) (wp elba : ℕ) : ZnsFtl :=
  if wp + zp.lbasPerZrwa ≤ elba then divideBy ftl zp.lbasPerZrwafg else ftl

/-- The flush loop of `__zns_write_zrwa`. -/
def flushZrwaLoop (zid : ℕ) : ℕ → ℕ → ℕ → List BufferRelease
  | 0, _, _ => []
  | fuel + 1, lpn, remaining =>
      if remaining = 0 then []
      else
        let pgOff := lpnToPg zp lpn % zp.pgsPerOneshotpg
        let pgs := min remaining (zp.pgsPerOneshotpg - pgOff)
        let flushed := if pgOff + pgs = zp.pgsPerOneshotpg then
          [⟨.zrwa zid, zid, oneshotBytes zp⟩] else []
        flushed ++ flushZrwaLoop zid fuel (lpn + pgs) (remaining - pgs)

/-- The end of `__zns_write_zrwa`: the flush moves the write pointer. -/
def flushZrwa (ftl : ZnsFtl) (zid wp elba : ℕ) :
    Option (WriteResult × ZnsFtl) :=
  let flush := nrLbasFlush zp zid wp elba
  if flush = 0 then some (.done .success, ftl)
  else
    match bufferAllocate (ftl.buffers (.zrwa zid)) (lbaToByte flush) with
    | none => none
    | some (allocated, buf) =>
        if allocated = 0 then some (.putOff, ftl)
        else
          let ftl := setBuffer ftl (.zrwa zid) buf
          let ftl := increaseWritePtr zp ftl zid flush
          let pages := flush / secsPerPg
          some (.done .success, scheduleReleases ftl
            (flushZrwaLoop zp zid pages (lbaToLpn wp) pages))

/-- `__zns_write_zrwa`. -/
def znsWriteZrwa (ftl : ZnsFtl) (slba nrLba : ℕ) :
    Option (WriteResult × ZnsFtl) :=
  let zid := zp.lbaToZone slba
  let wp := (ftl.zoneDescs zid).wp
  match checkWriteZrwa zp ftl zid slba nrLba with
  | .success =>
      match prepareZrwaZone zp ftl zid with
      | none => none
      | some (.success, ftl) =>
          let elba := slba + nrLba - 1
          flushZrwa zp (divideForFlush zp ftl wp elba) zid wp elba
      | some (status, ftl) => some (.done status, ftl)
  | status => some (.done status, ftl)

def znsWrite (ftl : ZnsFtl) (append : Bool) (slba nrLba : ℕ) :
    Option (WriteResult × ZnsFtl) :=
  let zid := zp.lpnToZone (lbaToLpn slba)
  if !(ftl.zoneDescs zid).zrwav then znsWritePlain zp ftl append slba nrLba
  else znsWriteZrwa zp ftl slba nrLba

/-! ## Zone management -/

def zmgmtSendCloseZone (ftl : ZnsFtl) (zid : ℕ) : Status × ZnsFtl :=
  match (ftl.zoneDescs zid).state with
  | .openedImpl | .openedExpl =>
      let ftl := changeZoneState ftl zid .closed
      (.success, releaseZoneResource ftl .openZone)
  | .closed => (.success, ftl)
  | _ => (.invalidTransition, ftl)

/-- The resources a zone gives back when it is finished or reset. -/
def releaseZone (ftl : ZnsFtl) (zid : ℕ) : ZnsFtl :=
  let desc := ftl.zoneDescs zid
  let ftl := match desc.state with
    | .openedImpl | .openedExpl => releaseZoneResource ftl .openZone
    | _ => ftl
  match desc.state with
  | .openedImpl | .openedExpl | .closed =>
      let ftl := releaseZoneResource ftl .activeZone
      if desc.zrwav then releaseZoneResource ftl .zrwaZone else ftl
  | _ => ftl

def zmgmtSendFinishZone (ftl : ZnsFtl) (zid : ℕ) : Status × ZnsFtl :=
  match (ftl.zoneDescs zid).state with
  | .openedImpl | .openedExpl | .closed | .empty =>
      (.success, changeZoneState (releaseZone ftl zid) zid .full)
  | .full => (.success, ftl)
  | _ => (.invalidTransition, ftl)

/-- The `CLOSED` case of `__zmgmt_send_open_zone`, which goes through to the
`OPENED_IMPL` case. -/
def openExplicitly (ftl : ZnsFtl) (zid : ℕ) : Status × ZnsFtl :=
  let (acquired, ftl) := acquireZoneResource ftl .openZone
  if !acquired then (.noOpenZone, ftl)
  else (.success, changeZoneState ftl zid .openedExpl)

def zmgmtSendOpenZone (ftl : ZnsFtl) (zid : ℕ) (zrwa : Bool) :
    Status × ZnsFtl :=
  match (ftl.zoneDescs zid).state with
  | .empty =>
      if isZoneResourceFull ftl .activeZone then (.noActiveZone, ftl)
      else if isZoneResourceFull ftl .openZone then (.noOpenZone, ftl)
      else if zrwa && isZoneResourceFull ftl .zrwaZone then
        (.zrwaRsrcUnavail, ftl)
      else
        let ftl := if zrwa then
          modifyZone (acquireZoneResource ftl .zrwaZone).2 zid
            fun desc => { desc with zrwav := true }
          else ftl
        openExplicitly (acquireZoneResource ftl .activeZone).2 zid
  | .closed => openExplicitly ftl zid
  | .openedImpl => (.success, changeZoneState ftl zid .openedExpl)
  | .openedExpl => (.success, ftl)
  | _ => (.invalidTransition, ftl)

/-- `__reset_zone`; the data of the zone is not modelled. -/
def resetZone (ftl : ZnsFtl) (zid : ℕ) : ZnsFtl :=
  let ftl := modifyZone ftl zid
    fun desc => { desc with wp := desc.zslba, zrwav := false }
  if zp.zrwaBufferSize ≠ 0 then
    setBuffer ftl (.zrwa zid) (bufferRefill (ftl.buffers (.zrwa zid)))
  else ftl

def zmgmtSendResetZone (ftl : ZnsFtl) (zid : ℕ) : Status × ZnsFtl :=
  match (ftl.zoneDescs zid).state with
  | .openedImpl | .openedExpl | .closed | .full | .empty =>
      let ftl := changeZoneState (releaseZone ftl zid) zid .empty
      (.success, resetZone zp ftl zid)
  | _ => (.invalidTransition, ftl)

def zmgmtSendOfflineZone (ftl : ZnsFtl) (zid : ℕ) : Status × ZnsFtl :=
  match (ftl.zoneDescs zid).state with
  | .readOnly => (.success, changeZoneState ftl zid .offline)
  | .offline => (.success, ftl)
  | _ => (.invalidTransition, ftl)

/-- The switch of `__zmgmt_send_flush_explicit_zrwa`. -/
def flushExplicitly (ftl : ZnsFtl) (zid slba : ℕ) : Status × ZnsFtl :=
  let desc := ftl.zoneDescs zid
  match desc.state with
  | .openedExpl | .openedImpl | .closed =>
      let ftl := modifyZone ftl zid fun desc => { desc with wp := slba + 1 }
      if slba + 1 = zp.zoneToSlba zid + desc.zoneCapacity then
        let ftl := if desc.state ≠ .closed then
          releaseZoneResource ftl .openZone else ftl
        let ftl := releaseZoneResource ftl .activeZone
        let ftl := releaseZoneResource ftl .zrwaZone
        (.success, changeZoneState ftl zid .full)
      else (.success, ftl)
  | _ => (.invalidZoneOperation, ftl)

def zmgmtSendFlushExplicitZrwa (ftl : ZnsFtl) (slba : ℕ) : Status × ZnsFtl :=
  let zid := zp.lbaToZone slba
  let desc := ftl.zoneDescs zid
  let zrwaEnd := min (predUint64 (desc.wp + zp.lbasPerZrwa))
    (predUint64 (zp.zoneToSlba zid + desc.zoneCapacity))
  if !desc.zrwav then (.invalidZoneOperation, ftl)
  else if slba < desc.wp ∨ zrwaEnd < slba then (.invalidZoneOperation, ftl)
  else
    let ftl := divideBy ftl zp.lbasPerZrwafg
    if (slba - desc.wp + 1) % zp.lbasPerZrwafg ≠ 0 then (.invalidField, ftl)
    else flushExplicitly zp ftl zid slba

/-- `ZSA_*`; an action the code does not know leaves the zone alone. -/
inductive ZoneAction where
  | closeZone
  | finishZone
  | openZone
  | resetZone
  | offlineZone
  | flushExplZrwa
  | unknown
  deriving DecidableEq

/-- `__zmgmt_send`. -/
def zmgmtSend (ftl : ZnsFtl) (slba : ℕ) (action : ZoneAction) (option : Bool) :
    ZnsFtl :=
  let zid := zp.lbaToZone slba
  match action with
  | .closeZone => (zmgmtSendCloseZone ftl zid).2
  | .finishZone => (zmgmtSendFinishZone ftl zid).2
  | .openZone => (zmgmtSendOpenZone ftl zid option).2
  | .resetZone => (zmgmtSendResetZone zp ftl zid).2
  | .offlineZone => (zmgmtSendOfflineZone ftl zid).2
  | .flushExplZrwa => (zmgmtSendFlushExplicitZrwa zp ftl slba).2
  | .unknown => ftl

def znsZmgmtSend (ftl : ZnsFtl) (slba : ℕ) (action : ZoneAction)
    (selectAll option : Bool) : ZnsFtl :=
  if selectAll then
    (List.range zp.nrZones).foldl (fun ftl zid =>
      zmgmtSend zp ftl (zp.zoneToSlba zid) action option) ftl
  else zmgmtSend zp ftl slba action option

/-- The completion of an internal operation. -/
def runRelease (ftl : ZnsFtl) (index : ℕ) : Option ZnsFtl :=
  match ftl.scheduled[index]? with
  | none => none
  | some release =>
      let buf := bufferRelease (ftl.buffers release.buffer) release.bytes
      some { setBuffer ftl release.buffer buf with
        scheduled := ftl.scheduled.eraseIdx index }

/-- `__nr_lbas_from_rw_cmd`. -/
def nrLbasFromRwCmd (length : UInt16) : ℕ := length.toNat + 1

/-- A command of the host, or the completion of an internal operation.  A read
looks at the zone only. -/
inductive ZnsEvent where
  | write (append : Bool) (slba : ℕ) (length : UInt16)
  | read (slba : ℕ) (length : UInt16)
  | mgmtSend (slba : ℕ) (action : ZoneAction) (selectAll zsaso : Bool)
  | release (index : ℕ)

def znsStep (event : ZnsEvent) (ftl : ZnsFtl) : Option ZnsFtl :=
  match event with
  | .write append slba length =>
      (znsWrite zp ftl append slba (nrLbasFromRwCmd length)).map Prod.snd
  | .read _ _ => some ftl
  | .mgmtSend slba action selectAll zsaso =>
      some (znsZmgmtSend zp ftl slba action selectAll zsaso)
  | .release index => runRelease ftl index

end Operations

end NvmeVirt.Zns
