import NvmeVirt.Ftl.Geometry
import NvmeVirt.Lib.Pqueue

/-!
# The page-mapping FTL

The operations of `conv_ftl.c` on one FTL instance.  Lines are identified by
their index; the `pos` of a line is kept in the victim queue.  Latencies are not
modelled: the NAND timing calls read the state but do not change it.
-/

namespace NvmeVirt.Ftl

open Function

/-! ## State -/

inductive PageStatus
  | free
  | invalid
  | valid
  deriving DecidableEq, Repr

structure NandPage where
  nsecs : ℕ
  status : PageStatus

structure NandBlock where
  pg : ℕ → NandPage
  npgs : ℕ
  ipc : ℕ
  vpc : ℕ
  eraseCnt : ℕ

/-- Address of a block: the `blk_in_ssd` view of a physical page address. -/
structure BlockAddr where
  ch : ℕ
  lun : ℕ
  pl : ℕ
  blk : ℕ
  deriving DecidableEq

def Ppa.block (ppa : Ppa) : BlockAddr := ⟨ppa.ch, ppa.lun, ppa.pl, ppa.blk⟩

structure Line where
  id : ℕ
  ipc : ℕ
  vpc : ℕ

structure WritePointer where
  curline : ℕ
  ch : ℕ
  lun : ℕ
  pg : ℕ
  blk : ℕ
  pl : ℕ
  deriving Inhabited

inductive IoType
  | user
  | gc
  deriving DecidableEq

/-- `struct conv_ftl` with its `line_mgmt` and `write_flow_control`, and the
NAND blocks of its `ssd`. -/
structure ConvFtl where
  maptbl : ℕ → Option Ppa
  rmap : ℕ → Option ℕ
  wp : WritePointer
  gcWp : WritePointer
  lines : ℕ → Line
  freeLineList : List ℕ
  fullLineList : List ℕ
  victimLinePq : Pqueue ℕ
  freeLineCnt : ℕ
  fullLineCnt : ℕ
  victimLineCnt : ℕ
  writeCredits : ℕ
  creditsToRefill : ℕ
  blocks : BlockAddr → NandBlock

/-- `gc_thres_lines_high` of `conv_init_params`. -/
def gcThresLinesHigh : ℕ := 2

namespace ConvFtl

def getPg (st : ConvFtl) (ppa : Ppa) : NandPage :=
  (st.blocks ppa.block).pg ppa.pg

def status (st : ConvFtl) (ppa : Ppa) : PageStatus := (st.getPg ppa).status

def getWp (st : ConvFtl) : IoType → WritePointer
  | .user => st.wp
  | .gc => st.gcWp

def setWp (st : ConvFtl) (wpp : WritePointer) : IoType → ConvFtl
  | .user => { st with wp := wpp }
  | .gc => { st with gcWp := wpp }

/-- `list_del_init(&line->entry)`. -/
def listDelInit (st : ConvFtl) (line : ℕ) : ConvFtl :=
  { st with
    freeLineList := st.freeLineList.erase line
    fullLineList := st.fullLineList.erase line }

def setLine (st : ConvFtl) (line : ℕ) (value : Line) : ConvFtl :=
  { st with lines := update st.lines line value }

def setBlock (st : ConvFtl) (addr : BlockAddr) (block : NandBlock) : ConvFtl :=
  { st with blocks := update st.blocks addr block }

/-- New state of a page together with new counters of its block. -/
def setPage (st : ConvFtl) (ppa : Ppa) (status : PageStatus) (vpc ipc : ℕ) :
    ConvFtl :=
  let blk := st.blocks ppa.block
  st.setBlock ppa.block { blk with
    pg := update blk.pg ppa.pg { blk.pg ppa.pg with status }
    vpc
    ipc }

end ConvFtl

section Operations

variable (spp : SsdParams)

/-! ## Mapping tables -/

def setMaptblEnt (st : ConvFtl) (lpn : ℕ) (ppa : Ppa) :
    Except Fault ConvFtl := do
  nvmevAssert (lpn < spp.ttPgs)
  return { st with maptbl := update st.maptbl lpn (some ppa) }

def getRmapEnt (st : ConvFtl) (ppa : Ppa) : Except Fault (Option ℕ) := do
  nvmevAssert (ppa2pgidx spp ppa < spp.ttPgs)
  return st.rmap (ppa2pgidx spp ppa)

/-- `none` is `INVALID_LPN`. -/
def setRmapEnt (st : ConvFtl) (lpn : Option ℕ) (ppa : Ppa) :
    Except Fault ConvFtl := do
  nvmevAssert (ppa2pgidx spp ppa < spp.ttPgs)
  return { st with rmap := update st.rmap (ppa2pgidx spp ppa) lpn }

/-! ## Victim queue -/

def victimLineCmpPri (next curr : ℕ) : Bool := curr < next

def victimLinePri (st : ConvFtl) (line : ℕ) : ℕ := (st.lines line).vpc

def pqueueInsert (st : ConvFtl) (line : ℕ) : ConvFtl :=
  { st with
    victimLinePq :=
      st.victimLinePq.insert victimLineCmpPri (victimLinePri st) line }

/-- `pqueue_change_priority`, which sets `line->vpc`. -/
def pqueueChangePriority (st : ConvFtl) (newPri line : ℕ) : ConvFtl :=
  let oldPri := (st.lines line).vpc
  let st := st.setLine line { st.lines line with vpc := newPri }
  { st with
    victimLinePq := st.victimLinePq.changePriority victimLineCmpPri
      (victimLinePri st) oldPri line }

/-- `pqueue_pop` and the reset of `pos` in `select_victim_line`. -/
def pqueuePop (st : ConvFtl) (line : ℕ) : ConvFtl :=
  { st with
    victimLinePq := (st.victimLinePq.pop victimLineCmpPri
      (victimLinePri st)).resetPos line }

/-! ## Write pointers -/

/-- `get_next_free_line`: the line, or `none` for the null pointer. -/
def getNextFreeLine (st : ConvFtl) : Option (ℕ × ConvFtl) :=
  match st.freeLineList with
  | [] => none
  | curline :: _ =>
      let st := st.listDelInit curline
      some (curline, { st with freeLineCnt := st.freeLineCnt - 1 })

def prepareWritePointer (st : ConvFtl) (ioType : IoType) :
    Except Fault ConvFtl :=
  match getNextFreeLine st with
  | none => .error .assertion
  | some (curline, st) =>
      .ok (st.setWp ⟨curline, 0, 0, 0, (st.lines curline).id, 0⟩ ioType)

def checkAddr (a max : ℕ) : Except Fault Unit := nvmevAssert (a < max)

/-- The first part of `advance_write_pointer`: the next page in the line, and
whether the line is used up. -/
def nextPage (wpp : WritePointer) : Except Fault (WritePointer × Bool) := do
  checkAddr wpp.pg spp.pgsPerBlk
  let wpp := { wpp with pg := wpp.pg + 1 }
  if wpp.pg % spp.pgsPerOneshotpg ≠ 0 then
    return (wpp, false)
  let wpp := { wpp with pg := wpp.pg - spp.pgsPerOneshotpg }
  checkAddr wpp.ch spp.nchs
  let wpp := { wpp with ch := wpp.ch + 1 }
  if wpp.ch ≠ spp.nchs then
    return (wpp, false)
  let wpp := { wpp with ch := 0 }
  checkAddr wpp.lun spp.lunsPerCh
  let wpp := { wpp with lun := wpp.lun + 1 }
  if wpp.lun ≠ spp.lunsPerCh then
    return (wpp, false)
  let wpp := { wpp with lun := 0, pg := wpp.pg + spp.pgsPerOneshotpg }
  if wpp.pg ≠ spp.pgsPerBlk then
    return (wpp, false)
  return ({ wpp with pg := 0 }, true)

/-- The move of the used-up line to the full list or the victim queue. -/
def retireLine (st : ConvFtl) (curline : ℕ) : Except Fault ConvFtl := do
  let line := st.lines curline
  if line.vpc = spp.pgsPerLine then
    nvmevAssert (line.ipc = 0)
    return { st with
      fullLineList := st.fullLineList ++ [curline]
      fullLineCnt := st.fullLineCnt + 1 }
  else
    nvmevAssert (line.vpc < spp.pgsPerLine)
    nvmevAssert (0 < line.ipc)
    let st := pqueueInsert st curline
    return { st with victimLineCnt := st.victimLineCnt + 1 }

/-- Last part of `advance_write_pointer`: continue on another empty line. -/
def openLine (st : ConvFtl) (wpp : WritePointer) (ioType : IoType) :
    Except Fault ConvFtl := do
  checkAddr wpp.blk spp.blksPerPl
  match getNextFreeLine st with
  | none => .error .nullLine
  | some (curline, st) =>
      let wpp := { wpp with curline, blk := (st.lines curline).id }
      checkAddr wpp.blk spp.blksPerPl
      nvmevAssert (wpp.pg = 0)
      nvmevAssert (wpp.lun = 0)
      nvmevAssert (wpp.ch = 0)
      nvmevAssert (wpp.pl = 0)
      return st.setWp wpp ioType

def advanceWritePointer (st : ConvFtl) (ioType : IoType) :
    Except Fault ConvFtl := do
  let (wpp, usedUp) ← nextPage spp (st.getWp ioType)
  if usedUp then
    let st ← retireLine spp st wpp.curline
    openLine spp st wpp ioType
  else return st.setWp wpp ioType

def getNewPage (st : ConvFtl) (ioType : IoType) : Except Fault Ppa := do
  let wp := st.getWp ioType
  let ppa := Ppa.pack wp.ch wp.lun wp.pl wp.blk wp.pg
  nvmevAssert (ppa.pl = 0)
  return ppa

/-! ## Page state

The assertions on a page, its block and its line read counters that the
assignments between them do not change, so they are made first. -/

/-- The block part of `mark_page_invalid`. -/
def invalidateInBlock (st : ConvFtl) (ppa : Ppa) : Except Fault ConvFtl := do
  nvmevAssert (st.status ppa = .valid)
  let blk := st.blocks ppa.block
  nvmevAssert (blk.ipc < spp.pgsPerBlk)
  nvmevAssert (0 < blk.vpc ∧ blk.vpc ≤ spp.pgsPerBlk)
  return st.setPage ppa .invalid (blk.vpc - 1) (blk.ipc + 1)

/-- One valid page less, with the position in the victim queue adjusted. -/
def lowerVpc (st : ConvFtl) (index : ℕ) : ConvFtl :=
  let line := st.lines index
  if st.victimLinePq.pos index ≠ 0 then
    pqueueChangePriority st (line.vpc - 1) index
  else st.setLine index { line with vpc := line.vpc - 1 }

/-- The move of a line from the full list to the victim queue. -/
def fullToVictim (st : ConvFtl) (index : ℕ) : ConvFtl :=
  let st := st.listDelInit index
  let st := pqueueInsert { st with fullLineCnt := st.fullLineCnt - 1 } index
  { st with victimLineCnt := st.victimLineCnt + 1 }

/-- The line part of `mark_page_invalid`. -/
def invalidateInLine (st : ConvFtl) (index : ℕ) : Except Fault ConvFtl := do
  let line := st.lines index
  nvmevAssert (line.ipc < spp.pgsPerLine)
  let wasFullLine := line.vpc = spp.pgsPerLine
  nvmevAssert (wasFullLine → line.ipc = 0)
  nvmevAssert (0 < line.vpc ∧ line.vpc ≤ spp.pgsPerLine)
  let st := lowerVpc (st.setLine index { line with ipc := line.ipc + 1 }) index
  return if wasFullLine then fullToVictim st index else st

def markPageInvalid (st : ConvFtl) (ppa : Ppa) : Except Fault ConvFtl := do
  let st ← invalidateInBlock spp st ppa
  invalidateInLine spp st ppa.blk

def markPageValid (st : ConvFtl) (ppa : Ppa) : Except Fault ConvFtl := do
  nvmevAssert (st.status ppa = .free)
  let blk := st.blocks ppa.block
  nvmevAssert (blk.vpc < spp.pgsPerBlk)
  let line := st.lines ppa.blk
  nvmevAssert (line.vpc < spp.pgsPerLine)
  let st := st.setPage ppa .valid (blk.vpc + 1) blk.ipc
  return st.setLine ppa.blk { line with vpc := line.vpc + 1 }

/-- Loop body of `mark_block_free`. -/
def resetPage (addr : BlockAddr) (st : ConvFtl) (i : ℕ) :
    Except Fault ConvFtl := do
  let blk := st.blocks addr
  nvmevAssert ((blk.pg i).nsecs = spp.secsPerPg)
  return st.setBlock addr
    { blk with pg := update blk.pg i { blk.pg i with status := .free } }

def markBlockFree (st : ConvFtl) (addr : BlockAddr) : Except Fault ConvFtl := do
  let st ← (List.range spp.pgsPerBlk).foldlM (resetPage spp addr) st
  let blk := st.blocks addr
  nvmevAssert (blk.npgs = spp.pgsPerBlk)
  return st.setBlock addr
    { blk with ipc := 0, vpc := 0, eraseCnt := blk.eraseCnt + 1 }

/-- The steps that `gc_write_page` and `conv_write` share: map `lpn` to the page
under a write pointer, program it and move the pointer on. -/
def mapNewPage (st : ConvFtl) (ioType : IoType) (lpn : ℕ) :
    Except Fault ConvFtl := do
  let ppa ← getNewPage st ioType
  let st ← setMaptblEnt spp st lpn ppa
  let st ← setRmapEnt spp st (some lpn) ppa
  let st ← markPageValid spp st ppa
  advanceWritePointer spp st ioType

/-! ## Garbage collection -/

def gcWritePage (st : ConvFtl) (oldPpa : Ppa) : Except Fault ConvFtl := do
  match ← getRmapEnt spp st oldPpa with
  | none => .error .assertion
  | some lpn =>
      nvmevAssert (lpn < spp.ttPgs)
      mapNewPage spp st .gc lpn

/-- `select_victim_line`. -/
def selectVictimLine (st : ConvFtl) (force : Bool) : Option (ℕ × ConvFtl) :=
  match st.victimLinePq.peek with
  | none => none
  | some victimLine =>
      if !force && spp.pgsPerLine / 8 < (st.lines victimLine).vpc then none
      else
        let st := pqueuePop st victimLine
        some (victimLine, { st with victimLineCnt := st.victimLineCnt - 1 })

/-- `clean_one_flashpg`: the pages of the flash page that starts at `ppa`. -/
def cleanOneFlashpg (st : ConvFtl) (ppa : Ppa) : Except Fault ConvFtl := do
  let pages := (List.range spp.pgsPerFlashpg).map fun i =>
    { ppa with pg := (ppa.pg + i) % 2 ^ 16 }
  pages.forM fun page => nvmevAssert (st.status page ≠ .free)
  let cnt := pages.countP fun page => st.status page = .valid
  if cnt = 0 then return st
  pages.foldlM (fun st page =>
    if st.status page = .valid then gcWritePage spp st page
    else .ok st) st

def markLineFree (st : ConvFtl) (index : ℕ) : ConvFtl :=
  let st := st.setLine index { st.lines index with ipc := 0, vpc := 0 }
  { st with
    freeLineList := st.freeLineList ++ [index]
    freeLineCnt := st.freeLineCnt + 1 }

/-- The order in which `do_gc` visits the flash pages of a line: flash page,
channel, die. -/
def gcOrder : List (ℕ × ℕ × ℕ) :=
  (List.range spp.flashpgsPerBlk).flatMap fun flashpg =>
    (List.range spp.nchs).flatMap fun ch =>
      (List.range spp.lunsPerCh).map fun lun => (flashpg, ch, lun)

/-- Loop body of `do_gc`; the last flash page of a block is followed by the
erase of the block. -/
def gcBody (victim : ℕ) (st : ConvFtl) (visit : ℕ × ℕ × ℕ) :
    Except Fault ConvFtl := do
  let (flashpg, ch, lun) := visit
  let ppa := Ppa.pack ch lun 0 victim (flashpg * spp.pgsPerFlashpg)
  let st ← cleanOneFlashpg spp st ppa
  if flashpg = spp.flashpgsPerBlk - 1 then markBlockFree spp st ppa.block
  else return st

/-- `do_gc`; the result tells whether a line was cleaned. -/
def doGc (st : ConvFtl) (force : Bool) : Except Fault (Bool × ConvFtl) :=
  match selectVictimLine spp st force with
  | none => .ok (false, st)
  | some (victimLine, st) => do
      let victim := (st.lines victimLine).id
      let st := { st with creditsToRefill := (st.lines victimLine).ipc }
      let st ← (gcOrder spp).foldlM (gcBody spp victim) st
      return (true, markLineFree st (victim % 2 ^ 16))

def shouldGcHigh (st : ConvFtl) : Bool := st.freeLineCnt ≤ gcThresLinesHigh

def foregroundGc (st : ConvFtl) : Except Fault ConvFtl :=
  if shouldGcHigh st then do
    let (_, st) ← doGc spp st true
    return st
  else .ok st

/-! ## Page writes -/

/-- `write_credits` is an unsigned 32-bit counter. -/
def consumeWriteCredit (st : ConvFtl) : ConvFtl :=
  { st with writeCredits :=
      if st.writeCredits = 0 then 2 ^ 32 - 1 else st.writeCredits - 1 }

def checkAndRefillWriteCredit (st : ConvFtl) : Except Fault ConvFtl :=
  if st.writeCredits = 0 then do
    let st ← foregroundGc spp st
    return { st with
      writeCredits := (st.writeCredits + st.creditsToRefill) % 2 ^ 32 }
  else .ok st

/-- The part of a page write that replaces the old page. -/
def dropOldPage (st : ConvFtl) (localLpn : ℕ) : Except Fault ConvFtl :=
  match st.maptbl localLpn with
  | none => .ok st
  | some ppa => do
      let st ← markPageInvalid spp st ppa
      setRmapEnt spp st none ppa

/-- Loop body of `conv_write` up to `consume_write_credit`. -/
def placePage (st : ConvFtl) (localLpn : ℕ) : Except Fault ConvFtl := do
  let st ← dropOldPage spp st localLpn
  let st ← mapNewPage spp st .user localLpn
  return consumeWriteCredit st

/-- Loop body of `conv_write` on the FTL instance of the page. -/
def writePage (st : ConvFtl) (localLpn : ℕ) : Except Fault ConvFtl := do
  let st ← placePage spp st localLpn
  checkAndRefillWriteCredit spp st

/-! ## Initial state -/

def ssdInitNandBlk : NandBlock where
  pg := fun _ => ⟨spp.secsPerPg, .free⟩
  npgs := spp.pgsPerBlk
  ipc := 0
  vpc := 0
  eraseCnt := 0

/-- `init_maptbl`, `init_rmap` and `init_lines`. -/
def initTables : ConvFtl where
  maptbl := fun _ => none
  rmap := fun _ => none
  wp := default
  gcWp := default
  lines := fun i => ⟨i, 0, 0⟩
  freeLineList := List.range spp.ttLines
  fullLineList := []
  victimLinePq := ⟨1, fun _ => 0, fun _ => 0⟩
  freeLineCnt := spp.ttLines
  fullLineCnt := 0
  victimLineCnt := 0
  writeCredits := 0
  creditsToRefill := 0
  blocks := fun _ => ssdInitNandBlk spp

/-- `conv_init_ftl`. -/
def convInitFtl : Except Fault ConvFtl := do
  nvmevAssert (spp.blksPerPl = spp.ttLines)
  let st ← prepareWritePointer (initTables spp) .user
  let st ← prepareWritePointer st .gc
  return { st with
    writeCredits := spp.pgsPerLine % 2 ^ 32
    creditsToRefill := spp.pgsPerLine % 2 ^ 32 }

/-! ## Namespaces -/

/-- A write command as `conv_write` sees it: `cmd->rw.slba`, `cmd->rw.length`,
and whether `buffer_allocate` had room for it. -/
structure WriteCmd where
  slba : ℕ
  length : ℕ
  buffered : Bool

/-- The logical pages of a command, none if it is refused.  The 64-bit sum of
address and length may wrap around. -/
def WriteCmd.lpns (nrParts : ℕ) (cmd : WriteCmd) : List ℕ :=
  let nrLba := cmd.length + 1
  let startLpn := cmd.slba / spp.secsPerPg
  let endLpn := (cmd.slba + nrLba - 1) % 2 ^ 64 / spp.secsPerPg
  if spp.ttPgs ≤ endLpn / nrParts ∨ cmd.buffered = false then []
  else List.range' startLpn (endLpn + 1 - startLpn)

/-- One iteration of the loop of `conv_write` on the instances of a
namespace. -/
def writeLpn (nrParts : ℕ) (ftls : ℕ → ConvFtl) (lpn : ℕ) :
    Except Fault (ℕ → ConvFtl) := do
  let st ← writePage spp (ftls (lpn % nrParts)) (lpn / nrParts)
  return update ftls (lpn % nrParts) st

def convWrite (nrParts : ℕ) (ftls : ℕ → ConvFtl) (cmd : WriteCmd) :
    Except Fault (ℕ → ConvFtl) :=
  (cmd.lpns spp nrParts).foldlM (writeLpn spp nrParts) ftls

end Operations

end NvmeVirt.Ftl
