import NvmeVirt.Ftl.BufferBalance
import NvmeVirt.Lib.NandFlash
import NvmeVirt.Nand.Timing

/-!
# The commands to the NAND

`conv_write` and `do_gc` with the calls of `ssd_advance_nand` that they make and
the page data that they have in memory.  Apart from the trace they are the
operations of the FTL; the trace is a run of a flash memory.
-/

namespace NvmeVirt.Ftl

open Function NvmeVirt.Outcome NvmeVirt.NandFlash
open NvmeVirt.Nand (NandOp)

variable {α : Type}

/-- A `struct nand_cmd` for `ssd_advance_nand`, apart from its start time. -/
structure NandCall where
  type : IoType
  cmd : NandOp
  xferSize : ℕ
  interleavePciDma : Bool
  ppa : Ppa

/-- Data of the host for a page, data of a page that is already in memory for
another page, or a call of `ssd_advance_nand`. -/
inductive TraceItem (α : Type) where
  | host (ppa : Ppa) (data : α)
  | move (oldPpa newPpa : Ppa)
  | nand (call : NandCall)

structure Traced (α : Type) where
  ftl : ConvFtl
  trace : List (TraceItem α)

def Traced.emit (s : Traced α) (items : List (TraceItem α)) : Traced α :=
  { s with trace := s.trace ++ items }

section Operations

variable (spp : SsdParams) (secsz : ℕ)

/-! ## Garbage collection -/

/-- The write of a one-shot page, once its last page is there. -/
def oneshotWrite (type : IoType) (ppa : Ppa) : NandCall :=
  ⟨type, .write, pageBytes spp secsz * spp.pgsPerOneshotpg, false, ppa⟩

/-- What `gc_write_page` tells the NAND of a new page. -/
def gcw (newPpa : Ppa) : NandCall :=
  if lastPgInWordline spp newPpa then oneshotWrite spp secsz .gc newPpa
  else ⟨.gc, .nop, 0, false, newPpa⟩

namespace Traced

def gcWritePage (s : Traced α) (oldPpa : Ppa) : Except Fault (Traced α) := do
  match ← getRmapEnt spp s.ftl oldPpa with
  | none => .error .assertion
  | some lpn =>
      nvmevAssert (lpn < spp.ttPgs)
      let newPpa ← getNewPage s.ftl .gc
      let ftl ← mapNewPage spp s.ftl .gc lpn
      return ({ s with ftl }).emit
        [.move oldPpa newPpa, .nand (gcw spp secsz newPpa)]

/-- The read of `clean_one_flashpg`, for its `cnt` valid pages. -/
def gcr (s : Traced α) (ppa : Ppa) (cnt : ℕ) : Traced α :=
  s.emit [.nand ⟨.gc, .read, pageBytes spp secsz * cnt, false, ppa⟩]

/-- `mark_block_free` and the erase that `do_gc` has follow it. -/
def eraseBlock (s : Traced α) (addr : BlockAddr) :
    Except Fault (Traced α) := do
  let ftl ← markBlockFree spp s.ftl addr
  let ppa : Ppa := ⟨addr.ch, addr.lun, addr.pl, addr.blk,
    (spp.flashpgsPerBlk - 1) * spp.pgsPerFlashpg⟩
  return ({ s with ftl }).emit [.nand ⟨.gc, .erase, 0, false, ppa⟩]

theorem ftl_gcWritePage (s : Traced α) (oldPpa : Ppa) :
    ftl <$> s.gcWritePage spp secsz oldPpa =
      Ftl.gcWritePage spp s.ftl oldPpa := by
  simp only [gcWritePage, Ftl.gcWritePage, map_bind]
  refine congrArg _ (funext fun entry => ?_)
  cases entry with
  | none => rfl
  | some lpn =>
      simp only [map_bind]
      refine congrArg _ (funext fun _ => ?_)
      simp only [mapNewPage]
      cases getNewPage s.ftl .gc with
      | error e => rfl
      | ok newPpa => exact bind_pure (m := Except Fault) _

theorem ftl_eraseBlock (s : Traced α) (addr : BlockAddr) :
    ftl <$> s.eraseBlock spp addr = markBlockFree spp s.ftl addr := by
  simp only [eraseBlock, map_bind]
  exact bind_pure _

/-- Collections with their trace. -/
def carrier : Carrier spp (Traced α) where
  ftl := ftl
  withFtl := fun s ftl => { s with ftl }
  read := gcr spp secsz
  copy := gcWritePage spp secsz
  erase := eraseBlock spp
  ftl_withFtl := fun _ _ => rfl
  ftl_read := fun _ _ _ => rfl
  copy_ftl := ftl_gcWritePage spp secsz
  erase_ftl := ftl_eraseBlock spp

def foregroundGc (s : Traced α) : Except Fault (Traced α) :=
  if shouldGcHigh s.ftl then do
    let (_, s) ← (carrier spp secsz).doGc s true
    return s
  else .ok s

/-! ## Page writes -/

def checkAndRefillWriteCredit (s : Traced α) : Except Fault (Traced α) :=
  if s.ftl.writeCredits = 0 then do
    let s ← s.foregroundGc spp secsz
    return { s with ftl := { s.ftl with
      writeCredits :=
        (s.ftl.writeCredits + s.ftl.creditsToRefill) % 2 ^ 32 } }
  else .ok s

/-- Loop body of `conv_write` up to `consume_write_credit`. -/
def placePage (s : Traced α) (localLpn : ℕ) (data : α) :
    Except Fault (Traced α) := do
  let ftl ← dropOldPage spp s.ftl localLpn
  let ppa ← getNewPage ftl .user
  let ftl ← mapNewPage spp ftl .user localLpn
  return ({ s with ftl := consumeWriteCredit ftl }).emit
    (.host ppa data ::
      if lastPgInWordline spp ppa then
        [.nand (oneshotWrite spp secsz .user ppa)] else [])

def writePage (s : Traced α) (localLpn : ℕ) (data : α) :
    Except Fault (Traced α) := do
  let s ← s.placePage spp secsz localLpn data
  s.checkAndRefillWriteCredit spp secsz

variable (nrParts : ℕ)

/-- One iteration of the loop of `conv_write`, for a page number and the data
of the page. -/
def writeLpn (ns : ℕ → Traced α) (write : ℕ × α) :
    Except Fault (ℕ → Traced α) := do
  let s ← (ns (write.1 % nrParts)).writePage spp secsz (write.1 / nrParts)
    write.2
  return update ns (write.1 % nrParts) s

/-- The pages of a command with their data. -/
def writes (cmd : WriteCmd × (ℕ → α)) : List (ℕ × α) :=
  (cmd.1.lpns spp nrParts).map fun lpn => (lpn, cmd.2 lpn)

def convWrite (ns : ℕ → Traced α) (cmd : WriteCmd × (ℕ → α)) :
    Except Fault (ℕ → Traced α) :=
  (writes spp nrParts cmd).foldlM (writeLpn spp secsz nrParts) ns

/-! ## Without the trace -/

theorem ftl_foregroundGc (s : Traced α) :
    ftl <$> s.foregroundGc spp secsz = Ftl.foregroundGc spp s.ftl := by
  unfold foregroundGc Ftl.foregroundGc
  split
  · have hgc := (carrier (α := α) spp secsz).ftl_doGc s true
    simp only [map_bind]
    rw [show Ftl.doGc spp s.ftl true = _ from hgc.symm, bind_map_left]
    rfl
  · rfl

theorem ftl_checkAndRefillWriteCredit (s : Traced α) :
    ftl <$> s.checkAndRefillWriteCredit spp secsz =
      Ftl.checkAndRefillWriteCredit spp s.ftl := by
  unfold checkAndRefillWriteCredit Ftl.checkAndRefillWriteCredit
  split
  · rw [map_bind, ← ftl_foregroundGc spp secsz, bind_map_left]
    rfl
  · rfl

theorem ftl_placePage (s : Traced α) (localLpn : ℕ) (data : α) :
    ftl <$> s.placePage spp secsz localLpn data =
      Ftl.placePage spp s.ftl localLpn := by
  simp only [placePage, Ftl.placePage, map_bind]
  refine congrArg _ (funext fun dropped => ?_)
  simp only [mapNewPage]
  cases getNewPage dropped .user with
  | error e => rfl
  | ok ppa => rfl

theorem ftl_writePage (s : Traced α) (localLpn : ℕ) (data : α) :
    ftl <$> s.writePage spp secsz localLpn data =
      Ftl.writePage spp s.ftl localLpn := by
  simp only [writePage, Ftl.writePage, map_bind, ← ftl_placePage spp secsz s
    localLpn data, bind_map_left, ftl_checkAndRefillWriteCredit]

theorem ftl_writeLpn (ns : ℕ → Traced α) (write : ℕ × α) :
    (fun ns part => (ns part).ftl) <$> writeLpn spp secsz nrParts ns write =
      Ftl.writeLpn spp nrParts (fun part => (ns part).ftl) write.1 := by
  simp only [writeLpn, Ftl.writeLpn, map_bind, ← ftl_writePage spp secsz _ _
    write.2, bind_map_left]
  refine congrArg _ (funext fun s => ?_)
  refine congrArg Except.ok (funext fun part => ?_)
  by_cases hpart : part = write.1 % nrParts
  · subst hpart
    simp only [update_self]
  · simp only [update_of_ne hpart]

/-- Without its trace, `conv_write` is the command of the FTL. -/
theorem ftl_convWrite (ns : ℕ → Traced α) (cmd : WriteCmd × (ℕ → α)) :
    (fun ns part => (ns part).ftl) <$> convWrite spp secsz nrParts ns cmd =
      Ftl.convWrite spp nrParts (fun part => (ns part).ftl) cmd.1 := by
  rw [convWrite, Ftl.convWrite, writes, List.foldlM_map]
  exact foldlM_map (fun ns lpn => ftl_writeLpn spp secsz nrParts ns
    (lpn, cmd.2 lpn)) _ ns

end Traced

/-! ## The flash memory -/

/-- What an item of the trace is to the flash memory.  A read brings in the
whole flash page. -/
def TraceItem.steps : TraceItem α → List (Step BlockAddr α)
  | .host ppa data => [.host ppa.block ppa.pg data]
  | .move oldPpa newPpa =>
      [.move oldPpa.block oldPpa.pg newPpa.block newPpa.pg]
  | .nand call =>
      match call.cmd with
      | .read => [.read call.ppa.block
          (call.ppa.pg / spp.pgsPerFlashpg * spp.pgsPerFlashpg)
          spp.pgsPerFlashpg]
      | .write => [.program call.ppa.block call.ppa.pg]
      | .erase => [.erase call.ppa.block]
      | .nop => []

/-- The flash memory after a trace, if it takes every step. -/
def flashAfter (trace : List (TraceItem α)) : Option (Flash BlockAddr α) :=
  Flash.blank.run spp.pgsPerOneshotpg (trace.flatMap (TraceItem.steps spp))

end Operations

theorem flashAfter_append {spp : SsdParams} {trace items : List (TraceItem α)}
    {flash : Flash BlockAddr α} (hflash : flashAfter spp trace = some flash) :
    flashAfter spp (trace ++ items) = flash.run spp.pgsPerOneshotpg
      (items.flatMap (TraceItem.steps spp)) := by
  rw [flashAfter, List.flatMap_append]
  exact Flash.run_append hflash

end NvmeVirt.Ftl
