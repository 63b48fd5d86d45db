import NvmeVirt.Channel.ChannelModel
import NvmeVirt.Ftl.Geometry

/-!
# The NAND timing model

`ssd_advance_nand` of `ssd.c` takes a command through its channel and its die
and keeps the time at which the die is next available; a flush waits for the
latest of these times.  Times are unsigned 64-bit nanoseconds, and the wall
clock may show anything whenever it is read.
-/

namespace NvmeVirt.Nand

open Function Channel
open NvmeVirt.Ftl (Ppa)

/-- The fields of `struct ssdparams` that the timing model reads. -/
structure NandParams where
  nchs : ℕ
  lunsPerCh : ℕ
  pgsPerFlashpg : ℕ
  cellMode : ℕ
  pg4kbRdLat : ℕ → ℕ
  pgRdLat : ℕ → ℕ
  pgWrLat : ℕ
  blkErLat : ℕ
  maxChXferSize : ℕ
  maxChXferSize_pos : 0 < maxChXferSize

/-- A channel and the `next_lun_avail_time` of its dies. -/
structure SsdChannel where
  nextLunAvailTime : ℕ → ℕ
  perfModel : ChannelModel

structure Ssd where
  ch : ℕ → SsdChannel
  pcie : ChannelModel

inductive NandOp where
  | read
  | write
  | erase
  | nop
  deriving DecidableEq

/-- `struct nand_cmd`; there is no page at `UNMAPPED_PPA`. -/
structure NandCmd where
  op : NandOp
  xferSize : ℕ
  stime : ℕ
  interleavePciDma : Bool
  ppa : Option Ppa

/-- What the wall clock shows while a command is served: at its start, and for
each round of its transfer to the channel and to the PCIe link. -/
structure Clocks where
  ioclock : ℕ
  channel : ℕ → ℕ
  pcie : ℕ → ℕ

def NandParams.getCell (spp : NandParams) (ppa : Ppa) : ℕ :=
  ppa.pg / spp.pgsPerFlashpg % spp.cellMode

def NandCmd.cmdStime (cmd : NandCmd) (clocks : Clocks) : ℕ :=
  if cmd.stime = 0 then clocks.ioclock else cmd.stime

def Ssd.lunAvailTime (ssd : Ssd) (ppa : Ppa) : ℕ :=
  (ssd.ch ppa.ch).nextLunAvailTime ppa.lun

/-- The channel and the die of a command after it. -/
def Ssd.setLun (ssd : Ssd) (ppa : Ppa) (availTime : ℕ)
    (perfModel : ChannelModel) : Ssd :=
  { ssd with
    ch := update ssd.ch ppa.ch
      { nextLunAvailTime :=
          update (ssd.ch ppa.ch).nextLunAvailTime ppa.lun availTime
        perfModel := perfModel } }

def Ssd.setPcie (ssd : Ssd) (pcie : ChannelModel) : Ssd :=
  { ssd with pcie := pcie }

/-! ## Reads -/

/-- What the transfer loop of a read has come to. -/
structure Transfer where
  chnlEtime : ℕ
  completedTime : ℕ
  perfModel : ChannelModel
  pcie : ChannelModel

/-- One round of the transfer loop. -/
def transferRound (interleave : Bool) (clocks : Clocks) (round xferSize : ℕ)
    (transfer : Transfer) : Transfer :=
  let (chnlEtime, perfModel) := chmodelRequest transfer.perfModel
    ⟨clocks.channel round, transfer.chnlEtime, xferSize⟩
  if interleave then
    let (completedTime, pcie) := chmodelRequest transfer.pcie
      ⟨clocks.pcie round, chnlEtime, xferSize⟩
    ⟨chnlEtime, completedTime, perfModel, pcie⟩
  else ⟨chnlEtime, chnlEtime, perfModel, transfer.pcie⟩

/-- The transfer loop of a read. -/
def transferLoop (spp : NandParams) (interleave : Bool) (clocks : Clocks)
    (round remaining : ℕ) (transfer : Transfer) : Transfer :=
  if _ : remaining = 0 then transfer
  else
    let xferSize := min remaining spp.maxChXferSize
    transferLoop spp interleave clocks (round + 1) (remaining - xferSize)
      (transferRound interleave clocks round xferSize transfer)
termination_by remaining
decreasing_by
  have := spp.maxChXferSize_pos
  omega

/-- The time at which the NAND of a read is done. -/
def readEtime (spp : NandParams) (cmd : NandCmd) (ppa : Ppa) (start : ℕ) : ℕ :=
  let cell := spp.getCell ppa
  uint64 (start +
    if cmd.xferSize = 4096 then spp.pg4kbRdLat cell else spp.pgRdLat cell)

def readTransfer (spp : NandParams) (clocks : Clocks) (ssd : Ssd)
    (cmd : NandCmd) (ppa : Ppa) (start : ℕ) : Transfer :=
  let nandEtime := readEtime spp cmd ppa start
  transferLoop spp cmd.interleavePciDma clocks 0 cmd.xferSize
    ⟨nandEtime, nandEtime, (ssd.ch ppa.ch).perfModel, ssd.pcie⟩

/-! ## Commands -/

/-- `ssd_advance_nand` on a mapped page, from the time at which the command
starts on its die. -/
def serve (spp : NandParams) (clocks : Clocks) (ssd : Ssd) (cmd : NandCmd)
    (ppa : Ppa) (start : ℕ) : ℕ × Ssd :=
  let perfModel := (ssd.ch ppa.ch).perfModel
  match cmd.op with
  | .read =>
      let transfer := readTransfer spp clocks ssd cmd ppa start
      (transfer.completedTime,
        (ssd.setLun ppa transfer.chnlEtime transfer.perfModel).setPcie
          transfer.pcie)
  | .write =>
      let (chnlEtime, perfModel) := chmodelRequest perfModel
        ⟨clocks.channel 0, start, cmd.xferSize⟩
      let nandEtime := uint64 (chnlEtime + spp.pgWrLat)
      (nandEtime, ssd.setLun ppa nandEtime perfModel)
  | .erase =>
      let nandEtime := uint64 (start + spp.blkErLat)
      (nandEtime, ssd.setLun ppa nandEtime perfModel)
  | .nop => (start, ssd.setLun ppa start perfModel)

/-- The time at which a command starts on its die. -/
def startTime (clocks : Clocks) (ssd : Ssd) (cmd : NandCmd) (ppa : Ppa) : ℕ :=
  max (ssd.lunAvailTime ppa) (cmd.cmdStime clocks)

def ssdAdvanceNand (spp : NandParams) (clocks : Clocks) (ssd : Ssd)
    (cmd : NandCmd) : ℕ × Ssd :=
  match cmd.ppa with
  | none => (cmd.cmdStime clocks, ssd)
  | some ppa =>
      serve spp clocks ssd cmd ppa (startTime clocks ssd cmd ppa)

def ssdNextIdleTime (spp : NandParams) (ioclock : ℕ) (ssd : Ssd) : ℕ :=
  (List.range spp.nchs).foldl (fun latest i =>
    (List.range spp.lunsPerCh).foldl (fun latest j =>
      max latest ((ssd.ch i).nextLunAvailTime j)) latest) ioclock

end NvmeVirt.Nand
