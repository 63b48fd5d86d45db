import NvmeVirt.Lib.Digits
import NvmeVirt.Lib.Outcome

/-!
# Flash geometry and physical addresses

`ssd_init_params` derives the shape of an FTL instance from the configuration
macros.  A `Geometry` is a parameter set of that shape that also fits the bit
fields of a physical page address.  The write pointer visits the pages of a
line in the order of `writeIndex`.
-/

namespace NvmeVirt.Ftl

open NvmeVirt.Outcome NvmeVirt.Digits

/-- How a modelled kernel function can fail: `BUG_ON` in `NVMEV_ASSERT`, or the
use of the null pointer that `get_next_free_line` returns when no line is
free. -/
inductive Fault
  | assertion
  | nullLine
  deriving DecidableEq, Repr

def nvmevAssert (condition : Prop) [Decidable condition] : Except Fault Unit :=
  require .assertion condition

/-- The fields of `struct ssdparams` that the mapping layer reads. -/
structure SsdParams where
  secsPerPg : ℕ
  pgsPerFlashpg : ℕ
  flashpgsPerBlk : ℕ
  pgsPerOneshotpg : ℕ
  oneshotpgsPerBlk : ℕ
  pgsPerBlk : ℕ
  blksPerPl : ℕ
  plsPerLun : ℕ
  lunsPerCh : ℕ
  nchs : ℕ

namespace SsdParams

variable (spp : SsdParams)

def pgsPerPl : ℕ := spp.pgsPerBlk * spp.blksPerPl
def pgsPerLun : ℕ := spp.pgsPerPl * spp.plsPerLun
def pgsPerCh : ℕ := spp.pgsPerLun * spp.lunsPerCh
def ttPgs : ℕ := spp.pgsPerCh * spp.nchs
def blksPerLun : ℕ := spp.blksPerPl * spp.plsPerLun
def ttLuns : ℕ := spp.lunsPerCh * spp.nchs
def blksPerLine : ℕ := spp.ttLuns
def pgsPerLine : ℕ := spp.blksPerLine * spp.pgsPerBlk
def ttLines : ℕ := spp.blksPerLun

end SsdParams

/-- The macros of `ssd_config.h` that `ssd_init_params` reads. -/
structure SsdConfig where
  lbaSize : ℕ
  nandChannels : ℕ
  plnsPerLun : ℕ
  lunsPerNandCh : ℕ
  blksPerPln : ℕ
  blkSize : ℕ
  flashPageSize : ℕ
  oneshotPageSize : ℕ

def divRoundUp (n d : ℕ) : ℕ := (n + d - 1) / d

def ssdInitParams (config : SsdConfig) (capacity nparts : ℕ) :
    Except Fault SsdParams := do
  let secsPerPg := 4096 / config.lbaSize
  let pgsz := config.lbaSize * secsPerPg
  nvmevAssert (config.nandChannels % nparts = 0)
  let nchs := config.nandChannels / nparts
  let capacity := capacity / nparts
  let planes := config.plnsPerLun * config.lunsPerNandCh * nchs
  nvmevAssert (0 < config.blksPerPln ∨ 0 < config.blkSize)
  let blkSize :=
    if 0 < config.blksPerPln then
      divRoundUp capacity (config.blksPerPln * planes)
    else config.blkSize
  let blksPerPl :=
    if 0 < config.blksPerPln then config.blksPerPln
    else divRoundUp capacity (blkSize * planes)
  nvmevAssert (config.oneshotPageSize % pgsz = 0 ∧
    config.flashPageSize % pgsz = 0)
  nvmevAssert (config.oneshotPageSize % config.flashPageSize = 0)
  let oneshotpgsPerBlk := divRoundUp blkSize config.oneshotPageSize
  return {
    secsPerPg
    pgsPerFlashpg := config.flashPageSize / pgsz
    flashpgsPerBlk :=
      config.oneshotPageSize / config.flashPageSize * oneshotpgsPerBlk
    pgsPerOneshotpg := config.oneshotPageSize / pgsz
    oneshotpgsPerBlk
    pgsPerBlk := config.oneshotPageSize / pgsz * oneshotpgsPerBlk
    blksPerPl
    plsPerLun := config.plnsPerLun
    lunsPerCh := config.lunsPerNandCh
    nchs }

/-- The geometry fits the bit fields of an address, and the pages of a plane fit
an `int`. -/
structure AddressFits (spp : SsdParams) : Prop where
  nchs_le : spp.nchs ≤ 2 ^ 8
  lunsPerCh_le : spp.lunsPerCh ≤ 2 ^ 8
  plsPerLun_le : spp.plsPerLun ≤ 2 ^ 8
  pgsPerBlk_le : spp.pgsPerBlk ≤ 2 ^ 16
  blksPerPl_le : spp.blksPerPl ≤ 2 ^ 16
  pgsPerPl_lt : spp.pgsPerPl < 2 ^ 31

/-- A parameter set with one plane for each die, as the write pointer assumes,
whose pages have an address and whose counters of pages fit an `int`. -/
structure Geometry extends SsdParams where
  secsPerPg_pos : 0 < secsPerPg
  pgsPerFlashpg_pos : 0 < pgsPerFlashpg
  pgsPerOneshotpg_pos : 0 < pgsPerOneshotpg
  oneshotpgsPerBlk_pos : 0 < oneshotpgsPerBlk
  lunsPerCh_pos : 0 < lunsPerCh
  nchs_pos : 0 < nchs
  pgsPerBlk_oneshot : pgsPerBlk = pgsPerOneshotpg * oneshotpgsPerBlk
  pgsPerBlk_flash : pgsPerBlk = pgsPerFlashpg * flashpgsPerBlk
  plsPerLun_one : plsPerLun = 1
  pgsPerBlk_le : pgsPerBlk ≤ 2 ^ 16
  blksPerPl_le : blksPerPl ≤ 2 ^ 16
  lunsPerCh_le : lunsPerCh ≤ 2 ^ 8
  nchs_le : nchs ≤ 2 ^ 8
  pgsPerPl_lt : toSsdParams.pgsPerPl < 2 ^ 31
  pgsPerLine_lt : toSsdParams.pgsPerLine < 2 ^ 31

theorem Geometry.addressFits (g : Geometry) : AddressFits g.toSsdParams where
  nchs_le := g.nchs_le
  lunsPerCh_le := g.lunsPerCh_le
  plsPerLun_le := by
    rw [g.plsPerLun_one]
    decide
  pgsPerBlk_le := g.pgsPerBlk_le
  blksPerPl_le := g.blksPerPl_le
  pgsPerPl_lt := g.pgsPerPl_lt

/-! ## Parameters of a configuration -/

/-- The divisors of `ssd_init_params` are not zero, a die has one plane, and
each instance gets a channel and some capacity. -/
structure SsdConfig.Divides (config : SsdConfig) (capacity nparts : ℕ) :
    Prop where
  lbaSize_pos : 0 < config.lbaSize
  lbaSize_le : config.lbaSize ≤ 4096
  plnsPerLun_one : config.plnsPerLun = 1
  lunsPerNandCh_pos : 0 < config.lunsPerNandCh
  flashPageSize_pos : 0 < config.flashPageSize
  oneshotPageSize_pos : 0 < config.oneshotPageSize
  nparts_pos : 0 < nparts
  nparts_le : nparts ≤ config.nandChannels
  capacity_le : nparts ≤ capacity

section InitParams

variable {config : SsdConfig} {capacity nparts : ℕ} {spp : SsdParams}

theorem divRoundUp_pos {n d : ℕ} (hn : 0 < n) (hd : 0 < d) :
    0 < divRoundUp n d :=
  Nat.div_pos (by omega) hd

/-- `ssd_init_params` cuts a block into whole flash pages and whole one-shot
pages. -/
theorem ssdInitParams_blocks (hflash : 0 < config.flashPageSize)
    (hinit : ssdInitParams config capacity nparts = .ok spp) :
    spp.pgsPerBlk = spp.pgsPerOneshotpg * spp.oneshotpgsPerBlk ∧
      spp.pgsPerBlk = spp.pgsPerFlashpg * spp.flashpgsPerBlk := by
  simp only [ssdInitParams, nvmevAssert, require_bind_eq_ok, pure,
    Except.pure, Except.ok.injEq] at hinit
  obtain ⟨-, -, ⟨-, hflashpg⟩, honeshot, rfl⟩ := hinit
  refine ⟨rfl, ?_⟩
  obtain ⟨pages, hpages⟩ := Nat.dvd_of_mod_eq_zero hflashpg
  obtain ⟨shots, hshots⟩ := Nat.dvd_of_mod_eq_zero honeshot
  have hpgsz : 0 < config.lbaSize * (4096 / config.lbaSize) :=
    Nat.pos_of_mul_pos_right (hpages ▸ hflash)
  have hflashpgs : config.oneshotPageSize / config.flashPageSize = shots := by
    rw [hshots, Nat.mul_div_cancel_left _ hflash]
  simp only [hflashpgs]
  rw [hshots, hpages, Nat.mul_assoc, Nat.mul_div_cancel_left _ hpgsz,
    Nat.mul_div_cancel_left _ hpgsz, Nat.mul_assoc]

/-- No part of a parameter set is empty. -/
theorem ssdInitParams_pos (hdivides : config.Divides capacity nparts)
    (hinit : ssdInitParams config capacity nparts = .ok spp) :
    (0 < spp.secsPerPg ∧ 0 < spp.pgsPerFlashpg ∧ 0 < spp.pgsPerOneshotpg) ∧
      0 < spp.oneshotpgsPerBlk ∧ 0 < spp.lunsPerCh ∧ 0 < spp.nchs ∧
      spp.plsPerLun = 1 := by
  simp only [ssdInitParams, nvmevAssert, require_bind_eq_ok, pure,
    Except.pure, Except.ok.injEq] at hinit
  obtain ⟨-, hblks, ⟨honeshotpg, hflashpg⟩, -, rfl⟩ := hinit
  have hsecs : 0 < 4096 / config.lbaSize :=
    Nat.div_pos hdivides.lbaSize_le hdivides.lbaSize_pos
  have hpgsz : 0 < config.lbaSize * (4096 / config.lbaSize) :=
    Nat.mul_pos hdivides.lbaSize_pos hsecs
  have hnchs : 0 < config.nandChannels / nparts :=
    Nat.div_pos hdivides.nparts_le hdivides.nparts_pos
  have hcapacity : 0 < capacity / nparts :=
    Nat.div_pos hdivides.capacity_le hdivides.nparts_pos
  have hplanes : 0 < config.plnsPerLun * config.lunsPerNandCh *
      (config.nandChannels / nparts) := by
    rw [hdivides.plnsPerLun_one, one_mul]
    exact Nat.mul_pos hdivides.lunsPerNandCh_pos hnchs
  refine ⟨⟨hsecs, ?_, ?_⟩, divRoundUp_pos ?_ hdivides.oneshotPageSize_pos,
    hdivides.lunsPerNandCh_pos, hnchs, hdivides.plnsPerLun_one⟩
  · exact Nat.div_pos (Nat.le_of_dvd hdivides.flashPageSize_pos
      (Nat.dvd_of_mod_eq_zero hflashpg)) hpgsz
  · exact Nat.div_pos (Nat.le_of_dvd hdivides.oneshotPageSize_pos
      (Nat.dvd_of_mod_eq_zero honeshotpg)) hpgsz
  · split
    next hpos => exact divRoundUp_pos hcapacity (Nat.mul_pos hpos hplanes)
    next hzero => exact hblks.resolve_left hzero

/-- The parameters of a configuration make a geometry if they fit an address and
the pages of a line fit an `int`. -/
theorem ssdInitParams_geometry (hdivides : config.Divides capacity nparts)
    (hinit : ssdInitParams config capacity nparts = .ok spp)
    (hfits : AddressFits spp) (hline : spp.pgsPerLine < 2 ^ 31) :
    ∃ g : Geometry, g.toSsdParams = spp := by
  obtain ⟨⟨hsecs, hflashpg, honeshotpg⟩, hshots, hluns, hnchs, hplanes⟩ :=
    ssdInitParams_pos hdivides hinit
  obtain ⟨honeshot, hflash⟩ :=
    ssdInitParams_blocks hdivides.flashPageSize_pos hinit
  exact ⟨⟨spp, hsecs, hflashpg, honeshotpg, hshots, hluns, hnchs, honeshot,
    hflash, hplanes, hfits.pgsPerBlk_le, hfits.blksPerPl_le,
    hfits.lunsPerCh_le, hfits.nchs_le, hfits.pgsPerPl_lt, hline⟩, rfl⟩

end InitParams

/-- The configuration `SAMSUNG_970PRO`. -/
def config970Pro : SsdConfig where
  lbaSize := 512
  nandChannels := 8
  plnsPerLun := 1
  lunsPerNandCh := 2
  blksPerPln := 8192
  blkSize := 0
  flashPageSize := 32768
  oneshotPageSize := 32768

/-- An instance of a quarter of 8 GiB. -/
example : ∃ g : Geometry,
    ssdInitParams config970Pro (2 ^ 33) 4 = .ok g.toSsdParams := by
  have hinit : ssdInitParams config970Pro (2 ^ 33) 4 =
      .ok ⟨8, 8, 2, 8, 2, 16, 8192, 1, 2, 2⟩ := by rfl
  obtain ⟨g, hg⟩ := ssdInitParams_geometry
    ⟨by decide, by decide, rfl, by decide, by decide, by decide, by decide,
      by decide, by decide⟩ hinit
    ⟨by decide, by decide, by decide, by decide, by decide, by decide⟩
    (by decide)
  exact ⟨g, hg ▸ hinit⟩

/-! ## Physical page addresses -/

/-- The bit fields of `struct ppa`.  `UNMAPPED_PPA` sets the reserved bits,
which no address does, so an entry of the mapping table is an `Option`. -/
structure Ppa where
  ch : ℕ
  lun : ℕ
  pl : ℕ
  blk : ℕ
  pg : ℕ
  deriving DecidableEq, Repr

/-- Assignment to the bit fields, which drops the bits that do not fit. -/
def Ppa.pack (ch lun pl blk pg : ℕ) : Ppa :=
  ⟨ch % 2 ^ 8, lun % 2 ^ 8, pl % 2 ^ 8, blk % 2 ^ 16, pg % 2 ^ 16⟩

def validPpa (spp : SsdParams) (ppa : Ppa) : Bool :=
  ppa.ch < spp.nchs && ppa.lun < spp.lunsPerCh && ppa.pl < spp.plsPerLun &&
    ppa.blk < spp.blksPerPl && ppa.pg < spp.pgsPerBlk

def ppa2pgidx (spp : SsdParams) (ppa : Ppa) : ℕ :=
  ppa.ch * spp.pgsPerCh + ppa.lun * spp.pgsPerLun + ppa.pl * spp.pgsPerPl +
    ppa.blk * spp.pgsPerBlk + ppa.pg

/-- Position of a page in the order in which the write pointer visits the pages
of a line: one-shot pages across the channels first, then across the dies. -/
def writeIndex (spp : SsdParams) (ch lun pg : ℕ) : ℕ :=
  ((pg / spp.pgsPerOneshotpg * spp.lunsPerCh + lun) * spp.nchs + ch) *
    spp.pgsPerOneshotpg + pg % spp.pgsPerOneshotpg

/-! ## Page indices -/

section PageIndex

variable {spp : SsdParams} {ppa ppa' : Ppa}

/-- The page index of an address, digit by digit. -/
theorem ppa2pgidx_eq (spp : SsdParams) (ppa : Ppa) :
    ppa2pgidx spp ppa =
      (((ppa.ch * spp.lunsPerCh + ppa.lun) * spp.plsPerLun + ppa.pl) *
        spp.blksPerPl + ppa.blk) * spp.pgsPerBlk + ppa.pg := by
  simp only [ppa2pgidx, SsdParams.pgsPerCh, SsdParams.pgsPerLun,
    SsdParams.pgsPerPl]
  ring

/-- `ppa2pgidx` never fails its assertion on a valid address. -/
theorem ppa2pgidx_lt (hppa : validPpa spp ppa = true) :
    ppa2pgidx spp ppa < spp.ttPgs := by
  have htotal : spp.ttPgs = spp.nchs * spp.lunsPerCh * spp.plsPerLun *
      spp.blksPerPl * spp.pgsPerBlk := by
    simp only [SsdParams.ttPgs, SsdParams.pgsPerCh, SsdParams.pgsPerLun,
      SsdParams.pgsPerPl]
    ring
  simp only [validPpa, Bool.and_eq_true, decide_eq_true_eq] at hppa
  obtain ⟨⟨⟨⟨hch, hlun⟩, hpl⟩, hblk⟩, hpg⟩ := hppa
  rw [ppa2pgidx_eq, htotal]
  exact digits_lt hpg (digits_lt hblk (digits_lt hpl (digits_lt hlun hch)))

theorem ppa2pgidx_inj (hppa : validPpa spp ppa = true)
    (hppa' : validPpa spp ppa' = true)
    (heq : ppa2pgidx spp ppa = ppa2pgidx spp ppa') : ppa = ppa' := by
  rw [ppa2pgidx_eq, ppa2pgidx_eq] at heq
  simp only [validPpa, Bool.and_eq_true, decide_eq_true_eq] at hppa hppa'
  rw [digits_inj hppa.2 hppa'.2, digits_inj hppa.1.2 hppa'.1.2,
    digits_inj hppa.1.1.2 hppa'.1.1.2,
    digits_inj hppa.1.1.1.2 hppa'.1.1.1.2] at heq
  obtain ⟨⟨⟨⟨hch, hlun⟩, hpl⟩, hblk⟩, hpg⟩ := heq
  cases ppa
  cases ppa'
  simp_all

end PageIndex

namespace Geometry

variable (g : Geometry)

theorem pgsPerBlk_pos : 0 < g.pgsPerBlk := by
  rw [g.pgsPerBlk_oneshot]
  exact Nat.mul_pos g.pgsPerOneshotpg_pos g.oneshotpgsPerBlk_pos

theorem pgsPerLine_pos : 0 < g.pgsPerLine :=
  Nat.mul_pos (Nat.mul_pos g.lunsPerCh_pos g.nchs_pos) g.pgsPerBlk_pos

theorem ttLines_eq : g.ttLines = g.blksPerPl := by
  rw [SsdParams.ttLines, SsdParams.blksPerLun, g.plsPerLun_one, mul_one]

end Geometry

/-! ## Write order -/

/-- What the order of the write pointer asks of a parameter set: a block is cut
into whole one-shot pages, and there is something to write to. -/
structure WriteShape (spp : SsdParams) : Prop where
  pgsPerOneshotpg_pos : 0 < spp.pgsPerOneshotpg
  pgsPerBlk_pos : 0 < spp.pgsPerBlk
  oneshotpg_dvd : spp.pgsPerOneshotpg ∣ spp.pgsPerBlk
  lunsPerCh_pos : 0 < spp.lunsPerCh
  nchs_pos : 0 < spp.nchs

namespace WriteShape

variable {spp : SsdParams} (h : WriteShape spp)
include h

theorem exists_shots :
    ∃ shots, spp.pgsPerBlk = spp.pgsPerOneshotpg * shots ∧
      spp.pgsPerLine = shots * spp.lunsPerCh * spp.nchs *
        spp.pgsPerOneshotpg := by
  obtain ⟨shots, hshots⟩ := h.oneshotpg_dvd
  refine ⟨shots, hshots, ?_⟩
  simp only [SsdParams.pgsPerLine, SsdParams.blksPerLine, SsdParams.ttLuns,
    hshots]
  ring

theorem writeIndex_lt {ch lun pg : ℕ} (hch : ch < spp.nchs)
    (hlun : lun < spp.lunsPerCh) (hpg : pg < spp.pgsPerBlk) :
    writeIndex spp ch lun pg < spp.pgsPerLine := by
  obtain ⟨shots, hshots, hline⟩ := h.exists_shots
  rw [hshots] at hpg
  rw [hline]
  exact digits_lt (Nat.mod_lt _ h.pgsPerOneshotpg_pos)
    (digits_lt hch (digits_lt hlun (Nat.div_lt_of_lt_mul hpg)))

theorem writeIndex_inj {ch lun pg ch' lun' pg' : ℕ} (hch : ch < spp.nchs)
    (hlun : lun < spp.lunsPerCh) (hch' : ch' < spp.nchs)
    (hlun' : lun' < spp.lunsPerCh)
    (heq : writeIndex spp ch lun pg = writeIndex spp ch' lun' pg') :
    ch = ch' ∧ lun = lun' ∧ pg = pg' := by
  rw [writeIndex, writeIndex,
    digits_inj (Nat.mod_lt _ h.pgsPerOneshotpg_pos)
      (Nat.mod_lt _ h.pgsPerOneshotpg_pos),
    digits_inj hch hch', digits_inj hlun hlun'] at heq
  obtain ⟨⟨⟨hdiv, hlun⟩, hch⟩, hmod⟩ := heq
  refine ⟨hch, hlun, ?_⟩
  rw [← Nat.div_add_mod pg spp.pgsPerOneshotpg, hdiv, hmod, Nat.div_add_mod]

theorem writeIndex_digits {q r : ℕ} (ch lun : ℕ)
    (hr : r < spp.pgsPerOneshotpg) :
    writeIndex spp ch lun (spp.pgsPerOneshotpg * q + r) =
      ((q * spp.lunsPerCh + lun) * spp.nchs + ch) * spp.pgsPerOneshotpg +
        r := by
  rw [writeIndex, Nat.mul_add_div h.pgsPerOneshotpg_pos, Nat.div_eq_of_lt hr,
    Nat.mul_add_mod, Nat.mod_eq_of_lt hr, add_zero]

end WriteShape

theorem Geometry.writeShape (g : Geometry) : WriteShape g.toSsdParams where
  pgsPerOneshotpg_pos := g.pgsPerOneshotpg_pos
  pgsPerBlk_pos := g.pgsPerBlk_pos
  oneshotpg_dvd := Dvd.intro _ g.pgsPerBlk_oneshot.symm
  lunsPerCh_pos := g.lunsPerCh_pos
  nchs_pos := g.nchs_pos

end NvmeVirt.Ftl
