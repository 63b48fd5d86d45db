import NvmeVirt.Ftl.ConvFtl
import NvmeVirt.Lib.Counting

/-!
# Line accounting

The invariant that ties the counters of blocks and lines to the page states,
and every line to one place.  While a line is being collected it is in no place;
between the programming of a page and the move of the write pointer, the pointer
lags one page behind.  `Accounts` has a parameter for each.
-/

namespace NvmeVirt.Ftl

open Function NvmeVirt.Outcome

/-! ## Counting pages -/

/-- Number of pages in a given state. -/
def pageCount (pages : Finset Ppa) (status : Ppa → PageStatus)
    (value : PageStatus) : ℕ :=
  (pages.filter (fun ppa => status ppa = value)).card

def blockPages (spp : SsdParams) (addr : BlockAddr) : Finset Ppa :=
  (Finset.range spp.pgsPerBlk).image fun pg =>
    ⟨addr.ch, addr.lun, addr.pl, addr.blk, pg⟩

def linePages (spp : SsdParams) (line : ℕ) : Finset Ppa :=
  (Finset.range spp.nchs ×ˢ Finset.range spp.lunsPerCh ×ˢ
    Finset.range spp.pgsPerBlk).image fun page =>
      ⟨page.1, page.2.1, 0, line, page.2.2⟩

theorem mem_blockPages {spp : SsdParams} {addr : BlockAddr} {ppa : Ppa} :
    ppa ∈ blockPages spp addr ↔ ppa.block = addr ∧ ppa.pg < spp.pgsPerBlk := by
  simp only [blockPages, Finset.mem_image, Finset.mem_range]
  constructor
  · rintro ⟨pg, hpg, rfl⟩
    exact ⟨rfl, hpg⟩
  · rintro ⟨rfl, hpg⟩
    exact ⟨ppa.pg, hpg, rfl⟩

theorem mem_linePages {spp : SsdParams} {line : ℕ} {ppa : Ppa} :
    ppa ∈ linePages spp line ↔ ppa.ch < spp.nchs ∧ ppa.lun < spp.lunsPerCh ∧
      ppa.pl = 0 ∧ ppa.blk = line ∧ ppa.pg < spp.pgsPerBlk := by
  simp only [linePages, Finset.mem_image, Finset.mem_product, Finset.mem_range]
  constructor
  · rintro ⟨⟨ch, lun, pg⟩, ⟨hch, hlun, hpg⟩, rfl⟩
    exact ⟨hch, hlun, rfl, rfl, hpg⟩
  · rintro ⟨hch, hlun, hpl, hblk, hpg⟩
    refine ⟨(ppa.ch, ppa.lun, ppa.pg), ⟨hch, hlun, hpg⟩, ?_⟩
    cases ppa
    simp_all

theorem card_linePages (spp : SsdParams) (line : ℕ) :
    (linePages spp line).card = spp.pgsPerLine := by
  rw [linePages, Finset.card_image_of_injective]
  · simp only [Finset.card_product, Finset.card_range, SsdParams.pgsPerLine,
      SsdParams.blksPerLine, SsdParams.ttLuns]
    ring
  · rintro ⟨ch, lun, pg⟩ ⟨ch', lun', pg'⟩ heq
    simp only [Ppa.mk.injEq] at heq
    simp [heq]

theorem card_blockPages (spp : SsdParams) (addr : BlockAddr) :
    (blockPages spp addr).card = spp.pgsPerBlk := by
  rw [blockPages, Finset.card_image_of_injective, Finset.card_range]
  intro pg pg' heq
  simpa using heq

/-- Valid addresses are the pages of the lines. -/
theorem validPpa_iff (g : Geometry) (ppa : Ppa) :
    validPpa g.toSsdParams ppa = true ↔
      ppa.blk < g.ttLines ∧ ppa ∈ linePages g.toSsdParams ppa.blk := by
  simp only [validPpa, Bool.and_eq_true, decide_eq_true_eq, g.plsPerLun_one,
    g.ttLines_eq, mem_linePages, true_and]
  omega

theorem pageCount_congr {pages : Finset Ppa} {status status' : Ppa → PageStatus}
    (heq : ∀ ppa ∈ pages, status ppa = status' ppa) (value : PageStatus) :
    pageCount pages status value = pageCount pages status' value := by
  apply congrArg Finset.card
  apply Finset.filter_congr
  intro ppa hppa
  rw [heq ppa hppa]

/-- Every page is free, invalid or valid. -/
theorem pageCount_total (pages : Finset Ppa) (status : Ppa → PageStatus) :
    pageCount pages status .free + pageCount pages status .invalid +
      pageCount pages status .valid = pages.card := by
  have hsum := Finset.card_eq_sum_card_fiberwise (f := status) (s := pages)
    (t := {PageStatus.free, .invalid, .valid})
    (by intro ppa _; cases status ppa <;> simp)
  rw [hsum, Finset.sum_insert (by decide), Finset.sum_insert (by decide),
    Finset.sum_singleton, ← add_assoc]
  rfl

theorem pageCount_eq_zero {pages : Finset Ppa} {status : Ppa → PageStatus}
    {value : PageStatus} :
    pageCount pages status value = 0 ↔ ∀ ppa ∈ pages, status ppa ≠ value := by
  rw [pageCount, Finset.card_eq_zero, Finset.filter_eq_empty_iff]

/-! ## The invariant -/

/-- The counters of a line agree with its pages. -/
def LineTally (spp : SsdParams) (st : ConvFtl) (line : ℕ) : Prop :=
  (st.lines line).vpc = pageCount (linePages spp line) st.status .valid ∧
    (st.lines line).ipc = pageCount (linePages spp line) st.status .invalid

/-- The counters of a block agree with its pages. -/
def BlockTally (spp : SsdParams) (st : ConvFtl) (addr : BlockAddr) : Prop :=
  (st.blocks addr).vpc = pageCount (blockPages spp addr) st.status .valid ∧
    (st.blocks addr).ipc = pageCount (blockPages spp addr) st.status .invalid

def WritePointer.index (spp : SsdParams) (wp : WritePointer) : ℕ :=
  writeIndex spp wp.ch wp.lun wp.pg

/-- The write pointer stands in its line with `written` pages behind it. -/
structure PointerAt (spp : SsdParams) (st : ConvFtl) (wp : WritePointer)
    (written : ℕ) : Prop where
  ch_lt : wp.ch < spp.nchs
  lun_lt : wp.lun < spp.lunsPerCh
  pg_lt : wp.pg < spp.pgsPerBlk
  pl_eq : wp.pl = 0
  blk_eq : wp.blk = wp.curline
  free_iff : ∀ ppa ∈ linePages spp wp.curline,
    (st.status ppa = .free ↔
      written ≤ writeIndex spp ppa.ch ppa.lun ppa.pg)
  tally : (st.lines wp.curline).vpc + (st.lines wp.curline).ipc = written

/-- A write pointer sees its own line only. -/
theorem PointerAt.congr {spp : SsdParams} {st st' : ConvFtl}
    {wp : WritePointer} {written : ℕ} (h : PointerAt spp st wp written)
    (hstatus : ∀ ppa ∈ linePages spp wp.curline,
      st'.status ppa = st.status ppa)
    (hlines : st'.lines wp.curline = st.lines wp.curline) :
    PointerAt spp st' wp written := by
  refine ⟨h.ch_lt, h.lun_lt, h.pg_lt, h.pl_eq, h.blk_eq, fun ppa hppa => ?_,
    ?_⟩
  · rw [hstatus ppa hppa]
    exact h.free_iff ppa hppa
  · rw [hlines]
    exact h.tally

/-- A write pointer that has opened a line. -/
theorem PointerAt.opened {g : Geometry} {st : ConvFtl} {line : ℕ}
    (hfree : ∀ ppa ∈ linePages g.toSsdParams line, st.status ppa = .free)
    (hvpc : (st.lines line).vpc = 0) (hipc : (st.lines line).ipc = 0) :
    PointerAt g.toSsdParams st ⟨line, 0, 0, 0, line, 0⟩ 0 := by
  refine ⟨g.nchs_pos, g.lunsPerCh_pos, g.pgsPerBlk_pos, rfl, rfl,
    fun ppa hppa => ?_, ?_⟩
  · simp [hfree ppa hppa]
  · simp [hvpc, hipc]

/-- In how many places a line is. -/
def slots (st : ConvFtl) (held : Option ℕ) (line : ℕ) : ℕ :=
  st.freeLineList.count line + st.fullLineList.count line +
    min (st.victimLinePq.pos line) 1 + [st.wp.curline].count line +
    [st.gcWp.curline].count line + held.toList.count line

/-- `held` is the line being collected, `pending` the write pointer whose page
has been programmed but which has not moved on. -/
structure Accounts (g : Geometry) (held : Option ℕ) (pending : Option IoType)
    (st : ConvFtl) : Prop where
  pq_valid : st.victimLinePq.Valid
  slots_eq : ∀ line, slots st held line = if line < g.ttLines then 1 else 0
  free_cnt : st.freeLineCnt = st.freeLineList.length
  full_cnt : st.fullLineCnt = st.fullLineList.length
  victim_cnt : st.victimLineCnt = st.victimLinePq.size - 1
  line_id : ∀ line, (st.lines line).id = line
  nsecs_eq : ∀ addr i, ((st.blocks addr).pg i).nsecs = g.secsPerPg
  npgs_eq : ∀ addr, (st.blocks addr).npgs = g.pgsPerBlk
  block_tally : ∀ addr, BlockTally g.toSsdParams st addr
  line_tally : ∀ line, line ∉ held.toList → LineTally g.toSsdParams st line
  free_pages : ∀ line ∈ st.freeLineList,
    ∀ ppa ∈ linePages g.toSsdParams line, st.status ppa = .free
  full_vpc : ∀ line ∈ st.fullLineList, (st.lines line).vpc = g.pgsPerLine
  victim_pages : ∀ line, st.victimLinePq.pos line ≠ 0 →
    (st.lines line).vpc + (st.lines line).ipc = g.pgsPerLine ∧
      0 < (st.lines line).ipc
  pointer_at : ∀ io, PointerAt g.toSsdParams st (st.getWp io)
    ((st.getWp io).index g.toSsdParams + if pending = some io then 1 else 0)

namespace Accounts

variable {g : Geometry} {held : Option ℕ} {pending : Option IoType}
  {st : ConvFtl}

theorem slots_le (h : Accounts g held pending st) (line : ℕ) :
    slots st held line ≤ 1 := by
  rw [h.slots_eq]
  split <;> omega

theorem lt_of_slots (h : Accounts g held pending st) {line : ℕ}
    (hslots : 0 < slots st held line) : line < g.ttLines := by
  rw [h.slots_eq] at hslots
  by_contra hge
  rw [if_neg hge] at hslots
  omega

/-- A line under a write pointer is in no other place. -/
theorem curline_alone (h : Accounts g held pending st) {line : ℕ}
    (hcur : st.wp.curline = line ∨ st.gcWp.curline = line) :
    line < g.ttLines ∧ line ∉ st.freeLineList ∧ line ∉ st.fullLineList ∧
      st.victimLinePq.pos line = 0 ∧ line ∉ held.toList := by
  have hle := h.slots_le line
  have hcount : 0 < [st.wp.curline].count line +
      [st.gcWp.curline].count line := by
    rcases hcur with rfl | rfl <;> simp
  simp only [slots] at hle
  refine ⟨h.lt_of_slots ?_, List.count_eq_zero.mp ?_, List.count_eq_zero.mp ?_,
    ?_, List.count_eq_zero.mp ?_⟩
  · simp only [slots]
    omega
  all_goals omega

theorem pointer_alone (h : Accounts g held pending st) (io : IoType) :
    (st.getWp io).curline < g.ttLines ∧
      (st.getWp io).curline ∉ st.freeLineList ∧
      (st.getWp io).curline ∉ st.fullLineList ∧
      st.victimLinePq.pos (st.getWp io).curline = 0 ∧
      (st.getWp io).curline ∉ held.toList := by
  apply h.curline_alone
  cases io <;> simp [ConvFtl.getWp]

theorem curline_ne (h : Accounts g held pending st) :
    st.wp.curline ≠ st.gcWp.curline := by
  intro heq
  have hle := h.slots_le st.wp.curline
  simp only [slots, ← heq, List.count_singleton_self] at hle
  omega

theorem free_alone (h : Accounts g held pending st) {line : ℕ}
    (hmem : line ∈ st.freeLineList) :
    line < g.ttLines ∧ line ∉ st.fullLineList ∧
      st.victimLinePq.pos line = 0 ∧ line ∉ held.toList := by
  have hle := h.slots_le line
  have hcount := List.count_pos_iff.mpr hmem
  simp only [slots] at hle
  refine ⟨h.lt_of_slots ?_, List.count_eq_zero.mp ?_, ?_,
    List.count_eq_zero.mp ?_⟩
  · simp only [slots]
    omega
  all_goals omega

theorem full_alone (h : Accounts g held pending st) {line : ℕ}
    (hmem : line ∈ st.fullLineList) :
    line < g.ttLines ∧ st.victimLinePq.pos line = 0 ∧
      line ∉ held.toList := by
  have hle := h.slots_le line
  have hcount := List.count_pos_iff.mpr hmem
  simp only [slots] at hle
  refine ⟨h.lt_of_slots ?_, ?_, List.count_eq_zero.mp ?_⟩
  · simp only [slots]
    omega
  all_goals omega

theorem victim_alone (h : Accounts g held pending st) {line : ℕ}
    (hpos : st.victimLinePq.pos line ≠ 0) :
    line < g.ttLines ∧ line ∉ held.toList := by
  have hle := h.slots_le line
  simp only [slots] at hle
  refine ⟨h.lt_of_slots ?_, List.count_eq_zero.mp ?_⟩
  · simp only [slots]
    omega
  · omega

/-- The tables and the flow control are not part of the accounts. -/
theorem withTables (h : Accounts g held pending st)
    (maptbl : ℕ → Option Ppa) (rmap : ℕ → Option ℕ)
    (writeCredits creditsToRefill : ℕ) :
    Accounts g held pending { st with
      maptbl, rmap, writeCredits, creditsToRefill } where
  pq_valid := h.pq_valid
  slots_eq := h.slots_eq
  free_cnt := h.free_cnt
  full_cnt := h.full_cnt
  victim_cnt := h.victim_cnt
  line_id := h.line_id
  nsecs_eq := h.nsecs_eq
  npgs_eq := h.npgs_eq
  block_tally := h.block_tally
  line_tally := h.line_tally
  free_pages := h.free_pages
  full_vpc := h.full_vpc
  victim_pages := h.victim_pages
  pointer_at := fun io => by
    have hpointer := h.pointer_at io
    cases io <;> exact hpointer.congr (fun _ _ => rfl) rfl

end Accounts

end NvmeVirt.Ftl
