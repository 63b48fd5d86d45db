import NvmeVirt.Ftl.WriteOrder

/-!
# Programming and invalidating a page

What `mark_page_valid`, `advance_write_pointer` and `mark_page_invalid` do to
the accounts.  None of their assertions fails; the only way to end without a
result is to need a free line when there is none.
-/

namespace NvmeVirt.Ftl

open Function NvmeVirt.Outcome

/-! ## One page changes state -/

theorem pageCount_update {pages : Finset Ppa} {ppa : Ppa} (hppa : ppa ∈ pages)
    (status : Ppa → PageStatus) (s value : PageStatus) :
    pageCount pages (update status ppa s) value +
        (if status ppa = value then 1 else 0) =
      pageCount pages status value + (if s = value then 1 else 0) :=
  Counting.card_filter_update hppa status s value

theorem pageCount_update_other {pages : Finset Ppa} {ppa : Ppa}
    (hppa : ppa ∉ pages) (status : Ppa → PageStatus) (s value : PageStatus) :
    pageCount pages (update status ppa s) value =
      pageCount pages status value := by
  apply pageCount_congr
  intro page hpage
  exact update_of_ne (ne_of_mem_of_not_mem hpage hppa) _ _

theorem pageCount_pos {pages : Finset Ppa} {ppa : Ppa} (hppa : ppa ∈ pages)
    (status : Ppa → PageStatus) : 0 < pageCount pages status (status ppa) :=
  Finset.card_pos.mpr ⟨ppa, by simp [hppa]⟩

@[simp]
theorem status_setPage (st : ConvFtl) (ppa : Ppa) (s : PageStatus)
    (vpc ipc : ℕ) :
    (st.setPage ppa s vpc ipc).status = update st.status ppa s := by
  funext page
  simp only [ConvFtl.status, ConvFtl.getPg, ConvFtl.setPage, ConvFtl.setBlock]
  by_cases hblock : page.block = ppa.block
  · by_cases hpg : page.pg = ppa.pg
    · have hpage : page = ppa := by
        cases page
        cases ppa
        simp_all [Ppa.block]
      simp [hpage]
    · have hpage : page ≠ ppa := fun heq => hpg (congrArg Ppa.pg heq)
      simp [hblock, hpg, hpage, ConvFtl.status, ConvFtl.getPg]
  · have hpage : page ≠ ppa := fun heq => hblock (congrArg Ppa.block heq)
    simp [hblock, hpage, ConvFtl.status, ConvFtl.getPg]

theorem setPage_sizes (st : ConvFtl) (ppa : Ppa) (s : PageStatus)
    (vpc ipc : ℕ) (addr : BlockAddr) :
    ((st.setPage ppa s vpc ipc).blocks addr).npgs = (st.blocks addr).npgs ∧
      ∀ i, (((st.setPage ppa s vpc ipc).blocks addr).pg i).nsecs =
        ((st.blocks addr).pg i).nsecs := by
  by_cases haddr : addr = ppa.block
  · subst haddr
    simp only [ConvFtl.setPage, ConvFtl.setBlock, update_self, true_and]
    intro i
    by_cases hi : i = ppa.pg <;> simp [hi]
  · simp [ConvFtl.setPage, ConvFtl.setBlock, haddr]

theorem setPage_other (st : ConvFtl) (ppa : Ppa) (s : PageStatus)
    (vpc ipc : ℕ) {addr : BlockAddr} (haddr : ppa.block ≠ addr) :
    (st.setPage ppa s vpc ipc).blocks addr = st.blocks addr := by
  simp [ConvFtl.setPage, ConvFtl.setBlock, haddr.symm]

/-- What the mapping layer sees of a page that changes state. -/
structure Restated (st st' : ConvFtl) (ppa : Ppa) (s : PageStatus) : Prop where
  status_eq : st'.status = update st.status ppa s
  maptbl_eq : st'.maptbl = st.maptbl
  rmap_eq : st'.rmap = st.rmap
  wp_eq : st'.wp = st.wp
  gcWp_eq : st'.gcWp = st.gcWp
  free_eq : st'.freeLineList = st.freeLineList
  writeCredits_eq : st'.writeCredits = st.writeCredits
  creditsToRefill_eq : st'.creditsToRefill = st.creditsToRefill

section OtherLines

variable {spp : SsdParams} {st st' : ConvFtl} {ppa : Ppa} {s : PageStatus}
  (hstatus : st'.status = update st.status ppa s)
include hstatus

theorem LineTally.other {line : ℕ} (h : LineTally spp st line)
    (hline : ppa.blk ≠ line) (hlines : st'.lines line = st.lines line) :
    LineTally spp st' line := by
  have hppa : ppa ∉ linePages spp line := by
    rw [mem_linePages]
    tauto
  simp only [LineTally, hlines, hstatus, pageCount_update_other hppa]
  exact h

theorem BlockTally.other {addr : BlockAddr} (h : BlockTally spp st addr)
    (haddr : ppa.block ≠ addr) (hblocks : st'.blocks addr = st.blocks addr) :
    BlockTally spp st' addr := by
  have hppa : ppa ∉ blockPages spp addr := by
    rw [mem_blockPages]
    tauto
  simp only [BlockTally, hblocks, hstatus, pageCount_update_other hppa]
  exact h

theorem PointerAt.other {wp : WritePointer} {written : ℕ}
    (h : PointerAt spp st wp written) (hline : ppa.blk ≠ wp.curline)
    (hlines : st'.lines wp.curline = st.lines wp.curline) :
    PointerAt spp st' wp written := by
  refine h.congr (fun page hpage => ?_) hlines
  have hne : page ≠ ppa := by
    rintro rfl
    exact hline (mem_linePages.mp hpage).2.2.2.1
  rw [hstatus, update_of_ne hne]

end OtherLines

/-! ## `mark_page_valid` -/

variable {g : Geometry} {held : Option ℕ} {st : ConvFtl}

/-- The page under a write pointer. -/
def WritePointer.page (wp : WritePointer) : Ppa :=
  ⟨wp.ch, wp.lun, 0, wp.curline, wp.pg⟩

theorem PointerAt.page_mem {written : ℕ} {wp : WritePointer}
    (h : PointerAt g.toSsdParams st wp written) :
    wp.page ∈ linePages g.toSsdParams wp.curline :=
  mem_linePages.mpr ⟨h.ch_lt, h.lun_lt, rfl, rfl, h.pg_lt⟩

theorem PointerAt.index_lt {written : ℕ} {wp : WritePointer}
    (h : PointerAt g.toSsdParams st wp written) :
    wp.index g.toSsdParams < g.pgsPerLine :=
  g.writeShape.writeIndex_lt h.ch_lt h.lun_lt h.pg_lt

theorem Accounts.page_free (h : Accounts g held none st) (io : IoType) :
    st.status (st.getWp io).page = .free := by
  have hpointer := h.pointer_at io
  rw [hpointer.free_iff _ hpointer.page_mem]
  simp [WritePointer.page, WritePointer.index]

/-- A page has changed state, and with it the counters of its block and of its
line. -/
structure Recounted (st st' : ConvFtl) (ppa : Ppa) (s : PageStatus)
    (vpc ipc : ℕ) (line : Line) : Prop where
  blocks_eq : st'.blocks = (st.setPage ppa s vpc ipc).blocks
  lines_eq : st'.lines = update st.lines ppa.blk line
  id_eq : line.id = (st.lines ppa.blk).id

namespace Recounted

variable {spp : SsdParams} {st' : ConvFtl} {ppa : Ppa} {s : PageStatus}
  {vpc ipc : ℕ} {line : Line} (h : Recounted st st' ppa s vpc ipc line)
include h

theorem status_eq : st'.status = update st.status ppa s := by
  rw [← status_setPage st ppa s vpc ipc]
  funext page
  simp only [ConvFtl.status, ConvFtl.getPg, h.blocks_eq]

theorem line_own : st'.lines ppa.blk = line := by
  rw [h.lines_eq, update_self]

theorem line_other {index : ℕ} (hindex : ppa.blk ≠ index) :
    st'.lines index = st.lines index := by
  rw [h.lines_eq, update_of_ne hindex.symm]

theorem line_id (index : ℕ) : (st'.lines index).id = (st.lines index).id := by
  by_cases hindex : ppa.blk = index
  · rw [← hindex, h.line_own, h.id_eq]
  · rw [h.line_other hindex]

theorem nsecs_eq (addr : BlockAddr) (i : ℕ) :
    ((st'.blocks addr).pg i).nsecs = ((st.blocks addr).pg i).nsecs := by
  rw [h.blocks_eq]
  exact (setPage_sizes st ppa s vpc ipc addr).2 i

theorem npgs_eq (addr : BlockAddr) :
    (st'.blocks addr).npgs = (st.blocks addr).npgs := by
  rw [h.blocks_eq]
  exact (setPage_sizes st ppa s vpc ipc addr).1

/-- The block counters stay right if they change as the page states do. -/
theorem blockTally (htally : ∀ addr, BlockTally spp st addr)
    (hpg : ppa.pg < spp.pgsPerBlk)
    (hvpc : vpc + (if st.status ppa = .valid then 1 else 0) =
      (st.blocks ppa.block).vpc + (if s = .valid then 1 else 0))
    (hipc : ipc + (if st.status ppa = .invalid then 1 else 0) =
      (st.blocks ppa.block).ipc + (if s = .invalid then 1 else 0))
    (addr : BlockAddr) : BlockTally spp st' addr := by
  by_cases haddr : ppa.block = addr
  · subst haddr
    have hmem : ppa ∈ blockPages spp ppa.block :=
      mem_blockPages.mpr ⟨rfl, hpg⟩
    have hvalid := pageCount_update hmem st.status s .valid
    have hinvalid := pageCount_update hmem st.status s .invalid
    obtain ⟨hold, hold'⟩ := htally ppa.block
    rw [BlockTally, h.status_eq, h.blocks_eq]
    simp only [ConvFtl.setPage, ConvFtl.setBlock, update_self]
    omega
  · refine (htally addr).other h.status_eq haddr ?_
    rw [h.blocks_eq]
    exact setPage_other st ppa s vpc ipc haddr

/-- The line counters stay right if they change as the page states do. -/
theorem lineTally {index : ℕ} (htally : LineTally spp st index)
    (hppa : ppa ∈ linePages spp ppa.blk)
    (hvpc : line.vpc + (if st.status ppa = .valid then 1 else 0) =
      (st.lines ppa.blk).vpc + (if s = .valid then 1 else 0))
    (hipc : line.ipc + (if st.status ppa = .invalid then 1 else 0) =
      (st.lines ppa.blk).ipc + (if s = .invalid then 1 else 0)) :
    LineTally spp st' index := by
  by_cases hindex : ppa.blk = index
  · subst hindex
    have hvalid := pageCount_update hppa st.status s .valid
    have hinvalid := pageCount_update hppa st.status s .invalid
    obtain ⟨hold, hold'⟩ := htally
    rw [LineTally, h.status_eq, h.line_own]
    omega
  · exact htally.other h.status_eq hindex (h.line_other hindex)

end Recounted

/-- The pointer's page is the only one of its line at its index. -/
theorem PointerAt.eq_page {written : ℕ} {wp : WritePointer}
    (h : PointerAt g.toSsdParams st wp written) {ppa : Ppa}
    (hppa : ppa ∈ linePages g.toSsdParams wp.curline)
    (hindex : writeIndex g.toSsdParams ppa.ch ppa.lun ppa.pg =
      wp.index g.toSsdParams) : ppa = wp.page := by
  obtain ⟨hch, hlun, hpl, hblk, -⟩ := mem_linePages.mp hppa
  obtain ⟨hch, hlun, hpg⟩ := g.writeShape.writeIndex_inj hch hlun h.ch_lt
    h.lun_lt hindex
  cases ppa
  simp_all [WritePointer.page]

/-- The page under a write pointer is programmed: the pointer stays, with one
more page behind it. -/
theorem PointerAt.program {wp : WritePointer} {st' : ConvFtl}
    (h : PointerAt g.toSsdParams st wp (wp.index g.toSsdParams))
    (hstatus : st'.status = update st.status wp.page .valid)
    (htally : (st'.lines wp.curline).vpc + (st'.lines wp.curline).ipc =
      (st.lines wp.curline).vpc + (st.lines wp.curline).ipc + 1) :
    PointerAt g.toSsdParams st' wp (wp.index g.toSsdParams + 1) := by
  refine ⟨h.ch_lt, h.lun_lt, h.pg_lt, h.pl_eq, h.blk_eq, fun page hpage => ?_,
    by rw [htally, h.tally]⟩
  have hiff := h.free_iff page hpage
  by_cases heq : page = wp.page
  · have hself : writeIndex g.toSsdParams page.ch page.lun page.pg =
        wp.index g.toSsdParams := by
      rw [heq]
      rfl
    rw [hself, heq, hstatus, update_self]
    simp
  · have hne : writeIndex g.toSsdParams page.ch page.lun page.pg ≠
        wp.index g.toSsdParams := fun hindex => heq (h.eq_page hpage hindex)
    rw [hstatus, update_of_ne heq, hiff]
    omega

/-- A block with a free page has not been written to its end. -/
theorem Accounts.block_room {pending : Option IoType}
    (h : Accounts g held pending st) {ppa : Ppa} (hpg : ppa.pg < g.pgsPerBlk)
    (hfree : st.status ppa = .free) :
    (st.blocks ppa.block).vpc < g.pgsPerBlk := by
  have hmem : ppa ∈ blockPages g.toSsdParams ppa.block :=
    mem_blockPages.mpr ⟨rfl, hpg⟩
  have htotal := pageCount_total (blockPages g.toSsdParams ppa.block)
    st.status
  have hpos := pageCount_pos hmem st.status
  rw [card_blockPages] at htotal
  rw [(h.block_tally ppa.block).1]
  rw [hfree] at hpos
  omega

/-- The page is valid for its block and its line. -/
def ConvFtl.programmed (st : ConvFtl) (ppa : Ppa) : ConvFtl :=
  (st.setPage ppa .valid ((st.blocks ppa.block).vpc + 1)
    (st.blocks ppa.block).ipc).setLine ppa.blk
      { st.lines ppa.blk with vpc := (st.lines ppa.blk).vpc + 1 }

theorem recounted_programmed (st : ConvFtl) (ppa : Ppa) :
    Recounted st (st.programmed ppa) ppa .valid
      ((st.blocks ppa.block).vpc + 1) (st.blocks ppa.block).ipc
      { st.lines ppa.blk with vpc := (st.lines ppa.blk).vpc + 1 } :=
  ⟨rfl, rfl, rfl⟩

theorem Accounts.programmed (h : Accounts g held none st) (io : IoType) :
    Accounts g held (some io) (st.programmed (st.getWp io).page) := by
  have hpointer : PointerAt g.toSsdParams st (st.getWp io)
      ((st.getWp io).index g.toSsdParams) := h.pointer_at io
  have hfree := h.page_free io
  have halone := h.pointer_alone io
  set ppa := (st.getWp io).page with hppa
  have hblk : ppa.blk = (st.getWp io).curline := rfl
  have hcounted := recounted_programmed st ppa
  have hwp : ∀ io', (st.programmed ppa).getWp io' = st.getWp io' :=
    fun io' => by cases io' <;> rfl
  exact {
    pq_valid := h.pq_valid
    slots_eq := h.slots_eq
    free_cnt := h.free_cnt
    full_cnt := h.full_cnt
    victim_cnt := h.victim_cnt
    line_id := fun index => (hcounted.line_id index).trans (h.line_id index)
    nsecs_eq := fun addr i =>
      (hcounted.nsecs_eq addr i).trans (h.nsecs_eq addr i)
    npgs_eq := fun addr => (hcounted.npgs_eq addr).trans (h.npgs_eq addr)
    block_tally := hcounted.blockTally h.block_tally hpointer.pg_lt
      (by simp [hfree]) (by simp [hfree])
    line_tally := fun index hheld =>
      hcounted.lineTally (h.line_tally index hheld) hpointer.page_mem
        (by simp [hfree]) (by simp [hfree])
    free_pages := fun index hindex page hpage => by
      have hne : page ≠ ppa := by
        rintro rfl
        rw [← hblk, (mem_linePages.mp hpage).2.2.2.1] at halone
        exact halone.2.1 hindex
      rw [hcounted.status_eq, update_of_ne hne]
      exact h.free_pages index hindex page hpage
    full_vpc := fun index hindex => by
      rw [hcounted.line_other (fun heq => halone.2.2.1 (hblk ▸ heq ▸ hindex))]
      exact h.full_vpc index hindex
    victim_pages := fun index hindex => by
      rw [hcounted.line_other
        (fun heq => hindex (by rw [← heq, hblk]; exact halone.2.2.2.1))]
      exact h.victim_pages index hindex
    pointer_at := fun io' => by
      rw [hwp]
      by_cases hio : io' = io
      · subst hio
        rw [if_pos rfl]
        refine hpointer.program hcounted.status_eq ?_
        rw [← hblk, hcounted.line_own]
        exact Nat.add_right_comm _ _ _
      · have hne : ppa.blk ≠ (st.getWp io').curline := by
          have hcurlines := h.curline_ne
          rw [hblk]
          cases io <;> cases io' <;> simp_all [ConvFtl.getWp, Ne.symm]
        rw [if_neg fun heq => hio (Option.some.inj heq).symm]
        exact (h.pointer_at io').other hcounted.status_eq hne
          (hcounted.line_other hne) }

/-- Programming the page under a write pointer. -/
theorem markPageValid_accounts (h : Accounts g held none st) (io : IoType) :
    ∃ st', markPageValid g.toSsdParams st (st.getWp io).page = .ok st' ∧
      Accounts g held (some io) st' ∧
      Restated st st' (st.getWp io).page .valid := by
  have hpointer := h.pointer_at io
  have hindex := hpointer.index_lt
  have htally := hpointer.tally
  have hfree := h.page_free io
  have hroom := h.block_room hpointer.pg_lt hfree
  have hvpc : (st.lines (st.getWp io).page.blk).vpc < g.pgsPerLine := by
    simp only [reduceCtorEq, if_false, add_zero] at htally
    change (st.lines (st.getWp io).curline).vpc < g.pgsPerLine
    omega
  refine ⟨st.programmed (st.getWp io).page, ?_, h.programmed io,
    ⟨status_setPage .., rfl, rfl, rfl, rfl, rfl, rfl, rfl⟩⟩
  simp only [markPageValid, nvmevAssert]
  rw [require_bind hfree, require_bind hroom, require_bind hvpc]
  rfl

/-! ## `advance_write_pointer` -/

/-- What the mapping layer sees of a step that changes no page. -/
structure SamePages (st st' : ConvFtl) : Prop where
  status_eq : st'.status = st.status
  maptbl_eq : st'.maptbl = st.maptbl
  rmap_eq : st'.rmap = st.rmap
  writeCredits_eq : st'.writeCredits = st.writeCredits
  creditsToRefill_eq : st'.creditsToRefill = st.creditsToRefill

/-- The line `line` has gone to the full list or to the victim queue. -/
structure Retired (g : Geometry) (line : ℕ) (st st' : ConvFtl) : Prop where
  same : SamePages st st'
  wp_eq : st'.wp = st.wp
  gcWp_eq : st'.gcWp = st.gcWp
  lines_eq : st'.lines = st.lines
  blocks_eq : st'.blocks = st.blocks
  free_eq : st'.freeLineList = st.freeLineList
  freeCnt_eq : st'.freeLineCnt = st.freeLineCnt
  pq_valid : st'.victimLinePq.Valid
  full_cnt : st'.fullLineCnt = st'.fullLineList.length
  victim_cnt : st'.victimLineCnt = st'.victimLinePq.size - 1
  count_eq : ∀ index, st'.fullLineList.count index +
      min (st'.victimLinePq.pos index) 1 =
    st.fullLineList.count index + min (st.victimLinePq.pos index) 1 +
      [line].count index
  full_vpc : ∀ index ∈ st'.fullLineList,
    (st.lines index).vpc = g.pgsPerLine
  victim_pages : ∀ index, st'.victimLinePq.pos index ≠ 0 →
    (st.lines index).vpc + (st.lines index).ipc = g.pgsPerLine ∧
      0 < (st.lines index).ipc

/-- Inserting a line that is not queued. -/
theorem pqueueInsert_spec (hvalid : st.victimLinePq.Valid) {line : ℕ}
    (hpos : st.victimLinePq.pos line = 0) :
    (pqueueInsert st line).victimLinePq.Valid ∧
      (pqueueInsert st line).victimLinePq.size - 1 =
        st.victimLinePq.size - 1 + 1 ∧
      ∀ index, (pqueueInsert st line).victimLinePq.pos index ≠ 0 ↔
        index = line ∨ st.victimLinePq.pos index ≠ 0 := by
  obtain ⟨hvalid', hsize, hpos'⟩ := Pqueue.insert_settled victimLineCmpPri
    (victimLinePri st) hvalid hpos
  refine ⟨hvalid', ?_, hpos'⟩
  have hsizePos := hvalid.size_pos
  simp only [pqueueInsert, hsize]
  omega

theorem retireLine_spec {pending : Option IoType}
    (h : Accounts g held pending st) {line : ℕ}
    (hpos : st.victimLinePq.pos line = 0)
    (htally : (st.lines line).vpc + (st.lines line).ipc = g.pgsPerLine) :
    ∃ st', retireLine g.toSsdParams st line = .ok st' ∧
      Retired g line st st' := by
  by_cases hfull : (st.lines line).vpc = g.pgsPerLine
  · have hipc : (st.lines line).ipc = 0 := by omega
    refine ⟨{ st with
      fullLineList := st.fullLineList ++ [line]
      fullLineCnt := st.fullLineCnt + 1 }, ?_, ⟨rfl, rfl, rfl, rfl, rfl⟩, rfl,
      rfl, rfl, rfl, rfl, rfl, h.pq_valid, ?_, h.victim_cnt, ?_, ?_,
      h.victim_pages⟩
    · simp only [retireLine, nvmevAssert]
      rw [if_pos hfull, require_bind hipc]
      rfl
    · simp [h.full_cnt]
    · intro index
      simp only [List.count_append]
      omega
    · intro index hindex
      rcases List.mem_append.mp hindex with hindex | hindex
      · exact h.full_vpc index hindex
      · rw [List.mem_singleton.mp hindex]
        exact hfull
  · have hipc : 0 < (st.lines line).ipc := by omega
    have hvpc : (st.lines line).vpc < g.pgsPerLine := by omega
    obtain ⟨hvalid, hsize, hposIff⟩ := pqueueInsert_spec h.pq_valid hpos
    refine ⟨{ pqueueInsert st line with
      victimLineCnt := st.victimLineCnt + 1 }, ?_, ⟨rfl, rfl, rfl, rfl, rfl⟩,
      rfl, rfl, rfl, rfl, rfl, rfl, hvalid, h.full_cnt, ?_, ?_, h.full_vpc,
      ?_⟩
    · simp only [retireLine, nvmevAssert]
      rw [if_neg hfull, require_bind hvpc, require_bind hipc]
      rfl
    · rw [h.victim_cnt]
      exact hsize.symm
    · intro index
      have hiff := hposIff index
      by_cases hindex : index = line
      · subst hindex
        have hqueued := hiff.mpr (Or.inl rfl)
        simp only [List.count_singleton_self, pqueueInsert] at hqueued ⊢
        omega
      · have hcount : [line].count index = 0 := by simp [Ne.symm hindex]
        simp only [hcount, hindex, false_or, pqueueInsert] at hiff ⊢
        omega
    · intro index hindex
      rcases (hposIff index).mp hindex with rfl | hold
      · exact ⟨htally, hipc⟩
      · exact h.victim_pages index hold

/-- Pages that can be programmed without collecting a line. -/
def freePages (g : Geometry) (st : ConvFtl) : ℕ :=
  st.freeLineList.length * g.pgsPerLine +
    (g.pgsPerLine - st.wp.index g.toSsdParams) +
    (g.pgsPerLine - st.gcWp.index g.toSsdParams)

theorem freePages_eq (g : Geometry) (st : ConvFtl) (io : IoType) :
    ∃ rest ≤ g.pgsPerLine, freePages g st =
      st.freeLineList.length * g.pgsPerLine + rest +
        (g.pgsPerLine - (st.getWp io).index g.toSsdParams) ∧
      ∀ wpp, freePages g (st.setWp wpp io) =
        st.freeLineList.length * g.pgsPerLine + rest +
          (g.pgsPerLine - wpp.index g.toSsdParams) := by
  cases io
  · refine ⟨g.pgsPerLine - st.gcWp.index g.toSsdParams, Nat.sub_le _ _, ?_,
      fun wpp => ?_⟩ <;>
      simp only [freePages, ConvFtl.getWp, ConvFtl.setWp] <;> omega
  · exact ⟨g.pgsPerLine - st.wp.index g.toSsdParams, Nat.sub_le _ _, rfl,
      fun _ => rfl⟩

theorem SamePages.trans {st st' st'' : ConvFtl} (h : SamePages st st')
    (h' : SamePages st' st'') : SamePages st st'' where
  status_eq := h'.status_eq.trans h.status_eq
  maptbl_eq := h'.maptbl_eq.trans h.maptbl_eq
  rmap_eq := h'.rmap_eq.trans h.rmap_eq
  writeCredits_eq := h'.writeCredits_eq.trans h.writeCredits_eq
  creditsToRefill_eq := h'.creditsToRefill_eq.trans h.creditsToRefill_eq

theorem SamePages.setWp (st : ConvFtl) (wpp : WritePointer) (io : IoType) :
    SamePages st (st.setWp wpp io) := by
  cases io <;> exact ⟨rfl, rfl, rfl, rfl, rfl⟩

/-- Slots after the write pointer has been moved to another line. -/
theorem slots_setWp (held : Option ℕ) (st : ConvFtl) (wpp : WritePointer)
    (io : IoType) (line : ℕ) :
    slots (st.setWp wpp io) held line + [(st.getWp io).curline].count line =
      slots st held line + [wpp.curline].count line := by
  cases io <;> simp only [slots, ConvFtl.setWp, ConvFtl.getWp] <;> omega

theorem getWp_setWp_other (st : ConvFtl) (wpp : WritePointer) {io io' : IoType}
    (hio : io' ≠ io) : (st.setWp wpp io).getWp io' = st.getWp io' := by
  cases io <;> cases io' <;> first | rfl | exact absurd rfl hio

theorem setWp_fields (st : ConvFtl) (wpp : WritePointer) (io : IoType) :
    (st.setWp wpp io).status = st.status ∧
      (st.setWp wpp io).lines = st.lines ∧
      (st.setWp wpp io).blocks = st.blocks ∧
      (st.setWp wpp io).freeLineList = st.freeLineList ∧
      (st.setWp wpp io).fullLineList = st.fullLineList ∧
      (st.setWp wpp io).victimLinePq = st.victimLinePq ∧
      (st.setWp wpp io).freeLineCnt = st.freeLineCnt ∧
      (st.setWp wpp io).fullLineCnt = st.fullLineCnt ∧
      (st.setWp wpp io).victimLineCnt = st.victimLineCnt := by
  cases io <;> exact ⟨rfl, rfl, rfl, rfl, rfl, rfl, rfl, rfl, rfl⟩

/-- The other write pointer is not pending. -/
theorem Accounts.pointer_other {io io' : IoType}
    (h : Accounts g held (some io) st) (hio : io' ≠ io) {st' : ConvFtl}
    (hstatus : st'.status = st.status) (hlines : st'.lines = st.lines) :
    PointerAt g.toSsdParams st' (st.getWp io')
      ((st.getWp io').index g.toSsdParams) := by
  have hpointer := h.pointer_at io'
  rw [if_neg fun heq => hio (Option.some.inj heq).symm] at hpointer
  exact hpointer.congr (fun ppa _ => congrFun hstatus ppa)
    (congrFun hlines _)

/-- The pointer moves to the next page of its line. -/
theorem Accounts.moveWithin {io : IoType} (h : Accounts g held (some io) st)
    {wpp : WritePointer} (hcurline : wpp.curline = (st.getWp io).curline)
    (hblk : wpp.blk = (st.getWp io).blk) (hpl : wpp.pl = (st.getWp io).pl)
    (hch : wpp.ch < g.nchs) (hlun : wpp.lun < g.lunsPerCh)
    (hpg : wpp.pg < g.pgsPerBlk)
    (hindex : wpp.index g.toSsdParams =
      (st.getWp io).index g.toSsdParams + 1) :
    Accounts g held none (st.setWp wpp io) := by
  have hpointer := h.pointer_at io
  obtain ⟨hstatus, hlines, hblocks, hfreeList, hfullList, hpq, hfreeCnt,
    hfullCnt, hvictimCnt⟩ := setWp_fields st wpp io
  refine {
    pq_valid := hpq ▸ h.pq_valid
    slots_eq := fun line => ?_
    free_cnt := by rw [hfreeCnt, hfreeList]; exact h.free_cnt
    full_cnt := by rw [hfullCnt, hfullList]; exact h.full_cnt
    victim_cnt := by rw [hvictimCnt, hpq]; exact h.victim_cnt
    line_id := by rw [hlines]; exact h.line_id
    nsecs_eq := by rw [hblocks]; exact h.nsecs_eq
    npgs_eq := by rw [hblocks]; exact h.npgs_eq
    block_tally := by
      simp only [BlockTally, hblocks, hstatus]
      exact h.block_tally
    line_tally := by
      simp only [LineTally, hlines, hstatus]
      exact h.line_tally
    free_pages := by
      rw [hfreeList, hstatus]
      exact h.free_pages
    full_vpc := by
      rw [hfullList, hlines]
      exact h.full_vpc
    victim_pages := by
      rw [hpq, hlines]
      exact h.victim_pages
    pointer_at := fun io' => ?_ }
  · have hslots := slots_setWp held st wpp io line
    rw [hcurline] at hslots
    rw [← h.slots_eq line]
    omega
  · by_cases hio : io' = io
    · subst hio
      rw [getWp_setWp]
      refine ⟨hch, hlun, hpg, hpl.trans hpointer.pl_eq, ?_, ?_, ?_⟩
      · rw [hblk, hpointer.blk_eq, hcurline]
      · rw [hcurline, hstatus, hindex]
        simpa using hpointer.free_iff
      · rw [hcurline, hlines, hindex]
        simpa using hpointer.tally
    · rw [getWp_setWp_other st wpp hio]
      exact h.pointer_other hio hstatus hlines

theorem Retired.getWp_eq {line : ℕ} {st' : ConvFtl} (h : Retired g line st st')
    (io : IoType) : st'.getWp io = st.getWp io := by
  cases io
  · exact h.wp_eq
  · exact h.gcWp_eq

/-- A free line has no programmed page. -/
theorem Accounts.free_line_tally {pending : Option IoType}
    (h : Accounts g held pending st) {line : ℕ}
    (hline : line ∈ st.freeLineList) :
    (st.lines line).vpc = 0 ∧ (st.lines line).ipc = 0 := by
  obtain ⟨hvpc, hipc⟩ := h.line_tally line (h.free_alone hline).2.2.2
  have hfree := h.free_pages line hline
  rw [hvpc, hipc, pageCount_eq_zero, pageCount_eq_zero]
  constructor
  · intro ppa hppa
    simp [hfree ppa hppa]
  · intro ppa hppa
    simp [hfree ppa hppa]

/-- The used-up line goes to the queue or the full list, and the first free line
comes under the pointer. -/
theorem Retired.slots_eq {io : IoType} {st' : ConvFtl}
    (hretired : Retired g (st.getWp io).curline st st') {line : ℕ}
    {rest : List ℕ} (hfree : st.freeLineList = line :: rest) (held : Option ℕ)
    (index : ℕ) :
    slots (({ st' with
      freeLineList := rest
      freeLineCnt := st'.freeLineCnt - 1 } : ConvFtl).setWp
        ⟨line, 0, 0, 0, line, 0⟩ io) held index = slots st held index := by
  set opened : ConvFtl := { st' with
    freeLineList := rest
    freeLineCnt := st'.freeLineCnt - 1 } with hopened
  have hwp : opened.getWp io = st.getWp io := by
    rw [← hretired.getWp_eq io]
    cases io <;> rfl
  have hslots := slots_setWp held opened ⟨line, 0, 0, 0, line, 0⟩ io index
  have hcount := hretired.count_eq index
  have hwps : st'.wp = st.wp ∧ st'.gcWp = st.gcWp :=
    ⟨hretired.wp_eq, hretired.gcWp_eq⟩
  have hcons : (line :: rest).count index =
      [line].count index + rest.count index := by
    rw [← List.count_append]
    rfl
  have hopenedSlots : slots opened held index + [line].count index =
      slots st held index + [(st.getWp io).curline].count index := by
    simp only [slots, hopened, hwps, hfree, hcons]
    omega
  rw [hwp] at hslots
  dsimp only at hslots
  omega

/-- The used-up line has been retired and the pointer starts on the first free
line. -/
theorem Accounts.moveOver {io : IoType} (h : Accounts g held (some io) st)
    {st' : ConvFtl} (hretired : Retired g (st.getWp io).curline st st')
    {line : ℕ} {rest : List ℕ} (hfree : st.freeLineList = line :: rest) :
    Accounts g held none (({ st' with
      freeLineList := rest
      freeLineCnt := st'.freeLineCnt - 1 } : ConvFtl).setWp
        ⟨line, 0, 0, 0, line, 0⟩ io) := by
  set opened : ConvFtl := { st' with
    freeLineList := rest
    freeLineCnt := st'.freeLineCnt - 1 } with hopened
  set wpp : WritePointer := ⟨line, 0, 0, 0, line, 0⟩ with hwpp
  have hmem : line ∈ st.freeLineList := by simp [hfree]
  have hsub : ∀ index ∈ rest, index ∈ st.freeLineList := by
    intro index hindex
    simp [hfree, hindex]
  obtain ⟨hstatus, hlines, hblocks, hfreeList, hfullList, hpq, hfreeCnt,
    hfullCnt, hvictimCnt⟩ := setWp_fields opened wpp io
  rw [show opened.status = st.status from hretired.same.status_eq] at hstatus
  rw [show opened.lines = st.lines from hretired.lines_eq] at hlines
  rw [show opened.blocks = st.blocks from hretired.blocks_eq] at hblocks
  exact {
    pq_valid := hpq ▸ hretired.pq_valid
    slots_eq := fun index =>
      (hretired.slots_eq hfree held index).trans (h.slots_eq index)
    free_cnt := by
      rw [hfreeCnt, hfreeList]
      simp only [hopened, hretired.freeCnt_eq, h.free_cnt, hfree,
        List.length_cons, Nat.add_sub_cancel]
    full_cnt := by rw [hfullCnt, hfullList]; exact hretired.full_cnt
    victim_cnt := by rw [hvictimCnt, hpq]; exact hretired.victim_cnt
    line_id := by rw [hlines]; exact h.line_id
    nsecs_eq := by rw [hblocks]; exact h.nsecs_eq
    npgs_eq := by rw [hblocks]; exact h.npgs_eq
    block_tally := by
      simp only [BlockTally, hblocks, hstatus]
      exact h.block_tally
    line_tally := by
      simp only [LineTally, hlines, hstatus]
      exact h.line_tally
    free_pages := fun index hindex => by
      rw [hstatus]
      rw [hfreeList] at hindex
      exact h.free_pages index (hsub index hindex)
    full_vpc := by
      rw [hfullList, hlines]
      exact hretired.full_vpc
    victim_pages := by
      rw [hpq, hlines]
      exact hretired.victim_pages
    pointer_at := fun io' => by
      by_cases hio : io' = io
      · subst hio
        rw [getWp_setWp]
        have hindex : wpp.index g.toSsdParams = 0 := writeIndex_zero _
        obtain ⟨hvpc, hipc⟩ := h.free_line_tally hmem
        simp only [hindex, reduceCtorEq, if_false]
        refine PointerAt.opened (fun ppa hppa => ?_) ?_ ?_
        · rw [hstatus]
          exact h.free_pages line hmem ppa hppa
        · rw [hlines]
          exact hvpc
        · rw [hlines]
          exact hipc
      · have hwp : opened.getWp io' = st.getWp io' := by
          rw [← hretired.getWp_eq io']
          cases io' <;> rfl
        rw [getWp_setWp_other opened wpp hio, hwp]
        exact h.pointer_other hio hstatus hlines }

/-- The used-up line is replaced by the first free one. -/
theorem openLine_eq {st' : ConvFtl} {io : IoType}
    (h : Accounts g held (some io) st)
    (hretired : Retired g (st.getWp io).curline st st') {line : ℕ}
    {rest : List ℕ} (hfree : st.freeLineList = line :: rest)
    {wpp : WritePointer} (hblk : wpp.blk = (st.getWp io).blk)
    (hpl : wpp.pl = (st.getWp io).pl) (hch : wpp.ch = 0) (hlun : wpp.lun = 0)
    (hpg : wpp.pg = 0) :
    openLine g.toSsdParams st' wpp io =
      .ok (({ st' with
        freeLineList := rest
        freeLineCnt := st'.freeLineCnt - 1 } : ConvFtl).setWp
          ⟨line, 0, 0, 0, line, 0⟩ io) := by
  have hpointer := h.pointer_at io
  have hmem : line ∈ st.freeLineList := by simp [hfree]
  obtain ⟨hlt, hnotFull, hpos, -⟩ := h.free_alone hmem
  obtain ⟨hcurLt, hcurFree, -⟩ := h.pointer_alone io
  rw [g.ttLines_eq] at hlt hcurLt
  have hnotFull' : line ∉ st'.fullLineList := by
    have hcount := hretired.count_eq line
    have hne : (st.getWp io).curline ≠ line := by
      rintro rfl
      exact hcurFree hmem
    have hzero : [(st.getWp io).curline].count line = 0 := by simp [hne]
    have hfullZero := List.count_eq_zero.mpr hnotFull
    apply List.count_eq_zero.mp
    omega
  have herase : st'.listDelInit line = { st' with freeLineList := rest } := by
    simp [ConvFtl.listDelInit, hretired.free_eq, hfree,
      List.erase_of_not_mem hnotFull']
  have hblkLt : wpp.blk < g.blksPerPl := by
    rw [hblk, hpointer.blk_eq]
    exact hcurLt
  have hid : (st'.lines line).id = line := by
    rw [hretired.lines_eq]
    exact h.line_id line
  obtain ⟨curline, ch, lun, pg, blk, pl⟩ := wpp
  simp only at hblk hpl hch hlun hpg hblkLt
  rw [hpointer.pl_eq] at hpl
  subst hpl hch hlun hpg
  simp only [openLine, checkAddr, nvmevAssert, getNextFreeLine,
    hretired.free_eq, hfree, herase, hid]
  rw [require_bind hblkLt, require_bind hlt]
  rfl

/-- `advance_write_pointer` after the page under the pointer was programmed. -/
theorem advanceWritePointer_accounts {io : IoType}
    (h : Accounts g held (some io) st) :
    Ends (fun st' => Accounts g held none st' ∧ SamePages st st' ∧
        freePages g st' + 1 = freePages g st)
      (fun e => e = .nullLine ∧ freePages g st ≤ g.pgsPerLine + 1)
      (advanceWritePointer g.toSsdParams st io) := by
  have hpointer := h.pointer_at io
  have hindexLt := hpointer.index_lt
  obtain ⟨wpp, usedUp, hnext, hcurline, hblk, hpl, hch, hlun, hpg, hwithin,
    hover⟩ := nextPage_spec g.writeShape hpointer.ch_lt hpointer.lun_lt
      hpointer.pg_lt
  obtain ⟨room, hroom, hpages, hpages'⟩ := freePages_eq g st io
  have hadvance : advanceWritePointer g.toSsdParams st io =
      if usedUp then do
        let st ← retireLine g.toSsdParams st wpp.curline
        openLine g.toSsdParams st wpp io
      else .ok (st.setWp wpp io) := by
    simp only [advanceWritePointer, hnext]
    rfl
  rw [hadvance]
  cases usedUp with
  | false =>
      have hindex := hwithin rfl
      refine ⟨h.moveWithin hcurline hblk hpl hch hlun hpg hindex,
        SamePages.setWp st wpp io, ?_⟩
      rw [hpages, hpages', hindex]
      omega
  | true =>
      obtain ⟨hlast, hch, hlun, hpg⟩ := hover rfl
      have halone := h.pointer_alone io
      have htally := hpointer.tally
      rw [if_pos rfl, hlast] at htally
      obtain ⟨st', hretire, hretired⟩ := retireLine_spec h halone.2.2.2.1
        htally
      rw [← hcurline] at hretire
      rw [if_pos rfl, hretire]
      cases hfree : st.freeLineList with
      | nil =>
          -- No line is free: the null pointer is used.
          have hblkLt : wpp.blk < g.blksPerPl := by
            rw [hblk, hpointer.blk_eq, ← g.ttLines_eq]
            exact halone.1
          have hopen : openLine g.toSsdParams st' wpp io = .error .nullLine := by
            simp only [openLine, checkAddr, nvmevAssert, getNextFreeLine,
              hretired.free_eq, hfree]
            rw [require_bind hblkLt]
          change Ends _ _ (openLine g.toSsdParams st' wpp io)
          rw [hopen]
          refine ⟨rfl, ?_⟩
          rw [hpages, hfree, List.length_nil]
          omega
      | cons line rest =>
          change Ends _ _ (openLine g.toSsdParams st' wpp io)
          rw [openLine_eq h hretired hfree hblk hpl hch hlun hpg]
          refine ⟨h.moveOver hretired hfree, ?_, ?_⟩
          · refine SamePages.trans ?_ (SamePages.setWp _ _ io)
            have hsame := hretired.same
            exact ⟨hsame.status_eq, hsame.maptbl_eq, hsame.rmap_eq,
              hsame.writeCredits_eq, hsame.creditsToRefill_eq⟩
          · have hstart : (⟨line, 0, 0, 0, line, 0⟩ : WritePointer).index
                g.toSsdParams = 0 := writeIndex_zero _
            cases io <;>
              simp only [freePages, ConvFtl.setWp, ConvFtl.getWp, hfree,
                List.length_cons, Nat.add_mul, hstart, hretired.wp_eq,
                hretired.gcWp_eq] at hlast ⊢ <;> omega

/-! ## `mark_page_invalid` -/

/-- Changing the priority of a queued line. -/
theorem pqueueChangePriority_spec (hvalid : st.victimLinePq.Valid)
    (newPri : ℕ) {line : ℕ} (hpos : st.victimLinePq.pos line ≠ 0) :
    (pqueueChangePriority st newPri line).victimLinePq.Valid ∧
      (pqueueChangePriority st newPri line).victimLinePq.size =
        st.victimLinePq.size ∧
      ∀ index, (pqueueChangePriority st newPri line).victimLinePq.pos index ≠ 0
        ↔ st.victimLinePq.pos index ≠ 0 :=
  Pqueue.changePriority_settled victimLineCmpPri _ hvalid _ hpos

/-- A line that is neither free nor current nor queued nor held is full. -/
theorem Accounts.full_of_vpc {pending : Option IoType}
    (h : Accounts g held pending st) {line : ℕ} (hline : line < g.ttLines)
    (hheld : line ∉ held.toList) (hpos : st.victimLinePq.pos line = 0)
    (hcur : ∀ io, (st.getWp io).curline ≠ line)
    (hvpc : 0 < (st.lines line).vpc) : st.fullLineList.count line = 1 := by
  have hslots := h.slots_eq line
  have hnotFree : line ∉ st.freeLineList := by
    intro hmem
    have htally := (h.free_line_tally hmem).1
    omega
  have hwp : [st.wp.curline].count line = 0 :=
    List.count_eq_zero.mpr (by simpa [ConvFtl.getWp] using (hcur .user).symm)
  have hgcWp : [st.gcWp.curline].count line = 0 :=
    List.count_eq_zero.mpr (by simpa [ConvFtl.getWp] using (hcur .gc).symm)
  rw [if_pos hline, slots, List.count_eq_zero.mpr hnotFree,
    List.count_eq_zero.mpr hheld, hwp, hgcWp, hpos] at hslots
  omega

/-- What is known of the line of a valid page. -/
theorem Accounts.valid_line (h : Accounts g held none st) {ppa : Ppa}
    (hheld : ppa.blk ∉ held.toList)
    (hppa : ppa ∈ linePages g.toSsdParams ppa.blk)
    (hvalid : st.status ppa = .valid) :
    0 < (st.lines ppa.blk).vpc ∧
      (st.lines ppa.blk).vpc + (st.lines ppa.blk).ipc ≤ g.pgsPerLine := by
  have htally := h.line_tally ppa.blk hheld
  have htotal := pageCount_total (linePages g.toSsdParams ppa.blk) st.status
  have hpos := pageCount_pos hppa st.status
  rw [card_linePages] at htotal
  rw [hvalid] at hpos
  rw [htally.1, htally.2]
  omega

/-- What is known of the block of a valid page. -/
theorem Accounts.valid_block (h : Accounts g held none st) {ppa : Ppa}
    (hppa : ppa ∈ linePages g.toSsdParams ppa.blk)
    (hvalid : st.status ppa = .valid) :
    0 < (st.blocks ppa.block).vpc ∧
      (st.blocks ppa.block).vpc + (st.blocks ppa.block).ipc ≤
        g.pgsPerBlk := by
  have hmem : ppa ∈ blockPages g.toSsdParams ppa.block :=
    mem_blockPages.mpr ⟨rfl, (mem_linePages.mp hppa).2.2.2.2⟩
  have htally := h.block_tally ppa.block
  have htotal := pageCount_total (blockPages g.toSsdParams ppa.block)
    st.status
  have hpos := pageCount_pos hmem st.status
  rw [card_blockPages] at htotal
  rw [hvalid] at hpos
  rw [htally.1, htally.2]
  omega

/-- An invalid page more and a valid one less behind a write pointer. -/
theorem PointerAt.invalidate {spp : SsdParams} {wp : WritePointer}
    {written : ℕ} {st' : ConvFtl} {ppa : Ppa}
    (h : PointerAt spp st wp written)
    (hstatus : st'.status = update st.status ppa .invalid)
    (hvalid : st.status ppa = .valid)
    (htally : (st'.lines wp.curline).vpc + (st'.lines wp.curline).ipc =
      (st.lines wp.curline).vpc + (st.lines wp.curline).ipc) :
    PointerAt spp st' wp written := by
  refine ⟨h.ch_lt, h.lun_lt, h.pg_lt, h.pl_eq, h.blk_eq, fun page hpage => ?_,
    htally.trans h.tally⟩
  rw [← h.free_iff page hpage, hstatus]
  by_cases heq : page = ppa
  · simp [heq, hvalid]
  · rw [update_of_ne heq]

/-- The accounts after a page of line `ppa.blk` became invalid: its counters
have moved by one, and the line may have changed from full to victim. -/
theorem Accounts.invalidate (h : Accounts g held none st) {ppa : Ppa}
    (hheld : ppa.blk ∉ held.toList)
    (hppa : ppa ∈ linePages g.toSsdParams ppa.blk)
    (hvalid : st.status ppa = .valid) {st' : ConvFtl}
    (hcounted : Recounted st st' ppa .invalid ((st.blocks ppa.block).vpc - 1)
      ((st.blocks ppa.block).ipc + 1)
      { st.lines ppa.blk with
        ipc := (st.lines ppa.blk).ipc + 1
        vpc := (st.lines ppa.blk).vpc - 1 })
    (hwp : ∀ io, st'.getWp io = st.getWp io)
    (hfree : st'.freeLineList = st.freeLineList)
    (hfreeCnt : st'.freeLineCnt = st.freeLineCnt)
    (hpq : st'.victimLinePq.Valid)
    (hfullCnt : st'.fullLineCnt = st'.fullLineList.length)
    (hvictimCnt : st'.victimLineCnt = st'.victimLinePq.size - 1)
    (hcount : ∀ index, st'.fullLineList.count index +
        min (st'.victimLinePq.pos index) 1 =
      st.fullLineList.count index + min (st.victimLinePq.pos index) 1)
    (hfull : ∀ index ∈ st'.fullLineList,
      index ∈ st.fullLineList ∧ ppa.blk ≠ index)
    (hvictim : ∀ index, ppa.blk ≠ index → st'.victimLinePq.pos index ≠ 0 →
      st.victimLinePq.pos index ≠ 0)
    (hown : st'.victimLinePq.pos ppa.blk ≠ 0 →
      (st.lines ppa.blk).vpc + (st.lines ppa.blk).ipc = g.pgsPerLine) :
    Accounts g held none st' := by
  obtain ⟨hlineVpc, -⟩ := h.valid_line hheld hppa hvalid
  obtain ⟨hblockVpc, -⟩ := h.valid_block hppa hvalid
  exact {
    pq_valid := hpq
    slots_eq := fun index => by
      have hmove := hcount index
      have huser : st'.wp = st.wp := hwp .user
      have hgc : st'.gcWp = st.gcWp := hwp .gc
      rw [← h.slots_eq index]
      simp only [slots, hfree, huser, hgc]
      omega
    free_cnt := by rw [hfreeCnt, hfree]; exact h.free_cnt
    full_cnt := hfullCnt
    victim_cnt := hvictimCnt
    line_id := fun index => (hcounted.line_id index).trans (h.line_id index)
    nsecs_eq := fun addr i =>
      (hcounted.nsecs_eq addr i).trans (h.nsecs_eq addr i)
    npgs_eq := fun addr => (hcounted.npgs_eq addr).trans (h.npgs_eq addr)
    block_tally := hcounted.blockTally h.block_tally
      (mem_linePages.mp hppa).2.2.2.2 (by simp [hvalid]; omega)
      (by simp [hvalid])
    line_tally := fun index hindex =>
      hcounted.lineTally (h.line_tally index hindex) hppa
        (by simp [hvalid]; omega) (by simp [hvalid])
    free_pages := fun index hindex page hpage => by
      rw [hfree] at hindex
      have hold := h.free_pages index hindex page hpage
      have hne : page ≠ ppa := by
        rintro rfl
        rw [hvalid] at hold
        cases hold
      rw [hcounted.status_eq, update_of_ne hne]
      exact hold
    full_vpc := fun index hindex => by
      obtain ⟨hold, hne⟩ := hfull index hindex
      rw [hcounted.line_other hne]
      exact h.full_vpc index hold
    victim_pages := fun index hindex => by
      by_cases hline : ppa.blk = index
      · subst hline
        have hsum := hown hindex
        rw [hcounted.line_own]
        simp only
        omega
      · rw [hcounted.line_other hline]
        exact h.victim_pages index (hvictim index hline hindex)
    pointer_at := fun io => by
      have hpointer := h.pointer_at io
      rw [hwp io]
      by_cases hline : ppa.blk = (st.getWp io).curline
      · refine hpointer.invalidate hcounted.status_eq hvalid ?_
        rw [← hline, hcounted.line_own]
        simp only
        omega
      · exact hpointer.other hcounted.status_eq hline
          (hcounted.line_other hline) }

/-- A line with only valid pages is on the full list and nowhere else. -/
theorem Accounts.full_line (h : Accounts g held none st) {line : ℕ}
    (hline : line < g.ttLines) (hheld : line ∉ held.toList)
    (hvpc : 0 < (st.lines line).vpc)
    (hipc : (st.lines line).ipc = 0)
    (hfull : (st.lines line).vpc = g.pgsPerLine) :
    st.victimLinePq.pos line = 0 ∧ line ∉ st.freeLineList ∧
      st.fullLineList.count line = 1 := by
  have hpos : st.victimLinePq.pos line = 0 := by
    by_contra hpos
    have hpages := h.victim_pages line hpos
    omega
  have hcur : ∀ io, (st.getWp io).curline ≠ line := by
    intro io heq
    have htally := (h.pointer_at io).tally
    have hindex := (h.pointer_at io).index_lt
    simp only [reduceCtorEq, if_false, heq] at htally
    omega
  refine ⟨hpos, fun hmem => ?_, h.full_of_vpc hline hheld hpos hcur hvpc⟩
  have htally := (h.free_line_tally hmem).1
  omega

/-- `lowerVpc` changes the counter and, at most, the order of the queue. -/
theorem lowerVpc_spec (hvalid : st.victimLinePq.Valid) (index : ℕ) :
    ∃ pq : Pqueue ℕ, pq.Valid ∧ pq.size = st.victimLinePq.size ∧
      (∀ line, pq.pos line ≠ 0 ↔ st.victimLinePq.pos line ≠ 0) ∧
      lowerVpc st index = { st with
        victimLinePq := pq
        lines := update st.lines index { st.lines index with
          vpc := (st.lines index).vpc - 1 } } := by
  by_cases hpos : st.victimLinePq.pos index ≠ 0
  · obtain ⟨hpq, hsize, hiff⟩ := pqueueChangePriority_spec hvalid
      ((st.lines index).vpc - 1) hpos
    exact ⟨_, hpq, hsize, hiff, by rw [lowerVpc, if_pos hpos]; rfl⟩
  · exact ⟨st.victimLinePq, hvalid, rfl, fun _ => Iff.rfl,
      by rw [lowerVpc, if_neg hpos]; rfl⟩

/-- `fullToVictim` on a line that is full and nowhere else. -/
theorem fullToVictim_spec (hvalid : st.victimLinePq.Valid) {index : ℕ}
    (hfree : index ∉ st.freeLineList) (hpos : st.victimLinePq.pos index = 0) :
    ∃ pq : Pqueue ℕ, pq.Valid ∧ pq.size - 1 = st.victimLinePq.size - 1 + 1 ∧
      (∀ line, pq.pos line ≠ 0 ↔ line = index ∨
        st.victimLinePq.pos line ≠ 0) ∧
      fullToVictim st index = { st with
        victimLinePq := pq
        fullLineList := st.fullLineList.erase index
        fullLineCnt := st.fullLineCnt - 1
        victimLineCnt := st.victimLineCnt + 1 } := by
  have herase := List.erase_of_not_mem hfree
  let removed : ConvFtl :=
    { st.listDelInit index with fullLineCnt := st.fullLineCnt - 1 }
  obtain ⟨hpq, hsize, hiff⟩ := pqueueInsert_spec
    (show removed.victimLinePq.Valid from hvalid) hpos
  refine ⟨_, hpq, hsize, hiff, ?_⟩
  simp only [fullToVictim, ConvFtl.listDelInit, pqueueInsert, herase]
  rfl

/-- The page is invalid for its block, and its line has an invalid page more. -/
def ConvFtl.raiseIpc (st : ConvFtl) (ppa : Ppa) : ConvFtl :=
  (st.setPage ppa .invalid ((st.blocks ppa.block).vpc - 1)
    ((st.blocks ppa.block).ipc + 1)).setLine ppa.blk
      { st.lines ppa.blk with ipc := (st.lines ppa.blk).ipc + 1 }

/-- The line has a valid page less as well, and `pq` is the victim queue. -/
def ConvFtl.invalidated (st : ConvFtl) (ppa : Ppa) (pq : Pqueue ℕ) :
    ConvFtl :=
  { st.raiseIpc ppa with
    victimLinePq := pq
    lines := update st.lines ppa.blk
      { st.lines ppa.blk with
        ipc := (st.lines ppa.blk).ipc + 1
        vpc := (st.lines ppa.blk).vpc - 1 } }

theorem recounted_invalidated (st : ConvFtl) (ppa : Ppa) (pq : Pqueue ℕ) :
    Recounted st (st.invalidated ppa pq) ppa .invalid
      ((st.blocks ppa.block).vpc - 1) ((st.blocks ppa.block).ipc + 1)
      { st.lines ppa.blk with
        ipc := (st.lines ppa.blk).ipc + 1
        vpc := (st.lines ppa.blk).vpc - 1 } :=
  ⟨rfl, rfl, rfl⟩

theorem restated_invalidated (st : ConvFtl) (ppa : Ppa) (pq : Pqueue ℕ) :
    Restated st (st.invalidated ppa pq) ppa .invalid :=
  ⟨status_setPage .., rfl, rfl, rfl, rfl, rfl, rfl, rfl⟩

theorem lowerVpc_raiseIpc (hvalid : st.victimLinePq.Valid) (ppa : Ppa) :
    ∃ pq : Pqueue ℕ, pq.Valid ∧ pq.size = st.victimLinePq.size ∧
      (∀ line, pq.pos line ≠ 0 ↔ st.victimLinePq.pos line ≠ 0) ∧
      lowerVpc (st.raiseIpc ppa) ppa.blk = st.invalidated ppa pq := by
  have hown : (st.raiseIpc ppa).lines ppa.blk = { st.lines ppa.blk with
      ipc := (st.lines ppa.blk).ipc + 1 } := update_self ..
  obtain ⟨pq, hpq, hsize, hpos, hlower⟩ := lowerVpc_spec
    (show (st.raiseIpc ppa).victimLinePq.Valid from hvalid) ppa.blk
  refine ⟨pq, hpq, hsize, hpos, ?_⟩
  have hlines : update (st.raiseIpc ppa).lines ppa.blk
      { (st.raiseIpc ppa).lines ppa.blk with
        vpc := ((st.raiseIpc ppa).lines ppa.blk).vpc - 1 } =
      (st.invalidated ppa pq).lines := by
    rw [hown]
    exact update_idem ..
  rw [hlower, hlines]
  rfl

/-- None of the assertions on a valid page fails. -/
theorem markPageInvalid_eq (h : Accounts g held none st) {ppa : Ppa}
    (hheld : ppa.blk ∉ held.toList)
    (hppa : ppa ∈ linePages g.toSsdParams ppa.blk)
    (hvalid : st.status ppa = .valid) :
    markPageInvalid g.toSsdParams st ppa = .ok
      (if (st.lines ppa.blk).vpc = g.pgsPerLine then
        fullToVictim (lowerVpc (st.raiseIpc ppa) ppa.blk) ppa.blk
      else lowerVpc (st.raiseIpc ppa) ppa.blk) := by
  obtain ⟨hvpc, hsum⟩ := h.valid_line hheld hppa hvalid
  obtain ⟨hblockVpc, hblockSum⟩ := h.valid_block hppa hvalid
  set marked := st.setPage ppa .invalid ((st.blocks ppa.block).vpc - 1)
    ((st.blocks ppa.block).ipc + 1) with hmarked
  have hblock : invalidateInBlock g.toSsdParams st ppa = .ok marked := by
    simp only [invalidateInBlock, nvmevAssert]
    rw [require_bind hvalid, require_bind (by omega), require_bind (by omega)]
    rfl
  have hline : markPageInvalid g.toSsdParams st ppa =
      invalidateInLine g.toSsdParams marked ppa.blk := by
    rw [markPageInvalid, hblock]
    rfl
  rw [hline]
  simp only [invalidateInLine, nvmevAssert]
  rw [require_bind (by change (st.lines ppa.blk).ipc < _; omega),
    require_bind (by change (st.lines ppa.blk).vpc = _ →
      (st.lines ppa.blk).ipc = 0; omega),
    require_bind (by change 0 < (st.lines ppa.blk).vpc ∧
      (st.lines ppa.blk).vpc ≤ _; omega)]
  rfl

section Invalidated

variable (h : Accounts g held none st) {ppa : Ppa} {pq : Pqueue ℕ}
  (hheld : ppa.blk ∉ held.toList)
  (hppa : ppa ∈ linePages g.toSsdParams ppa.blk)
  (hvalid : st.status ppa = .valid) (hpq : pq.Valid)
  (hsize : pq.size = st.victimLinePq.size)
  (hpos : ∀ line, pq.pos line ≠ 0 ↔ st.victimLinePq.pos line ≠ 0)
include h hheld hppa hvalid hpq hsize hpos

/-- A line that is not full stays where it is. -/
theorem Accounts.invalidated (hfull : (st.lines ppa.blk).vpc ≠ g.pgsPerLine) :
    Accounts g held none (st.invalidated ppa pq) := by
  refine h.invalidate hheld hppa hvalid (recounted_invalidated st ppa pq)
    (fun io => by cases io <;> rfl) rfl rfl hpq h.full_cnt ?_
    (fun index => ?_) (fun index hindex => ⟨hindex, ?_⟩)
    (fun index _ hindex => (hpos index).mp hindex)
    (fun hindex => (h.victim_pages _ ((hpos _).mp hindex)).1)
  · change st.victimLineCnt = pq.size - 1
    rw [hsize]
    exact h.victim_cnt
  · have hiff := hpos index
    have hmin : min (pq.pos index) 1 = min (st.victimLinePq.pos index) 1 := by
      omega
    exact congrArg (st.fullLineList.count index + ·) hmin
  · rintro rfl
    exact hfull (h.full_vpc _ hindex)

/-- A full line becomes a victim. -/
theorem Accounts.invalidated_full (hline : ppa.blk < g.ttLines)
    (hfull : (st.lines ppa.blk).vpc = g.pgsPerLine) :
    Accounts g held none (fullToVictim (st.invalidated ppa pq) ppa.blk) ∧
      Restated st (fullToVictim (st.invalidated ppa pq) ppa.blk) ppa
        .invalid := by
  obtain ⟨hvpc, hsum⟩ := h.valid_line hheld hppa hvalid
  obtain ⟨hunqueued, hnotFree, hcount⟩ :=
    h.full_line hline hheld hvpc (by omega) hfull
  have hlow : (st.invalidated ppa pq).victimLinePq.pos ppa.blk = 0 :=
    not_not.mp fun hne => (hpos ppa.blk).mp hne hunqueued
  obtain ⟨pq', hpq', hsize', hpos', hmoved⟩ := fullToVictim_spec
    (show (st.invalidated ppa pq).victimLinePq.Valid from hpq) hnotFree hlow
  have hiff : ∀ index, pq'.pos index ≠ 0 ↔ index = ppa.blk ∨
      st.victimLinePq.pos index ≠ 0 := by
    intro index
    rw [hpos' index]
    exact or_congr_right (hpos index)
  rw [hmoved]
  refine ⟨h.invalidate hheld hppa hvalid ⟨rfl, rfl, rfl⟩
    (fun io => by cases io <;> rfl) rfl rfl hpq' ?_ ?_ ?_ ?_ ?_
    (fun _ => by omega),
    ⟨status_setPage .., rfl, rfl, rfl, rfl, rfl, rfl, rfl⟩⟩
  · have hmem : ppa.blk ∈ st.fullLineList :=
      List.count_pos_iff.mp (by omega)
    change st.fullLineCnt - 1 = (st.fullLineList.erase ppa.blk).length
    rw [List.length_erase_of_mem hmem, h.full_cnt]
  · change st.victimLineCnt + 1 = pq'.size - 1
    rw [hsize', h.victim_cnt]
    exact congrArg (· - 1 + 1) hsize.symm
  · intro index
    have hiffIndex := hiff index
    change (st.fullLineList.erase ppa.blk).count index +
      min (pq'.pos index) 1 = _
    by_cases hindex : index = ppa.blk
    · subst hindex
      rw [List.count_erase_self]
      omega
    · rw [List.count_erase_of_ne hindex]
      omega
  · intro index hindex
    have hindex' : index ∈ st.fullLineList.erase ppa.blk := hindex
    refine ⟨List.mem_of_mem_erase hindex', ?_⟩
    rintro rfl
    have hcount' := List.count_pos_iff.mpr hindex'
    rw [List.count_erase_self] at hcount'
    omega
  · intro index hne hindex
    exact ((hiff index).mp hindex).resolve_left fun heq => hne heq.symm

end Invalidated

/-- `mark_page_invalid` on a valid page. -/
theorem markPageInvalid_accounts (h : Accounts g held none st) {ppa : Ppa}
    (hline : ppa.blk < g.ttLines) (hheld : ppa.blk ∉ held.toList)
    (hppa : ppa ∈ linePages g.toSsdParams ppa.blk)
    (hvalid : st.status ppa = .valid) :
    ∃ st', markPageInvalid g.toSsdParams st ppa = .ok st' ∧
      Accounts g held none st' ∧ Restated st st' ppa .invalid := by
  obtain ⟨pq, hpq, hsize, hpos, hlower⟩ := lowerVpc_raiseIpc h.pq_valid ppa
  refine ⟨_, markPageInvalid_eq h hheld hppa hvalid, ?_⟩
  rw [hlower]
  by_cases hfull : (st.lines ppa.blk).vpc = g.pgsPerLine
  · rw [if_pos hfull]
    exact h.invalidated_full hheld hppa hvalid hpq hsize hpos hline hfull
  · rw [if_neg hfull]
    exact ⟨h.invalidated hheld hppa hvalid hpq hsize hpos hfull,
      restated_invalidated st ppa pq⟩

end NvmeVirt.Ftl
