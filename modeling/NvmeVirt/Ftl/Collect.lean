import NvmeVirt.Ftl.Mapping

/-!
# Garbage collection

`do_gc` takes a victim line out of the queue, moves its valid pages one by one,
erases its blocks and returns the line to the free list.  `Collecting` is the
invariant of its loops: which pages have been moved, which blocks erased, and
how many free pages are left.
-/

namespace NvmeVirt.Ftl

open Function NvmeVirt.Outcome

variable {g : Geometry} {st st' st₀ : ConvFtl} {victim : ℕ}

/-! ## The loops over a larger state -/

/-- A state that carries an FTL, with a page copy and a block erase that do to
the FTL what the code does.  `read` is told of a flash page before its valid
pages are copied, and how many there are. -/
structure Carrier (spp : SsdParams) (σ : Type) where
  ftl : σ → ConvFtl
  withFtl : σ → ConvFtl → σ
  read : σ → Ppa → ℕ → σ
  copy : σ → Ppa → Except Fault σ
  erase : σ → BlockAddr → Except Fault σ
  ftl_withFtl : ∀ s st, ftl (withFtl s st) = st
  ftl_read : ∀ s ppa cnt, ftl (read s ppa cnt) = ftl s
  copy_ftl : ∀ s ppa, ftl <$> copy s ppa = gcWritePage spp (ftl s) ppa
  erase_ftl : ∀ s addr, ftl <$> erase s addr = markBlockFree spp (ftl s) addr

namespace Carrier

variable {spp : SsdParams} {σ : Type}

/-- The FTL and nothing else. -/
def plain (spp : SsdParams) : Carrier spp ConvFtl where
  ftl := id
  withFtl := fun _ st => st
  read := fun st _ _ => st
  copy := gcWritePage spp
  erase := markBlockFree spp
  ftl_withFtl := fun _ _ => rfl
  ftl_read := fun _ _ _ => rfl
  copy_ftl := fun _ _ => id_map _
  erase_ftl := fun _ _ => id_map _

variable (c : Carrier spp σ)

/-- `clean_one_flashpg`. -/
def cleanOneFlashpg (s : σ) (ppa : Ppa) : Except Fault σ := do
  let pages := (List.range spp.pgsPerFlashpg).map fun i =>
    { ppa with pg := (ppa.pg + i) % 2 ^ 16 }
  pages.forM fun page => nvmevAssert ((c.ftl s).status page ≠ .free)
  let cnt := pages.countP fun page => (c.ftl s).status page = .valid
  if cnt = 0 then return s
  pages.foldlM (fun s page =>
    if (c.ftl s).status page = .valid then c.copy s page else .ok s)
    (c.read s ppa cnt)

/-- Loop body of `do_gc`. -/
def gcBody (victim : ℕ) (s : σ) (visit : ℕ × ℕ × ℕ) : Except Fault σ := do
  let (flashpg, ch, lun) := visit
  let ppa := Ppa.pack ch lun 0 victim (flashpg * spp.pgsPerFlashpg)
  let s ← c.cleanOneFlashpg s ppa
  if flashpg = spp.flashpgsPerBlk - 1 then c.erase s ppa.block else return s

/-- `do_gc`. -/
def doGc (s : σ) (force : Bool) : Except Fault (Bool × σ) :=
  match selectVictimLine spp (c.ftl s) force with
  | none => .ok (false, s)
  | some (victimLine, st) => do
      let victim := (st.lines victimLine).id
      let s := c.withFtl s
        { st with creditsToRefill := (st.lines victimLine).ipc }
      let s ← (gcOrder spp).foldlM (c.gcBody victim) s
      return (true, c.withFtl s (markLineFree (c.ftl s) (victim % 2 ^ 16)))

theorem plain_doGc : (plain spp).doGc = Ftl.doGc spp := rfl

theorem ftl_cleanOneFlashpg (s : σ) (ppa : Ppa) :
    c.ftl <$> c.cleanOneFlashpg s ppa =
      Ftl.cleanOneFlashpg spp (c.ftl s) ppa := by
  have hcopies : ∀ (pages : List Ppa) s, c.ftl <$> pages.foldlM (fun s page =>
      if (c.ftl s).status page = .valid then c.copy s page else .ok s) s =
      pages.foldlM (fun st page =>
        if st.status page = .valid then gcWritePage spp st page
        else .ok st) (c.ftl s) := by
    intro pages s
    apply foldlM_map
    intro s page
    split
    · exact c.copy_ftl s page
    · rfl
  simp only [cleanOneFlashpg, Ftl.cleanOneFlashpg, map_bind]
  refine congrArg _ (funext fun _ => ?_)
  split
  · rfl
  · rw [hcopies, c.ftl_read]

theorem ftl_gcBody (victim : ℕ) (s : σ) (visit : ℕ × ℕ × ℕ) :
    c.ftl <$> c.gcBody victim s visit =
      Ftl.gcBody spp victim (c.ftl s) visit := by
  simp only [gcBody, Ftl.gcBody, map_bind, ← ftl_cleanOneFlashpg,
    bind_map_left]
  refine congrArg _ (funext fun s' => ?_)
  split
  · exact c.erase_ftl s' _
  · rfl

/-- Apart from what it carries, a collection is `do_gc`. -/
theorem ftl_doGc (s : σ) (force : Bool) :
    Prod.map id c.ftl <$> c.doGc s force = Ftl.doGc spp (c.ftl s) force := by
  unfold doGc Ftl.doGc
  cases selectVictimLine spp (c.ftl s) force with
  | none => rfl
  | some selected =>
      obtain ⟨victimLine, st⟩ := selected
      simp only [map_bind, map_pure, Prod.map, id_eq, c.ftl_withFtl]
      have hloop := foldlM_map (c.ftl_gcBody (st.lines victimLine).id)
        (gcOrder spp) (c.withFtl s
          { st with creditsToRefill := (st.lines victimLine).ipc })
      rw [c.ftl_withFtl] at hloop
      rw [← hloop, bind_map_left]

end Carrier

/-! ## The victim -/

/-- Pages of the line that still have to be moved. -/
def toMove (g : Geometry) (victim : ℕ) (status : Ppa → PageStatus)
    (moved : Finset Ppa) : Finset Ppa :=
  (linePages g.toSsdParams victim).filter
    (fun ppa => status ppa = .valid ∧ ppa ∉ moved)

/-- State of the collection of `victim`, begun in state `st₀`. -/
structure Collecting (g : Geometry) (victim : ℕ) (st₀ : ConvFtl)
    (moved : Finset Ppa) (erased : Finset BlockAddr) (st : ConvFtl) : Prop where
  accounts : Accounts g (some victim) none st
  mapped : Mapped g (· ∈ moved) (fun _ => False) st
  moved_sub : moved ⊆ linePages g.toSsdParams victim
  live : ∀ ppa ∈ linePages g.toSsdParams victim,
    ppa.block ∉ erased → st.status ppa ≠ .free
  clean : ∀ ppa ∈ linePages g.toSsdParams victim,
    ppa.block ∈ erased → st.status ppa = .free
  domain : ∀ lpn, (st.maptbl lpn).isSome = (st₀.maptbl lpn).isSome
  budget : freePages g st + (st₀.lines victim).vpc =
    freePages g st₀ + (toMove g victim st.status moved).card
  writeCredits_eq : st.writeCredits = st₀.writeCredits
  creditsToRefill_eq : st.creditsToRefill = st₀.creditsToRefill

theorem Collecting.victim_lt {moved : Finset Ppa} {erased : Finset BlockAddr}
    (h : Collecting g victim st₀ moved erased st) : victim < g.ttLines := by
  apply h.accounts.lt_of_slots
  simp only [slots, Option.toList_some, List.count_singleton_self]
  omega

/-- Taking the head of the queue. -/
theorem pqueuePop_spec (hvalid : st.victimLinePq.Valid)
    (hsize : st.victimLinePq.size ≠ 1) :
    (pqueuePop st (st.victimLinePq.d 1)).victimLinePq.Valid ∧
      (pqueuePop st (st.victimLinePq.d 1)).victimLinePq.size =
        st.victimLinePq.size - 1 ∧
      st.victimLinePq.pos (st.victimLinePq.d 1) ≠ 0 ∧
      ∀ index, (pqueuePop st (st.victimLinePq.d 1)).victimLinePq.pos index ≠ 0
        ↔ index ≠ st.victimLinePq.d 1 ∧ st.victimLinePq.pos index ≠ 0 :=
  Pqueue.pop_settled victimLineCmpPri (victimLinePri st) hvalid hsize

/-- A line that leaves the queue is held. -/
theorem Accounts.pop (h : Accounts g none none st)
    (hsize : st.victimLinePq.size ≠ 1) :
    Accounts g (some (st.victimLinePq.d 1)) none
      { pqueuePop st (st.victimLinePq.d 1) with
        victimLineCnt := st.victimLineCnt - 1 } := by
  obtain ⟨hpq, hpqSize, hpos, hiff⟩ := pqueuePop_spec h.pq_valid hsize
  set victim := st.victimLinePq.d 1
  set popped : ConvFtl := { pqueuePop st victim with
    victimLineCnt := st.victimLineCnt - 1 }
  have hplace : ∀ line, min (popped.victimLinePq.pos line) 1 +
      [victim].count line = min (st.victimLinePq.pos line) 1 := by
    intro line
    have hline : popped.victimLinePq.pos line ≠ 0 ↔
        line ≠ victim ∧ st.victimLinePq.pos line ≠ 0 := hiff line
    by_cases heq : line = victim
    · have hzero : popped.victimLinePq.pos line = 0 := by
        by_contra hne
        exact (hline.mp hne).1 heq
      rw [heq] at hzero ⊢
      rw [hzero, List.count_singleton_self]
      omega
    · have hzero : [victim].count line = 0 := by simp [Ne.symm heq]
      have hsame : popped.victimLinePq.pos line ≠ 0 ↔
          st.victimLinePq.pos line ≠ 0 := hline.trans (and_iff_right heq)
      omega
  exact {
    pq_valid := hpq
    slots_eq := fun line => by
      have hline := hplace line
      rw [← h.slots_eq line]
      change st.freeLineList.count line + st.fullLineList.count line +
        min (popped.victimLinePq.pos line) 1 + [st.wp.curline].count line +
        [st.gcWp.curline].count line + [victim].count line = _
      simp only [slots, Option.toList_none, List.count_nil]
      omega
    free_cnt := h.free_cnt
    full_cnt := h.full_cnt
    victim_cnt := by
      change st.victimLineCnt - 1 = _ - 1
      rw [h.victim_cnt]
      exact congrArg (· - 1) hpqSize.symm
    line_id := h.line_id
    nsecs_eq := h.nsecs_eq
    npgs_eq := h.npgs_eq
    block_tally := h.block_tally
    line_tally := fun line _ => h.line_tally line (by simp)
    free_pages := h.free_pages
    full_vpc := h.full_vpc
    victim_pages := fun line hline =>
      h.victim_pages line ((hiff line).mp hline).2
    pointer_at := fun io => by
      have hpointer := h.pointer_at io
      cases io <;> exact hpointer.congr (fun _ _ => rfl) rfl }

/-- `select_victim_line` finds no line, or takes one out of the queue. -/
theorem selectVictimLine_spec (h : Accounts g none none st) (force : Bool) :
    (selectVictimLine g.toSsdParams st force = none ∧
      (force = true → ∀ line, st.victimLinePq.pos line = 0)) ∨
    ∃ victim st', selectVictimLine g.toSsdParams st force =
        some (victim, st') ∧
      st.victimLinePq.pos victim ≠ 0 ∧
      Accounts g (some victim) none st' ∧ SamePages st st' ∧
      st'.lines = st.lines ∧ freePages g st' = freePages g st := by
  by_cases hsize : st.victimLinePq.size = 1
  · left
    refine ⟨by simp [selectVictimLine, Pqueue.peek, hsize], fun _ line => ?_⟩
    by_contra hpos
    have hlt := (h.pq_valid.d_pos line id hpos).1
    omega
  · have hselect : selectVictimLine g.toSsdParams st force =
        if !force && g.pgsPerLine / 8 < (st.lines (st.victimLinePq.d 1)).vpc
        then none
        else some (st.victimLinePq.d 1, {
          pqueuePop st (st.victimLinePq.d 1) with
          victimLineCnt := st.victimLineCnt - 1 }) := by
      simp only [selectVictimLine, Pqueue.peek, if_neg hsize]
      rfl
    by_cases hlazy : (!force && g.pgsPerLine / 8 <
        (st.lines (st.victimLinePq.d 1)).vpc) = true
    · left
      rw [hselect, if_pos hlazy]
      refine ⟨rfl, fun hforce => ?_⟩
      simp [hforce] at hlazy
    · right
      exact ⟨_, _, by rw [hselect, if_neg hlazy],
        (pqueuePop_spec h.pq_valid hsize).2.2.1, h.pop hsize,
        ⟨rfl, rfl, rfl, rfl, rfl⟩, rfl, rfl⟩

/-! ## Moving a page -/

section Moving

variable {moved : Finset Ppa} {erased : Finset BlockAddr}

/-- The pages of the victim are not under a write pointer. -/
theorem Collecting.page_other (h : Collecting g victim st₀ moved erased st)
    {ppa : Ppa} (hppa : ppa ∈ linePages g.toSsdParams victim) (io : IoType) :
    ppa ≠ (st.getWp io).page := by
  rintro rfl
  have hblk := (mem_linePages.mp hppa).2.2.2.1
  have hheld := (h.accounts.pointer_alone io).2.2.2.2
  rw [show (st.getWp io).curline = victim from hblk] at hheld
  simp at hheld

/-- A page that is not valid needs no move. -/
theorem Collecting.skip (h : Collecting g victim st₀ moved erased st)
    {ppa : Ppa} (hppa : ppa ∈ linePages g.toSsdParams victim)
    (hstatus : st.status ppa ≠ .valid) :
    Collecting g victim st₀ (insert ppa moved) erased st := by
  have hsame : toMove g victim st.status (insert ppa moved) =
      toMove g victim st.status moved := by
    apply Finset.filter_congr
    intro page _
    rw [Finset.mem_insert]
    constructor
    · exact fun hpage => ⟨hpage.1, fun hmem => hpage.2 (Or.inr hmem)⟩
    · rintro ⟨hvalid, hmem⟩
      refine ⟨hvalid, ?_⟩
      rintro (rfl | hmem')
      · exact hstatus hvalid
      · exact hmem hmem'
  refine ⟨h.accounts, ⟨?_, ?_⟩, Finset.insert_subset hppa h.moved_sub, h.live,
    h.clean, h.domain, hsame ▸ h.budget, h.writeCredits_eq,
    h.creditsToRefill_eq⟩
  · intro lpn page hmap hskip
    obtain ⟨hlt, hpage, hpageStatus, hstale, hback⟩ :=
      h.mapped.forward lpn page hmap hskip
    refine ⟨hlt, hpage, hpageStatus, ?_, hback⟩
    rw [Finset.mem_insert]
    rintro (rfl | hmem)
    · exact hstatus hpageStatus
    · exact hstale hmem
  · intro page hpage hpageStatus hstale
    exact h.mapped.backward page hpage hpageStatus
      (fun hmem => hstale (Finset.mem_insert_of_mem hmem))

theorem Collecting.skips (h : Collecting g victim st₀ moved erased st)
    {pages : List Ppa} (hpages : ∀ ppa ∈ pages,
      ppa ∈ linePages g.toSsdParams victim)
    (hstatus : ∀ ppa ∈ pages, st.status ppa ≠ .valid) :
    Collecting g victim st₀ (moved ∪ pages.toFinset) erased st := by
  induction pages with
  | nil => simpa using h
  | cons head tail ih =>
      have htail := ih (fun ppa hppa => hpages ppa (List.mem_cons_of_mem _ hppa))
        (fun ppa hppa => hstatus ppa (List.mem_cons_of_mem _ hppa))
      rw [List.toFinset_cons, Finset.union_insert]
      exact htail.skip (hpages head List.mem_cons_self)
        (hstatus head List.mem_cons_self)

/-- `gc_write_page` moves the data of a valid page. -/
theorem gcWritePage_collecting (h : Collecting g victim st₀ moved erased st)
    {ppa : Ppa} (hppa : ppa ∈ linePages g.toSsdParams victim)
    (hstatus : st.status ppa = .valid) (hmoved : ppa ∉ moved) :
    Ends (Collecting g victim st₀ (insert ppa moved) erased)
      (fun e => e = .nullLine ∧ freePages g st ≤ g.pgsPerLine + 1)
      (gcWritePage g.toSsdParams st ppa) := by
  have hvalid := validPpa_of_mem h.victim_lt hppa
  obtain ⟨lpn, hrmap, hmaptbl⟩ :=
    h.mapped.backward ppa hvalid hstatus hmoved
  have hlpn := (h.mapped.forward lpn ppa hmaptbl id).1
  have hwrite : gcWritePage g.toSsdParams st ppa =
      mapNewPage g.toSsdParams st .gc lpn := by
    simp only [gcWritePage, getRmapEnt, nvmevAssert, bind_assoc]
    rw [require_bind (ppa2pgidx_lt hvalid), hrmap]
    exact require_bind hlpn _
  rw [hwrite]
  refine (mapNewPage_accounts h.accounts .gc hlpn).mono ?_ (fun _ => id)
  rintro st' ⟨haccounts, hprogrammed⟩
  set page := (st.getWp .gc).page with hpage
  have hother : ∀ other ∈ linePages g.toSsdParams victim,
      st'.status other = st.status other := by
    intro other hmem
    rw [hprogrammed.status_eq, update_of_ne (h.page_other hmem .gc)]
  have hnotVictim : page ∉ insert ppa moved := by
    intro hmem
    rcases Finset.mem_insert.mp hmem with heq | hmem
    · exact h.page_other hppa .gc heq.symm
    · exact h.page_other (h.moved_sub hmem) .gc rfl
  refine ⟨haccounts, ?_, Finset.insert_subset hppa h.moved_sub, ?_, ?_, ?_, ?_,
    ?_, ?_⟩
  · refine h.mapped.program hlpn (h.accounts.page_valid .gc)
      (h.accounts.page_free .gc) (fun _ => False.elim) hprogrammed.status_eq
      hprogrammed.maptbl_eq hprogrammed.rmap_eq
      (fun _ => Finset.mem_insert_of_mem) hnotVictim ?_ ?_
    · intro other hmap _
      rw [hmaptbl] at hmap
      rw [Option.some.inj hmap]
      exact Finset.mem_insert_self _ _
    · intro lpn' other hne hmap hmem
      rcases Finset.mem_insert.mp hmem with rfl | hmem
      · exact absurd (h.mapped.injective hmap hmaptbl id id) hne
      · exact hmem
  · intro other hmem hlive
    rw [hother other hmem]
    exact h.live other hmem hlive
  · intro other hmem hclean
    rw [hother other hmem]
    exact h.clean other hmem hclean
  · intro lpn'
    rw [← h.domain lpn', hprogrammed.maptbl_eq]
    by_cases heq : lpn' = lpn
    · rw [heq, update_self, hmaptbl]
      rfl
    · rw [update_of_ne heq]
  · have herase : toMove g victim st'.status (insert ppa moved) =
        (toMove g victim st.status moved).erase ppa := by
      ext other
      simp only [toMove, Finset.mem_filter, Finset.mem_erase,
        Finset.mem_insert, not_or]
      constructor
      · rintro ⟨hmem, hvalid, hne, hnot⟩
        rw [hother other hmem] at hvalid
        exact ⟨hne, hmem, hvalid, hnot⟩
      · rintro ⟨hne, hmem, hvalid, hnot⟩
        rw [hother other hmem]
        exact ⟨hmem, hvalid, hne, hnot⟩
    have hmem : ppa ∈ toMove g victim st.status moved :=
      Finset.mem_filter.mpr ⟨hppa, hstatus, hmoved⟩
    have hcard := Finset.card_erase_add_one hmem
    have hbudget := h.budget
    have hpages := hprogrammed.freePages_eq
    rw [herase]
    omega
  · rw [hprogrammed.writeCredits_eq, h.writeCredits_eq]
  · rw [hprogrammed.creditsToRefill_eq, h.creditsToRefill_eq]

/-! ## Cleaning a flash page -/

/-- The pages of flash page `flashpg` of a block of the victim line. -/
def flashPages (spp : SsdParams) (victim : ℕ) (visit : ℕ × ℕ × ℕ) : List Ppa :=
  (List.range spp.pgsPerFlashpg).map fun i =>
    ⟨visit.2.1, visit.2.2, 0, victim, visit.1 * spp.pgsPerFlashpg + i⟩

theorem mem_flashPages {visit : ℕ × ℕ × ℕ} {ppa : Ppa} :
    ppa ∈ flashPages g.toSsdParams victim visit ↔
      ppa.pl = 0 ∧ ppa.blk = victim ∧
        (ppa.pg / g.pgsPerFlashpg, ppa.ch, ppa.lun) = visit := by
  obtain ⟨flashpg, ch, lun⟩ := visit
  simp only [flashPages, List.mem_map, List.mem_range, Prod.mk.injEq]
  have hpos := g.pgsPerFlashpg_pos
  constructor
  · rintro ⟨i, hi, rfl⟩
    refine ⟨rfl, rfl, ?_, rfl, rfl⟩
    rw [Nat.mul_comm, Nat.mul_add_div hpos, Nat.div_eq_of_lt hi, add_zero]
  · rintro ⟨hpl, hblk, hflash, hch, hlun⟩
    refine ⟨ppa.pg % g.pgsPerFlashpg, Nat.mod_lt _ hpos, ?_⟩
    rw [← hflash, Nat.div_add_mod']
    cases ppa
    simp_all

theorem nodup_flashPages (spp : SsdParams) (victim : ℕ)
    (visit : ℕ × ℕ × ℕ) : (flashPages spp victim visit).Nodup := by
  refine List.Nodup.map ?_ List.nodup_range
  intro i j heq
  simpa using heq

/-- A visit of `do_gc`. -/
theorem mem_gcOrder {visit : ℕ × ℕ × ℕ} :
    visit ∈ gcOrder g.toSsdParams ↔ visit.1 < g.flashpgsPerBlk ∧
      visit.2.1 < g.nchs ∧ visit.2.2 < g.lunsPerCh := by
  obtain ⟨flashpg, ch, lun⟩ := visit
  simp [gcOrder]

theorem flashPages_sub {visit : ℕ × ℕ × ℕ}
    (hvisit : visit ∈ gcOrder g.toSsdParams) {ppa : Ppa}
    (hppa : ppa ∈ flashPages g.toSsdParams victim visit) :
    ppa ∈ linePages g.toSsdParams victim := by
  obtain ⟨hpl, hblk, rfl⟩ := mem_flashPages.mp hppa
  obtain ⟨hflash, hch, hlun⟩ := mem_gcOrder.mp hvisit
  refine mem_linePages.mpr ⟨hch, hlun, hpl, hblk, ?_⟩
  rw [g.pgsPerBlk_flash, Nat.mul_comm]
  exact (Nat.div_lt_iff_lt_mul g.pgsPerFlashpg_pos).mp hflash

/-- The first page of a flash page of the victim line. -/
def flashStart (spp : SsdParams) (victim : ℕ) (visit : ℕ × ℕ × ℕ) : Ppa :=
  ⟨visit.2.1, visit.2.2, 0, victim, visit.1 * spp.pgsPerFlashpg⟩

theorem pack_flashStart (hvictim : victim < g.ttLines) {visit : ℕ × ℕ × ℕ}
    (hvisit : visit ∈ gcOrder g.toSsdParams) :
    Ppa.pack visit.2.1 visit.2.2 0 victim (visit.1 * g.pgsPerFlashpg) =
      flashStart g.toSsdParams victim visit := by
  obtain ⟨hflash, hch, hlun⟩ := mem_gcOrder.mp hvisit
  apply Ppa.pack_eq hch hlun hvictim
  rw [g.pgsPerBlk_flash, Nat.mul_comm]
  exact Nat.mul_lt_mul_of_pos_left hflash g.pgsPerFlashpg_pos

/-- What the steps of a collection keep; more may be known while the pages of a
flash page are copied. -/
structure Carrier.Keeps {σ : Type} (c : Carrier g.toSsdParams σ) (victim : ℕ)
    (st₀ : ConvFtl) (property : σ → Prop)
    (reading : ℕ × ℕ × ℕ → σ → Prop) : Prop where
  read : ∀ {moved erased s visit} cnt,
    Collecting g victim st₀ moved erased (c.ftl s) →
      visit ∈ gcOrder g.toSsdParams →
      (∀ ppa ∈ flashPages g.toSsdParams victim visit, ppa.block ∉ erased) →
      property s →
      reading visit (c.read s (flashStart g.toSsdParams victim visit) cnt)
  copy : ∀ {moved erased s s' visit ppa},
    Collecting g victim st₀ moved erased (c.ftl s) →
      visit ∈ gcOrder g.toSsdParams →
      ppa ∈ flashPages g.toSsdParams victim visit →
      (c.ftl s).status ppa = .valid → ppa ∉ moved → reading visit s →
      c.copy s ppa = .ok s' → reading visit s'
  finish : ∀ {s visit}, reading visit s → property s
  erase : ∀ {moved erased s s' addr},
    Collecting g victim st₀ moved erased (c.ftl s) → addr.blk = victim →
      (∀ ppa ∈ linePages g.toSsdParams victim, ppa.block = addr →
        ppa ∈ moved) →
      property s → c.erase s addr = .ok s' → property s'

/-- What collections keep. -/
structure Carrier.KeepsGc {σ : Type} (c : Carrier g.toSsdParams σ)
    (property : σ → Prop) (reading : ℕ → ℕ × ℕ × ℕ → σ → Prop) : Prop where
  select : ∀ {s force victim popped}, Accounts g none none (c.ftl s) →
    selectVictimLine g.toSsdParams (c.ftl s) force = some (victim, popped) →
      property s → property (c.withFtl s { popped with
        creditsToRefill := (popped.lines victim).ipc })
  loop : ∀ victim st₀, c.Keeps victim st₀ property (reading victim)
  finish : ∀ {s victim}, Accounts g (some victim) none (c.ftl s) →
    property s →
      property (c.withFtl s (markLineFree (c.ftl s) victim))

/-- The pages that `clean_one_flashpg` visits. -/
theorem cleaned_flashPages {visit : ℕ × ℕ × ℕ}
    (hvisit : visit ∈ gcOrder g.toSsdParams) :
    (List.range g.pgsPerFlashpg).map (fun i =>
      { flashStart g.toSsdParams victim visit with
        pg := ((flashStart g.toSsdParams victim visit).pg + i) % 2 ^ 16 }) =
      flashPages g.toSsdParams victim visit := by
  apply List.map_congr_left
  intro i hi
  have hpage : (⟨visit.2.1, visit.2.2, 0, victim,
      visit.1 * g.pgsPerFlashpg + i⟩ : Ppa) ∈
      flashPages g.toSsdParams victim visit :=
    List.mem_map.mpr ⟨i, hi, rfl⟩
  have hpg := (mem_linePages.mp (flashPages_sub hvisit hpage)).2.2.2.2
  have hbits := g.pgsPerBlk_le
  simp only at hpg
  simp only [flashStart, Ppa.mk.injEq, true_and]
  exact Nat.mod_eq_of_lt (by omega)

/-- The valid pages of a flash page are copied one by one. -/
theorem Carrier.copies_collecting {σ : Type} (c : Carrier g.toSsdParams σ)
    {property : σ → Prop} {reading : ℕ × ℕ × ℕ → σ → Prop}
    (hkeeps : c.Keeps victim st₀ property reading) {s : σ}
    (h : Collecting g victim st₀ moved erased (c.ftl s))
    {visit : ℕ × ℕ × ℕ} (hvisit : visit ∈ gcOrder g.toSsdParams)
    (hmoved : ∀ ppa ∈ flashPages g.toSsdParams victim visit, ppa ∉ moved)
    (hs : reading visit s) :
    Ends (fun s' => Collecting g victim st₀
        (moved ∪ (flashPages g.toSsdParams victim visit).toFinset) erased
        (c.ftl s') ∧ property s')
      (fun e => e = .nullLine ∧
        freePages g st₀ ≤ g.pgsPerLine + 1 + (st₀.lines victim).vpc)
      ((flashPages g.toSsdParams victim visit).foldlM (fun s page =>
        if (c.ftl s).status page = .valid then c.copy s page else .ok s)
        s) := by
  have hnodup := nodup_flashPages g.toSsdParams victim visit
  refine (Ends.foldlM (fun before s => Collecting g victim st₀
    (moved ∪ before.toFinset) erased (c.ftl s) ∧ reading visit s) _
    (flashPages g.toSsdParams victim visit) ?_ (by simpa using ⟨h, hs⟩)).mono
      (fun _ hend => ⟨hend.1, hkeeps.finish hend.2⟩) (fun _ => id)
  rintro before page after s hsplit ⟨hst, hs⟩
  have hpage : page ∈ flashPages g.toSsdParams victim visit := by
    simp [hsplit]
  have hline := flashPages_sub hvisit hpage
  have hnot : page ∉ moved ∪ before.toFinset := by
    rw [hsplit] at hnodup
    rw [Finset.mem_union, List.mem_toFinset]
    rintro (hmem | hmem)
    · exact hmoved page hpage hmem
    · exact List.disjoint_of_nodup_append hnodup hmem List.mem_cons_self
  have hgrow : moved ∪ (before ++ [page]).toFinset =
      insert page (moved ∪ before.toFinset) := by
    ext other
    simp only [Finset.mem_union, List.mem_toFinset, List.mem_append,
      List.mem_singleton, Finset.mem_insert]
    tauto
  rw [hgrow]
  split
  · rename_i hvalid
    have hcopy := gcWritePage_collecting hst hline hvalid hnot
    rw [← c.copy_ftl, Ends.map_iff] at hcopy
    refine (hcopy.and_of_ok fun s' hok _ => hkeeps.copy hst hvisit hpage
      hvalid hnot hs hok).mono (fun _ => id) ?_
    rintro e ⟨rfl, hlow⟩
    have hbudget := hst.budget
    exact ⟨rfl, by omega⟩
  · rename_i hvalid
    exact ⟨hst.skip hline hvalid, hs⟩

/-- `clean_one_flashpg` moves the valid pages of one flash page. -/
theorem Carrier.cleanOneFlashpg_collecting {σ : Type}
    (c : Carrier g.toSsdParams σ) {property : σ → Prop}
    {reading : ℕ × ℕ × ℕ → σ → Prop}
    (hkeeps : c.Keeps victim st₀ property reading) {s : σ}
    (h : Collecting g victim st₀ moved erased (c.ftl s)) (hs : property s)
    {visit : ℕ × ℕ × ℕ} (hvisit : visit ∈ gcOrder g.toSsdParams)
    (hmoved : ∀ ppa ∈ flashPages g.toSsdParams victim visit, ppa ∉ moved)
    (herased : ∀ ppa ∈ flashPages g.toSsdParams victim visit,
      ppa.block ∉ erased) :
    Ends (fun s' => Collecting g victim st₀
        (moved ∪ (flashPages g.toSsdParams victim visit).toFinset) erased
        (c.ftl s') ∧ property s')
      (fun e => e = .nullLine ∧
        freePages g st₀ ≤ g.pgsPerLine + 1 + (st₀.lines victim).vpc)
      (c.cleanOneFlashpg s
        (Ppa.pack visit.2.1 visit.2.2 0 victim
          (visit.1 * g.pgsPerFlashpg))) := by
  have hsub : ∀ ppa ∈ flashPages g.toSsdParams victim visit,
      ppa ∈ linePages g.toSsdParams victim :=
    fun ppa hppa => flashPages_sub hvisit hppa
  have hassert : ((flashPages g.toSsdParams victim visit).forM fun page =>
      nvmevAssert ((c.ftl s).status page ≠ .free)) = .ok () :=
    forM_require fun page hpage => h.live page (hsub page hpage)
      (herased page hpage)
  rw [pack_flashStart h.victim_lt hvisit]
  simp only [Carrier.cleanOneFlashpg]
  rw [cleaned_flashPages hvisit, hassert]
  simp only [bind, Except.bind]
  split
  · -- No valid page: the loop would leave the state alone.
    rename_i hcnt
    have hskip : ∀ page ∈ flashPages g.toSsdParams victim visit,
        (c.ftl s).status page ≠ .valid := by
      intro page hpage
      simpa using List.countP_eq_zero.mp hcnt page hpage
    exact ⟨h.skips hsub hskip, hs⟩
  · refine c.copies_collecting hkeeps ?_ hvisit hmoved
      (hkeeps.read _ h hvisit herased hs)
    rw [c.ftl_read]
    exact h

/-! ## Erasing a block -/

/-- What `mark_block_free` leaves of the block at `addr`. -/
structure Erased (g : Geometry) (st : ConvFtl) (addr : BlockAddr)
    (block : NandBlock) : Prop where
  vpc_eq : block.vpc = 0
  ipc_eq : block.ipc = 0
  npgs_eq : block.npgs = g.pgsPerBlk
  nsecs_eq : ∀ i, (block.pg i).nsecs = g.secsPerPg
  status_eq : ∀ i, (block.pg i).status =
    if i < g.pgsPerBlk then .free else ((st.blocks addr).pg i).status

/-- `mark_block_free` frees the pages of a block and changes nothing else. -/
theorem markBlockFree_spec {held : Option ℕ} (h : Accounts g held none st)
    (addr : BlockAddr) :
    ∃ block, markBlockFree g.toSsdParams st addr =
        .ok (st.setBlock addr block) ∧ Erased g st addr block := by
  have hloop : Ends (fun st' => ∃ pg : ℕ → NandPage,
      st' = st.setBlock addr { st.blocks addr with pg } ∧
      (∀ i, (pg i).nsecs = g.secsPerPg) ∧
      ∀ i, (pg i).status = if i ∈ List.range g.pgsPerBlk then .free
        else ((st.blocks addr).pg i).status) (fun _ => False)
      ((List.range g.pgsPerBlk).foldlM (resetPage g.toSsdParams addr)
        st) := by
    refine Ends.foldlM (fun before st' => ∃ pg : ℕ → NandPage,
      st' = st.setBlock addr { st.blocks addr with pg } ∧
      (∀ i, (pg i).nsecs = g.secsPerPg) ∧
      ∀ i, (pg i).status = if i ∈ before then .free
        else ((st.blocks addr).pg i).status) _ _ ?_ ?_
    · rintro before i after _ - ⟨pg, rfl, hnsecs, hstatus⟩
      simp only [resetPage, ConvFtl.setBlock, update_self, nvmevAssert,
        update_idem]
      rw [require_bind (hnsecs i)]
      refine ⟨_, rfl, ?_, ?_⟩
      · intro j
        by_cases hj : j = i
        · rw [hj, update_self]
          exact hnsecs i
        · rw [update_of_ne hj]
          exact hnsecs j
      · intro j
        by_cases hj : j = i
        · simp [hj]
        · rw [update_of_ne hj, hstatus j]
          simp [hj]
    · refine ⟨(st.blocks addr).pg, ?_, h.nsecs_eq addr, by simp⟩
      simp [ConvFtl.setBlock]
  obtain ⟨_, hfold, pg, rfl, hnsecs, hstatus⟩ := hloop.exists_ok
  refine ⟨{ st.blocks addr with
    pg, ipc := 0, vpc := 0, eraseCnt := (st.blocks addr).eraseCnt + 1 }, ?_,
    ⟨rfl, rfl, h.npgs_eq addr, hnsecs, by simpa using hstatus⟩⟩
  rw [markBlockFree, hfold]
  simp only [bind, Except.bind, nvmevAssert, ConvFtl.setBlock, update_self,
    update_idem, require, h.npgs_eq addr, if_true]
  rfl

section Erasing

variable {addr : BlockAddr} {block : NandBlock}

theorem status_setBlock_other {ppa : Ppa} (hppa : ppa.block ≠ addr) :
    (st.setBlock addr block).status ppa = st.status ppa := by
  simp only [ConvFtl.status, ConvFtl.getPg, ConvFtl.setBlock,
    update_of_ne hppa]

/-- A page of another line is outside of the block. -/
theorem status_setBlock_line {spp : SsdParams} {line : ℕ}
    (hline : line ≠ addr.blk) {ppa : Ppa} (hppa : ppa ∈ linePages spp line) :
    (st.setBlock addr block).status ppa = st.status ppa := by
  apply status_setBlock_other
  rintro rfl
  exact hline (mem_linePages.mp hppa).2.2.2.1.symm

theorem Erased.status_own (herased : Erased g st addr block) {ppa : Ppa}
    (hppa : ppa.block = addr) (hpg : ppa.pg < g.pgsPerBlk) :
    (st.setBlock addr block).status ppa = .free := by
  simp only [ConvFtl.status, ConvFtl.getPg, ConvFtl.setBlock, hppa,
    update_self, herased.status_eq, if_pos hpg]

theorem Erased.blockTally (herased : Erased g st addr block)
    {other : BlockAddr} (htally : BlockTally g.toSsdParams st other) :
    BlockTally g.toSsdParams (st.setBlock addr block) other := by
  by_cases heq : other = addr
  · subst heq
    have hfree : ∀ ppa ∈ blockPages g.toSsdParams other,
        (st.setBlock other block).status ppa = .free := by
      intro ppa hppa
      obtain ⟨hblock, hpg⟩ := mem_blockPages.mp hppa
      exact herased.status_own hblock hpg
    have hnone : ∀ value, value ≠ .free →
        pageCount (blockPages g.toSsdParams other)
          (st.setBlock other block).status value = 0 := by
      intro value hvalue
      refine pageCount_eq_zero.mpr fun ppa hppa => ?_
      rw [hfree ppa hppa]
      exact hvalue.symm
    have hown : (st.setBlock other block).blocks other = block :=
      update_self ..
    rw [BlockTally, hown, herased.vpc_eq, herased.ipc_eq,
      hnone .valid (by simp), hnone .invalid (by simp)]
    exact ⟨rfl, rfl⟩
  · have hsame : ∀ ppa ∈ blockPages g.toSsdParams other,
        (st.setBlock addr block).status ppa = st.status ppa := by
      intro ppa hppa
      apply status_setBlock_other
      rw [(mem_blockPages.mp hppa).1]
      exact heq
    have hother : (st.setBlock addr block).blocks other = st.blocks other :=
      update_of_ne heq _ _
    rw [BlockTally, hother, pageCount_congr hsame, pageCount_congr hsame]
    exact htally

/-- The accounts do not depend on the pages of the victim line. -/
theorem Accounts.eraseBlock (h : Accounts g (some victim) none st)
    (herased : Erased g st addr block) (hblk : addr.blk = victim) :
    Accounts g (some victim) none (st.setBlock addr block) := by
  subst hblk
  exact {
    pq_valid := h.pq_valid
    slots_eq := h.slots_eq
    free_cnt := h.free_cnt
    full_cnt := h.full_cnt
    victim_cnt := h.victim_cnt
    line_id := h.line_id
    nsecs_eq := fun other i => by
      by_cases heq : other = addr
      · simp only [heq, ConvFtl.setBlock, update_self]
        exact herased.nsecs_eq i
      · simp only [ConvFtl.setBlock, update_of_ne heq]
        exact h.nsecs_eq other i
    npgs_eq := fun other => by
      by_cases heq : other = addr
      · simp only [heq, ConvFtl.setBlock, update_self]
        exact herased.npgs_eq
      · simp only [ConvFtl.setBlock, update_of_ne heq]
        exact h.npgs_eq other
    block_tally := fun other => herased.blockTally (h.block_tally other)
    line_tally := fun line hline => by
      have hsame : ∀ ppa ∈ linePages g.toSsdParams line,
          (st.setBlock addr block).status ppa = st.status ppa :=
        fun ppa hppa => status_setBlock_line
          (fun heq => hline (by simp [heq])) hppa
      rw [LineTally, pageCount_congr hsame, pageCount_congr hsame]
      exact h.line_tally line hline
    free_pages := fun line hline ppa hppa => by
      have hne : line ≠ addr.blk := by
        rintro rfl
        have halone := (h.free_alone hline).2.2.2
        simp at halone
      rw [status_setBlock_line hne hppa]
      exact h.free_pages line hline ppa hppa
    full_vpc := h.full_vpc
    victim_pages := h.victim_pages
    pointer_at := fun io => by
      have hne : (st.getWp io).curline ≠ addr.blk := by
        intro heq
        have halone := (h.pointer_alone io).2.2.2.2
        simp [heq] at halone
      have hwp : (st.setBlock addr block).getWp io = st.getWp io := by
        cases io <;> rfl
      rw [hwp]
      exact (h.pointer_at io).congr
        (fun _ hppa => status_setBlock_line hne hppa) rfl }

/-- The mapping does not use the pages of a block that are all stale. -/
theorem Mapped.eraseBlock {stale : Ppa → Prop} {skipped : ℕ → Prop}
    (h : Mapped g stale skipped st)
    (hstale : ∀ ppa, validPpa g.toSsdParams ppa = true → ppa.block = addr →
      stale ppa) : Mapped g stale skipped (st.setBlock addr block) := by
  refine ⟨fun lpn ppa hmap hskip => ?_, fun ppa hvalid hstatus hlive => ?_⟩
  · obtain ⟨hlt, hvalid, hstatus, hlive, hback⟩ :=
      h.forward lpn ppa hmap hskip
    rw [status_setBlock_other fun heq => hlive (hstale ppa hvalid heq)]
    exact ⟨hlt, hvalid, hstatus, hlive, hback⟩
  · rw [status_setBlock_other fun heq => hlive (hstale ppa hvalid heq)]
      at hstatus
    exact h.backward ppa hvalid hstatus hlive

/-- Erasing a block of the victim whose pages have all been moved. -/
theorem markBlockFree_collecting (h : Collecting g victim st₀ moved erased st)
    (hblk : addr.blk = victim)
    (hmoved : ∀ ppa ∈ linePages g.toSsdParams victim, ppa.block = addr →
      ppa ∈ moved) :
    ∃ st', markBlockFree g.toSsdParams st addr = .ok st' ∧
      Collecting g victim st₀ moved (insert addr erased) st' := by
  obtain ⟨block, hfree, herased⟩ := markBlockFree_spec h.accounts addr
  refine ⟨_, hfree, h.accounts.eraseBlock herased hblk,
    h.mapped.eraseBlock fun ppa hvalid heq => ?_, h.moved_sub,
    fun ppa hppa hlive => ?_, fun ppa hppa hclean => ?_, h.domain, ?_,
    h.writeCredits_eq, h.creditsToRefill_eq⟩
  · refine hmoved ppa ?_ heq
    rw [← hblk, ← heq]
    exact ((validPpa_iff g ppa).mp hvalid).2
  · rw [Finset.mem_insert, not_or] at hlive
    rw [status_setBlock_other hlive.1]
    exact h.live ppa hppa hlive.2
  · by_cases heq : ppa.block = addr
    · exact herased.status_own heq (mem_linePages.mp hppa).2.2.2.2
    · rw [status_setBlock_other heq]
      exact h.clean ppa hppa (Finset.mem_of_mem_insert_of_ne hclean heq)
  · have hsame : toMove g victim (st.setBlock addr block).status moved =
        toMove g victim st.status moved := by
      apply Finset.filter_congr
      intro ppa hppa
      apply and_congr_left
      intro hnot
      rw [status_setBlock_other fun heq => hnot (hmoved ppa hppa heq)]
    rw [hsame]
    exact h.budget

end Erasing

end Moving

/-! ## The loop of `do_gc` -/

/-- Pages of the victim that the given visits have moved. -/
def movedBy (g : Geometry) (victim : ℕ) (visits : List (ℕ × ℕ × ℕ)) :
    Finset Ppa :=
  (linePages g.toSsdParams victim).filter
    (fun ppa => (ppa.pg / g.pgsPerFlashpg, ppa.ch, ppa.lun) ∈ visits)

/-- Blocks of the victim that the given visits have erased. -/
def erasedBy (g : Geometry) (victim : ℕ) (visits : List (ℕ × ℕ × ℕ)) :
    Finset BlockAddr :=
  ((visits.filter (fun visit => visit.1 = g.flashpgsPerBlk - 1)).map
    (fun visit => ⟨visit.2.1, visit.2.2, 0, victim⟩)).toFinset

theorem mem_erasedBy {visits : List (ℕ × ℕ × ℕ)} {addr : BlockAddr} :
    addr ∈ erasedBy g victim visits ↔ addr.pl = 0 ∧ addr.blk = victim ∧
      (g.flashpgsPerBlk - 1, addr.ch, addr.lun) ∈ visits := by
  simp only [erasedBy, List.mem_toFinset, List.mem_map, List.mem_filter,
    decide_eq_true_eq]
  constructor
  · rintro ⟨⟨flashpg, ch, lun⟩, ⟨hmem, rfl⟩, rfl⟩
    exact ⟨rfl, rfl, hmem⟩
  · rintro ⟨hpl, hblk, hmem⟩
    refine ⟨_, ⟨hmem, rfl⟩, ?_⟩
    cases addr
    simp_all

/-- Visits come in the order of the flash pages, and none comes twice. -/
theorem gcOrder_pairwise (spp : SsdParams) :
    (gcOrder spp).Pairwise (fun visit visit' =>
      visit.1 ≤ visit'.1 ∧ visit ≠ visit') := by
  rw [gcOrder, List.pairwise_flatMap]
  constructor
  · intro flashpg _
    rw [List.pairwise_flatMap]
    constructor
    · intro ch _
      rw [List.pairwise_map]
      refine List.nodup_range.imp ?_
      intro lun lun' hne
      simp [hne]
    · refine List.nodup_range.imp ?_
      intro ch ch' hne visit hvisit visit' hvisit'
      obtain ⟨lun, -, rfl⟩ := List.mem_map.mp hvisit
      obtain ⟨lun', -, rfl⟩ := List.mem_map.mp hvisit'
      simp [hne]
  · refine List.pairwise_lt_range.imp ?_
    intro flashpg flashpg' hlt visit hvisit visit' hvisit'
    simp only [List.mem_flatMap, List.mem_map] at hvisit hvisit'
    obtain ⟨ch, -, lun, -, rfl⟩ := hvisit
    obtain ⟨ch', -, lun', -, rfl⟩ := hvisit'
    simp only [ne_eq, Prod.mk.injEq]
    omega

/-- What the order of the visits says about a prefix. -/
theorem gcOrder_split {before after : List (ℕ × ℕ × ℕ)} {visit : ℕ × ℕ × ℕ}
    (hsplit : gcOrder g.toSsdParams = before ++ visit :: after) :
    visit ∈ gcOrder g.toSsdParams ∧ visit ∉ before ∧
      (∀ other ∈ before, other.1 ≤ visit.1) ∧
      ∀ flashpg < visit.1, (flashpg, visit.2) ∈ before := by
  have hvisit : visit ∈ gcOrder g.toSsdParams := by simp [hsplit]
  have hpairwise := gcOrder_pairwise g.toSsdParams
  rw [hsplit, List.pairwise_append] at hpairwise
  obtain ⟨-, hafter, hcross⟩ := hpairwise
  rw [List.pairwise_cons] at hafter
  refine ⟨hvisit, ?_, ?_, ?_⟩
  · intro hmem
    exact (hcross visit hmem visit List.mem_cons_self).2 rfl
  · intro other hother
    exact (hcross other hother visit List.mem_cons_self).1
  · intro flashpg hlt
    have hin : (flashpg, visit.2) ∈ gcOrder g.toSsdParams := by
      obtain ⟨hflash, hrest⟩ := mem_gcOrder.mp hvisit
      exact mem_gcOrder.mpr ⟨by simp; omega, hrest⟩
    rw [hsplit, List.mem_append, List.mem_cons] at hin
    rcases hin with hin | heq | hin
    · exact hin
    · have hflash := congrArg Prod.fst heq
      simp only at hflash
      omega
    · have hle := (hafter.1 _ hin).1
      simp only at hle
      omega

theorem flashpg_lt {pg : ℕ} (hpg : pg < g.pgsPerBlk) :
    pg / g.pgsPerFlashpg < g.flashpgsPerBlk := by
  rw [Nat.div_lt_iff_lt_mul g.pgsPerFlashpg_pos, Nat.mul_comm,
    ← g.pgsPerBlk_flash]
  exact hpg

section Visit

variable {before after : List (ℕ × ℕ × ℕ)} {visit : ℕ × ℕ × ℕ}

theorem movedBy_append (hvisit : visit ∈ gcOrder g.toSsdParams) :
    movedBy g victim before ∪
        (flashPages g.toSsdParams victim visit).toFinset =
      movedBy g victim (before ++ [visit]) := by
  ext ppa
  simp only [movedBy, Finset.mem_union, Finset.mem_filter,
    List.mem_toFinset, List.mem_append, List.mem_singleton]
  constructor
  · rintro (⟨hmem, hbefore⟩ | hflashpg)
    · exact ⟨hmem, Or.inl hbefore⟩
    · exact ⟨flashPages_sub hvisit hflashpg,
        Or.inr (mem_flashPages.mp hflashpg).2.2⟩
  · rintro ⟨hmem, hbefore | heq⟩
    · exact Or.inl ⟨hmem, hbefore⟩
    · obtain ⟨-, -, hpl, hblk, -⟩ := mem_linePages.mp hmem
      exact Or.inr (mem_flashPages.mpr ⟨hpl, hblk, heq⟩)

/-- The visit of the last flash page of a block erases the block. -/
theorem erasedBy_append_last (hlast : visit.1 = g.flashpgsPerBlk - 1) :
    erasedBy g victim (before ++ [visit]) =
      insert ⟨visit.2.1, visit.2.2, 0, victim⟩ (erasedBy g victim before) := by
  ext addr
  rw [Finset.mem_insert, mem_erasedBy, mem_erasedBy, List.mem_append,
    List.mem_singleton, ← hlast]
  constructor
  · rintro ⟨hpl, hblk, hmem | heq⟩
    · exact Or.inr ⟨hpl, hblk, hmem⟩
    · have hrest := congrArg Prod.snd heq
      obtain ⟨ch, lun, pl, blk⟩ := addr
      simp only at hpl hblk hrest
      simp [← hrest, hpl, hblk]
  · rintro (rfl | ⟨hpl, hblk, hmem⟩)
    · exact ⟨rfl, rfl, Or.inr rfl⟩
    · exact ⟨hpl, hblk, Or.inl hmem⟩

theorem erasedBy_append_other (hlast : visit.1 ≠ g.flashpgsPerBlk - 1) :
    erasedBy g victim (before ++ [visit]) = erasedBy g victim before := by
  ext addr
  rw [mem_erasedBy, mem_erasedBy, List.mem_append, List.mem_singleton]
  have hne : (g.flashpgsPerBlk - 1, addr.ch, addr.lun) ≠ visit := by
    rintro rfl
    exact hlast rfl
  simp [hne]

variable (hsplit : gcOrder g.toSsdParams = before ++ visit :: after)
include hsplit

/-- The pages of the visit have not been moved, and their block is not
erased. -/
theorem flashPages_fresh {ppa : Ppa}
    (hppa : ppa ∈ flashPages g.toSsdParams victim visit) :
    ppa ∉ movedBy g victim before ∧ ppa.block ∉ erasedBy g victim before := by
  obtain ⟨hvisit, hfresh, horder, -⟩ := gcOrder_split hsplit
  obtain ⟨hflash, -, -⟩ := mem_gcOrder.mp hvisit
  obtain ⟨-, -, rfl⟩ := mem_flashPages.mp hppa
  refine ⟨fun hmem => hfresh (Finset.mem_filter.mp hmem).2, fun hmem => ?_⟩
  have hlast := (mem_erasedBy.mp hmem).2.2
  have hle := horder _ hlast
  simp only at hle hflash
  have heq : ppa.pg / g.pgsPerFlashpg = g.flashpgsPerBlk - 1 := by omega
  rw [heq] at hfresh
  exact hfresh hlast

/-- After the last flash page of a block all its pages have been moved. -/
theorem block_moved (hlast : visit.1 = g.flashpgsPerBlk - 1) {ppa : Ppa}
    (hppa : ppa ∈ linePages g.toSsdParams victim)
    (hblock : ppa.block = ⟨visit.2.1, visit.2.2, 0, victim⟩) :
    ppa ∈ movedBy g victim (before ++ [visit]) := by
  obtain ⟨-, -, -, hearlier⟩ := gcOrder_split hsplit
  refine Finset.mem_filter.mpr ⟨hppa, ?_⟩
  have hpg := flashpg_lt (g := g) (mem_linePages.mp hppa).2.2.2.2
  obtain ⟨flashpg, ch, lun⟩ := visit
  simp only [Ppa.block, BlockAddr.mk.injEq] at hblock hlast
  obtain ⟨rfl, rfl, -⟩ := hblock
  rw [List.mem_append, List.mem_singleton]
  by_cases hcase : ppa.pg / g.pgsPerFlashpg < flashpg
  · exact Or.inl (hearlier _ hcase)
  · have heq : ppa.pg / g.pgsPerFlashpg = flashpg := by omega
    exact Or.inr (by rw [heq])

/-- One visit of `do_gc`. -/
theorem Carrier.gcBody_collecting {σ : Type} (c : Carrier g.toSsdParams σ)
    {property : σ → Prop} {reading : ℕ × ℕ × ℕ → σ → Prop}
    (hkeeps : c.Keeps victim st₀ property reading) {s : σ}
    (h : Collecting g victim st₀ (movedBy g victim before)
      (erasedBy g victim before) (c.ftl s)) (hs : property s) :
    Ends (fun s' => Collecting g victim st₀
        (movedBy g victim (before ++ [visit]))
        (erasedBy g victim (before ++ [visit])) (c.ftl s') ∧ property s')
      (fun e => e = .nullLine ∧
        freePages g st₀ ≤ g.pgsPerLine + 1 + (st₀.lines victim).vpc)
      (c.gcBody victim s visit) := by
  have hvisit := (gcOrder_split hsplit).1
  have hclean := c.cleanOneFlashpg_collecting hkeeps h hs hvisit
    (fun _ hppa => (flashPages_fresh hsplit hppa).1)
    (fun _ hppa => (flashPages_fresh hsplit hppa).2)
  rw [movedBy_append hvisit] at hclean
  have hbody : c.gcBody victim s visit = do
      let s ← c.cleanOneFlashpg s (Ppa.pack visit.2.1 visit.2.2 0
        victim (visit.1 * g.pgsPerFlashpg))
      if visit.1 = g.flashpgsPerBlk - 1 then
        c.erase s ⟨visit.2.1, visit.2.2, 0, victim⟩
      else return s := by
    simp only [Carrier.gcBody]
    rw [pack_flashStart h.victim_lt hvisit]
    rfl
  rw [hbody]
  refine hclean.bind ?_
  rintro s' ⟨hst', hs'⟩
  split
  · rename_i hlast
    have hall : ∀ ppa ∈ linePages g.toSsdParams victim,
        ppa.block = ⟨visit.2.1, visit.2.2, 0, victim⟩ →
          ppa ∈ movedBy g victim (before ++ [visit]) :=
      fun _ hppa hblock => block_moved hsplit hlast hppa hblock
    obtain ⟨erasedSt, herase, hcollect⟩ :=
      markBlockFree_collecting hst' rfl hall
    have hends : Ends (Collecting g victim st₀
        (movedBy g victim (before ++ [visit]))
        (erasedBy g victim (before ++ [visit]))) (fun e => e = .nullLine ∧
          freePages g st₀ ≤ g.pgsPerLine + 1 + (st₀.lines victim).vpc)
        (markBlockFree g.toSsdParams (c.ftl s')
          ⟨visit.2.1, visit.2.2, 0, victim⟩) := by
      rw [herase, erasedBy_append_last hlast]
      exact hcollect
    rw [← c.erase_ftl, Ends.map_iff] at hends
    exact hends.and_of_ok fun _ hok _ => hkeeps.erase hst' rfl hall hs' hok
  · rename_i hlast
    rw [erasedBy_append_other hlast]
    exact ⟨hst', hs'⟩

end Visit

/-- The line is clean and goes back to the free list. -/
theorem Accounts.markLineFree (h : Accounts g (some victim) none st)
    (hfree : ∀ ppa ∈ linePages g.toSsdParams victim, st.status ppa = .free) :
    Accounts g none none (markLineFree st victim) := by
  set st' := Ftl.markLineFree st victim with hst'
  have hlineOwn : st'.lines victim =
      { st.lines victim with ipc := 0, vpc := 0 } := update_self ..
  have hlineOther : ∀ line, line ≠ victim → st'.lines line = st.lines line :=
    fun line hne => update_of_ne hne _ _
  have hnotHeld : ∀ line, line ∉ (some victim).toList → line ≠ victim := by
    rintro line hline rfl
    simp at hline
  have hnone : ∀ value, value ≠ .free →
      pageCount (linePages g.toSsdParams victim) st'.status value = 0 := by
    intro value hvalue
    refine pageCount_eq_zero.mpr fun ppa hppa => ?_
    rw [show st'.status ppa = .free from hfree ppa hppa]
    exact hvalue.symm
  exact {
    pq_valid := h.pq_valid
    slots_eq := fun line => by
      rw [← h.slots_eq line]
      change (st.freeLineList ++ [victim]).count line +
        st.fullLineList.count line + min (st.victimLinePq.pos line) 1 +
        [st.wp.curline].count line + [st.gcWp.curline].count line + 0 = _
      simp only [slots, List.count_append, Option.toList_some]
      omega
    free_cnt := by
      change st.freeLineCnt + 1 = (st.freeLineList ++ [victim]).length
      rw [h.free_cnt, List.length_append, List.length_singleton]
    full_cnt := h.full_cnt
    victim_cnt := h.victim_cnt
    line_id := fun line => by
      by_cases hline : line = victim
      · rw [hline, hlineOwn]
        exact h.line_id victim
      · rw [hlineOther line hline]
        exact h.line_id line
    nsecs_eq := h.nsecs_eq
    npgs_eq := h.npgs_eq
    block_tally := h.block_tally
    line_tally := fun line _ => by
      by_cases hline : line = victim
      · rw [hline, LineTally, hlineOwn, hnone .valid (by simp),
          hnone .invalid (by simp)]
        exact ⟨rfl, rfl⟩
      · rw [LineTally, hlineOther line hline]
        exact h.line_tally line (by simp [hline])
    free_pages := fun line hline ppa hppa => by
      rcases List.mem_append.mp hline with hline | hline
      · exact h.free_pages line hline ppa hppa
      · rw [List.mem_singleton.mp hline] at hppa
        exact hfree ppa hppa
    full_vpc := fun line hline => by
      rw [hlineOther line (hnotHeld line (h.full_alone hline).2.2)]
      exact h.full_vpc line hline
    victim_pages := fun line hline => by
      rw [hlineOther line (hnotHeld line (h.victim_alone hline).2)]
      exact h.victim_pages line hline
    pointer_at := fun io => by
      have hne := hnotHeld _ (h.pointer_alone io).2.2.2.2
      have hwp : st'.getWp io = st.getWp io := by cases io <;> rfl
      rw [hwp]
      exact (h.pointer_at io).congr (fun _ _ => rfl) (hlineOther _ hne) }

theorem freePages_markLineFree (st : ConvFtl) (victim : ℕ) :
    freePages g (markLineFree st victim) = freePages g st + g.pgsPerLine := by
  change (st.freeLineList ++ [victim]).length * g.pgsPerLine + _ + _ = _
  rw [List.length_append, List.length_singleton, Nat.add_mul, one_mul,
    freePages]
  change _ + (g.pgsPerLine - st.wp.index g.toSsdParams) +
    (g.pgsPerLine - st.gcWp.index g.toSsdParams) = _
  omega

/-- The end of a collection. -/
theorem Collecting.finish {erased : Finset BlockAddr} {moved : Finset Ppa}
    (h : Collecting g victim st₀ moved erased st)
    (hmoved : moved = linePages g.toSsdParams victim)
    (herased : ∀ ppa ∈ linePages g.toSsdParams victim, ppa.block ∈ erased) :
    Accounts g none none (markLineFree st victim) ∧
      Mapped g (fun _ => False) (fun _ => False) (markLineFree st victim) ∧
      freePages g (markLineFree st victim) + (st₀.lines victim).vpc =
        freePages g st₀ + g.pgsPerLine := by
  have hfree : ∀ ppa ∈ linePages g.toSsdParams victim,
      st.status ppa = .free := fun ppa hppa =>
    h.clean ppa hppa (herased ppa hppa)
  refine ⟨h.accounts.markLineFree hfree, ⟨?_, ?_⟩, ?_⟩
  · intro lpn ppa hmap hskip
    obtain ⟨hlt, hvalid, hstatus, -, hback⟩ :=
      h.mapped.forward lpn ppa hmap hskip
    exact ⟨hlt, hvalid, hstatus, id, hback⟩
  · intro ppa hvalid hstatus _
    refine h.mapped.backward ppa hvalid hstatus ?_
    rw [hmoved]
    intro hmem
    change st.status ppa = .valid at hstatus
    rw [hfree ppa hmem] at hstatus
    cases hstatus
  · have hnone : toMove g victim st.status moved = ∅ := by
      apply Finset.filter_eq_empty_iff.mpr
      rintro ppa hppa ⟨-, hnot⟩
      exact hnot (hmoved ▸ hppa)
    have hbudget := h.budget
    rw [hnone, Finset.card_empty] at hbudget
    rw [freePages_markLineFree]
    omega

/-- All visits together move every page of the victim and erase every block. -/
theorem gcOrder_complete (g : Geometry) (victim : ℕ) :
    movedBy g victim (gcOrder g.toSsdParams) =
        linePages g.toSsdParams victim ∧
      ∀ ppa ∈ linePages g.toSsdParams victim,
        ppa.block ∈ erasedBy g victim (gcOrder g.toSsdParams) := by
  constructor
  · apply Finset.filter_true_of_mem
    intro ppa hppa
    obtain ⟨hch, hlun, -, -, hpg⟩ := mem_linePages.mp hppa
    exact mem_gcOrder.mpr ⟨flashpg_lt hpg, hch, hlun⟩
  · intro ppa hppa
    obtain ⟨hch, hlun, hpl, hblk, hpg⟩ := mem_linePages.mp hppa
    have hpos : ppa.pg / g.pgsPerFlashpg < g.flashpgsPerBlk := flashpg_lt hpg
    exact mem_erasedBy.mpr ⟨hpl, hblk,
      mem_gcOrder.mpr ⟨Nat.sub_lt (Nat.zero_lt_of_lt hpos) Nat.one_pos, hch,
        hlun⟩⟩

/-- A queued line has no free page. -/
theorem Accounts.victim_live (h : Accounts g none none st)
    (hpos : st.victimLinePq.pos victim ≠ 0) :
    ∀ ppa ∈ linePages g.toSsdParams victim, st.status ppa ≠ .free := by
  obtain ⟨hvpc, hipc⟩ := h.line_tally victim (by simp)
  have hsum := (h.victim_pages victim hpos).1
  have htotal := pageCount_total (linePages g.toSsdParams victim) st.status
  rw [card_linePages] at htotal
  apply pageCount_eq_zero.mp
  omega

/-- What a collection that ends leaves behind. -/
structure Collected (g : Geometry) (force : Bool) (st : ConvFtl)
    (cleaned : Bool) (st' : ConvFtl) : Prop where
  accounts : Accounts g none none st'
  mapped : Mapped g (fun _ => False) (fun _ => False) st'
  domain : ∀ lpn, (st'.maptbl lpn).isSome = (st.maptbl lpn).isSome
  writeCredits_eq : st'.writeCredits = st.writeCredits
  gain : if cleaned then
      freePages g st' = freePages g st + st'.creditsToRefill ∧
        0 < st'.creditsToRefill ∧ st'.creditsToRefill ≤ g.pgsPerLine
    else st' = st ∧ (force = true → ∀ line, st.victimLinePq.pos line = 0)

/-- A collection begins with nothing moved and nothing erased. -/
theorem Accounts.collecting (h : Accounts g none none st)
    (hmapped : Mapped g (fun _ => False) (fun _ => False) st)
    (hpos : st.victimLinePq.pos victim ≠ 0) {popped : ConvFtl}
    (hpopped : Accounts g (some victim) none popped)
    (hsame : SamePages st popped) (hlines : popped.lines = st.lines)
    (creditsToRefill : ℕ) :
    Collecting g victim { popped with creditsToRefill } (movedBy g victim [])
      (erasedBy g victim []) { popped with creditsToRefill } := by
  have hempty : movedBy g victim [] = ∅ := by simp [movedBy]
  have hmappedPopped := hmapped.congr hsame
  have hstatus : popped.status = st.status := hsame.status_eq
  refine ⟨hpopped.withTables popped.maptbl popped.rmap popped.writeCredits
    creditsToRefill, ⟨fun lpn ppa hmap hskip => ?_,
      fun ppa hvalid hstat _ => hmappedPopped.backward ppa hvalid hstat id⟩,
    by simp [hempty], fun ppa hppa _ => ?_, fun ppa _ hmem => ?_,
    fun _ => rfl, ?_, rfl, rfl⟩
  · obtain ⟨hlt, hvalid, hstat, -, hback⟩ :=
      hmappedPopped.forward lpn ppa hmap hskip
    exact ⟨hlt, hvalid, hstat, by simp [hempty], hback⟩
  · change popped.status ppa ≠ .free
    rw [hstatus]
    exact h.victim_live hpos ppa hppa
  · simp [erasedBy] at hmem
  · have htally := (h.line_tally victim (by simp)).1
    have hcount : (toMove g victim popped.status (movedBy g victim [])).card =
        (popped.lines victim).vpc := by
      rw [hstatus, hlines, htally]
      simp [toMove, hempty, pageCount]
    exact congrArg (_ + ·) hcount.symm

/-- What the visits of a collection together gain. -/
theorem Collecting.collected {popped : ConvFtl} {credits : ℕ}
    (h : Collecting g victim { popped with creditsToRefill := credits }
      (movedBy g victim (gcOrder g.toSsdParams))
      (erasedBy g victim (gcOrder g.toSsdParams)) st')
    (hsame : SamePages st popped)
    (hpages : freePages g popped = freePages g st)
    (hsum : (popped.lines victim).vpc + credits = g.pgsPerLine)
    (hcredits : 0 < credits) (force : Bool) :
    Collected g force st true (markLineFree st' victim) := by
  obtain ⟨hmovedAll, herasedAll⟩ := gcOrder_complete g victim
  obtain ⟨haccounts, hmapped, hgain⟩ := h.finish hmovedAll herasedAll
  change _ + (popped.lines victim).vpc = freePages g popped + _ at hgain
  refine ⟨haccounts, hmapped, fun lpn => ?_,
    h.writeCredits_eq.trans hsame.writeCredits_eq, ?_⟩
  · rw [← hsame.maptbl_eq]
    exact h.domain lpn
  · have hrefill : (markLineFree st' victim).creditsToRefill = credits :=
      h.creditsToRefill_eq
    change freePages g (markLineFree st' victim) = freePages g st +
      (markLineFree st' victim).creditsToRefill ∧
      0 < (markLineFree st' victim).creditsToRefill ∧
      (markLineFree st' victim).creditsToRefill ≤ g.pgsPerLine
    rw [hrefill]
    omega

/-- `do_gc`: nothing is collected, or one line is, and its invalid pages are
gained. -/
theorem Carrier.doGc_spec {σ : Type} (c : Carrier g.toSsdParams σ)
    {property : σ → Prop} {reading : ℕ → ℕ × ℕ × ℕ → σ → Prop}
    (hkeeps : c.KeepsGc property reading) {s : σ}
    (h : Accounts g none none (c.ftl s))
    (hmapped : Mapped g (fun _ => False) (fun _ => False) (c.ftl s))
    (hs : property s) (force : Bool) :
    Ends (fun result =>
        Collected g force (c.ftl s) result.1 (c.ftl result.2) ∧
          property result.2)
      (fun e => e = .nullLine ∧ freePages g (c.ftl s) ≤ 2 * g.pgsPerLine)
      (c.doGc s force) := by
  set st := c.ftl s with hst
  rcases selectVictimLine_spec h force with ⟨hselect, hnone⟩ |
      ⟨victim, popped, hselect, hpos, hpopped, hsame, hlines, hpages⟩
  · rw [Carrier.doGc, ← hst, hselect]
    exact ⟨⟨h, hmapped, fun _ => rfl, rfl, rfl, hnone⟩, hs⟩
  · obtain ⟨hsum, hipc⟩ := h.victim_pages victim hpos
    obtain ⟨hvictim, -⟩ := h.victim_alone hpos
    rw [← hlines] at hsum hipc
    set st₀ : ConvFtl := { popped with
      creditsToRefill := (popped.lines victim).ipc } with hst₀
    have hid : (popped.lines victim).id = victim := hpopped.line_id victim
    have hbits : victim % 2 ^ 16 = victim := by
      have hle := g.blksPerPl_le
      rw [g.ttLines_eq] at hvictim
      exact Nat.mod_eq_of_lt (by omega)
    have hgc : c.doGc s force = do
        let s ← (gcOrder g.toSsdParams).foldlM (c.gcBody victim)
          (c.withFtl s st₀)
        return (true, c.withFtl s (markLineFree (c.ftl s) victim)) := by
      simp only [Carrier.doGc, ← hst, hselect, hid, hbits]
      rfl
    have hstart := h.collecting hmapped hpos hpopped hsame hlines
      (popped.lines victim).ipc
    have hloop := Ends.foldlM (fun before s => Collecting g victim st₀
        (movedBy g victim before) (erasedBy g victim before) (c.ftl s) ∧
          property s)
      (c.gcBody victim) (gcOrder g.toSsdParams)
      (fun before visit after s hsplit hs =>
        c.gcBody_collecting hsplit (hkeeps.loop victim st₀) hs.1 hs.2)
      (s := c.withFtl s st₀)
      ⟨(c.ftl_withFtl s st₀).symm ▸ hstart, hkeeps.select h hselect hs⟩
    rw [hgc]
    refine (hloop.mono (fun _ => id) ?_).bind ?_
    · rintro e ⟨rfl, hlow⟩
      change freePages g popped ≤ _ + (popped.lines victim).vpc at hlow
      exact ⟨rfl, by omega⟩
    · rintro s' ⟨hst', hs'⟩
      refine ⟨?_, hkeeps.finish hst'.accounts hs'⟩
      change Collected g force st true
        (c.ftl (c.withFtl s' (markLineFree (c.ftl s') victim)))
      rw [c.ftl_withFtl]
      exact hst'.collected hsame hpages hsum hipc force

/-- `do_gc` on the FTL alone. -/
theorem doGc_spec (h : Accounts g none none st)
    (hmapped : Mapped g (fun _ => False) (fun _ => False) st) (force : Bool) :
    Ends (fun result => Collected g force st result.1 result.2)
      (fun e => e = .nullLine ∧ freePages g st ≤ 2 * g.pgsPerLine)
      (doGc g.toSsdParams st force) := by
  have hkeeps : (Carrier.plain g.toSsdParams).KeepsGc (fun _ => True)
      fun _ _ _ => True :=
    ⟨fun _ _ _ => trivial, fun _ _ => ⟨fun _ _ _ _ _ => trivial,
      fun _ _ _ _ _ _ _ => trivial, fun _ => trivial,
      fun _ _ _ _ _ => trivial⟩, fun _ _ => trivial⟩
  have hspec := (Carrier.plain g.toSsdParams).doGc_spec hkeeps h hmapped
    trivial force
  rw [Carrier.plain_doGc] at hspec
  exact hspec.mono (fun _ hresult => hresult.1) (fun _ => id)

end NvmeVirt.Ftl
