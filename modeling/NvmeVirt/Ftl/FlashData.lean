import NvmeVirt.Ftl.NandTrace

/-!
# What the flash memory holds

The commands that write commands and garbage collection send to the NAND are
ones that flash can take: blocks are programmed in order and only after an
erase, and only programmed pages are read.  At any time the page that the
mapping table names holds the last data that the host wrote, in flash or in the
memory of the controller.
-/

namespace NvmeVirt.Ftl

open Function NvmeVirt.Outcome NvmeVirt.NandFlash

variable {α : Type} {g : Geometry} {held : Option ℕ} {st st' : ConvFtl}

theorem Ppa.eq_of_block {ppa ppa' : Ppa} (hblock : ppa.block = ppa'.block)
    (hpg : ppa.pg = ppa'.pg) : ppa = ppa' := by
  cases ppa
  cases ppa'
  simp_all [Ppa.block]

/-- Higher pages of a block come later in the write order. -/
theorem WriteShape.writeIndex_strictMono {spp : SsdParams} (h : WriteShape spp)
    (ch lun : ℕ) (hch : ch < spp.nchs) (hlun : lun < spp.lunsPerCh)
    {pg pg' : ℕ} (hlt : pg < pg') :
    writeIndex spp ch lun pg < writeIndex spp ch lun pg' := by
  have hmod := Nat.mod_lt pg h.pgsPerOneshotpg_pos
  have hdiv := Nat.div_add_mod' pg spp.pgsPerOneshotpg
  have hdiv' := Nat.div_add_mod' pg' spp.pgsPerOneshotpg
  simp only [writeIndex]
  rcases (Nat.div_le_div_right hlt.le :
    pg / spp.pgsPerOneshotpg ≤ pg' / spp.pgsPerOneshotpg).eq_or_lt with
      heq | hshot
  · rw [heq] at hdiv ⊢
    omega
  · have hdie : pg / spp.pgsPerOneshotpg * spp.lunsPerCh + lun + 1 ≤
        pg' / spp.pgsPerOneshotpg * spp.lunsPerCh + lun := by
      have hmul := Nat.mul_le_mul_right spp.lunsPerCh hshot
      rw [Nat.succ_mul] at hmul
      omega
    have hchannel := Nat.mul_le_mul_right spp.nchs hdie
    rw [Nat.succ_mul] at hchannel
    have hpage := Nat.mul_le_mul_right spp.pgsPerOneshotpg
      (show (pg / spp.pgsPerOneshotpg * spp.lunsPerCh + lun) * spp.nchs + ch +
        1 ≤ (pg' / spp.pgsPerOneshotpg * spp.lunsPerCh + lun) * spp.nchs + ch by
          omega)
    rw [Nat.succ_mul] at hpage
    omega

/-! ## The invariant -/

/-- The flash memory after the trace of `s` holds `contents` where the mapping
table says; the first `filled` pages of a block are not free. -/
structure Holds (g : Geometry) (contents : ℕ → Option α) (s : Traced α)
    (flash : Flash BlockAddr α) (filled : BlockAddr → ℕ) : Prop where
  flash_eq : flashAfter g.toSsdParams s.trace = some flash
  filled_blocks : ∀ addr,
    Flash.Filled g.pgsPerOneshotpg flash addr (filled addr)
  free_iff : ∀ ppa, validPpa g.toSsdParams ppa = true →
    (s.ftl.status ppa = .free ↔ filled ppa.block ≤ ppa.pg)
  data_eq : ∀ lpn, ((s.ftl.maptbl lpn).bind fun ppa =>
    flash.stored ppa.block ppa.pg) = contents lpn

def Backed (g : Geometry) (contents : ℕ → Option α) (s : Traced α) : Prop :=
  ∃ flash filled, Holds g contents s flash filled

/-- Moreover the pages of a flash page are in memory. -/
def Reading (g : Geometry) (contents : ℕ → Option α) (victim : ℕ)
    (visit : ℕ × ℕ × ℕ) (s : Traced α) : Prop :=
  ∃ flash filled, Holds g contents s flash filled ∧
    ∀ ppa ∈ flashPages g.toSsdParams victim visit,
      flash.loaded ppa.block ppa.pg = flash.stored ppa.block ppa.pg

section Steps

variable {contents : ℕ → Option α} {s s' : Traced α}
  {flash : Flash BlockAddr α} {filled : BlockAddr → ℕ}

/-- Only the free pages and the mapping table matter. -/
theorem Holds.congr (h : Holds g contents s flash filled)
    (htrace : s'.trace = s.trace)
    (hfree : ∀ ppa, s'.ftl.status ppa = .free ↔ s.ftl.status ppa = .free)
    (hmaptbl : s'.ftl.maptbl = s.ftl.maptbl) :
    Holds g contents s' flash filled where
  flash_eq := htrace ▸ h.flash_eq
  filled_blocks := h.filled_blocks
  free_iff := fun ppa hppa => (hfree ppa).trans (h.free_iff ppa hppa)
  data_eq := hmaptbl ▸ h.data_eq

theorem Backed.congr (h : Backed g contents s) (htrace : s'.trace = s.trace)
    (hfree : ∀ ppa, s'.ftl.status ppa = .free ↔ s.ftl.status ppa = .free)
    (hmaptbl : s'.ftl.maptbl = s.ftl.maptbl) : Backed g contents s' := by
  obtain ⟨flash, filled, hholds⟩ := h
  exact ⟨flash, filled, hholds.congr htrace hfree hmaptbl⟩

/-- The page under a write pointer is the next one of its block. -/
theorem Holds.filled_pointer (h : Holds g contents s flash filled)
    (haccounts : Accounts g held none s.ftl) (io : IoType) :
    filled (s.ftl.getWp io).page.block = (s.ftl.getWp io).page.pg := by
  have hpointer := haccounts.pointer_at io
  have hle := (h.free_iff _ (haccounts.page_valid io)).mp
    (haccounts.page_free io)
  by_contra hne
  -- The page before it is not free.
  set ppa := (s.ftl.getWp io).page with hppa
  have hpg : ppa.pg < g.pgsPerBlk := hpointer.pg_lt
  have hlt : filled ppa.block < ppa.pg := by omega
  have hbefore : ({ ppa with pg := ppa.pg - 1 } : Ppa) ∈
      linePages g.toSsdParams (s.ftl.getWp io).curline :=
    mem_linePages.mpr ⟨hpointer.ch_lt, hpointer.lun_lt, rfl, rfl, by
      change ppa.pg - 1 < _
      omega⟩
  have hfree := (h.free_iff { ppa with pg := ppa.pg - 1 }
    (validPpa_of_mem (haccounts.pointer_alone io).1 hbefore)).mpr (by
      change filled ppa.block ≤ ppa.pg - 1
      omega)
  have hindex := (hpointer.free_iff _ hbefore).mp hfree
  have hmono := g.writeShape.writeIndex_strictMono ppa.ch ppa.lun
    hpointer.ch_lt hpointer.lun_lt (show ppa.pg - 1 < ppa.pg by omega)
  simp only [reduceCtorEq, if_false, add_zero] at hindex
  exact absurd hmono (Nat.not_lt.mpr hindex)

/-- Data is written to the page under a write pointer, and the mapping table
follows. -/
theorem Holds.put (h : Holds g contents s flash filled)
    (haccounts : Accounts g held none s.ftl) {io : IoType} {lpn : ℕ}
    (hmapped : ∀ lpn' page, lpn' ≠ lpn → s.ftl.maptbl lpn' = some page →
      validPpa g.toSsdParams page = true ∧ s.ftl.status page = .valid)
    (hprogrammed : Programmed g s.ftl st' (s.ftl.getWp io).page lpn)
    {data : α} {first : TraceItem α}
    {step : Step BlockAddr α} (hitem : first.steps g.toSsdParams = [step])
    (hstep : flash.step g.pgsPerOneshotpg step =
      flash.stage (s.ftl.getWp io).page.block (s.ftl.getWp io).page.pg data)
    {rest : List (TraceItem α)}
    (hrest : rest.flatMap (TraceItem.steps g.toSsdParams) =
      if lastPgInWordline g.toSsdParams (s.ftl.getWp io).page then
        [.program (s.ftl.getWp io).page.block (s.ftl.getWp io).page.pg]
      else [])
    (hftl : s'.ftl.status = st'.status ∧ s'.ftl.maptbl = st'.maptbl)
    (htrace : s'.trace = s.trace ++ first :: rest) :
    ∃ flash' filled',
      Holds g (update contents lpn (some data)) s' flash' filled' ∧
        flash'.stored = setPage flash.stored (s.ftl.getWp io).page.block
          (s.ftl.getWp io).page.pg data ∧
        flash'.loaded = flash.loaded := by
  set ppa := (s.ftl.getWp io).page with hppa
  have hfilled : filled ppa.block = ppa.pg := h.filled_pointer haccounts io
  obtain ⟨flash', hrun, hfilled', hstored, hloaded⟩ :=
    Flash.put_spec g.pgsPerOneshotpg_pos h.filled_blocks ppa.block data
      (show flash.step g.pgsPerOneshotpg step = _ by rw [hfilled]; exact hstep)
  refine ⟨flash', update filled ppa.block (ppa.pg + 1),
    ⟨?_, ?_, ?_, ?_⟩, ?_, hloaded⟩
  · rw [htrace, flashAfter_append h.flash_eq, List.flatMap_cons, hitem, hrest,
      ← hrun, hfilled]
    simp only [lastPgInWordline, decide_eq_true_eq, List.singleton_append]
  · intro addr
    rw [← hfilled]
    exact hfilled' addr
  · intro page hpage
    rw [hftl.1, hprogrammed.status_eq]
    by_cases heq : page = ppa
    · rw [heq, update_self, update_self]
      simp
    · rw [update_of_ne heq]
      rw [h.free_iff page hpage]
      by_cases hblock : page.block = ppa.block
      · have hne : page.pg ≠ ppa.pg :=
          fun hpg => heq (Ppa.eq_of_block hblock hpg)
        rw [hblock, update_self, hfilled]
        omega
      · rw [update_of_ne hblock]
  · intro lpn'
    rw [hftl.2, hprogrammed.maptbl_eq, hstored, hfilled]
    by_cases heq : lpn' = lpn
    · rw [heq, update_self, update_self]
      exact setPage_self _ _ _ _
    · rw [update_of_ne heq, update_of_ne heq, ← h.data_eq lpn']
      cases hmap : s.ftl.maptbl lpn' with
      | none => rfl
      | some page =>
          refine setPage_of_ne _ _ ?_
          rintro ⟨hblock, hpg⟩
          have hfree := (h.free_iff page (hmapped lpn' page heq hmap).1).mpr
            (by rw [hblock, hpg]; exact hfilled.le)
          rw [(hmapped lpn' page heq hmap).2] at hfree
          cases hfree
  · rw [hstored, hfilled]

/-! ## Garbage collection -/

/-- A valid page is not stale while its line is collected, so it is not the
page of a moved one. -/
theorem Collecting.mapped_page {victim : ℕ} {st₀ : ConvFtl}
    {moved : Finset Ppa} {erased : Finset BlockAddr}
    (h : Collecting g victim st₀ moved erased st) {lpn : ℕ} {page : Ppa}
    (hmap : st.maptbl lpn = some page) :
    validPpa g.toSsdParams page = true ∧ st.status page = .valid ∧
      page ∉ moved := by
  obtain ⟨-, hvalid, hstatus, hstale, -⟩ := h.mapped.forward lpn page hmap id
  exact ⟨hvalid, hstatus, hstale⟩

theorem gcw_steps (secsz : ℕ) (ppa : Ppa) :
    ([.nand (gcw g.toSsdParams secsz ppa)] : List (TraceItem α)).flatMap
        (TraceItem.steps g.toSsdParams) =
      if lastPgInWordline g.toSsdParams ppa then
        [.program ppa.block ppa.pg] else [] := by
  unfold gcw
  split
  · rfl
  · rfl

variable {victim secsz : ℕ} {st₀ : ConvFtl} {moved : Finset Ppa}
  {erased : Finset BlockAddr} {visit : ℕ × ℕ × ℕ}

/-- The pages of a victim are programmed until its blocks are erased. -/
theorem Holds.read (h : Holds g contents s flash filled)
    (hst : Collecting g victim st₀ moved erased s.ftl)
    (hvisit : visit ∈ gcOrder g.toSsdParams)
    (herased : ∀ ppa ∈ flashPages g.toSsdParams victim visit,
      ppa.block ∉ erased) (cnt : ℕ) :
    Reading g contents victim visit (s.gcr g.toSsdParams secsz
      (flashStart g.toSsdParams victim visit) cnt) := by
  set start := flashStart g.toSsdParams victim visit with hstart
  have hflashpg := g.pgsPerFlashpg_pos
  obtain ⟨hflash, hch, hlun⟩ := mem_gcOrder.mp hvisit
  -- The last page of the block is not free either.
  have hlast : (⟨visit.2.1, visit.2.2, 0, victim, g.pgsPerBlk - 1⟩ : Ppa) ∈
      linePages g.toSsdParams victim :=
    mem_linePages.mpr ⟨hch, hlun, rfl, rfl, by
      have := g.pgsPerBlk_pos
      change g.pgsPerBlk - 1 < g.pgsPerBlk
      omega⟩
  have hstartMem : start ∈ flashPages g.toSsdParams victim visit :=
    mem_flashPages.mpr ⟨rfl, rfl, by
      simp [hstart, flashStart, Nat.mul_div_cancel _ hflashpg]⟩
  have hfull : g.pgsPerBlk ≤ filled start.block := by
    have hlive := hst.live _ hlast (herased start hstartMem)
    rw [Ne, h.free_iff _ (validPpa_of_mem hst.victim_lt hlast)] at hlive
    have hpos := g.pgsPerBlk_pos
    change ¬ filled start.block ≤ g.pgsPerBlk - 1 at hlive
    omega
  have hnext : g.pgsPerBlk ≤ flash.next start.block := by
    rw [(h.filled_blocks start.block).next_eq]
    calc g.pgsPerBlk
        = g.pgsPerBlk / g.pgsPerOneshotpg * g.pgsPerOneshotpg :=
          (Nat.div_mul_cancel g.writeShape.oneshotpg_dvd).symm
      _ ≤ filled start.block / g.pgsPerOneshotpg * g.pgsPerOneshotpg :=
          Nat.mul_le_mul_right _ (Nat.div_le_div_right hfull)
  have hpg : start.pg / g.pgsPerFlashpg * g.pgsPerFlashpg = start.pg := by
    simp [hstart, flashStart, Nat.mul_div_cancel _ hflashpg]
  have hend : start.pg + g.pgsPerFlashpg ≤ g.pgsPerBlk := by
    rw [g.pgsPerBlk_flash, Nat.mul_comm]
    have hmul := Nat.mul_le_mul_right g.pgsPerFlashpg hflash
    rwa [Nat.succ_mul] at hmul
  obtain ⟨flash', hread, hnextEq, hstored, hloaded⟩ :=
    Flash.read_spec g.pgsPerOneshotpg (hend.trans hnext)
  refine ⟨flash', filled, ⟨?_, fun addr =>
    (h.filled_blocks addr).congr hnextEq hstored, h.free_iff, ?_⟩, ?_⟩
  · rw [Traced.gcr, Traced.emit, flashAfter_append h.flash_eq]
    simp only [List.flatMap_cons, List.flatMap_nil, List.append_nil,
      TraceItem.steps, hpg, Flash.run, List.foldlM_cons, hread]
    rfl
  · rw [hstored]
    exact h.data_eq
  · intro ppa hppa
    obtain ⟨hpl, hblk, hpage⟩ := mem_flashPages.mp hppa
    have hblock : ppa.block = start.block := by
      simp [hstart, flashStart, Ppa.block, hpl, hblk, ← hpage]
    have hstartPg : start.pg = ppa.pg / g.pgsPerFlashpg * g.pgsPerFlashpg := by
      simp [hstart, flashStart, ← hpage]
    have hdiv := Nat.div_add_mod' ppa.pg g.pgsPerFlashpg
    have hmod := Nat.mod_lt ppa.pg hflashpg
    rw [hstored, hblock]
    exact hloaded ppa.pg (by omega) (by omega)

/-- A page that is in memory moves to the write pointer of the collector. -/
theorem Reading.copy {ppa : Ppa}
    (h : Reading g contents victim visit s)
    (hst : Collecting g victim st₀ moved erased s.ftl)
    (hvisit : visit ∈ gcOrder g.toSsdParams)
    (hppa : ppa ∈ flashPages g.toSsdParams victim visit)
    (hstatus : s.ftl.status ppa = .valid) (hmoved : ppa ∉ moved)
    (hok : s.gcWritePage g.toSsdParams secsz ppa = .ok s') :
    Reading g contents victim visit s' := by
  obtain ⟨flash, filled, h, hloaded⟩ := h
  have hline := flashPages_sub hvisit hppa
  have hvalid := validPpa_of_mem hst.victim_lt hline
  obtain ⟨lpn, hrmap, hmaptbl⟩ :=
    hst.mapped.backward ppa hvalid hstatus hmoved
  obtain ⟨entry, hentry, hok⟩ := bind_eq_ok.mp hok
  simp only [getRmapEnt, nvmevAssert, require_bind_eq_ok, pure, Except.pure,
    Except.ok.injEq] at hentry
  obtain ⟨-, rfl⟩ := hentry
  simp only [hrmap, nvmevAssert, require_bind_eq_ok] at hok
  obtain ⟨hlpn, hok⟩ := hok
  simp only [getNewPage_eq hst.accounts .gc, bind_eq_ok, Except.ok.injEq,
    exists_eq_left'] at hok
  obtain ⟨st', hmap, hok⟩ := hok
  obtain rfl := Except.ok.inj hok
  have hspec := mapNewPage_accounts hst.accounts .gc hlpn
  rw [hmap] at hspec
  obtain ⟨-, hprogrammed⟩ := hspec
  -- The page is programmed or waits, so there is data to move.
  have hsome : (flash.stored ppa.block ppa.pg).isSome = true := by
    rw [(h.filled_blocks _).isSome_iff, ← Nat.not_le, ← h.free_iff ppa hvalid,
      hstatus]
    decide
  obtain ⟨data, hdata⟩ := Option.isSome_iff_exists.mp hsome
  have hcontents : contents lpn = some data := by
    rw [← h.data_eq lpn, hmaptbl]
    exact hdata
  set newPpa := (s.ftl.getWp .gc).page with hnewPpa
  set copied : Traced α := Traced.emit ⟨st', s.trace⟩
    [.move ppa newPpa, .nand (gcw g.toSsdParams secsz newPpa)] with hcopied
  have hitem : (TraceItem.move ppa newPpa : TraceItem α).steps g.toSsdParams =
      [.move ppa.block ppa.pg newPpa.block newPpa.pg] := rfl
  have hstep : flash.step g.pgsPerOneshotpg
      (.move ppa.block ppa.pg newPpa.block newPpa.pg) =
        flash.stage newPpa.block newPpa.pg data := by
    change (flash.loaded ppa.block ppa.pg).bind _ = _
    rw [hloaded ppa hppa, hdata]
    rfl
  obtain ⟨flash', filled', hput, hstored, hloaded'⟩ := h.put hst.accounts
    (fun lpn' page _ hmap => ⟨(hst.mapped_page hmap).1,
      (hst.mapped_page hmap).2.1⟩) hprogrammed hitem hstep
    (gcw_steps secsz newPpa) (show copied.ftl.status = st'.status ∧
      copied.ftl.maptbl = st'.maptbl from ⟨rfl, rfl⟩) rfl
  refine ⟨flash', filled', ?_, fun page hpage => ?_⟩
  · rwa [← hcontents, update_eq_self] at hput
  · rw [hloaded', hloaded page hpage, hstored, setPage_of_ne]
    rintro ⟨hblock, hpg⟩
    exact hst.page_other (flashPages_sub hvisit hpage) .gc
      (Ppa.eq_of_block hblock hpg)

/-- A block is erased when no mapped page is left in it. -/
theorem Backed.erase {addr : BlockAddr} (h : Backed g contents s)
    (hst : Collecting g victim st₀ moved erased s.ftl)
    (haddr : addr.blk = victim)
    (hmoved : ∀ ppa ∈ linePages g.toSsdParams victim, ppa.block = addr →
      ppa ∈ moved)
    (hok : s.eraseBlock g.toSsdParams addr = .ok s') : Backed g contents s' := by
  obtain ⟨flash, filled, h⟩ := h
  obtain ⟨block, hfree, -, -, -, -, hpages⟩ :=
    markBlockFree_spec hst.accounts addr
  simp only [Traced.eraseBlock, hfree] at hok
  obtain rfl := Except.ok.inj hok
  obtain ⟨flash', herase, hfilled, hstored⟩ :=
    Flash.erase_spec h.filled_blocks addr
  refine ⟨flash', update filled addr 0, ?_, hfilled, ?_, ?_⟩
  · simp only [Traced.emit, flashAfter_append h.flash_eq, List.flatMap_cons,
      List.flatMap_nil, List.append_nil, TraceItem.steps, Flash.run,
      List.foldlM_cons]
    exact congrArg (· >>= pure) herase
  · intro ppa hppa
    change (((update s.ftl.blocks addr block) ppa.block).pg ppa.pg).status =
      .free ↔ _
    by_cases hblock : ppa.block = addr
    · have hlt := (mem_linePages.mp ((validPpa_iff g ppa).mp hppa).2).2.2.2.2
      rw [hblock, update_self, update_self, hpages, if_pos hlt]
      simp
    · rw [update_of_ne hblock, update_of_ne hblock]
      exact h.free_iff ppa hppa
  · intro lpn
    rw [← h.data_eq lpn]
    change (s.ftl.maptbl lpn).bind _ = _
    cases hmap : s.ftl.maptbl lpn with
    | none => rfl
    | some page =>
        obtain ⟨hvalid, -, hstale⟩ := hst.mapped_page hmap
        have hblock : page.block ≠ addr := by
          intro heq
          apply hstale
          refine hmoved page ?_ heq
          rw [← haddr, ← heq]
          exact ((validPpa_iff g page).mp hvalid).2
        exact congrFun (hstored _ hblock) page.pg

theorem backed_keepsGc (contents : ℕ → Option α) :
    (Traced.carrier g.toSsdParams secsz).KeepsGc (Backed g contents)
      (Reading g contents) where
  select := by
    intro s force victim popped h hselect hs
    rcases selectVictimLine_spec h force with ⟨hnone, -⟩ |
      ⟨victim', popped', hsome, -, -, hsame, -, -⟩
    · rw [hnone] at hselect
      cases hselect
    · rw [hsome] at hselect
      cases hselect
      refine hs.congr rfl (fun ppa => ?_) hsame.maptbl_eq
      change popped.status ppa = .free ↔ s.ftl.status ppa = .free
      rw [hsame.status_eq]
      exact Iff.rfl
  loop := by
    refine fun victim st₀ => ⟨?_, ?_, ?_, ?_⟩
    · rintro moved erased s visit cnt hst hvisit herased ⟨flash, filled, hs⟩
      exact hs.read hst hvisit herased cnt
    · intro moved erased s s' visit ppa hst hvisit hppa hstatus hmoved hs hok
      exact hs.copy hst hvisit hppa hstatus hmoved hok
    · rintro s visit ⟨flash, filled, hs, -⟩
      exact ⟨flash, filled, hs⟩
    · intro moved erased s s' addr hst haddr hmoved hs hok
      exact hs.erase hst haddr hmoved hok
  finish := by
    intro s victim _ hs
    exact hs.congr rfl (fun _ => Iff.rfl) rfl

/-! ## Page writes -/

/-- Dropping the old page of a page number frees no page. -/
theorem dropOldPage_free (h : Accounts g none none st)
    (hmapped : Mapped g (fun _ => False) (fun _ => False) st) {lpn : ℕ}
    (hok : dropOldPage g.toSsdParams st lpn = .ok st') (ppa : Ppa) :
    st'.status ppa = .free ↔ st.status ppa = .free := by
  unfold dropOldPage at hok
  split at hok
  · obtain rfl := Except.ok.inj hok
    exact Iff.rfl
  · rename_i old hmap
    obtain ⟨-, hvalid, hstatus, -, -⟩ := hmapped.forward lpn old hmap id
    obtain ⟨hline, hmem⟩ := (validPpa_iff g old).mp hvalid
    obtain ⟨marked, hmark, -, hrestated⟩ :=
      markPageInvalid_accounts h hline (by simp) hmem hstatus
    simp only [hmark, bind, Except.bind, setRmapEnt_eq marked none hvalid]
      at hok
    obtain rfl := Except.ok.inj hok
    change marked.status ppa = .free ↔ _
    rw [hrestated.status_eq]
    by_cases heq : ppa = old
    · rw [heq, update_self, hstatus]
      decide
    · rw [update_of_ne heq]

theorem host_steps (secsz : ℕ) (ppa : Ppa) :
    (if lastPgInWordline g.toSsdParams ppa then
        [.nand (oneshotWrite g.toSsdParams secsz .user ppa)]
      else [] : List (TraceItem α)).flatMap (TraceItem.steps g.toSsdParams) =
      if lastPgInWordline g.toSsdParams ppa then
        [.program ppa.block ppa.pg] else [] := by
  split
  · rfl
  · rfl

/-- A page write replaces the contents of its page. -/
theorem placePage_backed {written : List ℕ} (hs : Backed g contents s)
    (h : Kept g written s.ftl) {lpn : ℕ} (hlpn : lpn < g.ttPgs) {data : α}
    (hok : s.placePage g.toSsdParams secsz lpn data = .ok s') :
    Backed g (update contents lpn (some data)) s' := by
  obtain ⟨dropped, hdrop, haccounts, hmapped, hmaptbl, -⟩ :=
    dropOldPage_spec h.accounts h.mapped lpn
  have hfree := dropOldPage_free h.accounts h.mapped hdrop
  simp only [Traced.placePage, hdrop, getNewPage_eq haccounts .user,
    bind_eq_ok, Except.ok.injEq, exists_eq_left'] at hok
  obtain ⟨st', hmap, hok⟩ := hok
  obtain rfl := Except.ok.inj hok
  have hspec := mapNewPage_accounts haccounts .user hlpn
  rw [hmap] at hspec
  obtain ⟨-, hprogrammed⟩ := hspec
  obtain ⟨flash, filled, hholds⟩ := hs
  have hdropped : Holds g contents ⟨dropped, s.trace⟩ flash filled :=
    hholds.congr rfl hfree hmaptbl
  set ppa := (dropped.getWp .user).page with hppa
  set placed : Traced α := Traced.emit ⟨consumeWriteCredit st', s.trace⟩
    (.host ppa data :: if lastPgInWordline g.toSsdParams ppa then
      [.nand (oneshotWrite g.toSsdParams secsz .user ppa)] else [])
    with hplaced
  have hitem : (TraceItem.host ppa data).steps g.toSsdParams =
      [.host ppa.block ppa.pg data] := rfl
  obtain ⟨flash', filled', hput, -, -⟩ := hdropped.put haccounts
    (fun lpn' page hne hmap => ⟨(hmapped.forward lpn' page hmap hne).2.1,
      (hmapped.forward lpn' page hmap hne).2.2.1⟩) hprogrammed hitem rfl
    (host_steps secsz ppa) (show placed.ftl.status = st'.status ∧
      placed.ftl.maptbl = st'.maptbl from ⟨rfl, rfl⟩) rfl
  exact ⟨flash', filled', hput⟩

theorem doGc_backed {written : List ℕ} (hs : Backed g contents s)
    (h : Kept g written s.ftl) {force : Bool} {result : Bool × Traced α}
    (hok : (Traced.carrier g.toSsdParams secsz).doGc s force = .ok result) :
    Backed g contents result.2 := by
  have hspec := (Traced.carrier g.toSsdParams secsz).doGc_spec
    (backed_keepsGc contents) h.accounts h.mapped hs force
  rw [hok] at hspec
  exact hspec.2

theorem checkAndRefillWriteCredit_backed {written : List ℕ}
    (hs : Backed g contents s) (h : Kept g written s.ftl)
    (hok : s.checkAndRefillWriteCredit g.toSsdParams secsz = .ok s') :
    Backed g contents s' := by
  unfold Traced.checkAndRefillWriteCredit at hok
  split at hok
  · obtain ⟨collected, hgc, hok⟩ := bind_eq_ok.mp hok
    obtain rfl := Except.ok.inj hok
    suffices hcollected : Backed g contents collected from
      hcollected.congr rfl (fun _ => Iff.rfl) rfl
    unfold Traced.foregroundGc at hgc
    split at hgc
    · obtain ⟨result, hresult, hgc⟩ := bind_eq_ok.mp hgc
      obtain rfl := Except.ok.inj hgc
      exact doGc_backed hs h hresult
    · obtain rfl := Except.ok.inj hgc
      exact hs
  · obtain rfl := Except.ok.inj hok
    exact hs

/-- One iteration of the loop of `conv_write` on the instance of the page. -/
theorem writePage_backed {written : List ℕ} (hs : Backed g contents s)
    (h : Sound g written s.ftl) {lpn : ℕ} (hlpn : lpn < g.ttPgs) (data : α) :
    Ends (fun s' => Sound g (written ++ [lpn]) s'.ftl ∧
        Backed g (update contents lpn (some data)) s')
      (fun e => e = .nullLine ∧ ¬ Small g (written ++ [lpn]))
      (s.writePage g.toSsdParams secsz lpn data) := by
  have hsound := writePage_sound h hlpn
  rw [← Traced.ftl_writePage g.toSsdParams secsz s lpn data, Ends.map_iff]
    at hsound
  refine hsound.and_of_ok fun s' hok _ => ?_
  obtain ⟨placed, hplace, hok⟩ := bind_eq_ok.mp hok
  have hkept := placePage_kept h.toKept hlpn
  rw [← Traced.ftl_placePage g.toSsdParams secsz s lpn data, Ends.map_iff,
    hplace] at hkept
  exact checkAndRefillWriteCredit_backed
    (placePage_backed hs h.toKept hlpn hplace) hkept.1 hok

end Steps

/-! ## Namespaces -/

/-- What the host has written last to every page. -/
def hostContents (writes : List (ℕ × α)) : ℕ → Option α :=
  writes.foldl (fun contents write => update contents write.1 (some write.2))
    fun _ => none

theorem hostContents_append (writes : List (ℕ × α)) (write : ℕ × α) :
    hostContents (writes ++ [write]) =
      update (hostContents writes) write.1 (some write.2) := by
  rw [hostContents, List.foldl_append]
  rfl

/-- The flash memory of every instance takes the commands it is sent, and holds
the contents of the pages of the instance where its table says. -/
def DataKept (g : Geometry) (nrParts : ℕ) (contents : ℕ → Option α)
    (ns : ℕ → Traced α) : Prop :=
  ∀ part < nrParts, ∃ flash,
    flashAfter g.toSsdParams (ns part).trace = some flash ∧
      ∀ lpn, lpn % nrParts = part →
        ((lookup nrParts (fun part => (ns part).ftl) lpn).bind fun ppa =>
          flash.stored ppa.block ppa.pg) = contents lpn

/-- The contents of the pages of one instance. -/
def partContents (nrParts part : ℕ) (contents : ℕ → Option α) :
    ℕ → Option α :=
  fun localLpn => contents (localLpn * nrParts + part)

section Namespace

variable {nrParts secsz : ℕ}

theorem eq_of_parts {part localLpn lpn : ℕ} (hpart : part < nrParts) :
    localLpn * nrParts + part = lpn ↔
      part = lpn % nrParts ∧ localLpn = lpn / nrParts := by
  have hpos : 0 < nrParts := by omega
  rw [Nat.mul_comm, Nat.add_comm, eq_comm (a := part),
    eq_comm (a := localLpn), and_comm, Nat.div_mod_unique hpos]
  exact (and_iff_left hpart).symm

theorem partContents_own (contents : ℕ → Option α) (value : Option α)
    {part lpn : ℕ} (hpart : part < nrParts) (hown : part = lpn % nrParts) :
    partContents nrParts part (update contents lpn value) =
      update (partContents nrParts part contents) (lpn / nrParts) value := by
  funext localLpn
  have hiff : localLpn * nrParts + part = lpn ↔ localLpn = lpn / nrParts :=
    (eq_of_parts hpart).trans (and_iff_right hown)
  simp only [partContents, update_apply, hiff]

theorem partContents_other (contents : ℕ → Option α) (value : Option α)
    {part lpn : ℕ} (hpart : part < nrParts) (hother : part ≠ lpn % nrParts) :
    partContents nrParts part (update contents lpn value) =
      partContents nrParts part contents := by
  funext localLpn
  have hne : localLpn * nrParts + part ≠ lpn :=
    fun heq => hother ((eq_of_parts hpart).mp heq).1
  simp only [partContents, update_of_ne hne]

/-- Every instance is sound for its share of the writes and backed by flash. -/
def StripedData (g : Geometry) (nrParts : ℕ) (writes : List (ℕ × α))
    (ns : ℕ → Traced α) : Prop :=
  Striped g nrParts (writes.map Prod.fst) (fun part => (ns part).ftl) ∧
    ∀ part < nrParts,
      Backed g (partContents nrParts part (hostContents writes)) (ns part)

theorem writeLpn_stripedData (hparts : 0 < nrParts) {writes : List (ℕ × α)}
    {ns : ℕ → Traced α} (h : StripedData g nrParts writes ns)
    {write : ℕ × α} (hlpn : write.1 / nrParts < g.ttPgs) :
    Ends (StripedData g nrParts (writes ++ [write]))
      (fun e => e = .nullLine ∧ ¬ Small g (partLpns nrParts
        (write.1 % nrParts) ((writes ++ [write]).map Prod.fst)))
      (Traced.writeLpn g.toSsdParams secsz nrParts ns write) := by
  have hpart := Nat.mod_lt write.1 hparts
  have hstriped := writeLpn_striped h.1 hlpn
  rw [← Traced.ftl_writeLpn g.toSsdParams secsz nrParts ns write, Ends.map_iff]
    at hstriped
  unfold StripedData
  simp only [List.map_append, List.map_cons, List.map_nil]
  refine hstriped.and_of_ok fun ns' hok _ part hlt => ?_
  obtain ⟨s', hwrite, hok⟩ := bind_eq_ok.mp hok
  obtain rfl := Except.ok.inj hok
  have hbacked : Ends _ _ ((ns (write.1 % nrParts)).writePage g.toSsdParams
      secsz (write.1 / nrParts) write.2) :=
    writePage_backed (h.2 _ hpart) (h.1 _) hlpn write.2
  rw [hwrite] at hbacked
  rw [hostContents_append]
  by_cases heq : part = write.1 % nrParts
  · rw [partContents_own _ _ hlt heq, heq, update_self]
    exact hbacked.2
  · rw [partContents_other _ _ hlt heq, update_of_ne heq]
    exact h.2 part hlt

theorem StripedData.dataKept {writes : List (ℕ × α)} {ns : ℕ → Traced α}
    (h : StripedData g nrParts writes ns) :
    DataKept g nrParts (hostContents writes) ns := by
  intro part hlt
  obtain ⟨flash, filled, hholds⟩ := h.2 part hlt
  refine ⟨flash, hholds.flash_eq, ?_⟩
  rintro lpn rfl
  have hown := hholds.data_eq (lpn / nrParts)
  rwa [partContents, Nat.div_add_mod'] at hown

theorem initial_backed (g : Geometry) :
    Backed g (fun _ => none) (⟨initialFtl g, []⟩ : Traced α) := by
  refine ⟨Flash.blank, fun _ => 0, rfl, fun addr =>
    Flash.filled_blank _ addr, fun ppa _ => ?_, fun _ => rfl⟩
  simp [initialFtl_status]

/-- After any write commands and the first `k` pages of another one, the NAND
has been sent only commands that flash can take, and every page that the host
has written is found with its last data through the mapping table, garbage
collection or not.  The run gets there unless some instance has taken more pages
than garbage collection is sure to sustain. -/
theorem conv_write_data (g : Geometry) {st₀ : ConvFtl}
    (hinit : convInitFtl g.toSsdParams = .ok st₀) (hparts : 0 < nrParts)
    (secsz : ℕ) (cmds : List (WriteCmd × (ℕ → α)))
    (cmd : WriteCmd × (ℕ → α)) (k : ℕ) :
    let writes := cmds.flatMap (Traced.writes g.toSsdParams nrParts) ++
      (Traced.writes g.toSsdParams nrParts cmd).take k
    Ends (DataKept g nrParts (hostContents writes))
      (fun e => e = .nullLine ∧ ∃ part < nrParts,
        ¬ Small g (partLpns nrParts part (writes.map Prod.fst)))
      (do
        let ns ← cmds.foldlM (Traced.convWrite g.toSsdParams secsz nrParts)
          fun _ => ⟨st₀, []⟩
        ((Traced.writes g.toSsdParams nrParts cmd).take k).foldlM
          (Traced.writeLpn g.toSsdParams secsz nrParts) ns) := by
  obtain ⟨hlines, rfl⟩ := convInitFtl_eq_ok.mp hinit
  intro writes
  have hcommand : ∀ cmd : WriteCmd × (ℕ → α),
      ∀ write ∈ Traced.writes g.toSsdParams nrParts cmd,
        write.1 / nrParts < g.ttPgs := by
    intro cmd write hmem
    obtain ⟨lpn, hlpn, rfl⟩ := List.mem_map.mp hmem
    exact WriteCmd.lpns_lt hlpn
  have hrange : ∀ write ∈ writes, write.1 / nrParts < g.ttPgs := by
    intro write hmem
    rcases List.mem_append.mp hmem with hmem | hmem
    · obtain ⟨earlier, -, hwrite⟩ := List.mem_flatMap.mp hmem
      exact hcommand earlier write hwrite
    · exact hcommand cmd write (List.mem_of_mem_take hmem)
  have hrun : (do
      let ns ← cmds.foldlM (Traced.convWrite g.toSsdParams secsz nrParts)
        fun _ => ⟨initialFtl g, []⟩
      ((Traced.writes g.toSsdParams nrParts cmd).take k).foldlM
        (Traced.writeLpn g.toSsdParams secsz nrParts) ns) =
      writes.foldlM (Traced.writeLpn g.toSsdParams secsz nrParts)
        fun _ => ⟨initialFtl g, []⟩ := by
    rw [List.foldlM_append, ← foldlM_flatMap]
    rfl
  rw [hrun]
  have hstriped : Ends (StripedData g nrParts writes)
      (fun e => e = .nullLine ∧ ∃ part < nrParts,
        ¬ Small g (partLpns nrParts part (writes.map Prod.fst)))
      (writes.foldlM (Traced.writeLpn g.toSsdParams secsz nrParts)
        fun _ => ⟨initialFtl g, []⟩) := by
    apply Ends.foldlM (StripedData g nrParts)
    · intro before write after ns hsplit hns
      refine (writeLpn_stripedData hparts hns
        (hrange write (by simp [hsplit]))).mono (fun _ => id) ?_
      rintro e ⟨rfl, hmany⟩
      refine ⟨rfl, write.1 % nrParts, Nat.mod_lt _ hparts,
        fun hsmall => hmany ?_⟩
      exact hsmall.of_subset (partLpns_subset (by simp [hsplit]) _)
    · exact ⟨fun part => initialFtl_sound hlines,
        fun part _ => initial_backed g⟩
  exact hstriped.mono (fun _ hns => hns.dataKept) (fun _ => id)

end Namespace

theorem conv_write_data_small :
    let writes := [(⟨0, 31, true⟩, fun lpn => lpn), (⟨8, 7, true⟩, fun _ =>
        70)].flatMap (Traced.writes smallGeometry.toSsdParams 2) ++
      (Traced.writes smallGeometry.toSsdParams 2
        (⟨0, 15, true⟩, fun lpn => lpn + 80)).take 1
    Ends (DataKept smallGeometry 2 (hostContents writes))
      (fun e => e = .nullLine ∧ ∃ part < 2,
        ¬ Small smallGeometry (partLpns 2 part (writes.map Prod.fst)))
      (do
        let ns ← [(⟨0, 31, true⟩, fun lpn => lpn), (⟨8, 7, true⟩, fun _ =>
            70)].foldlM (Traced.convWrite smallGeometry.toSsdParams 512 2)
          fun _ => ⟨initialFtl smallGeometry, []⟩
        ((Traced.writes smallGeometry.toSsdParams 2
          (⟨0, 15, true⟩, fun lpn => lpn + 80)).take 1).foldlM
            (Traced.writeLpn smallGeometry.toSsdParams 512 2) ns) :=
  conv_write_data smallGeometry
    (convInitFtl_eq_ok.mpr ⟨by decide, rfl⟩) (by decide) 512 _ _ 1

end NvmeVirt.Ftl
