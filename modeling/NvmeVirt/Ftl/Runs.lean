import NvmeVirt.Ftl.Collect

/-!
# Runs of the FTL

The invariant of one FTL instance over page writes and garbage collections, and
what it says about whole runs: the mapping tables, the line accounting, and the
supply of free lines.
-/

namespace NvmeVirt.Ftl

open Function NvmeVirt.Outcome

variable {g : Geometry} {st : ConvFtl}

/-- Invariant of an FTL instance on which the given pages have been written. -/
structure Kept (g : Geometry) (written : List ℕ) (st : ConvFtl) : Prop where
  accounts : Accounts g none none st
  mapped : Mapped g (fun _ => False) (fun _ => False) st
  mapped_iff : ∀ lpn, (st.maptbl lpn).isSome = true ↔ lpn ∈ written

/-! ## Where the lines are -/

/-- The five places of a line, one after the other. -/
def ConvFtl.places (st : ConvFtl) : List ℕ :=
  st.freeLineList ++ st.fullLineList ++ st.victimLinePq.elements ++
    [st.wp.curline, st.gcWp.curline]

theorem Accounts.places_perm (h : Accounts g none none st) :
    st.places.Perm (List.range g.ttLines) := by
  rw [List.perm_iff_count]
  intro line
  have hrange : (List.range g.ttLines).count line =
      if line < g.ttLines then 1 else 0 := by
    rw [List.nodup_range.count]
    simp only [List.mem_range]
  rw [hrange, ← h.slots_eq line]
  have hcurlines : [st.wp.curline, st.gcWp.curline].count line =
      [st.wp.curline].count line + [st.gcWp.curline].count line := by
    rw [← List.singleton_append, List.count_append]
  have hqueue : st.victimLinePq.elements.count line =
      min (st.victimLinePq.pos line) 1 := by
    rw [Pqueue.count_elements h.pq_valid]
    split <;> omega
  simp only [ConvFtl.places, List.count_append, slots, hcurlines, hqueue,
    Option.toList_none, List.count_nil]
  omega

/-- Every page of a full line is valid. -/
theorem Accounts.full_valid (h : Accounts g none none st) {line : ℕ}
    (hline : line ∈ st.fullLineList) {ppa : Ppa}
    (hppa : ppa ∈ linePages g.toSsdParams line) : st.status ppa = .valid := by
  have htotal := pageCount_total (linePages g.toSsdParams line) st.status
  rw [card_linePages, ← (h.line_tally line (by simp)).1, h.full_vpc line hline]
    at htotal
  have hfree := pageCount_eq_zero.mp (show pageCount
    (linePages g.toSsdParams line) st.status .free = 0 by omega) ppa hppa
  have hinvalid := pageCount_eq_zero.mp (show pageCount
    (linePages g.toSsdParams line) st.status .invalid = 0 by omega) ppa hppa
  cases hstatus : st.status ppa with
  | free => exact absurd hstatus hfree
  | invalid => exact absurd hstatus hinvalid
  | valid => rfl

/-- The full lines hold different logical pages. -/
theorem Kept.full_pages_le {written : List ℕ} (h : Kept g written st) :
    st.fullLineList.length * g.pgsPerLine ≤ written.toFinset.card := by
  have hplaces := h.accounts.places_perm.nodup_iff.mpr List.nodup_range
  have hnodup : st.fullLineList.Nodup :=
    hplaces.sublist ((List.sublist_append_right _ _).trans
      ((List.sublist_append_left _ _).trans (List.sublist_append_left _ _)))
  set pages := st.fullLineList.toFinset.biUnion (linePages g.toSsdParams)
    with hpages
  have hcard : pages.card = st.fullLineList.length * g.pgsPerLine := by
    rw [hpages, Finset.card_biUnion]
    · simp only [card_linePages, Finset.sum_const, smul_eq_mul,
        List.toFinset_card_of_nodup hnodup]
    · intro line _ line' _ hne
      rw [Function.onFun, Finset.disjoint_left]
      intro ppa hppa hppa'
      exact hne ((mem_linePages.mp hppa).2.2.2.1.symm.trans
        (mem_linePages.mp hppa').2.2.2.1)
  -- A page of a full line is valid, so its entry of `rmap` leads back to it.
  have hback : ∀ ppa ∈ pages, ∃ lpn,
      st.rmap (ppa2pgidx g.toSsdParams ppa) = some lpn ∧
        st.maptbl lpn = some ppa := by
    intro ppa hppa
    rw [hpages, Finset.mem_biUnion] at hppa
    obtain ⟨line, hline, hmem⟩ := hppa
    rw [List.mem_toFinset] at hline
    exact h.mapped.backward ppa
      (validPpa_of_mem (h.accounts.full_alone hline).1 hmem)
      (h.accounts.full_valid hline hmem) id
  rw [← hcard]
  apply Finset.card_le_card_of_injOn
    (fun ppa => (st.rmap (ppa2pgidx g.toSsdParams ppa)).getD 0)
  · intro ppa hppa
    obtain ⟨lpn, hrmap, hmaptbl⟩ := hback ppa hppa
    simp only [hrmap, Option.getD_some]
    rw [Finset.mem_coe, List.mem_toFinset, ← h.mapped_iff, hmaptbl]
    rfl
  · intro ppa hppa ppa' hppa' heq
    obtain ⟨lpn, hrmap, hmaptbl⟩ := hback ppa hppa
    obtain ⟨lpn', hrmap', hmaptbl'⟩ := hback ppa' hppa'
    simp only [hrmap, hrmap', Option.getD_some] at heq
    rw [heq, hmaptbl'] at hmaptbl
    exact (Option.some.inj hmaptbl).symm

/-- So few logical pages that garbage collection always finds a victim. -/
def Small (g : Geometry) (written : List ℕ) : Prop :=
  5 ≤ g.ttLines ∧ written.toFinset.card < (g.ttLines - 4) * g.pgsPerLine

theorem Small.of_subset {written written' : List ℕ} (h : Small g written')
    (hsub : written ⊆ written') : Small g written := by
  refine ⟨h.1, lt_of_le_of_lt (Finset.card_le_card ?_) h.2⟩
  intro lpn hlpn
  rw [List.mem_toFinset] at hlpn ⊢
  exact hsub hlpn

/-- With two free lines and two open ones, the others cannot all be full. -/
theorem Kept.exists_victim {written : List ℕ} (h : Kept g written st)
    (hsmall : Small g written) (hlow : st.freeLineCnt ≤ 2) :
    ∃ line, st.victimLinePq.pos line ≠ 0 := by
  by_contra hnone
  push Not at hnone
  have hempty : st.victimLinePq.elements = [] := by
    rw [List.eq_nil_iff_forall_not_mem]
    intro line hline
    exact (Pqueue.mem_elements h.accounts.pq_valid).mp hline (hnone line)
  have hlength := h.accounts.places_perm.length_eq
  simp only [ConvFtl.places, hempty, List.length_append, List.length_cons,
    List.length_nil, List.length_range] at hlength
  have hfree := h.accounts.free_cnt
  have hlines : g.ttLines - 4 ≤ st.fullLineList.length := by omega
  have hpages := Nat.mul_le_mul_right g.pgsPerLine hlines
  exact absurd hsmall.2 (not_lt.mpr (hpages.trans h.full_pages_le))

/-! ## Page writes -/

theorem dropOldPage_spec (h : Accounts g none none st)
    (hmapped : Mapped g (fun _ => False) (fun _ => False) st) (lpn : ℕ) :
    ∃ st', dropOldPage g.toSsdParams st lpn = .ok st' ∧
      Accounts g none none st' ∧
      Mapped g (fun _ => False) (· = lpn) st' ∧ st'.maptbl = st.maptbl ∧
      (∀ ppa, st'.maptbl lpn = some ppa → st'.status ppa ≠ .valid) ∧
      freePages g st' = freePages g st ∧
      st'.writeCredits = st.writeCredits ∧
      st'.creditsToRefill = st.creditsToRefill := by
  cases hlpn : st.maptbl lpn with
  | none =>
      refine ⟨st, by rw [dropOldPage, hlpn], h, ⟨?_, hmapped.backward⟩, rfl, ?_,
        rfl, rfl, rfl⟩
      · exact fun lpn' ppa hmap _ => hmapped.forward lpn' ppa hmap id
      · simp [hlpn]
  | some ppa =>
      obtain ⟨-, hvalid, hstatus, -, -⟩ := hmapped.forward lpn ppa hlpn id
      obtain ⟨hline, hmem⟩ := (validPpa_iff g ppa).mp hvalid
      obtain ⟨marked, hmark, hmarked, hrestated⟩ :=
        markPageInvalid_accounts h hline (by simp) hmem hstatus
      refine ⟨{ marked with
        rmap := update marked.rmap (ppa2pgidx g.toSsdParams ppa) none }, ?_,
        hmarked.withTables _ _ _ _, ?_, hrestated.maptbl_eq, ?_, ?_,
        hrestated.writeCredits_eq, hrestated.creditsToRefill_eq⟩
      · simp only [dropOldPage, hlpn, hmark]
        exact setRmapEnt_eq marked none hvalid
      · refine hmapped.drop hlpn hrestated.status_eq hrestated.maptbl_eq ?_
        rw [hrestated.rmap_eq]
      · intro page hpage
        have heq : page = ppa := by
          have hmap : marked.maptbl lpn = some page := hpage
          rw [hrestated.maptbl_eq, hlpn] at hmap
          exact (Option.some.inj hmap).symm
        have hnow : marked.status page = .invalid := by
          rw [hrestated.status_eq, heq, update_self]
        change marked.status page ≠ .valid
        rw [hnow]
        simp
      · simp only [freePages, hrestated.wp_eq, hrestated.gcWp_eq,
          hrestated.free_eq]

/-- A page is written: it costs one free page and one credit. -/
theorem placePage_kept {written : List ℕ} (h : Kept g written st) {lpn : ℕ}
    (hlpn : lpn < g.ttPgs) :
    Ends (fun st' => Kept g (written ++ [lpn]) st' ∧
        freePages g st' + 1 = freePages g st ∧
        (0 < st.writeCredits → st'.writeCredits = st.writeCredits - 1) ∧
        st'.creditsToRefill = st.creditsToRefill)
      (fun e => e = .nullLine ∧ freePages g st ≤ g.pgsPerLine + 1)
      (placePage g.toSsdParams st lpn) := by
  obtain ⟨dropped, hdrop, haccounts, hdropped, hmaptbl, hold, hpages, hcredits,
    hrefill⟩ := dropOldPage_spec h.accounts h.mapped lpn
  have hplace : placePage g.toSsdParams st lpn =
      mapNewPage g.toSsdParams dropped .user lpn >>=
        fun st => .ok (consumeWriteCredit st) := by
    simp only [placePage, hdrop]
    rfl
  rw [hplace, ← hpages]
  refine (mapNewPage_accounts haccounts .user hlpn).bind ?_
  rintro st' ⟨haccounts', hprogrammed⟩
  have hmapped' : Mapped g (fun _ => False) (fun _ => False) st' :=
    hdropped.program hlpn (haccounts.page_valid .user)
      (haccounts.page_free .user) (fun _ => id) hprogrammed.status_eq
      hprogrammed.maptbl_eq hprogrammed.rmap_eq (fun _ => id) id
      (fun page hmap hvalid => absurd hvalid (hold page hmap))
      (fun _ _ _ _ => id)
  have hkept : Kept g (written ++ [lpn]) (consumeWriteCredit st') := by
    refine ⟨haccounts'.withTables st'.maptbl st'.rmap _ st'.creditsToRefill,
      hmapped'.withCredits _ st'.creditsToRefill, ?_⟩
    intro lpn'
    change (st'.maptbl lpn').isSome = true ↔ _
    rw [hprogrammed.maptbl_eq, hmaptbl, List.mem_append, List.mem_singleton,
      ← h.mapped_iff]
    by_cases heq : lpn' = lpn
    · simp [heq]
    · simp [heq]
  refine ⟨hkept, hprogrammed.freePages_eq, ?_,
    hprogrammed.creditsToRefill_eq.trans hrefill⟩
  intro hpos
  rw [← hcredits, ← hprogrammed.writeCredits_eq] at hpos ⊢
  exact if_neg (by omega)

theorem doGc_kept {written : List ℕ} (h : Kept g written st) (force : Bool) :
    Ends (fun result => Kept g written result.2 ∧
        result.2.writeCredits = st.writeCredits ∧
        if result.1 then
          freePages g result.2 = freePages g st + result.2.creditsToRefill ∧
            0 < result.2.creditsToRefill ∧
            result.2.creditsToRefill ≤ g.pgsPerLine
        else result.2 = st ∧
          (force = true → ∀ line, st.victimLinePq.pos line = 0))
      (fun e => e = .nullLine ∧ freePages g st ≤ 2 * g.pgsPerLine)
      (doGc g.toSsdParams st force) := by
  refine (doGc_spec h.accounts h.mapped force).mono ?_ (fun _ => id)
  intro result hresult
  refine ⟨⟨hresult.accounts, hresult.mapped, fun lpn => ?_⟩,
    hresult.writeCredits_eq, hresult.gain⟩
  rw [hresult.domain, h.mapped_iff]

/-- The reserve of free pages: beyond the write credits there is always a line
for each write pointer. -/
structure Reserve (g : Geometry) (st : ConvFtl) : Prop where
  credits_le : st.writeCredits ≤ g.pgsPerLine
  refill_pos : 0 < st.creditsToRefill
  refill_le : st.creditsToRefill ≤ g.pgsPerLine
  reserve : st.writeCredits + 2 * g.pgsPerLine + 2 ≤ freePages g st

/-- Few pages have been written and the reserve is there. -/
def Stocked (g : Geometry) (written : List ℕ) (st : ConvFtl) : Prop :=
  Small g written ∧ Reserve g st

/-- With few free lines, garbage collection cleans a line and gains its invalid
pages. -/
theorem doGc_stocked {written : List ℕ} (h : Kept g written st)
    (hlow : shouldGcHigh st = true) :
    Ends (fun result => Kept g written result.2 ∧
        result.2.writeCredits = st.writeCredits ∧ (Stocked g written st →
          result.1 = true ∧
          freePages g result.2 = freePages g st + result.2.creditsToRefill ∧
          0 < result.2.creditsToRefill ∧
          result.2.creditsToRefill ≤ g.pgsPerLine))
      (fun e => e = .nullLine ∧ ¬ Stocked g written st)
      (doGc g.toSsdParams st true) := by
  refine (doGc_kept h true).mono ?_ ?_
  · rintro ⟨cleaned, st'⟩ ⟨hkept, hcredits, hgain⟩
    refine ⟨hkept, hcredits, fun hstocked => ?_⟩
    cases cleaned with
    | true => exact ⟨rfl, hgain⟩
    | false =>
        obtain ⟨line, hline⟩ := h.exists_victim hstocked.1
          (of_decide_eq_true hlow)
        exact absurd (hgain.2 rfl line) hline
  · rintro e ⟨rfl, hpages⟩
    refine ⟨rfl, fun hstocked => ?_⟩
    have hreserve := hstocked.2.reserve
    omega

/-- After `foreground_gc` there is room for as many pages as are refilled. -/
theorem foregroundGc_stocked {written : List ℕ} (h : Kept g written st) :
    Ends (fun st' => Kept g written st' ∧
        st'.writeCredits = st.writeCredits ∧ (Stocked g written st →
          0 < st'.creditsToRefill ∧ st'.creditsToRefill ≤ g.pgsPerLine ∧
          st'.creditsToRefill + 2 * g.pgsPerLine + 2 ≤ freePages g st'))
      (fun e => e = .nullLine ∧ ¬ Stocked g written st)
      (foregroundGc g.toSsdParams st) := by
  by_cases hlow : shouldGcHigh st = true
  · rw [foregroundGc, if_pos hlow]
    refine (doGc_stocked h hlow).bind ?_
    rintro ⟨cleaned, st'⟩ ⟨hkept, hcredits, hgain⟩
    refine ⟨hkept, hcredits, fun hstocked => ?_⟩
    obtain ⟨-, hpages, hpos, hle⟩ := hgain hstocked
    simp only at hpages
    have hreserve := hstocked.2.reserve
    exact ⟨hpos, hle, by omega⟩
  · rw [foregroundGc, if_neg hlow]
    refine ⟨h, rfl, fun hstocked => ?_⟩
    -- Three free lines and the pages under the two pointers.
    have hcnt : 3 ≤ st.freeLineList.length := by
      have hmany : ¬ st.freeLineCnt ≤ 2 := fun hle => hlow (decide_eq_true hle)
      have hfree := h.accounts.free_cnt
      omega
    have hlines := Nat.mul_le_mul_right g.pgsPerLine hcnt
    have huser := (h.accounts.pointer_at .user).index_lt
    have hgc := (h.accounts.pointer_at .gc).index_lt
    simp only [ConvFtl.getWp] at huser hgc
    have hle := hstocked.2.refill_le
    refine ⟨hstocked.2.refill_pos, hle, ?_⟩
    simp only [freePages]
    omega

/-- `check_and_refill_write_credit` leaves at least one credit. -/
theorem checkAndRefillWriteCredit_stocked {written : List ℕ}
    (h : Kept g written st) :
    Ends (fun st' => Kept g written st' ∧ (Stocked g written st →
        Stocked g written st' ∧ 0 < st'.writeCredits))
      (fun e => e = .nullLine ∧ ¬ Stocked g written st)
      (checkAndRefillWriteCredit g.toSsdParams st) := by
  by_cases hzero : st.writeCredits = 0
  · rw [checkAndRefillWriteCredit, if_pos hzero]
    refine (foregroundGc_stocked h).bind ?_
    rintro st' ⟨hkept, hcredits, hroom⟩
    refine ⟨⟨hkept.accounts.withTables st'.maptbl st'.rmap _
      st'.creditsToRefill, hkept.mapped.withCredits _ st'.creditsToRefill,
      hkept.mapped_iff⟩, fun hstocked => ?_⟩
    obtain ⟨hpos, hle, hpages⟩ := hroom hstocked
    have hsum : (st'.writeCredits + st'.creditsToRefill) % 2 ^ 32 =
        st'.creditsToRefill := by
      have hline := g.pgsPerLine_lt
      rw [hcredits, hzero, zero_add, Nat.mod_eq_of_lt (by omega)]
    refine ⟨⟨hstocked.1, hsum.trans_le hle, hpos, hle, ?_⟩,
      hpos.trans_eq hsum.symm⟩
    exact (congrArg (· + 2 * g.pgsPerLine + 2) hsum).trans_le hpages
  · rw [checkAndRefillWriteCredit, if_neg hzero]
    exact ⟨h, fun hstocked => ⟨hstocked, Nat.pos_of_ne_zero hzero⟩⟩

/-- Between page writes there is a credit left, as long as the written pages
are few. -/
structure Sound (g : Geometry) (written : List ℕ) (st : ConvFtl) : Prop
    extends Kept g written st where
  reserve : Small g written → Reserve g st
  credits_pos : Small g written → 0 < st.writeCredits

/-- With the reserve, a page is written without running out of free lines. -/
theorem placePage_sound {written : List ℕ} (h : Sound g written st) {lpn : ℕ}
    (hlpn : lpn < g.ttPgs) :
    Ends (fun st' => Kept g (written ++ [lpn]) st' ∧
        (Small g (written ++ [lpn]) → Reserve g st'))
      (fun e => e = .nullLine ∧ ¬ Small g (written ++ [lpn]))
      (placePage g.toSsdParams st lpn) := by
  have hbefore : Small g (written ++ [lpn]) → Small g written :=
    fun hsmall => hsmall.of_subset (List.subset_append_left _ _)
  refine (placePage_kept h.toKept hlpn).mono ?_ ?_
  · rintro st' ⟨hkept, hpages, hcredits, hrefill⟩
    refine ⟨hkept, fun hsmall => ?_⟩
    have hroom := h.reserve (hbefore hsmall)
    have hpos := h.credits_pos (hbefore hsmall)
    have hreserve := hroom.reserve
    have hle := hroom.credits_le
    specialize hcredits hpos
    exact ⟨by omega, hrefill ▸ hroom.refill_pos, hrefill ▸ hroom.refill_le,
      by omega⟩
  · rintro e ⟨rfl, hlow⟩
    refine ⟨rfl, fun hsmall => ?_⟩
    have hreserve := (h.reserve (hbefore hsmall)).reserve
    omega

/-- One iteration of the loop of `conv_write`. -/
theorem writePage_sound {written : List ℕ} (h : Sound g written st) {lpn : ℕ}
    (hlpn : lpn < g.ttPgs) :
    Ends (Sound g (written ++ [lpn]))
      (fun e => e = .nullLine ∧ ¬ Small g (written ++ [lpn]))
      (writePage g.toSsdParams st lpn) := by
  refine (placePage_sound h hlpn).bind ?_
  rintro mid ⟨hkept, hreserve⟩
  refine (checkAndRefillWriteCredit_stocked hkept).mono ?_ ?_
  · rintro st' ⟨hkept', hstocked⟩
    refine ⟨hkept', fun hsmall => ?_, fun hsmall => ?_⟩
    · exact (hstocked ⟨hsmall, hreserve hsmall⟩).1.2
    · exact (hstocked ⟨hsmall, hreserve hsmall⟩).2
  · rintro e ⟨rfl, hnot⟩
    exact ⟨rfl, fun hsmall => hnot ⟨hsmall, hreserve hsmall⟩⟩

/-! ## The initial state -/

/-- What `conv_init_ftl` leaves: the write pointers stand at the start of the
first two lines. -/
def initialFtl (g : Geometry) : ConvFtl :=
  { initTables g.toSsdParams with
    wp := ⟨0, 0, 0, 0, 0, 0⟩
    gcWp := ⟨1, 0, 0, 0, 1, 0⟩
    freeLineList := List.range' 2 (g.ttLines - 2)
    freeLineCnt := g.ttLines - 2
    writeCredits := g.pgsPerLine
    creditsToRefill := g.pgsPerLine }

theorem convInitFtl_eq_ok {st₀ : ConvFtl} :
    convInitFtl g.toSsdParams = .ok st₀ ↔
      2 ≤ g.ttLines ∧ st₀ = initialFtl g := by
  have hcredits : g.pgsPerLine % 2 ^ 32 = g.pgsPerLine :=
    Nat.mod_eq_of_lt (by have := g.pgsPerLine_lt; omega)
  rw [convInitFtl, nvmevAssert, require_bind g.ttLines_eq.symm, hcredits]
  rcases hlines : g.ttLines with _ | _ | lines
  · simp [prepareWritePointer, getNextFreeLine, initTables, hlines, bind,
      Except.bind]
  · simp [prepareWritePointer, getNextFreeLine, initTables, hlines, bind,
      Except.bind, ConvFtl.listDelInit, ConvFtl.setWp]
  · have hrange : List.range (lines + 2) = 0 :: 1 :: List.range' 2 lines := by
      rw [List.range_eq_range', List.range'_succ, List.range'_succ]
    simp [prepareWritePointer, getNextFreeLine, initTables, hlines, bind,
      Except.bind, ConvFtl.listDelInit, ConvFtl.setWp, hrange, pure,
      Except.pure, initialFtl, eq_comm]

theorem initialFtl_status (g : Geometry) (ppa : Ppa) :
    (initialFtl g).status ppa = .free := rfl

theorem initialFtl_pageCount (g : Geometry) (pages : Finset Ppa)
    {value : PageStatus} (hvalue : value ≠ .free) :
    pageCount pages (initialFtl g).status value = 0 := by
  rw [pageCount_eq_zero]
  intro ppa _
  rw [initialFtl_status]
  exact hvalue.symm

theorem initialFtl_slots (hlines : 2 ≤ g.ttLines) (line : ℕ) :
    slots (initialFtl g) none line = if line < g.ttLines then 1 else 0 := by
  have hfree : (List.range' 2 (g.ttLines - 2)).count line =
      if 2 ≤ line ∧ line < g.ttLines then 1 else 0 := by
    rw [List.Nodup.count List.nodup_range']
    simp only [List.mem_range'_1, Nat.add_sub_cancel' hlines]
  simp only [slots, initialFtl, initTables, hfree, List.count_nil,
    List.count_singleton, Option.toList_none, beq_iff_eq]
  split_ifs <;> omega

theorem initialFtl_accounts (hlines : 2 ≤ g.ttLines) :
    Accounts g none none (initialFtl g) where
  pq_valid := ⟨by simp [initialFtl, initTables], by
    intro i hi hlt
    simp only [initialFtl, initTables] at hlt
    omega, by simp [initialFtl, initTables]⟩
  slots_eq := initialFtl_slots hlines
  free_cnt := by simp [initialFtl]
  full_cnt := rfl
  victim_cnt := rfl
  line_id := fun _ => rfl
  nsecs_eq := fun _ _ => rfl
  npgs_eq := fun _ => rfl
  block_tally := fun addr =>
    ⟨(initialFtl_pageCount g _ (by decide)).symm,
      (initialFtl_pageCount g _ (by decide)).symm⟩
  line_tally := fun line _ =>
    ⟨(initialFtl_pageCount g _ (by decide)).symm,
      (initialFtl_pageCount g _ (by decide)).symm⟩
  free_pages := fun _ _ _ _ => rfl
  full_vpc := by simp [initialFtl, initTables]
  victim_pages := by simp [initialFtl, initTables]
  pointer_at := by
    intro io
    have hindex : ((initialFtl g).getWp io).index g.toSsdParams = 0 := by
      cases io <;> exact writeIndex_zero g.toSsdParams
    have hstart : PointerAt g.toSsdParams (initialFtl g)
        ((initialFtl g).getWp io) 0 := by
      cases io <;> exact PointerAt.opened (fun _ _ => rfl) rfl rfl
    simpa [hindex] using hstart

theorem initialFtl_freePages (hlines : 2 ≤ g.ttLines) :
    freePages g (initialFtl g) = g.ttLines * g.pgsPerLine := by
  have hindex : writeIndex g.toSsdParams 0 0 0 = 0 := writeIndex_zero _
  simp only [freePages, initialFtl, WritePointer.index, hindex,
    List.length_range', Nat.sub_zero]
  calc (g.ttLines - 2) * g.pgsPerLine + g.pgsPerLine + g.pgsPerLine
      = (g.ttLines - 2 + 2) * g.pgsPerLine := by ring
    _ = g.ttLines * g.pgsPerLine := by rw [Nat.sub_add_cancel hlines]

theorem initialFtl_sound (hlines : 2 ≤ g.ttLines) :
    Sound g [] (initialFtl g) where
  accounts := initialFtl_accounts hlines
  mapped := by
    constructor
    · intro lpn ppa hmap
      simp [initialFtl, initTables] at hmap
    · intro ppa _ hstatus
      rw [initialFtl_status] at hstatus
      cases hstatus
  mapped_iff := by simp [initialFtl, initTables]
  reserve := by
    intro hsmall
    have hpos := g.pgsPerLine_pos
    refine ⟨le_rfl, hpos, le_rfl, ?_⟩
    have hpages := Nat.mul_le_mul_right g.pgsPerLine hsmall.1
    rw [initialFtl_freePages hlines]
    change g.pgsPerLine + 2 * g.pgsPerLine + 2 ≤ _
    omega
  credits_pos := fun _ => g.pgsPerLine_pos

end NvmeVirt.Ftl
