import NvmeVirt.Ftl.PageSteps

/-!
# The mapping tables

`maptbl` and the valid pages correspond one to one through `rmap`.  A stale page
is one whose data garbage collection has moved away but whose block is not yet
erased; a skipped page number is one whose old page has just been invalidated.
-/

namespace NvmeVirt.Ftl

open Function NvmeVirt.Outcome

/-- The tables agree with the page states, apart from stale pages and skipped
page numbers. -/
structure Mapped (g : Geometry) (stale : Ppa → Prop) (skipped : ℕ → Prop)
    (st : ConvFtl) : Prop where
  forward : ∀ lpn ppa, st.maptbl lpn = some ppa → ¬ skipped lpn →
    lpn < g.ttPgs ∧ validPpa g.toSsdParams ppa = true ∧
      st.status ppa = .valid ∧ ¬ stale ppa ∧
      st.rmap (ppa2pgidx g.toSsdParams ppa) = some lpn
  backward : ∀ ppa, validPpa g.toSsdParams ppa = true →
    st.status ppa = .valid → ¬ stale ppa →
      ∃ lpn, st.rmap (ppa2pgidx g.toSsdParams ppa) = some lpn ∧
        st.maptbl lpn = some ppa

namespace Mapped

variable {g : Geometry} {stale stale' : Ppa → Prop} {skipped : ℕ → Prop}
  {st st' : ConvFtl}

theorem congr (h : Mapped g stale skipped st) (hsame : SamePages st st') :
    Mapped g stale skipped st' := by
  constructor
  · rw [hsame.maptbl_eq, hsame.status_eq, hsame.rmap_eq]
    exact h.forward
  · rw [hsame.maptbl_eq, hsame.status_eq, hsame.rmap_eq]
    exact h.backward

theorem withCredits (h : Mapped g stale skipped st)
    (writeCredits creditsToRefill : ℕ) :
    Mapped g stale skipped { st with writeCredits, creditsToRefill } :=
  ⟨h.forward, h.backward⟩

/-- Distinct page numbers map to distinct pages. -/
theorem injective (h : Mapped g stale skipped st) {lpn lpn' : ℕ} {ppa : Ppa}
    (hlpn : st.maptbl lpn = some ppa) (hlpn' : st.maptbl lpn' = some ppa)
    (hskip : ¬ skipped lpn) (hskip' : ¬ skipped lpn') : lpn = lpn' := by
  have hforward := (h.forward lpn ppa hlpn hskip).2.2.2.2
  have hforward' := (h.forward lpn' ppa hlpn' hskip').2.2.2.2
  rw [hforward] at hforward'
  exact Option.some.inj hforward'

/-- Invalidating the page of `lpn` and its entry of `rmap`. -/
theorem drop (h : Mapped g stale (fun _ => False) st) {lpn : ℕ} {ppa : Ppa}
    (hlpn : st.maptbl lpn = some ppa)
    (hstatus : st'.status = update st.status ppa .invalid)
    (hmaptbl : st'.maptbl = st.maptbl)
    (hrmap : st'.rmap =
      update st.rmap (ppa2pgidx g.toSsdParams ppa) none) :
    Mapped g stale (· = lpn) st' := by
  obtain ⟨-, hvalid, -⟩ := h.forward lpn ppa hlpn id
  -- Another page has another index in `rmap`.
  have hindex : ∀ page, validPpa g.toSsdParams page = true → page ≠ ppa →
      st'.status page = st.status page ∧
        st'.rmap (ppa2pgidx g.toSsdParams page) =
          st.rmap (ppa2pgidx g.toSsdParams page) := by
    intro page hpage hne
    rw [hstatus, hrmap, update_of_ne hne, update_of_ne]
    · exact ⟨rfl, rfl⟩
    · exact fun heq => hne (ppa2pgidx_inj hpage hvalid heq)
  constructor
  · intro lpn' page hmap hskip
    rw [hmaptbl] at hmap
    obtain ⟨hlt, hpage, hpageStatus, hstale, hback⟩ :=
      h.forward lpn' page hmap id
    have hne : page ≠ ppa := by
      rintro rfl
      exact hskip (h.injective hmap hlpn id id)
    obtain ⟨hsameStatus, hsameRmap⟩ := hindex page hpage hne
    rw [hsameStatus, hsameRmap]
    exact ⟨hlt, hpage, hpageStatus, hstale, hback⟩
  · intro page hpage hpageStatus hstale
    have hne : page ≠ ppa := by
      rintro rfl
      rw [hstatus, update_self] at hpageStatus
      cases hpageStatus
    obtain ⟨hsameStatus, hsameRmap⟩ := hindex page hpage hne
    rw [hsameStatus] at hpageStatus
    rw [hsameRmap, hmaptbl]
    exact h.backward page hpage hpageStatus hstale

/-- Mapping `lpn` to a free page and programming it. -/
theorem program (h : Mapped g stale skipped st) {lpn : ℕ} {ppa : Ppa}
    (hlpn : lpn < g.ttPgs) (hppa : validPpa g.toSsdParams ppa = true)
    (hfree : st.status ppa = .free)
    (hskipped : ∀ lpn', skipped lpn' → lpn' = lpn)
    (hstatus : st'.status = update st.status ppa .valid)
    (hmaptbl : st'.maptbl = update st.maptbl lpn (some ppa))
    (hrmap : st'.rmap =
      update st.rmap (ppa2pgidx g.toSsdParams ppa) (some lpn))
    (hstale : ∀ page, stale page → stale' page) (hfresh : ¬ stale' ppa)
    (hold : ∀ page, st.maptbl lpn = some page → st.status page = .valid →
      stale' page)
    (hother : ∀ lpn' page, lpn' ≠ lpn → st.maptbl lpn' = some page →
      stale' page → stale page) :
    Mapped g stale' (fun _ => False) st' := by
  have hindex : ∀ page, validPpa g.toSsdParams page = true → page ≠ ppa →
      st'.status page = st.status page ∧
        st'.rmap (ppa2pgidx g.toSsdParams page) =
          st.rmap (ppa2pgidx g.toSsdParams page) := by
    intro page hpage hne
    rw [hstatus, hrmap, update_of_ne hne, update_of_ne]
    · exact ⟨rfl, rfl⟩
    · exact fun heq => hne (ppa2pgidx_inj hpage hppa heq)
  constructor
  · intro lpn' page hmap _
    by_cases heq : lpn' = lpn
    · subst heq
      rw [hmaptbl, update_self] at hmap
      obtain rfl := Option.some.inj hmap
      rw [hstatus, hrmap, update_self, update_self]
      exact ⟨hlpn, hppa, rfl, hfresh, rfl⟩
    · rw [hmaptbl, update_of_ne heq] at hmap
      obtain ⟨hlt, hpage, hpageStatus, hpageStale, hback⟩ :=
        h.forward lpn' page hmap (fun hskip => heq (hskipped lpn' hskip))
      have hne : page ≠ ppa := by
        rintro rfl
        rw [hfree] at hpageStatus
        cases hpageStatus
      obtain ⟨hsameStatus, hsameRmap⟩ := hindex page hpage hne
      rw [hsameStatus, hsameRmap]
      exact ⟨hlt, hpage, hpageStatus,
        fun hnow => hpageStale (hother lpn' page heq hmap hnow), hback⟩
  · intro page hpage hpageStatus hpageStale
    by_cases hne : page = ppa
    · subst hne
      refine ⟨lpn, ?_, ?_⟩
      · rw [hrmap, update_self]
      · rw [hmaptbl, update_self]
    · obtain ⟨hsameStatus, hsameRmap⟩ := hindex page hpage hne
      rw [hsameStatus] at hpageStatus
      obtain ⟨lpn', hback, hmap⟩ := h.backward page hpage hpageStatus
        (fun hwas => hpageStale (hstale page hwas))
      have hneLpn : lpn' ≠ lpn := by
        rintro rfl
        exact hpageStale (hold page hmap hpageStatus)
      rw [hsameRmap, hmaptbl]
      exact ⟨lpn', hback, by rw [update_of_ne hneLpn]; exact hmap⟩

end Mapped

/-! ## Programming a new page -/

variable {g : Geometry} {held : Option ℕ} {st : ConvFtl}

theorem validPpa_of_mem {line : ℕ} (hline : line < g.ttLines) {ppa : Ppa}
    (hppa : ppa ∈ linePages g.toSsdParams line) :
    validPpa g.toSsdParams ppa = true := by
  have hblk := (mem_linePages.mp hppa).2.2.2.1
  rw [validPpa_iff, hblk]
  exact ⟨hline, hppa⟩

theorem Accounts.page_valid (h : Accounts g held none st) (io : IoType) :
    validPpa g.toSsdParams (st.getWp io).page = true :=
  validPpa_of_mem (h.pointer_alone io).1 (h.pointer_at io).page_mem

/-- The bit fields of an address hold every page of the geometry. -/
theorem Ppa.pack_eq {ch lun line pg : ℕ} (hch : ch < g.nchs)
    (hlun : lun < g.lunsPerCh) (hline : line < g.ttLines)
    (hpg : pg < g.pgsPerBlk) :
    Ppa.pack ch lun 0 line pg = ⟨ch, lun, 0, line, pg⟩ := by
  have hchBits := g.nchs_le
  have hlunBits := g.lunsPerCh_le
  have hblkBits := g.blksPerPl_le
  have hpgBits := g.pgsPerBlk_le
  rw [g.ttLines_eq] at hline
  rw [Ppa.pack, Nat.mod_eq_of_lt (by omega), Nat.mod_eq_of_lt (by omega),
    Nat.zero_mod, Nat.mod_eq_of_lt (by omega), Nat.mod_eq_of_lt (by omega)]

theorem getNewPage_eq (h : Accounts g held none st) (io : IoType) :
    getNewPage st io = .ok (st.getWp io).page := by
  have hpointer := h.pointer_at io
  have hpack := Ppa.pack_eq hpointer.ch_lt hpointer.lun_lt
    (h.pointer_alone io).1 hpointer.pg_lt
  simp only [getNewPage, nvmevAssert, hpointer.pl_eq, hpointer.blk_eq, hpack]
  rfl

theorem setMaptblEnt_eq (st : ConvFtl) {lpn : ℕ} (hlpn : lpn < g.ttPgs)
    (ppa : Ppa) :
    setMaptblEnt g.toSsdParams st lpn ppa =
      .ok { st with maptbl := update st.maptbl lpn (some ppa) } := by
  rw [setMaptblEnt, nvmevAssert, require_bind hlpn]
  rfl

theorem setRmapEnt_eq (st : ConvFtl) (lpn : Option ℕ) {ppa : Ppa}
    (hppa : validPpa g.toSsdParams ppa = true) :
    setRmapEnt g.toSsdParams st lpn ppa = .ok { st with
      rmap := update st.rmap (ppa2pgidx g.toSsdParams ppa) lpn } := by
  rw [setRmapEnt, nvmevAssert, require_bind (ppa2pgidx_lt hppa)]
  rfl

/-- The page under the pointer now holds `lpn`. -/
structure Programmed (g : Geometry) (st st' : ConvFtl) (ppa : Ppa) (lpn : ℕ) :
    Prop where
  status_eq : st'.status = update st.status ppa .valid
  maptbl_eq : st'.maptbl = update st.maptbl lpn (some ppa)
  rmap_eq : st'.rmap =
    update st.rmap (ppa2pgidx g.toSsdParams ppa) (some lpn)
  writeCredits_eq : st'.writeCredits = st.writeCredits
  creditsToRefill_eq : st'.creditsToRefill = st.creditsToRefill
  freePages_eq : freePages g st' + 1 = freePages g st

theorem mapNewPage_accounts (h : Accounts g held none st) (io : IoType)
    {lpn : ℕ} (hlpn : lpn < g.ttPgs) :
    Ends (fun st' => Accounts g held none st' ∧
        Programmed g st st' (st.getWp io).page lpn)
      (fun e => e = .nullLine ∧ freePages g st ≤ g.pgsPerLine + 1)
      (mapNewPage g.toSsdParams st io lpn) := by
  have hvalid := h.page_valid io
  set ppa := (st.getWp io).page with hppa
  set tabled : ConvFtl := { st with
    maptbl := update st.maptbl lpn (some ppa)
    rmap := update st.rmap (ppa2pgidx g.toSsdParams ppa) (some lpn) }
    with htabled
  have htabledAccounts : Accounts g held none tabled :=
    h.withTables _ _ st.writeCredits st.creditsToRefill
  have hwp : tabled.getWp io = st.getWp io := by cases io <;> rfl
  obtain ⟨marked, hmark, hmarked, hrestated⟩ :=
    markPageValid_accounts htabledAccounts io
  rw [hwp] at hmark hrestated
  have hmap : mapNewPage g.toSsdParams st io lpn =
      advanceWritePointer g.toSsdParams marked io := by
    simp only [mapNewPage, getNewPage_eq h io, bind, Except.bind,
      setMaptblEnt_eq st hlpn]
    rw [← hppa, setRmapEnt_eq _ _ hvalid]
    simp only [← htabled]
    rw [hmark]
  have hpages : freePages g marked = freePages g st := by
    simp only [freePages, hrestated.wp_eq, hrestated.gcWp_eq,
      hrestated.free_eq]
    rfl
  rw [hmap, ← hpages]
  refine (advanceWritePointer_accounts hmarked).mono ?_ (fun _ => id)
  rintro st' ⟨haccounts, hsame, hfreePages⟩
  refine ⟨haccounts, ?_, ?_, ?_, ?_, ?_, hpages ▸ hfreePages⟩
  · rw [hsame.status_eq, hrestated.status_eq]
    rfl
  · rw [hsame.maptbl_eq, hrestated.maptbl_eq]
  · rw [hsame.rmap_eq, hrestated.rmap_eq]
  · rw [hsame.writeCredits_eq, hrestated.writeCredits_eq]
  · rw [hsame.creditsToRefill_eq, hrestated.creditsToRefill_eq]

end NvmeVirt.Ftl
