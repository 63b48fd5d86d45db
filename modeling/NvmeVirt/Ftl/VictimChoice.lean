import NvmeVirt.Ftl.Workloads
import NvmeVirt.Lib.HeapOrder

/-!
# The choice of the victim

The priority of a line in the victim queue is its number of valid pages.  While
a line is in the queue that number changes only through
`pqueue_change_priority`, so the queue is a heap in every state, and garbage
collection always takes a line with the fewest pages to copy.
-/

namespace NvmeVirt.Ftl

open Function NvmeVirt.Outcome

variable {g : Geometry} {held : Option ℕ} {st st' : ConvFtl}

theorem victimLineCmpPri_weakOrder : Pqueue.WeakOrder victimLineCmpPri where
  asymm := by
    intro a b hlt
    simp only [victimLineCmpPri, decide_eq_true_eq, decide_eq_false_iff_not]
      at hlt ⊢
    omega
  trans := by
    intro a b c hle hle'
    simp only [victimLineCmpPri, decide_eq_false_iff_not] at hle hle' ⊢
    omega

/-- The victim queue is ordered by the numbers of valid pages. -/
def Heaped (st : ConvFtl) : Prop :=
  Pqueue.Ordered victimLineCmpPri (victimLinePri st) st.victimLinePq

/-! ## Steps -/

/-- Lines that are not queued may change. -/
theorem Heaped.frame (hst : Heaped st) (hvalid : st.victimLinePq.Valid)
    (hqueue : st'.victimLinePq = st.victimLinePq)
    (hvpc : ∀ line, st.victimLinePq.pos line ≠ 0 →
      (st'.lines line).vpc = (st.lines line).vpc) : Heaped st' := by
  unfold Heaped
  rw [hqueue]
  refine Pqueue.Ordered.congr hst fun j hj hlt => hvpc _ ?_
  rw [(hvalid.pos_d j hj hlt hj.ne').1]
  exact hj.ne'

theorem Heaped.pqueueInsert (hst : Heaped st)
    (hvalid : st.victimLinePq.Valid) (line : ℕ) :
    Heaped (pqueueInsert st line) :=
  Pqueue.insert_ordered victimLineCmpPri_weakOrder hst hvalid.size_pos line

theorem Heaped.lowerVpc (hst : Heaped st) (hvalid : st.victimLinePq.Valid)
    (index : ℕ) : Heaped (lowerVpc st index) := by
  unfold Ftl.lowerVpc
  by_cases hpos : st.victimLinePq.pos index ≠ 0
  · rw [if_pos hpos]
    refine Pqueue.changePriority_ordered victimLineCmpPri_weakOrder hvalid hst
      hpos fun line hne => ?_
    exact congrArg Line.vpc (update_of_ne hne _ _)
  · rw [if_neg hpos]
    refine hst.frame hvalid rfl fun line hline => ?_
    have hne : line ≠ index := fun heq => hpos (heq ▸ hline)
    exact congrArg Line.vpc (update_of_ne hne _ _)

/-- `mark_page_invalid` raises `ipc`, which is no priority, and lowers `vpc`. -/
theorem markPageInvalid_inv {spp : SsdParams} {ppa : Ppa}
    (hok : markPageInvalid spp st ppa = .ok st') :
    ∃ raised, raised.victimLinePq = st.victimLinePq ∧
      (∀ line, (raised.lines line).vpc = (st.lines line).vpc) ∧
      st' = if (st.lines ppa.blk).vpc = spp.pgsPerLine then
        fullToVictim (lowerVpc raised ppa.blk) ppa.blk
      else lowerVpc raised ppa.blk := by
  obtain ⟨marked, hblock, hline⟩ := bind_eq_ok.mp hok
  simp only [invalidateInBlock, nvmevAssert, require_bind_eq_ok, pure,
    Except.pure, Except.ok.injEq] at hblock
  obtain ⟨-, -, -, rfl⟩ := hblock
  simp only [invalidateInLine, nvmevAssert, require_bind_eq_ok, pure,
    Except.pure, Except.ok.injEq] at hline
  obtain ⟨-, -, -, rfl⟩ := hline
  refine ⟨_, ?_, fun line => ?_, rfl⟩
  · rfl
  · by_cases heq : line = ppa.blk
    · subst heq
      simp [ConvFtl.setLine, ConvFtl.setPage, ConvFtl.setBlock]
    · exact congrArg Line.vpc (update_of_ne heq _ st.lines)

theorem Heaped.markPageInvalid (hst : Heaped st)
    (hvalid : st.victimLinePq.Valid) {spp : SsdParams} {ppa : Ppa}
    (hok : markPageInvalid spp st ppa = .ok st') : Heaped st' := by
  obtain ⟨raised, hqueue, hvpc, rfl⟩ := markPageInvalid_inv hok
  have hraised : Heaped raised := hst.frame hvalid hqueue fun line _ => hvpc line
  have hraisedValid : raised.victimLinePq.Valid := hqueue ▸ hvalid
  have hlowered := hraised.lowerVpc hraisedValid ppa.blk
  obtain ⟨pq, hpq, -, -, hlower⟩ := lowerVpc_spec hraisedValid ppa.blk
  split
  · have hloweredValid : (Ftl.lowerVpc raised ppa.blk).victimLinePq.Valid := by
      rw [hlower]
      exact hpq
    have hunlinked : Heaped { (Ftl.lowerVpc raised ppa.blk).listDelInit
        ppa.blk with
          fullLineCnt := (Ftl.lowerVpc raised ppa.blk).fullLineCnt - 1 } :=
      hlowered
    exact hunlinked.pqueueInsert hloweredValid ppa.blk
  · exact hlowered

theorem Heaped.retireLine (hst : Heaped st) (hvalid : st.victimLinePq.Valid)
    {spp : SsdParams} {curline : ℕ}
    (hok : retireLine spp st curline = .ok st') : Heaped st' := by
  simp only [Ftl.retireLine, nvmevAssert] at hok
  split at hok
  · simp only [require_bind_eq_ok, pure, Except.pure, Except.ok.injEq] at hok
    obtain ⟨-, rfl⟩ := hok
    exact hst
  · simp only [require_bind_eq_ok, pure, Except.pure, Except.ok.injEq] at hok
    obtain ⟨-, -, rfl⟩ := hok
    exact hst.pqueueInsert hvalid curline

theorem Heaped.setWp (hst : Heaped st) (wpp : WritePointer) (io : IoType) :
    Heaped (st.setWp wpp io) := by
  cases io <;> exact hst

theorem Heaped.openLine (hst : Heaped st) {spp : SsdParams}
    {wpp : WritePointer} {io : IoType}
    (hok : openLine spp st wpp io = .ok st') : Heaped st' := by
  simp only [Ftl.openLine, checkAddr, nvmevAssert, require_bind_eq_ok] at hok
  obtain ⟨-, hok⟩ := hok
  unfold getNextFreeLine at hok
  split at hok
  · cases hok
  · rename_i heq
    split at heq
    · cases heq
    · cases heq
      simp only [require_bind_eq_ok, pure, Except.pure, Except.ok.injEq] at hok
      obtain ⟨-, -, -, -, -, rfl⟩ := hok
      refine Heaped.setWp ?_ _ _
      exact hst

theorem Heaped.advanceWritePointer (hst : Heaped st)
    (hvalid : st.victimLinePq.Valid) {spp : SsdParams} {io : IoType}
    (hok : advanceWritePointer spp st io = .ok st') : Heaped st' := by
  obtain ⟨⟨wpp, usedUp⟩, -, hok⟩ := bind_eq_ok.mp hok
  cases usedUp with
  | false =>
      obtain rfl := Except.ok.inj hok
      exact hst.setWp wpp io
  | true =>
      obtain ⟨retired, hretire, hopen⟩ := bind_eq_ok.mp hok
      exact (hst.retireLine hvalid hretire).openLine hopen

/-- The line of a write pointer is not queued. -/
theorem Heaped.mapNewPage (hst : Heaped st) (h : Accounts g held none st)
    {io : IoType} {lpn : ℕ}
    (hok : mapNewPage g.toSsdParams st io lpn = .ok st') : Heaped st' := by
  simp only [Ftl.mapNewPage, getNewPage_eq h io, bind_eq_ok, Except.ok.injEq,
    exists_eq_left'] at hok
  obtain ⟨mapped, hmap, tabled, htable, marked, hmark, hadvance⟩ := hok
  simp only [setMaptblEnt, nvmevAssert, require_bind_eq_ok, pure, Except.pure,
    Except.ok.injEq] at hmap
  obtain ⟨-, rfl⟩ := hmap
  simp only [setRmapEnt, nvmevAssert, require_bind_eq_ok, pure, Except.pure,
    Except.ok.injEq] at htable
  obtain ⟨-, rfl⟩ := htable
  simp only [markPageValid, nvmevAssert, require_bind_eq_ok, pure, Except.pure,
    Except.ok.injEq] at hmark
  obtain ⟨-, -, -, rfl⟩ := hmark
  refine Heaped.advanceWritePointer ?_ ?_ hadvance
  swap
  · exact h.pq_valid
  refine hst.frame h.pq_valid rfl fun line hline => ?_
  have hne : line ≠ (st.getWp io).curline := by
    rintro rfl
    exact hline (h.pointer_alone io).2.2.2.1
  exact congrArg Line.vpc (update_of_ne hne _ _)

theorem Heaped.dropOldPage (hst : Heaped st)
    (hvalid : st.victimLinePq.Valid) {spp : SsdParams} {lpn : ℕ}
    (hok : dropOldPage spp st lpn = .ok st') : Heaped st' := by
  unfold Ftl.dropOldPage at hok
  split at hok
  · cases hok
    exact hst
  · obtain ⟨marked, hmark, htable⟩ := bind_eq_ok.mp hok
    simp only [setRmapEnt, nvmevAssert, require_bind_eq_ok, pure, Except.pure,
      Except.ok.injEq] at htable
    obtain ⟨-, rfl⟩ := htable
    have hmarked := hst.markPageInvalid hvalid hmark
    exact hmarked

/-! ## Collections -/

theorem heaped_keepsGc :
    (Carrier.plain g.toSsdParams).KeepsGc Heaped fun _ _ => Heaped where
  select := by
    intro st force victim popped h hselect hst
    simp only [selectVictimLine, Pqueue.peek] at hselect
    split at hselect
    · cases hselect
    · split at hselect
      · cases hselect
      · cases hselect
        exact Pqueue.pop_ordered victimLineCmpPri_weakOrder hst
  loop := by
    refine fun victim st₀ => ⟨fun _ _ _ _ => id, ?_, id, ?_⟩
    · intro moved erased st st' visit ppa h _ _ _ _ hst hok
      obtain ⟨lpn, -, hok⟩ := bind_eq_ok.mp hok
      split at hok
      · cases hok
      · rw [nvmevAssert, require_bind_eq_ok] at hok
        exact hst.mapNewPage h.accounts hok.2
    · intro moved erased st st' addr h _ _ hst hok
      obtain ⟨block, hfree, -⟩ := markBlockFree_spec h.accounts addr
      obtain rfl := Except.ok.inj (hfree.symm.trans hok)
      exact hst
  finish := by
    intro st victim h hst
    refine Heaped.frame hst h.pq_valid rfl fun line hline => ?_
    have hne : line ≠ victim := by
      rintro rfl
      exact (h.victim_alone hline).2 (by simp)
    exact congrArg Line.vpc (update_of_ne hne _ _)

theorem doGc_heaped {written : List ℕ} (h : Kept g written st)
    (hst : Heaped st) {force : Bool} {result : Bool × ConvFtl}
    (hok : doGc g.toSsdParams st force = .ok result) : Heaped result.2 := by
  have hspec := (Carrier.plain g.toSsdParams).doGc_spec heaped_keepsGc
    h.accounts h.mapped hst force
  rw [Carrier.plain_doGc, hok] at hspec
  exact hspec.2

theorem placePage_heaped {written : List ℕ} (h : Kept g written st)
    (hst : Heaped st) {lpn : ℕ}
    (hok : placePage g.toSsdParams st lpn = .ok st') : Heaped st' := by
  obtain ⟨dropped, hdrop, haccounts, -⟩ :=
    dropOldPage_spec h.accounts h.mapped lpn
  obtain ⟨dropped', hdrop', hok⟩ := bind_eq_ok.mp hok
  obtain rfl := Except.ok.inj (hdrop.symm.trans hdrop')
  obtain ⟨mapped, hmap, hok⟩ := bind_eq_ok.mp hok
  obtain rfl := Except.ok.inj hok
  have hmapped :=
    (hst.dropOldPage h.accounts.pq_valid hdrop).mapNewPage haccounts hmap
  exact hmapped

theorem checkAndRefillWriteCredit_heaped {written : List ℕ}
    (h : Kept g written st) (hst : Heaped st)
    (hok : checkAndRefillWriteCredit g.toSsdParams st = .ok st') :
    Heaped st' := by
  unfold checkAndRefillWriteCredit at hok
  split at hok
  · obtain ⟨collected, hgc, hok⟩ := bind_eq_ok.mp hok
    obtain rfl := Except.ok.inj hok
    unfold foregroundGc at hgc
    split at hgc
    · obtain ⟨result, hresult, hgc⟩ := bind_eq_ok.mp hgc
      obtain rfl := Except.ok.inj hgc
      exact doGc_heaped h hst hresult
    · obtain rfl := Except.ok.inj hgc
      exact hst
  · obtain rfl := Except.ok.inj hok
    exact hst

theorem FtlOp.apply_heaped {ops : List FtlOp}
    (h : Kept g (writtenLpns ops) st) (hst : Heaped st) {op : FtlOp}
    (hrange : ∀ lpn, op = .write lpn → lpn < g.ttPgs)
    (hok : op.apply g.toSsdParams st = .ok st') : Heaped st' := by
  cases op with
  | write lpn =>
      obtain ⟨placed, hplace, hok⟩ := bind_eq_ok.mp hok
      have hkept := placePage_kept h (hrange lpn rfl)
      rw [hplace] at hkept
      exact checkAndRefillWriteCredit_heaped hkept.1
        (placePage_heaped h hst hplace) hok
  | collect force =>
      obtain ⟨result, hresult, hok⟩ := bind_eq_ok.mp hok
      obtain rfl := Except.ok.inj hok
      exact doGc_heaped h hst hresult

/-! ## The choice -/

/-- The lines hold different logical pages. -/
theorem Kept.valid_pages_le {written : List ℕ} (h : Kept g written st)
    {lines : Finset ℕ} (hlines : ∀ line ∈ lines, line < g.ttLines) :
    ∑ line ∈ lines, (st.lines line).vpc ≤ written.toFinset.card := by
  set pages := lines.biUnion fun line =>
    (linePages g.toSsdParams line).filter fun ppa => st.status ppa = .valid
    with hpages
  have hcard : pages.card = ∑ line ∈ lines, (st.lines line).vpc := by
    rw [hpages, Finset.card_biUnion]
    · refine Finset.sum_congr rfl fun line _ => ?_
      exact (h.accounts.line_tally line (by simp)).1.symm
    · intro line _ line' _ hne
      rw [Function.onFun, Finset.disjoint_left]
      intro ppa hppa hppa'
      have hblk := (mem_linePages.mp (Finset.mem_filter.mp hppa).1).2.2.2.1
      have hblk' := (mem_linePages.mp (Finset.mem_filter.mp hppa').1).2.2.2.1
      exact hne (hblk.symm.trans hblk')
  have hback : ∀ ppa ∈ pages, ∃ lpn,
      st.rmap (ppa2pgidx g.toSsdParams ppa) = some lpn ∧
        st.maptbl lpn = some ppa := by
    intro ppa hppa
    rw [hpages, Finset.mem_biUnion] at hppa
    obtain ⟨line, hline, hmem⟩ := hppa
    obtain ⟨hmem, hvalid⟩ := Finset.mem_filter.mp hmem
    exact h.mapped.backward ppa (validPpa_of_mem (hlines line hline) hmem)
      hvalid id
  rw [← hcard]
  apply Finset.card_le_card_of_injOn
    (fun ppa => (st.rmap (ppa2pgidx g.toSsdParams ppa)).getD 0)
  · intro ppa hppa
    obtain ⟨lpn, hrmap, hmaptbl⟩ := hback ppa hppa
    simp only [hrmap, Option.getD_some]
    rw [Finset.mem_coe, List.mem_toFinset, ← h.mapped_iff, hmaptbl]
    rfl
  · intro ppa hppa ppa' hppa' heq
    obtain ⟨lpn, hrmap, hmaptbl⟩ := hback ppa hppa
    obtain ⟨lpn', hrmap', hmaptbl'⟩ := hback ppa' hppa'
    simp only [hrmap, hrmap', Option.getD_some] at heq
    rw [heq, hmaptbl'] at hmaptbl
    exact (Option.some.inj hmaptbl).symm

/-- What `select_victim_line` answers: a queued line with the fewest valid
pages, which are at most an even share of the written pages, or nothing, if
every queued line has too many of them. -/
structure GreedyChoice (g : Geometry) (written : List ℕ) (st : ConvFtl)
    (force : Bool) : Prop where
  least : ∀ victim st',
    selectVictimLine g.toSsdParams st force = some (victim, st') →
      victim ∈ st.victimLinePq.elements ∧
        (∀ line ∈ st.victimLinePq.elements,
          (st.lines victim).vpc ≤ (st.lines line).vpc) ∧
        (st.lines victim).vpc * st.victimLineCnt ≤ written.toFinset.card
  refuses : selectVictimLine g.toSsdParams st force = none →
    ∀ line ∈ st.victimLinePq.elements,
      force = false ∧ g.pgsPerLine / 8 < (st.lines line).vpc

/-- The root of the queue has the fewest valid pages. -/
theorem Heaped.root_least (hst : Heaped st) (hvalid : st.victimLinePq.Valid)
    {line : ℕ} (hline : line ∈ st.victimLinePq.elements) :
    st.victimLinePq.size ≠ 1 ∧
      st.victimLinePq.d 1 ∈ st.victimLinePq.elements ∧
      (st.lines (st.victimLinePq.d 1)).vpc ≤ (st.lines line).vpc := by
  obtain ⟨hlt, -, hd⟩ := hvalid.d_pos line id
    ((Pqueue.mem_elements hvalid).mp hline)
  have hpos := Nat.pos_of_ne_zero ((Pqueue.mem_elements hvalid).mp hline)
  refine ⟨by omega, ?_, ?_⟩
  · rw [Pqueue.mem_elements hvalid,
      (hvalid.pos_d 1 Nat.one_pos (by omega) Nat.one_ne_zero).1]
    exact Nat.one_ne_zero
  · by_cases hone : st.victimLinePq.pos line = 1
    · rw [hone] at hd
      rw [hd]
    · have hbefore := Pqueue.root_before victimLineCmpPri_weakOrder hst
        (j := st.victimLinePq.pos line) (by omega) hlt
      rw [hd] at hbefore
      exact not_lt.mp (of_decide_eq_false hbefore)

theorem Kept.greedyChoice {written : List ℕ} (h : Kept g written st)
    (hst : Heaped st) (force : Bool) : GreedyChoice g written st force := by
  have hvalid := h.accounts.pq_valid
  constructor
  · intro victim st' hselect
    simp only [selectVictimLine, Pqueue.peek] at hselect
    split at hselect
    · cases hselect
    rename_i victimLine hpeek
    split at hpeek
    · cases hpeek
    rename_i hsize
    cases hpeek
    split at hselect
    · cases hselect
    cases hselect
    have hsizePos := hvalid.size_pos
    have hroot : st.victimLinePq.d 1 ∈ st.victimLinePq.elements := by
      rw [Pqueue.mem_elements hvalid,
        (hvalid.pos_d 1 Nat.one_pos (by omega) Nat.one_ne_zero).1]
      exact Nat.one_ne_zero
    refine ⟨hroot, fun line hline => (hst.root_least hvalid hline).2.2, ?_⟩
    have hcnt : st.victimLineCnt = st.victimLinePq.elements.toFinset.card := by
      rw [List.toFinset_card_of_nodup (Pqueue.nodup_elements hvalid),
        Pqueue.length_elements]
      exact h.accounts.victim_cnt
    rw [hcnt, Nat.mul_comm, ← smul_eq_mul]
    refine (Finset.card_nsmul_le_sum _ _ _ fun line hline =>
      (hst.root_least hvalid (List.mem_toFinset.mp hline)).2.2).trans ?_
    refine h.valid_pages_le fun line hline => ?_
    exact (h.accounts.victim_alone
      ((Pqueue.mem_elements hvalid).mp (List.mem_toFinset.mp hline))).1
  · intro hselect line hline
    obtain ⟨hsize, -, hleast⟩ := hst.root_least hvalid hline
    simp only [selectVictimLine, Pqueue.peek, if_neg hsize] at hselect
    split at hselect
    · rename_i hlazy
      simp only [Bool.and_eq_true, Bool.not_eq_true', decide_eq_true_eq]
        at hlazy
      exact ⟨hlazy.1, hlazy.2.trans_le hleast⟩
    · cases hselect

/-- After any page writes and collections, garbage collection is greedy. -/
theorem victims_greedy (g : Geometry) {st₀ : ConvFtl}
    (hinit : convInitFtl g.toSsdParams = .ok st₀) (ops : List FtlOp)
    (hrange : ∀ lpn, .write lpn ∈ ops → lpn < g.ttPgs) :
    Ends (fun st => ∀ force, GreedyChoice g (writtenLpns ops) st force)
      (· = .nullLine) (ops.foldlM (FtlOp.apply g.toSsdParams) st₀) := by
  obtain ⟨hlines, rfl⟩ := convInitFtl_eq_ok.mp hinit
  have hstart : Heaped (initialFtl g) := by
    intro j hj hlt
    simp only [initialFtl, initTables] at hlt
    omega
  have hrun := Ends.foldlM
    (fun before st => Kept g (writtenLpns before) st ∧ Heaped st)
    (FtlOp.apply g.toSsdParams) ops (fun before op after st hsplit hst => by
      have hop : ∀ lpn, op = .write lpn → lpn < g.ttPgs := by
        rintro lpn rfl
        exact hrange lpn (by simp [hsplit])
      exact (FtlOp.apply_kept hst.1 hop).and_of_ok fun _ hok _ =>
        FtlOp.apply_heaped hst.1 hst.2 hop hok)
    ⟨(initialFtl_sound hlines).toKept, hstart⟩
  exact hrun.mono (fun _ hst force => hst.1.greedyChoice hst.2 force)
    (fun _ => id)

theorem victims_greedy_small :
    Ends (fun st => ∀ force, GreedyChoice smallGeometry
        (writtenLpns [.write 0, .write 0, .collect true]) st force)
      (· = .nullLine)
      ([FtlOp.write 0, .write 0, .collect true].foldlM
        (FtlOp.apply smallGeometry.toSsdParams) (initialFtl smallGeometry)) :=
  victims_greedy smallGeometry (convInitFtl_eq_ok.mpr ⟨by decide, rfl⟩) _ (by
    intro lpn hmem
    obtain rfl : lpn = 0 := by simpa using hmem
    decide)

end NvmeVirt.Ftl
