import NvmeVirt.Ftl.Runs

/-!
# Workloads

What the step lemmas say about whole workloads: page writes and collections on
one FTL instance, and write commands on the instances of a namespace.
-/

namespace NvmeVirt.Ftl

open Function NvmeVirt.Outcome

/-- Five lines of two pages on a single die. -/
def smallParams : SsdParams where
  secsPerPg := 8
  pgsPerFlashpg := 1
  flashpgsPerBlk := 2
  pgsPerOneshotpg := 1
  oneshotpgsPerBlk := 2
  pgsPerBlk := 2
  blksPerPl := 5
  plsPerLun := 1
  lunsPerCh := 1
  nchs := 1

theorem smallParams_pos :
    0 < smallParams.secsPerPg ∧ 0 < smallParams.pgsPerFlashpg ∧
      0 < smallParams.pgsPerOneshotpg ∧ 0 < smallParams.oneshotpgsPerBlk ∧
      0 < smallParams.lunsPerCh ∧ 0 < smallParams.nchs := by
  decide

theorem smallParams_le :
    smallParams.pgsPerBlk ≤ 2 ^ 16 ∧ smallParams.blksPerPl ≤ 2 ^ 16 ∧
      smallParams.lunsPerCh ≤ 2 ^ 8 ∧ smallParams.nchs ≤ 2 ^ 8 ∧
      smallParams.pgsPerPl < 2 ^ 31 ∧ smallParams.pgsPerLine < 2 ^ 31 := by
  decide

def smallGeometry : Geometry where
  toSsdParams := smallParams
  secsPerPg_pos := smallParams_pos.1
  pgsPerFlashpg_pos := smallParams_pos.2.1
  pgsPerOneshotpg_pos := smallParams_pos.2.2.1
  oneshotpgsPerBlk_pos := smallParams_pos.2.2.2.1
  lunsPerCh_pos := smallParams_pos.2.2.2.2.1
  nchs_pos := smallParams_pos.2.2.2.2.2
  pgsPerBlk_oneshot := rfl
  pgsPerBlk_flash := rfl
  plsPerLun_one := rfl
  pgsPerBlk_le := smallParams_le.1
  blksPerPl_le := smallParams_le.2.1
  lunsPerCh_le := smallParams_le.2.2.1
  nchs_le := smallParams_le.2.2.2.1
  pgsPerPl_lt := smallParams_le.2.2.2.2.1
  pgsPerLine_lt := smallParams_le.2.2.2.2.2

/-! ## Line accounting -/

/-- An operation on an FTL instance. -/
inductive FtlOp
  | write (localLpn : ℕ)
  | collect (force : Bool)

def FtlOp.apply (spp : SsdParams) (st : ConvFtl) : FtlOp → Except Fault ConvFtl
  | .write localLpn => writePage spp st localLpn
  | .collect force => do
      let (_, st) ← doGc spp st force
      return st

/-- The counters and lists of an FTL instance agree with its pages. -/
structure LineAccounting (g : Geometry) (st : ConvFtl) : Prop where
  places_perm : st.places.Perm (List.range g.ttLines)
  free_cnt : st.freeLineCnt = st.freeLineList.length
  full_cnt : st.fullLineCnt = st.fullLineList.length
  victim_cnt : st.victimLineCnt = st.victimLinePq.elements.length
  line_counts : ∀ line < g.ttLines, LineTally g.toSsdParams st line
  block_counts : ∀ addr, BlockTally g.toSsdParams st addr
  free_lines : ∀ line ∈ st.freeLineList,
    (st.lines line).vpc = 0 ∧ (st.lines line).ipc = 0 ∧
      ∀ ppa ∈ linePages g.toSsdParams line, st.status ppa = .free
  full_lines : ∀ line ∈ st.fullLineList, (st.lines line).vpc = g.pgsPerLine
  victim_lines : ∀ line ∈ st.victimLinePq.elements,
    (st.lines line).vpc + (st.lines line).ipc = g.pgsPerLine ∧
      0 < (st.lines line).ipc
  pos_iff : ∀ line, st.victimLinePq.pos line ≠ 0 ↔
    line ∈ st.victimLinePq.elements

theorem Accounts.lineAccounting {g : Geometry} {st : ConvFtl}
    (h : Accounts g none none st) : LineAccounting g st where
  places_perm := h.places_perm
  free_cnt := h.free_cnt
  full_cnt := h.full_cnt
  victim_cnt := h.victim_cnt.trans (Pqueue.length_elements _).symm
  line_counts := fun line _ => h.line_tally line (by simp)
  block_counts := h.block_tally
  free_lines := by
    intro line hline
    have hpages := h.free_pages line hline
    obtain ⟨hvpc, hipc⟩ := h.line_tally line (by simp)
    refine ⟨hvpc.trans ?_, hipc.trans ?_, hpages⟩
    all_goals
      rw [pageCount_eq_zero]
      intro ppa hppa
      rw [hpages ppa hppa]
      decide
  full_lines := h.full_vpc
  victim_lines := fun line hline =>
    h.victim_pages line ((Pqueue.mem_elements h.pq_valid).mp hline)
  pos_iff := fun _ => (Pqueue.mem_elements h.pq_valid).symm

/-- The page numbers that the operations write. -/
def writtenLpns (ops : List FtlOp) : List ℕ :=
  ops.filterMap fun
    | .write localLpn => some localLpn
    | .collect _ => none

theorem FtlOp.apply_kept {g : Geometry} {st : ConvFtl} {ops : List FtlOp}
    (h : Kept g (writtenLpns ops) st) {op : FtlOp}
    (hrange : ∀ lpn, op = .write lpn → lpn < g.ttPgs) :
    Ends (Kept g (writtenLpns (ops ++ [op]))) (· = .nullLine)
      (op.apply g.toSsdParams st) := by
  cases op with
  | write lpn =>
      have hwritten : writtenLpns (ops ++ [.write lpn]) =
          writtenLpns ops ++ [lpn] := by
        simp [writtenLpns]
      rw [hwritten]
      refine ((placePage_kept h (hrange lpn rfl)).mono
        (fun _ hmid => hmid.1) (fun _ hfault => hfault.1)).bind ?_
      intro mid hmid
      exact (checkAndRefillWriteCredit_stocked hmid).mono
        (fun _ hst => hst.1) (fun _ hfault => hfault.1)
  | collect force =>
      have hwritten : writtenLpns (ops ++ [.collect force]) =
          writtenLpns ops := by
        simp [writtenLpns]
      rw [hwritten]
      exact ((doGc_kept h force).mono (fun _ hresult => hresult.1)
        (fun _ hfault => hfault.1)).bind fun _ hresult => hresult

/-- Line accounting holds after every sequence of operations, and no assertion
fails on the way: a run can only end early because no line is free. -/
theorem ops_lineAccounting (g : Geometry) {st₀ : ConvFtl}
    (hinit : convInitFtl g.toSsdParams = .ok st₀) (ops : List FtlOp)
    (hrange : ∀ lpn, .write lpn ∈ ops → lpn < g.ttPgs) :
    Ends (LineAccounting g) (· = .nullLine)
      (ops.foldlM (FtlOp.apply g.toSsdParams) st₀) := by
  obtain ⟨hlines, rfl⟩ := convInitFtl_eq_ok.mp hinit
  have hrun := Ends.foldlM (fun before => Kept g (writtenLpns before))
    (FtlOp.apply g.toSsdParams) ops
    (fun before op after st hsplit hst => FtlOp.apply_kept hst (by
      rintro lpn rfl
      exact hrange lpn (by simp [hsplit])))
    (initialFtl_sound hlines).toKept
  exact hrun.mono (fun _ hst => hst.accounts.lineAccounting) (fun _ => id)

theorem ops_lineAccounting_small :
    Ends (LineAccounting smallGeometry) (· = .nullLine)
      ([FtlOp.write 0, .write 0, .collect true].foldlM
        (FtlOp.apply smallGeometry.toSsdParams) (initialFtl smallGeometry)) :=
  ops_lineAccounting smallGeometry
    (convInitFtl_eq_ok.mpr ⟨by decide, rfl⟩) _ (by
      intro lpn hmem
      obtain rfl : lpn = 0 := by simpa using hmem
      decide)

/-! ## The supply of free lines -/

/-- The invariant of a run of page writes. -/
theorem writes_sound {g : Geometry} (hlines : 2 ≤ g.ttLines) (lpns : List ℕ)
    (hrange : ∀ lpn ∈ lpns, lpn < g.ttPgs) :
    Ends (Sound g lpns) (fun e => e = .nullLine ∧ ¬ Small g lpns)
      (lpns.foldlM (writePage g.toSsdParams) (initialFtl g)) := by
  apply Ends.foldlM (Sound g)
  · intro before lpn after st hsplit hst
    refine (writePage_sound hst (hrange lpn (by simp [hsplit]))).mono
      (fun _ => id) ?_
    rintro e ⟨rfl, hmany⟩
    refine ⟨rfl, fun hsmall => hmany (hsmall.of_subset ?_)⟩
    simp [hsplit]
  · exact initialFtl_sound hlines

/-- Free lines never run out.  A null line would end the run with a fault, in
`advance_write_pointer` as in the middle of `do_gc`; here every page write of
the run succeeds, a forced collection finds its victim, and a credit is left
after every refill. -/
theorem free_lines_suffice (g : Geometry) (hlines : 5 ≤ g.ttLines)
    (lpns : List ℕ) (hrange : ∀ lpn ∈ lpns, lpn < g.ttPgs)
    (hfew : lpns.toFinset.card < (g.ttLines - 4) * g.pgsPerLine) :
    ∃ st₀, convInitFtl g.toSsdParams = .ok st₀ ∧
      ∀ before lpn after, lpns = before ++ lpn :: after →
        ∃ st mid st',
          before.foldlM (writePage g.toSsdParams) st₀ = .ok st ∧
          placePage g.toSsdParams st lpn = .ok mid ∧
          (mid.writeCredits = 0 → shouldGcHigh mid = true →
            ∃ cleaned, doGc g.toSsdParams mid true = .ok (true, cleaned)) ∧
          checkAndRefillWriteCredit g.toSsdParams mid = .ok st' ∧
          1 ≤ st'.writeCredits := by
  have htwo : 2 ≤ g.ttLines := by omega
  refine ⟨initialFtl g, convInitFtl_eq_ok.mpr ⟨htwo, rfl⟩, ?_⟩
  intro before lpn after hsplit
  have hsmall : Small g (before ++ [lpn]) := by
    refine Small.of_subset ⟨hlines, hfew⟩ ?_
    simp [hsplit]
  have hbefore : Small g before :=
    hsmall.of_subset (List.subset_append_left _ _)
  obtain ⟨st, hst, hsound⟩ := ((writes_sound htwo before fun lpn' hmem =>
    hrange lpn' (by simp [hsplit, hmem])).mono (fun _ => id)
      (fun _ hfault => hfault.2 hbefore)).exists_ok
  obtain ⟨mid, hmid, hkept, hreserve⟩ :=
    ((placePage_sound hsound (hrange lpn (by simp [hsplit]))).mono
      (fun _ => id) (fun _ hfault => hfault.2 hsmall)).exists_ok
  have hstocked : Stocked g (before ++ [lpn]) mid := ⟨hsmall, hreserve hsmall⟩
  obtain ⟨st', hst', -, hcredits⟩ :=
    ((checkAndRefillWriteCredit_stocked hkept).mono (fun _ => id)
      (fun _ hfault => hfault.2 hstocked)).exists_ok
  refine ⟨st, mid, st', hst, hmid, fun _ hlow => ?_, hst',
    (hcredits hstocked).2⟩
  obtain ⟨⟨cleaned, collected⟩, hgc, -, -, hgain⟩ :=
    ((doGc_stocked hkept hlow).mono (fun _ => id)
      (fun _ hfault => hfault.2 hstocked)).exists_ok
  obtain rfl : cleaned = true := (hgain hstocked).1
  exact ⟨collected, hgc⟩

theorem free_lines_suffice_small :
    ∃ st₀, convInitFtl smallGeometry.toSsdParams = .ok st₀ ∧
      ∀ before lpn after, List.replicate 20 0 = before ++ lpn :: after →
        ∃ st mid st',
          before.foldlM (writePage smallGeometry.toSsdParams) st₀ = .ok st ∧
          placePage smallGeometry.toSsdParams st lpn = .ok mid ∧
          (mid.writeCredits = 0 → shouldGcHigh mid = true →
            ∃ cleaned, doGc smallGeometry.toSsdParams mid true =
              .ok (true, cleaned)) ∧
          checkAndRefillWriteCredit smallGeometry.toSsdParams mid = .ok st' ∧
          1 ≤ st'.writeCredits :=
  free_lines_suffice smallGeometry (by decide) (List.replicate 20 0)
    (by decide) (by decide)

/-! ## The mapping of a namespace -/

/-- Entry of the mapping table of the instance that serves the page. -/
def lookup (nrParts : ℕ) (ftls : ℕ → ConvFtl) (lpn : ℕ) : Option Ppa :=
  (ftls (lpn % nrParts)).maptbl (lpn / nrParts)

/-- The mapping tables of a namespace hold the written pages, one physical page
for each. -/
structure MappingConsistent (g : Geometry) (nrParts : ℕ) (written : List ℕ)
    (ftls : ℕ → ConvFtl) : Prop where
  mapped_iff : ∀ lpn, (lookup nrParts ftls lpn).isSome = true ↔ lpn ∈ written
  forward : ∀ lpn ppa, lookup nrParts ftls lpn = some ppa →
    validPpa g.toSsdParams ppa = true ∧
      (ftls (lpn % nrParts)).status ppa = .valid ∧
      (ftls (lpn % nrParts)).rmap (ppa2pgidx g.toSsdParams ppa) =
        some (lpn / nrParts)
  backward : ∀ part < nrParts, ∀ ppa, validPpa g.toSsdParams ppa = true →
    (ftls part).status ppa = .valid → ∃ localLpn,
      (ftls part).rmap (ppa2pgidx g.toSsdParams ppa) = some localLpn ∧
        (ftls part).maptbl localLpn = some ppa
  injective : ∀ lpn lpn' ppa, lpn % nrParts = lpn' % nrParts →
    lookup nrParts ftls lpn = some ppa →
      lookup nrParts ftls lpn' = some ppa → lpn = lpn'

/-- The pages of an instance, by their numbers in the instance. -/
def partLpns (nrParts part : ℕ) (lpns : List ℕ) : List ℕ :=
  (lpns.filter (· % nrParts = part)).map (· / nrParts)

section Namespace

variable {g : Geometry} {nrParts : ℕ}

theorem mem_partLpns {lpns : List ℕ} {lpn : ℕ} :
    lpn / nrParts ∈ partLpns nrParts (lpn % nrParts) lpns ↔ lpn ∈ lpns := by
  simp only [partLpns, List.mem_map, List.mem_filter, decide_eq_true_eq]
  constructor
  · rintro ⟨lpn', ⟨hmem, hmod⟩, hdiv⟩
    rw [← Nat.div_add_mod lpn nrParts, ← hmod, ← hdiv, Nat.div_add_mod]
    exact hmem
  · exact fun hmem => ⟨lpn, ⟨hmem, rfl⟩, rfl⟩

theorem partLpns_subset {lpns lpns' : List ℕ} (hsub : lpns ⊆ lpns')
    (part : ℕ) : partLpns nrParts part lpns ⊆ partLpns nrParts part lpns' :=
  List.map_subset _ (List.filter_subset _ hsub)

/-- Every instance is sound for its share of the written pages. -/
def Striped (g : Geometry) (nrParts : ℕ) (written : List ℕ)
    (ftls : ℕ → ConvFtl) : Prop :=
  ∀ part, Sound g (partLpns nrParts part written) (ftls part)

theorem writeLpn_striped {written : List ℕ} {ftls : ℕ → ConvFtl}
    (h : Striped g nrParts written ftls) {lpn : ℕ}
    (hlpn : lpn / nrParts < g.ttPgs) :
    Ends (Striped g nrParts (written ++ [lpn]))
      (fun e => e = .nullLine ∧
        ¬ Small g (partLpns nrParts (lpn % nrParts) (written ++ [lpn])))
      (writeLpn g.toSsdParams nrParts ftls lpn) := by
  have hown : partLpns nrParts (lpn % nrParts) (written ++ [lpn]) =
      partLpns nrParts (lpn % nrParts) written ++ [lpn / nrParts] := by
    simp [partLpns]
  rw [hown]
  refine (writePage_sound (h (lpn % nrParts)) hlpn).bind ?_
  intro st' hst' part
  by_cases hpart : part = lpn % nrParts
  · rw [hpart, update_self, hown]
    exact hst'
  · have hother : partLpns nrParts part (written ++ [lpn]) =
        partLpns nrParts part written := by
      simp [partLpns, Ne.symm hpart]
    rw [update_of_ne hpart, hother]
    exact h part

/-- A command that is not refused stays inside the namespace. -/
theorem WriteCmd.lpns_lt {cmd : WriteCmd} {lpn : ℕ}
    (hmem : lpn ∈ cmd.lpns g.toSsdParams nrParts) : lpn / nrParts < g.ttPgs := by
  simp only [WriteCmd.lpns] at hmem
  split at hmem
  · simp at hmem
  · rename_i haccepted
    rw [List.mem_range'_1] at hmem
    push Not at haccepted
    exact lt_of_le_of_lt (Nat.div_le_div_right (by omega)) haccepted.1

theorem Striped.mappingConsistent {written : List ℕ} {ftls : ℕ → ConvFtl}
    (h : Striped g nrParts written ftls) :
    MappingConsistent g nrParts written ftls where
  mapped_iff := fun lpn => ((h _).mapped_iff _).trans mem_partLpns
  forward := by
    intro lpn ppa hlookup
    obtain ⟨-, hvalid, hstatus, -, hrmap⟩ :=
      (h (lpn % nrParts)).mapped.forward _ ppa hlookup id
    exact ⟨hvalid, hstatus, hrmap⟩
  backward := fun part _ ppa hvalid hstatus =>
    (h part).mapped.backward ppa hvalid hstatus id
  injective := by
    intro lpn lpn' ppa hmod hlookup hlookup'
    have hdiv : lpn / nrParts = lpn' / nrParts := by
      rw [lookup, ← hmod] at hlookup'
      exact (h (lpn % nrParts)).mapped.injective hlookup hlookup' id id
    rw [← Nat.div_add_mod lpn nrParts, hdiv, hmod, Nat.div_add_mod]

/-- After any write commands and the first `k` pages of another one, the tables
of the namespace are consistent.  The run gets there unless some instance has
taken more pages than garbage collection is sure to sustain. -/
theorem conv_write_mappingConsistent (g : Geometry) {st₀ : ConvFtl}
    (hinit : convInitFtl g.toSsdParams = .ok st₀) (hparts : 0 < nrParts)
    (cmds : List WriteCmd) (cmd : WriteCmd) (k : ℕ) :
    let written := cmds.flatMap (WriteCmd.lpns g.toSsdParams nrParts) ++
      (cmd.lpns g.toSsdParams nrParts).take k
    Ends (MappingConsistent g nrParts written)
      (fun e => e = .nullLine ∧
        ∃ part < nrParts, ¬ Small g (partLpns nrParts part written))
      (do
        let ftls ← cmds.foldlM (convWrite g.toSsdParams nrParts) fun _ => st₀
        ((cmd.lpns g.toSsdParams nrParts).take k).foldlM
          (writeLpn g.toSsdParams nrParts) ftls) := by
  obtain ⟨hlines, rfl⟩ := convInitFtl_eq_ok.mp hinit
  intro written
  have hrange : ∀ lpn ∈ written, lpn / nrParts < g.ttPgs := by
    intro lpn hmem
    rcases List.mem_append.mp hmem with hmem | hmem
    · obtain ⟨earlier, -, hlpn⟩ := List.mem_flatMap.mp hmem
      exact WriteCmd.lpns_lt hlpn
    · exact WriteCmd.lpns_lt (List.mem_of_mem_take hmem)
  have hrun : (do
      let ftls ← cmds.foldlM (convWrite g.toSsdParams nrParts)
        fun _ => initialFtl g
      ((cmd.lpns g.toSsdParams nrParts).take k).foldlM
        (writeLpn g.toSsdParams nrParts) ftls) =
      written.foldlM (writeLpn g.toSsdParams nrParts)
        fun _ => initialFtl g := by
    rw [List.foldlM_append, ← foldlM_flatMap]
    rfl
  rw [hrun]
  have hstriped : Ends (Striped g nrParts written)
      (fun e => e = .nullLine ∧
        ∃ part < nrParts, ¬ Small g (partLpns nrParts part written))
      (written.foldlM (writeLpn g.toSsdParams nrParts)
        fun _ => initialFtl g) := by
    apply Ends.foldlM (Striped g nrParts)
    · intro before lpn after ftls hsplit hftls
      refine (writeLpn_striped hftls (hrange lpn (by simp [hsplit]))).mono
        (fun _ => id) ?_
      rintro e ⟨rfl, hmany⟩
      refine ⟨rfl, lpn % nrParts, Nat.mod_lt _ hparts, fun hsmall => hmany ?_⟩
      exact hsmall.of_subset (partLpns_subset (by simp [hsplit]) _)
    · exact fun part => initialFtl_sound hlines
  exact hstriped.mono (fun _ hftls => hftls.mappingConsistent) (fun _ => id)

end Namespace

theorem conv_write_mappingConsistent_small :
    let written := [⟨0, 31, true⟩, ⟨8, 7, true⟩].flatMap
        (WriteCmd.lpns smallGeometry.toSsdParams 2) ++
      (WriteCmd.lpns smallGeometry.toSsdParams 2 ⟨0, 15, true⟩).take 1
    Ends (MappingConsistent smallGeometry 2 written)
      (fun e => e = .nullLine ∧
        ∃ part < 2, ¬ Small smallGeometry (partLpns 2 part written))
      (do
        let ftls ← [⟨0, 31, true⟩, ⟨8, 7, true⟩].foldlM
          (convWrite smallGeometry.toSsdParams 2)
          fun _ => initialFtl smallGeometry
        ((WriteCmd.lpns smallGeometry.toSsdParams 2 ⟨0, 15, true⟩).take
          1).foldlM (writeLpn smallGeometry.toSsdParams 2) ftls) :=
  conv_write_mappingConsistent smallGeometry
    (convInitFtl_eq_ok.mpr ⟨by decide, rfl⟩) (by decide) _ _ 1

end NvmeVirt.Ftl
