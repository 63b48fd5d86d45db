import NvmeVirt.Ftl.ConvFtl
import NvmeVirt.Nand.Flush

/-!
# Reads of the page-mapping FTL

`conv_read` visits the logical pages of a command partition by partition,
gathers neighbours that lie in one flash page, and issues a NAND read for each
such group.  The commands it issues cover the mapped pages, each once.
-/

namespace NvmeVirt.Ftl

open Channel Nand

/-- The parameters that `conv_read` looks at.  The SSD has one parameter set;
`spp` and `nand` are the fields of it that the two models read. -/
structure ReadParams where
  spp : SsdParams
  nand : NandParams
  nrParts : ℕ
  secsz : ℕ
  fw4kbRdLat : ℕ
  fwRdLat : ℕ
  nrParts_pos : 0 < nrParts
  secsPerPg_pos : 0 < spp.secsPerPg
  secsz_pos : 0 < secsz
  pgsz_le : secsz * spp.secsPerPg ≤ 4096
  nchs_eq : nand.nchs = spp.nchs
  lunsPerCh_eq : nand.lunsPerCh = spp.lunsPerCh
  pgsPerFlashpg_eq : nand.pgsPerFlashpg = spp.pgsPerFlashpg

def ReadParams.pgsz (rp : ReadParams) : ℕ := rp.secsz * rp.spp.secsPerPg

def isSameFlashPage (spp : SsdParams) (ppa1 ppa2 : Ppa) : Bool :=
  let ppa1Page := ppa1.pg / spp.pgsPerFlashpg
  let ppa2Page := ppa2.pg / spp.pgsPerFlashpg
  ppa1.block = ppa2.block && ppa1Page = ppa2Page

/-- A NAND read that was issued, and the time that it completes. -/
structure IssuedRead where
  part : ℕ
  ppa : Option Ppa
  xferSize : ℕ
  completedTime : ℕ

/-- The variables of `conv_read`, with the log of what it has issued. -/
structure ReadLoop where
  prevPpa : Option Ppa
  xferSize : ℕ
  nsecsLatest : ℕ
  sys : NandSystem
  issued : List IssuedRead

section Operations

variable (rp : ReadParams) (clocks : ℕ → Clocks)
  (maptbl : ℕ → ℕ → Option Ppa) (stime : ℕ)

/-- Issues what has been gathered, if anything. -/
def issueRead (part : ℕ) (st : ReadLoop) : ReadLoop :=
  if 0 < st.xferSize then
    let srd : NandCmd := ⟨.read, st.xferSize, stime, true, st.prevPpa⟩
    let (nsecsCompleted, sys) :=
      advanceNand rp.nand ⟨part, srd, clocks st.issued.length⟩ st.sys
    { st with
      nsecsLatest := max nsecsCompleted st.nsecsLatest
      sys := sys
      issued := st.issued ++
        [⟨part, st.prevPpa, st.xferSize, nsecsCompleted⟩] }
  else st

/-- Whether a page goes with the one before it. -/
def aggregates (curPpa : Ppa) (prevPpa : Option Ppa) : Bool :=
  match prevPpa with
  | none => false
  | some prev => isSameFlashPage rp.spp curPpa prev

/-- The body of the inner loop. -/
def readPage (part lpn : ℕ) (st : ReadLoop) : ReadLoop :=
  match maptbl part (lpn / rp.nrParts) with
  | none => st
  | some curPpa =>
      if !validPpa rp.spp curPpa then st
      else if aggregates rp curPpa st.prevPpa then
        { st with xferSize := uint32 (st.xferSize + rp.pgsz) }
      else
        { issueRead rp clocks stime part st with
          xferSize := rp.pgsz, prevPpa := some curPpa }

/-- The pages that the inner loop visits. -/
def stride (endLpn lpn : ℕ) : List ℕ :=
  if lpn ≤ endLpn then lpn :: stride endLpn (lpn + rp.nrParts) else []
termination_by endLpn + 1 - lpn
decreasing_by
  have := rp.nrParts_pos
  omega

/-- The body of the outer loop. -/
def readPart (endLpn startLpn : ℕ) (st : ReadLoop) : ReadLoop :=
  let part := startLpn % rp.nrParts
  let st := { st with
    xferSize := 0
    prevPpa := maptbl part (startLpn / rp.nrParts) }
  issueRead rp clocks stime part ((stride rp endLpn startLpn).foldl
    (fun st lpn => readPage rp clocks maptbl stime part lpn st) st)

/-- The outer loop; the first argument is the number of partitions left. -/
def readParts (endLpn : ℕ) : ℕ → ℕ → ReadLoop → ReadLoop
  | 0, _, st => st
  | left + 1, startLpn, st =>
      if startLpn ≤ endLpn then
        readParts endLpn left (startLpn + 1)
          (readPart rp clocks maptbl stime endLpn startLpn st)
      else st

end Operations

/-- `conv_read` of a command that starts at `nsecsStart`; it fails beyond the
range of the FTL. -/
def convRead (rp : ReadParams) (clocks : ℕ → Clocks)
    (maptbl : ℕ → ℕ → Option Ppa) (nsecsStart lba : ℕ) (length : UInt16)
    (sys : NandSystem) : Option ReadLoop :=
  let nrLba := length.toNat + 1
  let startLpn := lba / rp.spp.secsPerPg
  let endLpn := (lba + nrLba - 1) / rp.spp.secsPerPg
  if rp.spp.ttPgs ≤ endLpn / rp.nrParts then none
  else
    let stime := uint64 (nsecsStart +
      if nrLba * rp.secsz ≤ 4096 * rp.nrParts then rp.fw4kbRdLat
      else rp.fwRdLat)
    some (readParts rp clocks maptbl stime endLpn rp.nrParts startLpn
      ⟨none, 0, nsecsStart, sys, []⟩)

/-! ## What the commands cover -/

def isMapped (rp : ReadParams) (maptbl : ℕ → ℕ → Option Ppa) (lpn : ℕ) : Bool :=
  (maptbl (lpn % rp.nrParts) (lpn / rp.nrParts)).isSome

/-- A page lies in the flash page of an address, in its own partition. -/
def InFlashPage (rp : ReadParams) (maptbl : ℕ → ℕ → Option Ppa) (part : ℕ)
    (addr : Option Ppa) (lpn : ℕ) : Prop :=
  lpn % rp.nrParts = part ∧ ∃ ppa prev,
    maptbl part (lpn / rp.nrParts) = some ppa ∧ addr = some prev ∧
      isSameFlashPage rp.spp ppa prev = true

/-- A command transfers a group of pages that lie in one flash page. -/
structure Covers (rp : ReadParams) (maptbl : ℕ → ℕ → Option Ppa)
    (read : IssuedRead) (group : List ℕ) : Prop where
  nonempty : group ≠ []
  size : read.xferSize = rp.pgsz * group.length
  page : ∀ lpn ∈ group, InFlashPage rp maptbl read.part read.ppa lpn

/-- The commands so far cover these pages, in this order, and none of them
completes after the latest time. -/
structure Settled (rp : ReadParams) (maptbl : ℕ → ℕ → Option Ppa)
    (nsecsStart : ℕ) (covered : List ℕ) (st : ReadLoop) : Prop where
  covers : ∃ groups, List.Forall₂ (Covers rp maptbl) st.issued groups ∧
    groups.flatten = covered
  start_le : nsecsStart ≤ st.nsecsLatest
  completed_le : ∀ read ∈ st.issued, read.completedTime ≤ st.nsecsLatest

/-- The last of these pages are gathered but not yet issued. -/
structure Gathered (rp : ReadParams) (maptbl : ℕ → ℕ → Option Ppa)
    (nsecsStart part : ℕ) (covered pending : List ℕ) (st : ReadLoop) :
    Prop where
  settled : Settled rp maptbl nsecsStart covered st
  size : st.xferSize = rp.pgsz * pending.length
  page : ∀ lpn ∈ pending, InFlashPage rp maptbl part st.prevPpa lpn

variable {rp : ReadParams} {clocks : ℕ → Clocks}
  {maptbl : ℕ → ℕ → Option Ppa} {stime nsecsStart part lpn : ℕ}
  {covered pending : List ℕ} {st : ReadLoop}

theorem ReadParams.pgsz_pos (rp : ReadParams) : 0 < rp.pgsz :=
  Nat.mul_pos rp.secsz_pos rp.secsPerPg_pos

theorem isSameFlashPage_refl (spp : SsdParams) (ppa : Ppa) :
    isSameFlashPage spp ppa ppa = true := by
  simp [isSameFlashPage]

theorem aggregates_iff {curPpa : Ppa} {prevPpa : Option Ppa} :
    aggregates rp curPpa prevPpa = true ↔
      ∃ prev, prevPpa = some prev ∧
        isSameFlashPage rp.spp curPpa prev = true := by
  cases prevPpa with
  | none => simp [aggregates]
  | some prev => simp [aggregates]

/-- Issuing what is gathered covers it. -/
theorem Gathered.issue
    (hgathered : Gathered rp maptbl nsecsStart part covered pending st)
    (clocks : ℕ → Clocks) (stime : ℕ) :
    Settled rp maptbl nsecsStart (covered ++ pending)
      (issueRead rp clocks stime part st) := by
  obtain ⟨⟨⟨groups, hcovers, hflatten⟩, hstart, hcompleted⟩, hsize, hpage⟩ :=
    hgathered
  unfold issueRead
  split
  · rename_i hpos
    have hnonempty : pending ≠ [] := by
      rintro rfl
      rw [hsize] at hpos
      exact hpos.ne' (Nat.mul_zero _)
    refine ⟨⟨groups ++ [pending], ?_, ?_⟩, hstart.trans (le_max_right _ _), ?_⟩
    · exact List.rel_append hcovers (.cons ⟨hnonempty, hsize, hpage⟩ .nil)
    · simp [hflatten]
    · intro read hread
      rcases List.mem_append.mp hread with hread | hread
      · exact (hcompleted read hread).trans (le_max_right _ _)
      · rw [List.mem_singleton.mp hread]
        exact le_max_left _ _
  · rename_i hzero
    have hempty : pending = [] := by
      rw [hsize, Nat.pos_iff_ne_zero, not_not, Nat.mul_eq_zero] at hzero
      exact List.length_eq_zero_iff.mp (hzero.resolve_left rp.pgsz_pos.ne')
    rw [hempty, List.append_nil]
    exact ⟨⟨groups, hcovers, hflatten⟩, hstart, hcompleted⟩

/-- A page that is not mapped changes nothing. -/
theorem readPage_of_unmapped (hlpn : maptbl part (lpn / rp.nrParts) = none) :
    readPage rp clocks maptbl stime part lpn st = st := by
  rw [readPage, hlpn]

/-- A mapped page joins the pages that are gathered, or begins to gather anew.
-/
theorem Gathered.readPage
    (hgathered : Gathered rp maptbl nsecsStart part covered pending st)
    {curPpa : Ppa} (hlpn : maptbl part (lpn / rp.nrParts) = some curPpa)
    (hvalid : validPpa rp.spp curPpa = true) (hpart : lpn % rp.nrParts = part)
    (hfits : rp.pgsz * (pending.length + 1) < 2 ^ 32) :
    ∃ covered' pending', covered' ++ pending' = covered ++ pending ++ [lpn] ∧
      Gathered rp maptbl nsecsStart part covered' pending'
        (readPage rp clocks maptbl stime part lpn st) := by
  unfold Ftl.readPage
  simp only [hlpn, hvalid, Bool.not_true, Bool.false_eq_true, if_false]
  split
  · rename_i hsame
    obtain ⟨prev, hprev, hsame⟩ := aggregates_iff.mp hsame
    refine ⟨covered, pending ++ [lpn], (List.append_assoc _ _ _).symm,
      { hgathered.settled with }, ?_, ?_⟩
    · dsimp only
      rw [hgathered.size, List.length_append, List.length_singleton,
        Channel.uint32, ← Nat.mul_succ]
      exact Nat.mod_eq_of_lt hfits
    · intro other hother
      rcases List.mem_append.mp hother with hother | hother
      · exact hgathered.page other hother
      · rw [List.mem_singleton.mp hother]
        exact ⟨hpart, curPpa, prev, hlpn, hprev, hsame⟩
  · refine ⟨covered ++ pending, [lpn], rfl,
      { hgathered.issue clocks stime with }, ?_, ?_⟩
    · exact (Nat.mul_one _).symm
    · intro other hother
      rw [List.mem_singleton.mp hother]
      exact ⟨hpart, curPpa, curPpa, hlpn, rfl, isSameFlashPage_refl _ _⟩

/-! ## The pages of a partition -/

theorem mem_stride {endLpn start : ℕ} :
    lpn ∈ stride rp endLpn start ↔
      ∃ k, lpn = start + k * rp.nrParts ∧ lpn ≤ endLpn := by
  induction start using stride.induct rp endLpn with
  | case1 start hle ih =>
      rw [stride, if_pos hle, List.mem_cons, ih]
      constructor
      · rintro (rfl | ⟨k, hk, hend⟩)
        · exact ⟨0, by simp, hle⟩
        · exact ⟨k + 1, by rw [hk, Nat.succ_mul]; omega, hend⟩
      · rintro ⟨k, hk, hend⟩
        cases k with
        | zero => exact .inl (by simpa using hk)
        | succ k => exact .inr ⟨k, by rw [hk, Nat.succ_mul]; omega, hend⟩
  | case2 start hgt =>
      rw [stride, if_neg hgt]
      simp only [List.not_mem_nil, false_iff, not_exists, not_and]
      intro k hk
      have := Nat.zero_le (k * rp.nrParts)
      omega

theorem nodup_stride (rp : ReadParams) (endLpn start : ℕ) :
    (stride rp endLpn start).Nodup := by
  induction start using stride.induct rp endLpn with
  | case1 start hle ih =>
      rw [stride, if_pos hle]
      refine List.nodup_cons.mpr ⟨fun hmem => ?_, ih⟩
      obtain ⟨k, hk, -⟩ := mem_stride.mp hmem
      have := rp.nrParts_pos
      have := Nat.zero_le (k * rp.nrParts)
      omega
  | case2 start hgt =>
      rw [stride, if_neg hgt]
      exact .nil

/-- The pages that the outer loop visits. -/
def strides (rp : ReadParams) (endLpn : ℕ) : ℕ → ℕ → List ℕ
  | 0, _ => []
  | left + 1, start => stride rp endLpn start ++
      strides rp endLpn left (start + 1)

theorem mem_strides {endLpn left start : ℕ} :
    lpn ∈ strides rp endLpn left start ↔
      ∃ i < left, ∃ k, lpn = start + i + k * rp.nrParts ∧ lpn ≤ endLpn := by
  induction left generalizing start with
  | zero => simp [strides]
  | succ left ih =>
      rw [strides, List.mem_append, mem_stride, ih]
      constructor
      · rintro (⟨k, hk, hend⟩ | ⟨i, hi, k, hk, hend⟩)
        · exact ⟨0, Nat.succ_pos _, k, by simpa using hk, hend⟩
        · exact ⟨i + 1, Nat.succ_lt_succ hi, k, by omega, hend⟩
      · rintro ⟨i, hi, k, hk, hend⟩
        cases i with
        | zero => exact .inl ⟨k, by simpa using hk, hend⟩
        | succ i => exact .inr ⟨i, Nat.lt_of_succ_lt_succ hi, k, by omega, hend⟩

/-- Partitions that are fewer than `nrParts` apart share no page. -/
theorem nodup_strides (rp : ReadParams) (endLpn : ℕ) {left : ℕ}
    (hleft : left ≤ rp.nrParts) (start : ℕ) :
    (strides rp endLpn left start).Nodup := by
  induction left generalizing start with
  | zero => exact .nil
  | succ left ih =>
      refine (nodup_stride rp endLpn start).append (ih (by omega) _) ?_
      intro lpn hfirst hrest
      obtain ⟨k, hk, -⟩ := mem_stride.mp hfirst
      obtain ⟨i, hi, l, hl, -⟩ := mem_strides.mp hrest
      have hmod : k * rp.nrParts = (1 + i) + l * rp.nrParts := by omega
      have hresidue := congrArg (· % rp.nrParts) hmod
      simp only [Nat.mul_mod_left, Nat.add_mul_mod_self_right] at hresidue
      rw [Nat.mod_eq_of_lt (by omega)] at hresidue
      omega

/-- The partitions have all the pages of the command between them. -/
theorem strides_perm (rp : ReadParams) (endLpn start : ℕ) :
    (strides rp endLpn rp.nrParts start).Perm
      (List.range' start (endLpn + 1 - start)) := by
  rw [List.perm_ext_iff_of_nodup (nodup_strides rp endLpn le_rfl start)
    List.nodup_range']
  intro lpn
  rw [mem_strides, List.mem_range'_1]
  constructor
  · rintro ⟨i, -, k, hk, hend⟩
    have := Nat.zero_le (k * rp.nrParts)
    omega
  · rintro ⟨hstart, hend⟩
    have hdiv := Nat.div_add_mod (lpn - start) rp.nrParts
    refine ⟨(lpn - start) % rp.nrParts, Nat.mod_lt _ rp.nrParts_pos,
      (lpn - start) / rp.nrParts, ?_, by omega⟩
    rw [Nat.mul_comm] at hdiv
    omega

/-! ## The loops -/

/-- The inner loop gathers the mapped pages that it visits. -/
theorem gathered_foldl (clocks : ℕ → Clocks) (stime : ℕ)
    (hmaptbl : ∀ part lpn ppa, maptbl part lpn = some ppa →
      validPpa rp.spp ppa = true) {lpns : List ℕ}
    (hlpns : ∀ lpn ∈ lpns, lpn % rp.nrParts = part)
    (hgathered : Gathered rp maptbl nsecsStart part covered pending st)
    (hfits : rp.pgsz * ((covered ++ pending).length + lpns.length) < 2 ^ 32) :
    ∃ covered' pending', covered' ++ pending' =
        covered ++ pending ++ lpns.filter (isMapped rp maptbl) ∧
      Gathered rp maptbl nsecsStart part covered' pending'
        (lpns.foldl (fun st lpn =>
          readPage rp clocks maptbl stime part lpn st) st) := by
  induction lpns generalizing covered pending st with
  | nil => exact ⟨covered, pending, by simp, hgathered⟩
  | cons lpn rest ih =>
      have hpart := hlpns lpn List.mem_cons_self
      have hrest : ∀ other ∈ rest, other % rp.nrParts = part :=
        fun other hother => hlpns other (List.mem_cons_of_mem _ hother)
      rw [List.foldl_cons]
      cases hlpn : maptbl part (lpn / rp.nrParts) with
      | none =>
          have hunmapped : isMapped rp maptbl lpn = false := by
            rw [isMapped, hpart, hlpn]
            rfl
          rw [readPage_of_unmapped hlpn, List.filter_cons, hunmapped]
          refine ih hrest hgathered (lt_of_le_of_lt ?_ hfits)
          exact Nat.mul_le_mul_left _ (by simp)
      | some curPpa =>
          have hmapped : isMapped rp maptbl lpn = true := by
            rw [isMapped, hpart, hlpn]
            rfl
          obtain ⟨covered₁, pending₁, hsplit, hgathered₁⟩ :=
            hgathered.readPage hlpn (hmaptbl _ _ _ hlpn) hpart
              (lt_of_le_of_lt (Nat.mul_le_mul_left _ (by simp; omega)) hfits)
          obtain ⟨covered₂, pending₂, hsplit₂, hgathered₂⟩ :=
            ih hrest hgathered₁ (by
              rw [hsplit]
              simpa [Nat.add_assoc, Nat.add_comm, Nat.add_left_comm]
                using hfits)
          refine ⟨covered₂, pending₂, ?_, hgathered₂⟩
          rw [hsplit₂, hsplit, List.filter_cons, hmapped]
          simp

/-- A partition adds the mapped pages of its stride. -/
theorem settled_readPart (clocks : ℕ → Clocks) (stime : ℕ)
    (hmaptbl : ∀ part lpn ppa, maptbl part lpn = some ppa →
      validPpa rp.spp ppa = true) {endLpn start : ℕ}
    (hsettled : Settled rp maptbl nsecsStart covered st)
    (hfits : rp.pgsz * (covered.length + (stride rp endLpn start).length) <
      2 ^ 32) :
    Settled rp maptbl nsecsStart
      (covered ++ (stride rp endLpn start).filter (isMapped rp maptbl))
      (readPart rp clocks maptbl stime endLpn start st) := by
  have hpart : ∀ lpn ∈ stride rp endLpn start,
      lpn % rp.nrParts = start % rp.nrParts := by
    intro lpn hlpn
    obtain ⟨k, rfl, -⟩ := mem_stride.mp hlpn
    exact Nat.add_mul_mod_self_right _ _ _
  have hbegin : Gathered rp maptbl nsecsStart (start % rp.nrParts) covered []
      { st with
        xferSize := 0
        prevPpa := maptbl (start % rp.nrParts) (start / rp.nrParts) } :=
    ⟨{ hsettled with }, (Nat.mul_zero _).symm, by simp⟩
  obtain ⟨covered', pending', hsplit, hgathered⟩ :=
    gathered_foldl clocks stime hmaptbl hpart hbegin (by simpa using hfits)
  have hissued := hgathered.issue clocks stime
  rw [hsplit, List.append_nil] at hissued
  exact hissued

theorem settled_readParts (clocks : ℕ → Clocks) (stime : ℕ)
    (hmaptbl : ∀ part lpn ppa, maptbl part lpn = some ppa →
      validPpa rp.spp ppa = true) {endLpn left start : ℕ}
    (hsettled : Settled rp maptbl nsecsStart covered st)
    (hfits : rp.pgsz * (covered.length +
      (strides rp endLpn left start).length) < 2 ^ 32) :
    Settled rp maptbl nsecsStart
      (covered ++ (strides rp endLpn left start).filter (isMapped rp maptbl))
      (readParts rp clocks maptbl stime endLpn left start st) := by
  induction left generalizing start covered st with
  | zero =>
      rw [strides, List.filter_nil, List.append_nil]
      exact hsettled
  | succ left ih =>
      rw [strides, List.length_append] at hfits
      rw [strides, readParts, List.filter_append, ← List.append_assoc]
      split
      · have hfirst : rp.pgsz * (covered.length +
            (stride rp endLpn start).length) < 2 ^ 32 :=
          lt_of_le_of_lt (Nat.mul_le_mul_left _ (by omega)) hfits
        refine ih (settled_readPart clocks stime hmaptbl hsettled hfirst)
          (lt_of_le_of_lt (Nat.mul_le_mul_left _ ?_) hfits)
        have hfilter := List.length_filter_le (isMapped rp maptbl)
          (stride rp endLpn start)
        rw [List.length_append]
        omega
      · rename_i hbeyond
        have hempty : ∀ lpn, lpn ∉ strides rp endLpn (left + 1) start := by
          intro lpn hlpn
          obtain ⟨i, -, k, hk, hend⟩ := mem_strides.mp hlpn
          have := Nat.zero_le (k * rp.nrParts)
          omega
        have hnil := List.eq_nil_iff_forall_not_mem.mpr hempty
        rw [strides, List.append_eq_nil_iff] at hnil
        simpa [hnil.1, hnil.2] using hsettled

theorem sum_xferSize {reads : List IssuedRead} {groups : List (List ℕ)}
    (hcovers : List.Forall₂ (Covers rp maptbl) reads groups) :
    (reads.map IssuedRead.xferSize).sum = rp.pgsz * groups.flatten.length := by
  induction hcovers with
  | nil => rfl
  | cons hfirst _ ih =>
      rw [List.map_cons, List.sum_cons, ih, hfirst.size, List.flatten_cons,
        List.length_append, Nat.mul_add]

/-- A command touches no more pages than it has blocks. -/
theorem pages_le_blocks (lba : ℕ) {nrLba secsPerPg : ℕ} (hnr : 0 < nrLba)
    (hsecs : 0 < secsPerPg) :
    (lba + nrLba - 1) / secsPerPg + 1 - lba / secsPerPg ≤ nrLba := by
  have hfirst := Nat.div_add_mod lba secsPerPg
  have hlast : (lba + nrLba - 1) / secsPerPg ≤
      lba / secsPerPg + (nrLba - 1) := by
    rw [← Nat.add_mul_div_left _ _ hsecs]
    apply Nat.div_le_div_right
    have := Nat.le_mul_of_pos_left (nrLba - 1) hsecs
    omega
  omega

/-- `conv_read` covers every mapped page of its command once, by commands within
one flash page of the partition of the page, and completes after all of them. -/
theorem conv_read_covers (rp : ReadParams) (clocks : ℕ → Clocks)
    (maptbl : ℕ → ℕ → Option Ppa)
    (hmaptbl : ∀ part lpn ppa, maptbl part lpn = some ppa →
      validPpa rp.spp ppa = true) (nsecsStart lba : ℕ) (length : UInt16)
    (sys : NandSystem)
    (hrange : (lba + length.toNat) / rp.spp.secsPerPg / rp.nrParts <
      rp.spp.ttPgs) :
    ∃ st, convRead rp clocks maptbl nsecsStart lba length sys = some st ∧
      let startLpn := lba / rp.spp.secsPerPg
      let endLpn := (lba + length.toNat) / rp.spp.secsPerPg
      let mapped := (List.range' startLpn (endLpn + 1 - startLpn)).filter
        (isMapped rp maptbl)
      (∃ groups, List.Forall₂ (Covers rp maptbl) st.issued groups ∧
          groups.flatten.Perm mapped) ∧
        (st.issued.map IssuedRead.xferSize).sum = rp.pgsz * mapped.length ∧
        nsecsStart ≤ st.nsecsLatest ∧
        ∀ read ∈ st.issued, read.completedTime ≤ st.nsecsLatest := by
  have hperm := strides_perm rp ((lba + length.toNat) / rp.spp.secsPerPg)
    (lba / rp.spp.secsPerPg)
  have hpages := pages_le_blocks lba (Nat.succ_pos length.toNat)
    rp.secsPerPg_pos
  have hfits : rp.pgsz * (strides rp ((lba + length.toNat) / rp.spp.secsPerPg)
      rp.nrParts (lba / rp.spp.secsPerPg)).length < 2 ^ 32 := by
    have hblocks : (strides rp ((lba + length.toNat) / rp.spp.secsPerPg)
        rp.nrParts (lba / rp.spp.secsPerPg)).length ≤ 2 ^ 16 := by
      rw [hperm.length_eq, List.length_range']
      exact hpages.trans length.toNat_lt
    calc rp.pgsz * _ ≤ 4096 * 2 ^ 16 := Nat.mul_le_mul rp.pgsz_le hblocks
      _ < 2 ^ 32 := by norm_num
  have hbegin : Settled rp maptbl nsecsStart []
      ⟨none, 0, nsecsStart, sys, []⟩ :=
    ⟨⟨[], .nil, rfl⟩, le_rfl, by simp⟩
  refine ⟨_, if_neg (not_le.mpr hrange), ?_⟩
  intro startLpn endLpn mapped
  obtain ⟨⟨groups, hcovers, hflatten⟩, hstart, hcompleted⟩ :=
    settled_readParts clocks (uint64 (nsecsStart +
        if (length.toNat + 1) * rp.secsz ≤ 4096 * rp.nrParts then rp.fw4kbRdLat
        else rp.fwRdLat)) hmaptbl hbegin
      (by rw [List.length_nil, Nat.zero_add]; exact hfits)
  have hgroups : groups.flatten.Perm mapped := by
    rw [hflatten, List.nil_append]
    exact hperm.filter _
  refine ⟨⟨groups, hcovers, hgroups⟩, ?_, hstart, hcompleted⟩
  exact (sum_xferSize hcovers).trans (by rw [hgroups.length_eq])

/-- Two partitions of the 970 PRO configuration, with small dies. -/
def twoParts : ReadParams where
  spp :=
    { secsPerPg := 8
      pgsPerFlashpg := 8
      flashpgsPerBlk := 2
      pgsPerOneshotpg := 8
      oneshotpgsPerBlk := 2
      pgsPerBlk := 16
      blksPerPl := 4
      plsPerLun := 1
      lunsPerCh := 2
      nchs := 2 }
  nand := samsung970Pro
  nrParts := 2
  secsz := 512
  fw4kbRdLat := 21500
  fwRdLat := 30490
  nrParts_pos := Nat.two_pos
  secsPerPg_pos := Nat.succ_pos _
  secsz_pos := Nat.succ_pos _
  pgsz_le := Nat.le_refl 4096
  nchs_eq := rfl
  lunsPerCh_eq := rfl
  pgsPerFlashpg_eq := rfl

/-- The first two pages of the first partition share a flash page, and the first
page of the second partition is not mapped. -/
def holedMaptbl (part lpn : ℕ) : Option Ppa :=
  if part = 0 ∧ lpn < 2 then some ⟨0, 0, 0, 0, lpn⟩
  else if part = 1 ∧ lpn = 1 then some ⟨1, 0, 0, 0, 0⟩
  else none

theorem holedMaptbl_valid (part lpn : ℕ) (ppa : Ppa)
    (hppa : holedMaptbl part lpn = some ppa) :
    validPpa twoParts.spp ppa = true := by
  unfold holedMaptbl at hppa
  split at hppa
  · rename_i hfirst
    cases hppa
    have hlpn : lpn = 0 ∨ lpn = 1 := by omega
    rcases hlpn with rfl | rfl
    · rfl
    · rfl
  · split at hppa
    · cases hppa
      rfl
    · cases hppa

/-- Of the four pages of a command three are mapped. -/
theorem conv_read_covers_hole :
    ∃ st, convRead twoParts (fun _ => ⟨0, fun _ => 0, fun _ => 0⟩) holedMaptbl
        1000 0 31 nandInit = some st ∧
      (st.issued.map IssuedRead.xferSize).sum = 4096 * 3 ∧
      1000 ≤ st.nsecsLatest := by
  obtain ⟨st, hread, -, hsum, hstart, -⟩ := conv_read_covers twoParts
    (fun _ => ⟨0, fun _ => 0, fun _ => 0⟩) holedMaptbl holedMaptbl_valid 1000 0
    31 nandInit (by decide)
  have hmapped : ((List.range' (0 / twoParts.spp.secsPerPg)
      ((0 + (31 : UInt16).toNat) / twoParts.spp.secsPerPg + 1 -
        0 / twoParts.spp.secsPerPg)).filter
          (isMapped twoParts holedMaptbl)).length = 3 := by
    decide
  rw [hmapped] at hsum
  exact ⟨st, hread, hsum, hstart⟩

end NvmeVirt.Ftl
