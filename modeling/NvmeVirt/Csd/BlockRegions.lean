import NvmeVirt.Csd.EdgeDistribution

/-!
# Regions of the distributed edge blocks

The storage of every device grows at one end: the outdegree table first, then
one portion of each block.  The invariant below lists the regions of a device
in the order in which they are written; what the distribution promises is read
off the invariant after the last block.
-/

namespace NvmeVirt.Csd

open Function NvmeVirt.Regions

/-! ## The invariant -/

/-- The regions of one device: the outdegree table and the portions of the
blocks in `blocks`. -/
def regions (numCsds : ℕ) (outdegrees : List UInt8)
    (files : ℕ → ℕ → List UInt8) (data : CsdsData) (csd : ℕ)
    (blocks : List (ℕ × ℕ)) : List (ℕ × List UInt8) :=
  (0, outdegrees) :: blocks.map fun block =>
    (data.edgeBlocksSlba block.1 block.2 csd,
      portion (files block.1 block.2) numCsds csd)

/-- Device `csd` holds its portions of the blocks in `blocks csd`. -/
structure Written (numCsds : ℕ) (outdegrees : List UInt8)
    (files : ℕ → ℕ → List UInt8) (blocks : ℕ → List (ℕ × ℕ))
    (data : CsdsData) : Prop where
  aligned : ∀ csd < numCsds, SECTOR_SIZE ∣ data.edgeBlockBaseSlba csd
  placed : ∀ csd < numCsds, Placed (data.disk csd) (data.edgeBlockBaseSlba csd)
    (regions numCsds outdegrees files data csd (blocks csd))
  lengths : ∀ csd < numCsds, ∀ block ∈ blocks csd,
    data.edgeBlocksLength block.1 block.2 csd =
      portionLength (files block.1 block.2).length numCsds csd

theorem regions_recordPortion_own (numCsds : ℕ) (outdegrees : List UInt8)
    (files : ℕ → ℕ → List UInt8) (data : CsdsData) (loop : CopyLoop)
    {block : ℕ × ℕ} {csd : ℕ} {blocks : List (ℕ × ℕ)}
    (hfresh : block ∉ blocks) :
    regions numCsds outdegrees files (recordPortion block csd data loop) csd
        (blocks ++ [block]) =
      regions numCsds outdegrees files data csd blocks ++
        [(data.edgeBlockBaseSlba csd,
          portion (files block.1 block.2) numCsds csd)] := by
  simp only [regions, recordPortion, List.map_append, List.map_cons,
    List.map_nil, List.cons_append]
  congr 2
  · apply List.map_congr_left
    intro other hother
    have hne : other ≠ block := by
      rintro rfl
      exact hfresh hother
    simp [setEntry, hne]
  · simp [setEntry]

theorem regions_recordPortion_other (numCsds : ℕ) (outdegrees : List UInt8)
    (files : ℕ → ℕ → List UInt8) (data : CsdsData) (loop : CopyLoop)
    (block : ℕ × ℕ) {csd csd' : ℕ} (hcsd : csd' ≠ csd)
    (blocks : List (ℕ × ℕ)) :
    regions numCsds outdegrees files (recordPortion block csd data loop) csd'
        blocks =
      regions numCsds outdegrees files data csd' blocks := by
  simp only [regions, recordPortion, setEntry, hcsd, and_false, if_false]

section Steps

variable {numCsds : ℕ} {outdegrees : List UInt8} {files : ℕ → ℕ → List UInt8}
  {blocks : ℕ → List (ℕ × ℕ)} {data : CsdsData}

theorem Written.congr {blocks' : ℕ → List (ℕ × ℕ)}
    (hwritten : Written numCsds outdegrees files blocks data)
    (heq : ∀ csd < numCsds, blocks' csd = blocks csd) :
    Written numCsds outdegrees files blocks' data where
  aligned := hwritten.aligned
  placed := by
    intro csd hcsd
    rw [heq csd hcsd]
    exact hwritten.placed csd hcsd
  lengths := by
    intro csd hcsd
    rw [heq csd hcsd]
    exact hwritten.lengths csd hcsd

/-- The portion of one device is written behind everything it holds. -/
theorem writePortion_written
    (hwritten : Written numCsds outdegrees files blocks data)
    {block : ℕ × ℕ} {csd : ℕ} (hcsd : csd < numCsds)
    (hfresh : block ∉ blocks csd)
    (hlength : data.edgeBlocksLength block.1 block.2 csd =
      portionLength (files block.1 block.2).length numCsds csd)
    (hlt : portionLength (files block.1 block.2).length numCsds csd < 2 ^ 31) :
    ∃ data', writePortion block (data, (files block.1 block.2).drop
        (portionStart (files block.1 block.2).length numCsds csd)) csd =
          some (data', (files block.1 block.2).drop
            (portionStart (files block.1 block.2).length numCsds (csd + 1))) ∧
      data'.edgeBlocksLength = data.edgeBlocksLength ∧
      Written numCsds outdegrees files
        (update blocks csd (blocks csd ++ [block])) data' := by
  let contents := files block.1 block.2
  let base := data.edgeBlockBaseSlba csd
  let loop : CopyLoop := ⟨data.buffer, contents.drop
    (portionStart contents.length numCsds csd), data.disk csd, 0⟩
  have halign : SECTOR_SIZE ∣ base + loop.offset :=
    hwritten.aligned csd hcsd
  have hfile : portionLength contents.length numCsds csd ≤
      loop.file.length := by
    have hle : portionStart contents.length numCsds (csd + 1) ≤
        contents.length := portionStart_le hcsd (by omega)
    rw [portionStart_succ] at hle
    simp only [loop, List.length_drop]
    omega
  obtain ⟨loop', hrun, hcopied⟩ :=
    copyPortion_of_lt base _ loop halign hlt hfile
  have hvalues : readRange loop'.disk base
      (portion contents numCsds csd).length = portion contents numCsds csd := by
    rw [length_portion contents hcsd, portion_eq]
    exact hcopied.stored
  refine ⟨recordPortion block csd data loop', ?_, rfl, ?_, ?_, ?_⟩
  · rw [writePortion]
    simp only [hlength]
    rw [hrun, Option.map_some, hcopied.file, List.drop_drop,
      ← portionStart_succ]
  · intro csd' hcsd'
    by_cases hsame : csd' = csd
    · subst hsame
      simp only [recordPortion, update_self]
      exact hcopied.aligned
    · simp only [recordPortion, update_of_ne hsame]
      exact hwritten.aligned csd' hcsd'
  · intro csd' hcsd'
    by_cases hsame : csd' = csd
    · subst hsame
      rw [update_self, regions_recordPortion_own _ _ _ _ _ hfresh]
      simp only [recordPortion, update_self]
      apply (hwritten.placed csd' hcsd').append
      · exact hcopied.frame
      · exact hvalues
      · rw [length_portion contents hcsd]
        have hoffset := hcopied.offset
        simp only [loop, zero_add] at hoffset
        exact Nat.add_le_add_left hoffset base
    · rw [update_of_ne hsame, regions_recordPortion_other _ _ _ _ _ _
        hsame]
      simp only [recordPortion, update_of_ne hsame]
      exact hwritten.placed csd' hcsd'
  · intro csd' hcsd' other hother
    by_cases hsame : csd' = csd
    · subst hsame
      rw [update_self, List.mem_append, List.mem_singleton] at hother
      rcases hother with hother | rfl
      · exact hwritten.lengths csd' hcsd' other hother
      · exact hlength
    · rw [update_of_ne hsame] at hother
      exact hwritten.lengths csd' hcsd' other hother

/-- All portions of a block below the limit are written. -/
theorem writeBlock_written {visited : List (ℕ × ℕ)}
    (hwritten : Written numCsds outdegrees files (fun _ => visited) data)
    {block : ℕ × ℕ} (hfresh : block ∉ visited)
    (hlt : ∀ csd < numCsds,
      portionLength (files block.1 block.2).length numCsds csd < 2 ^ 31) :
    ∃ data', writeBlock numCsds files data block = some data' ∧
      Written numCsds outdegrees files (fun _ => visited ++ [block]) data' := by
  let contents := files block.1 block.2
  let start := setLengths numCsds block contents.length data
  let blocksAfter (count csd : ℕ) : List (ℕ × ℕ) :=
    if csd < count then visited ++ [block] else visited
  have hlengths : ∀ csd < numCsds, start.edgeBlocksLength block.1 block.2 csd =
      portionLength contents.length numCsds csd := by
    intro csd hcsd
    exact (setLengths_apply _ _ _ _ _ _ _).trans (if_pos ⟨rfl, hcsd⟩)
  have hstart : Written numCsds outdegrees files (blocksAfter 0) start := by
    constructor
    · exact hwritten.aligned
    · intro csd hcsd
      exact hwritten.placed csd hcsd
    · intro csd hcsd other hother
      have hne : (other.1, other.2) ≠ block := by
        rintro rfl
        exact hfresh hother
      refine ((setLengths_apply _ _ _ _ _ _ _).trans
        (if_neg fun hset => hne hset.1)).trans ?_
      exact hwritten.lengths csd hcsd other hother
  obtain ⟨⟨data', rest⟩, hrun, -, -, hdone⟩ := Loops.foldlM_prefix
    (fun done (state : CsdsData × List UInt8) =>
      state.2 = contents.drop
          (portionStart contents.length numCsds done.length) ∧
        state.1.edgeBlocksLength = start.edgeBlocksLength ∧
        Written numCsds outdegrees files (blocksAfter done.length) state.1)
    (writePortion block) (List.range numCsds)
    (by
      rintro done csd after ⟨now, rest⟩ hsplit ⟨hrest, hkept, hnow⟩
      obtain ⟨rfl, hcsd⟩ := Loops.range_split hsplit
      dsimp only at hrest hkept hnow
      subst hrest
      have hlength := hlengths done.length hcsd
      rw [← hkept] at hlength
      have hnone : blocksAfter done.length done.length = visited :=
        if_neg (lt_irrefl _)
      obtain ⟨next, hstep, hsame, hnext⟩ := writePortion_written hnow hcsd
        (by rw [hnone]; exact hfresh) hlength (hlt done.length hcsd)
      refine ⟨_, hstep, ?_, hsame.trans hkept, hnext.congr ?_⟩
      · rw [List.length_append, List.length_singleton]
      · intro csd _
        rw [List.length_append, List.length_singleton, hnone]
        by_cases hown : csd = done.length
        · rw [hown, update_self]
          exact if_pos (Nat.lt_succ_self _)
        · rw [update_of_ne hown]
          simp only [blocksAfter]
          congr 1
          simp only [eq_iff_iff]
          omega)
    (s := (start, contents)) ⟨by simp [portionStart_zero], rfl, hstart⟩
  refine ⟨data', ?_, hdone.congr ?_⟩
  · rw [writeBlock]
    exact congrArg (Option.map Prod.fst) hrun
  · intro csd hcsd
    simp only [blocksAfter, List.length_range, if_pos hcsd]

/-- The outdegree table is the first region of every device. -/
theorem writeOutdegrees_written (data : CsdsData) :
    Written numCsds outdegrees files (fun _ => [])
      ((List.range numCsds).foldl (writeOutdegrees outdegrees) data) := by
  have hloop := Loops.foldl_prefix
    (fun done (now : CsdsData) => ∀ csd ∈ done,
      SECTOR_SIZE ∣ now.edgeBlockBaseSlba csd ∧
        Placed (now.disk csd) (now.edgeBlockBaseSlba csd) [(0, outdegrees)])
    (writeOutdegrees outdegrees) (List.range numCsds)
    (by
      intro done csd after now _ hinv csd' hcsd'
      by_cases hsame : csd' = csd
      · subst hsame
        have hcopied := copyFile_copied 0
          ⟨now.buffer, outdegrees, now.disk csd', 0⟩ (dvd_zero _)
        simp only [writeOutdegrees, update_self]
        refine ⟨hcopied.aligned, ?_⟩
        apply (Placed.nil (now.disk csd') 0).append
        · exact hcopied.frame
        · exact hcopied.stored.trans List.take_length
        · have hoffset := hcopied.offset
          simp only [zero_add] at hoffset ⊢
          exact hoffset
      · simp only [writeOutdegrees, update_of_ne hsame]
        rw [List.mem_append, List.mem_singleton] at hcsd'
        exact hinv csd' (hcsd'.resolve_right hsame))
    (s := data) (by simp)
  constructor
  · intro csd hcsd
    exact (hloop csd (List.mem_range.mpr hcsd)).1
  · intro csd hcsd
    exact (hloop csd (List.mem_range.mpr hcsd)).2
  · intro csd _ block hblock
    exact absurd hblock List.not_mem_nil

theorem nodup_blockOrder (numPartitions : ℕ) :
    (blockOrder numPartitions).Nodup :=
  List.nodup_range.product List.nodup_range

theorem mem_blockOrder {numPartitions i j : ℕ} :
    (i, j) ∈ blockOrder numPartitions ↔
      i < numPartitions ∧ j < numPartitions := by
  rw [blockOrder, List.mem_product, List.mem_range, List.mem_range]

/-- Portions below the limit are all written. -/
theorem initCsdsStorage_written {numPartitions : ℕ} (data : CsdsData)
    (hlt : ∀ i < numPartitions, ∀ j < numPartitions, ∀ csd < numCsds,
      portionLength (files i j).length numCsds csd < 2 ^ 31) :
    ∃ data', initCsdsStorage numCsds numPartitions outdegrees files data =
        some data' ∧
      Written numCsds outdegrees files (fun _ => blockOrder numPartitions)
        data' := by
  apply Loops.foldlM_prefix
    (fun visited now => Written numCsds outdegrees files (fun _ => visited) now)
  · intro visited block after now hsplit hnow
    have hmem : (block.1, block.2) ∈ blockOrder numPartitions := by
      rw [hsplit]
      simp
    have hnodup := nodup_blockOrder numPartitions
    rw [hsplit] at hnodup
    apply writeBlock_written hnow
    · intro hvisited
      exact List.disjoint_of_nodup_append hnodup hvisited List.mem_cons_self
    · rw [mem_blockOrder] at hmem
      exact hlt block.1 hmem.1 block.2 hmem.2
  · exact writeOutdegrees_written data

/-- A block with a portion from the limit on overruns the buffer. -/
theorem writeBlock_overrun (files : ℕ → ℕ → List UInt8) (data : CsdsData)
    {block : ℕ × ℕ} {csd : ℕ} (hcsd : csd < numCsds)
    (hle : 2 ^ 31 ≤
      portionLength (files block.1 block.2).length numCsds csd) :
    writeBlock numCsds files data block = none := by
  have hpos : 0 < numCsds := by omega
  -- The first device has the longest portion and is served first.
  have hfirst := hle.trans (portionLength_le_zero _ _ csd)
  have hfile : portionLength (files block.1 block.2).length numCsds 0 ≤
      (files block.1 block.2).length := by
    have hstart : portionStart (files block.1 block.2).length numCsds (0 + 1) ≤
        (files block.1 block.2).length := portionStart_le hpos hpos
    rwa [portionStart_succ, portionStart_zero, zero_add] at hstart
  obtain ⟨count, rfl⟩ := Nat.exists_eq_add_of_lt hpos
  have hlength := (setLengths_apply (0 + count + 1) block
    (files block.1 block.2).length data block.1 block.2 0).trans
      (if_pos ⟨rfl, hpos⟩)
  rw [writeBlock, List.range_succ_eq_map, List.foldlM_cons]
  have hnone : writePortion block (setLengths (0 + count + 1) block
      (files block.1 block.2).length data, files block.1 block.2) 0 = none := by
    rw [writePortion]
    simp only [hlength]
    rw [copyPortion_overrun _ _ _ hfirst hfile]
    rfl
  simp only [hnone]
  rfl

end Steps

/-! ## The law of the distribution -/

/-- Addresses of the portion of block `(i, j)` on one device. -/
def storageRegion (data : CsdsData) (csd : ℕ) (block : ℕ × ℕ) : Set ℕ :=
  Set.Ico (data.edgeBlocksSlba block.1 block.2 csd)
    (data.edgeBlocksSlba block.1 block.2 csd +
      data.edgeBlocksLength block.1 block.2 csd)

/-- The portions of every block make up its file and differ by at most one
edge, and the regions of a device do not overlap. -/
structure Lossless (numCsds numPartitions : ℕ) (outdegrees : List UInt8)
    (files : ℕ → ℕ → List UInt8) (data : CsdsData) : Prop where
  contents : ∀ i < numPartitions, ∀ j < numPartitions,
    ((List.range numCsds).flatMap fun csd =>
      readRange (data.disk csd) (data.edgeBlocksSlba i j csd)
        (data.edgeBlocksLength i j csd)) = files i j
  balanced : ∀ i < numPartitions, ∀ j < numPartitions,
    ∀ csd < numCsds, ∀ csd' < numCsds,
      data.edgeBlocksLength i j csd ≤
        data.edgeBlocksLength i j csd' + EDGE_SIZE
  blocksApart : ∀ csd < numCsds, ∀ block ∈ blockOrder numPartitions,
    ∀ other ∈ blockOrder numPartitions, block ≠ other →
      Disjoint (storageRegion data csd block) (storageRegion data csd other)
  tableApart : ∀ csd < numCsds, ∀ block ∈ blockOrder numPartitions,
    Disjoint (Set.Ico 0 outdegrees.length) (storageRegion data csd block)

section Law

variable {numCsds numPartitions : ℕ} {outdegrees : List UInt8}
  {files : ℕ → ℕ → List UInt8} {data : CsdsData}

theorem disjoint_of_apart {left right : ℕ × List UInt8}
    (hapart : Apart left right) :
    Disjoint (Set.Ico left.1 (left.1 + left.2.length))
      (Set.Ico right.1 (right.1 + right.2.length)) := by
  rw [Set.Ico_disjoint_Ico]
  rcases hapart with hbefore | hbefore <;> simp only [Before] at hbefore
  · exact (min_le_left _ _).trans (hbefore.trans (le_max_right _ _))
  · exact (min_le_right _ _).trans (hbefore.trans (le_max_left _ _))

/-- What is promised of a device follows from its list of regions. -/
theorem Written.lossless (hpos : 0 < numCsds)
    (hedges : ∀ i < numPartitions, ∀ j < numPartitions,
      EDGE_SIZE ∣ (files i j).length)
    (hwritten : Written numCsds outdegrees files
      (fun _ => blockOrder numPartitions) data) :
    Lossless numCsds numPartitions outdegrees files data := by
  have hregion : ∀ csd < numCsds, ∀ block ∈ blockOrder numPartitions,
      storageRegion data csd block = Set.Ico
        (data.edgeBlocksSlba block.1 block.2 csd)
        (data.edgeBlocksSlba block.1 block.2 csd +
          (portion (files block.1 block.2) numCsds csd).length) := by
    intro csd hcsd block hblock
    rw [length_portion _ hcsd, storageRegion,
      hwritten.lengths csd hcsd block hblock]
  constructor
  · intro i hi j hj
    have hmem : (i, j) ∈ blockOrder numPartitions := mem_blockOrder.mpr ⟨hi, hj⟩
    rw [← flatMap_portion hpos (hedges i hi j hj)]
    apply List.flatMap_congr
    intro csd hcsd
    rw [List.mem_range] at hcsd
    rw [hwritten.lengths csd hcsd (i, j) hmem, ← length_portion _ hcsd]
    refine (hwritten.placed csd hcsd).held
      (data.edgeBlocksSlba i j csd, portion (files i j) numCsds csd) ?_
    exact List.mem_cons_of_mem _ (List.mem_map.mpr ⟨(i, j), hmem, rfl⟩)
  · intro i hi j hj csd hcsd csd' hcsd'
    have hmem : (i, j) ∈ blockOrder numPartitions := mem_blockOrder.mpr ⟨hi, hj⟩
    rw [hwritten.lengths csd hcsd (i, j) hmem,
      hwritten.lengths csd' hcsd' (i, j) hmem]
    exact portionLength_balanced _ _ _ _
  · intro csd hcsd block hblock other hother hne
    rw [hregion csd hcsd block hblock, hregion csd hcsd other hother]
    have hpairs := (List.pairwise_cons.mp (hwritten.placed csd hcsd).apart).2
    exact disjoint_of_apart (apart_of_ne hpairs hblock hother hne)
  · intro csd hcsd block hblock
    rw [hregion csd hcsd block hblock]
    have hpairs := (List.pairwise_cons.mp (hwritten.placed csd hcsd).apart).1
    have hapart := disjoint_of_apart (hpairs _
      (List.mem_map.mpr ⟨block, hblock, rfl⟩))
    rwa [zero_add] at hapart

end Law

/-- The edges are distributed without loss exactly when every portion is
shorter than `2 ^ 31` bytes. -/
theorem distribution_lossless_iff (numCsds numPartitions : ℕ)
    (outdegrees : List UInt8) (files : ℕ → ℕ → List UInt8) (data : CsdsData)
    (hpos : 0 < numCsds)
    (hedges : ∀ i < numPartitions, ∀ j < numPartitions,
      EDGE_SIZE ∣ (files i j).length) :
    (∃ data', initCsdsStorage numCsds numPartitions outdegrees files data =
        some data' ∧
      Lossless numCsds numPartitions outdegrees files data') ↔
      ∀ i < numPartitions, ∀ j < numPartitions, ∀ csd < numCsds,
        portionLength (files i j).length numCsds csd < 2 ^ 31 := by
  constructor
  · rintro ⟨data', hrun, -⟩ i hi j hj csd hcsd
    by_contra hle
    rw [initCsdsStorage, Loops.foldlM_blocked (mem_blockOrder.mpr ⟨hi, hj⟩)
      fun now => writeBlock_overrun files now hcsd (Nat.le_of_not_lt hle)]
        at hrun
    cases hrun
  · intro hlt
    obtain ⟨data', hrun, hwritten⟩ := initCsdsStorage_written data hlt
    exact ⟨data', hrun, hwritten.lossless hpos hedges⟩

/-- Tables and storage before anything is written. -/
def emptyData : CsdsData where
  buffer := fun _ => 0
  disk := fun _ _ => 0
  edgeBlockBaseSlba := fun _ => 0
  edgeBlocksSlba := fun _ _ _ => 0
  edgeBlocksLength := fun _ _ _ => 0

/-- One block of three edges on two devices. -/
theorem distribution_lossless_small :
    (∃ data', initCsdsStorage 2 1 [1, 0, 0, 0]
        (fun _ _ => List.replicate 24 7) emptyData = some data' ∧
      Lossless 2 1 [1, 0, 0, 0] (fun _ _ => List.replicate 24 7) data') ↔
      ∀ i < 1, ∀ j < 1, ∀ csd < 2,
        portionLength (List.replicate 24 (7 : UInt8)).length 2 csd < 2 ^ 31 :=
  distribution_lossless_iff 2 1 [1, 0, 0, 0] (fun _ _ => List.replicate 24 7)
    emptyData (by decide) fun _ _ _ _ => by simp [EDGE_SIZE]

/-- A block of `2 ^ 31` bytes on a single device: the first `fread` runs over
the buffer. -/
theorem distribution_overruns_buffer :
    initCsdsStorage 1 1 [] (fun _ _ => List.replicate (2 ^ 31) 0) emptyData =
        none ∧
      ¬ ∃ data', initCsdsStorage 1 1 []
          (fun _ _ => List.replicate (2 ^ 31) 0) emptyData = some data' ∧
        Lossless 1 1 [] (fun _ _ => List.replicate (2 ^ 31) 0) data' := by
  have hnone : initCsdsStorage 1 1 []
      (fun _ _ => List.replicate (2 ^ 31) 0) emptyData = none := by
    apply Loops.foldlM_blocked (mem_blockOrder.mpr ⟨Nat.one_pos, Nat.one_pos⟩)
    intro now
    apply writeBlock_overrun _ now Nat.one_pos
    simp only [List.length_replicate]
    decide
  refine ⟨hnone, ?_⟩
  rintro ⟨data', hrun, -⟩
  rw [hnone] at hrun
  cases hrun

end NvmeVirt.Csd
