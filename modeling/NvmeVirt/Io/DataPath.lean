import Mathlib

/-!
# Data transfer

`__do_perform_io` copies the data of a command page by page as it walks through
the PRP entries.  `__do_perform_io_using_dma` walks through them once to collect
the page addresses and a second time to submit the copies, one for each run of
physically contiguous pages.  Addresses are physical; a copy stands for the
range of bytes that `memcpy` or `ioat_dma_submit` is given.
-/

namespace NvmeVirt.Io

def pageSize : ℕ := 4096

def lbaSize : ℕ := 512

inductive IoOpcode
  | write
  | zoneAppend
  | read
  | other
  deriving DecidableEq

/-- The fields of `struct nvme_rw_command` that the data path reads. -/
structure RwCommand where
  opcode : IoOpcode
  nsid : ℕ
  slba : UInt64
  length : UInt16
  prp1 : ℕ
  prp2 : ℕ

def cmdIoOffset (cmd : RwCommand) : ℕ := cmd.slba.toNat * lbaSize % 2 ^ 64

def cmdIoSize (cmd : RwCommand) : ℕ := (cmd.length.toNat + 1) * lbaSize

/-- A copy between host memory and the storage; the opcode gives its
direction. -/
structure Copy where
  host : ℕ
  storage : ℕ
  size : ℕ
  deriving DecidableEq

/-- The copy of a command, if it is one that moves data. -/
def transfer (opcode : IoOpcode) (host storage size : ℕ) : List Copy :=
  match opcode with
  | .other => []
  | _ => [⟨host, storage, size⟩]

/-! ## The PRP entries -/

/-- The position in the PRP entries: `prp_offs`, `prp2_offs` and the address of
the PRP list once it is in use. -/
structure PrpCursor where
  prpOffs : ℕ
  prp2Offs : ℕ
  list : Option ℕ

def PrpCursor.start : PrpCursor := ⟨0, 0, none⟩

/-- The next page address; the use of a list that was never set up is a fault.
`words` are the 64-bit words of the host memory by their address. -/
def nextPrp (cmd : RwCommand) (words : ℕ → ℕ) (remaining : ℕ)
    (cursor : PrpCursor) : Option (ℕ × PrpCursor) :=
  let prpOffs := cursor.prpOffs + 1
  if prpOffs = 1 then some (cmd.prp1, { cursor with prpOffs })
  else if prpOffs = 2 then
    if pageSize < remaining then
      some (words (cmd.prp2 + 8 * cursor.prp2Offs),
        ⟨prpOffs, cursor.prp2Offs + 1, some cmd.prp2⟩)
    else some (cmd.prp2, { cursor with prpOffs })
  else
    match cursor.list with
    | none => none
    | some list => some (words (list + 8 * cursor.prp2Offs),
        { cursor with prpOffs, prp2Offs := cursor.prp2Offs + 1 })

/-- The part of `remaining` that lies in the page. -/
def pageIoSize (remaining paddr : ℕ) : ℕ :=
  let ioSize := min remaining pageSize
  let memOffs := paddr % pageSize
  if memOffs ≠ 0 ∧ pageSize < ioSize + memOffs then pageSize - memOffs
  else ioSize

/-! ## Copies by the CPU -/

/-- The loop of `__do_perform_io`, for a namespace mapped at `mapped`.  A round
moves at least one byte. -/
def performIoLoop (cmd : RwCommand) (words : ℕ → ℕ) (mapped : ℕ) :
    ℕ → ℕ → ℕ → PrpCursor → Option (List Copy)
  | fuel, remaining, offset, cursor =>
      if remaining = 0 then some []
      else
        match fuel with
        | 0 => none
        | fuel + 1 => do
            let (paddr, cursor) ← nextPrp cmd words remaining cursor
            let ioSize := pageIoSize remaining paddr
            let rest ← performIoLoop cmd words mapped fuel
              (remaining - ioSize) (offset + ioSize) cursor
            return transfer cmd.opcode paddr (mapped + offset) ioSize ++ rest

/-- `__do_perform_io`. -/
def performIo (cmd : RwCommand) (words : ℕ → ℕ) (mapped : ℕ) :
    Option (List Copy) :=
  performIoLoop cmd words mapped (cmdIoSize cmd) (cmdIoSize cmd)
    (cmdIoOffset cmd) .start

/-! ## Copies by DMA -/

/-- The first loop of `__do_perform_io_using_dma`.  The array of addresses has
no element after the 512th. -/
def collectPrps (cmd : RwCommand) (words : ℕ → ℕ) :
    ℕ → ℕ → PrpCursor → Option (List ℕ)
  | fuel, remaining, cursor =>
      if remaining = 0 then some []
      else
        match fuel with
        | 0 => none
        | fuel + 1 =>
            if 512 < cursor.prpOffs + 1 then none
            else do
              let (paddr, cursor) ← nextPrp cmd words remaining cursor
              let rest ← collectPrps cmd words fuel
                (remaining - pageIoSize remaining paddr) cursor
              return paddr :: rest

/-- The number of pages that follow the page at `prev` without a gap. -/
def contiguous (prev : ℕ) : List ℕ → ℕ
  | [] => 0
  | paddr :: rest =>
      if paddr = (prev + pageSize) % 2 ^ 64 then contiguous paddr rest + 1
      else 0

/-- The second loop, for the storage at `storageStart`. -/
def submitLoop (opcode : IoOpcode) (storageStart : ℕ) :
    ℕ → ℕ → ℕ → List ℕ → Option (List Copy)
  | fuel, remaining, offset, paddrs =>
      if remaining = 0 then some []
      else
        match fuel with
        | 0 => none
        | fuel + 1 => do
            let paddr := paddrs.headD 0
            let following := contiguous paddr paddrs.tail
            let ioSize := min remaining
              (pageIoSize remaining paddr + following * pageSize)
            let rest ← submitLoop opcode storageStart fuel (remaining - ioSize)
              (offset + ioSize) (paddrs.tail.drop following)
            return transfer opcode paddr (storageStart + offset) ioSize ++ rest

/-- `__do_perform_io_using_dma`. -/
def performIoUsingDma (cmd : RwCommand) (words : ℕ → ℕ) (storageStart : ℕ) :
    Option (List Copy) := do
  let paddrs ← collectPrps cmd words (cmdIoSize cmd) (cmdIoSize cmd) .start
  submitLoop cmd.opcode storageStart (cmdIoSize cmd) (cmdIoSize cmd)
    (cmdIoOffset cmd) paddrs

/-! ## Bytes -/

/-- The bytes that a copy moves, from where and to where, in order. -/
def Copy.moves (opcode : IoOpcode) (copy : Copy) : List (ℕ × ℕ) :=
  (List.range copy.size).map fun i =>
    let host := (copy.host + i) % 2 ^ 64
    let storage := (copy.storage + i) % 2 ^ 64
    if opcode = .read then (storage, host) else (host, storage)

def moves (opcode : IoOpcode) (copies : List Copy) : List (ℕ × ℕ) :=
  copies.flatMap (Copy.moves opcode)

variable {opcode : IoOpcode} {base remaining offset : ℕ}

theorem moves_append (copies copies' : List Copy) :
    moves opcode (copies ++ copies') =
      moves opcode copies ++ moves opcode copies' :=
  List.flatMap_append

/-- Two copies that follow each other on both sides are one copy. -/
theorem moves_join {host host' storage m n : ℕ}
    (hhost : host' = (host + m) % 2 ^ 64) :
    moves opcode (transfer opcode host storage m) ++
        moves opcode (transfer opcode host' (storage + m) n) =
      moves opcode (transfer opcode host storage (m + n)) := by
  have hbyte : ∀ i, (host' + i) % 2 ^ 64 = (host + (m + i)) % 2 ^ 64 := by
    intro i
    rw [hhost, Nat.mod_add_mod, Nat.add_assoc]
  cases opcode with
  | other => rfl
  | write | zoneAppend | read =>
      simp only [moves, transfer, List.flatMap_singleton, Copy.moves,
        List.range_add, List.map_append, List.map_map, hbyte, Nat.add_assoc]
      rfl

/-! ## Pages -/

theorem pageIoSize_le (remaining paddr : ℕ) :
    pageIoSize remaining paddr ≤ remaining := by
  simp only [pageIoSize]
  split <;> omega

theorem pageIoSize_pos (hremaining : remaining ≠ 0) (paddr : ℕ) :
    0 < pageIoSize remaining paddr := by
  have hmod : paddr % pageSize < pageSize := Nat.mod_lt _ (by decide)
  have hpage : 0 < pageSize := by decide
  simp only [pageIoSize]
  split <;> omega

theorem pageIoSize_of_aligned {paddr : ℕ} (haligned : paddr % pageSize = 0) :
    pageIoSize remaining paddr = min remaining pageSize := by
  simp only [pageIoSize, haligned]
  exact if_neg (by simp)

/-- The pages hold the remaining bytes exactly. -/
def Covers : ℕ → List ℕ → Prop
  | remaining, [] => remaining = 0
  | remaining, paddr :: rest =>
      remaining ≠ 0 ∧ Covers (remaining - pageIoSize remaining paddr) rest

/-- The copies for a list of pages, one for each page. -/
def pageCopies (opcode : IoOpcode) (base : ℕ) : ℕ → ℕ → List ℕ → List Copy
  | _, _, [] => []
  | remaining, offset, paddr :: rest =>
      let ioSize := pageIoSize remaining paddr
      transfer opcode paddr (base + offset) ioSize ++
        pageCopies opcode base (remaining - ioSize) (offset + ioSize) rest

/-- Both loops see the same pages. -/
theorem performIoLoop_of_collect {cmd : RwCommand} {words : ℕ → ℕ} {fuel : ℕ}
    {cursor : PrpCursor} {paddrs : List ℕ}
    (hcollect : collectPrps cmd words fuel remaining cursor = some paddrs) :
    Covers remaining paddrs ∧
      performIoLoop cmd words base fuel remaining offset cursor =
        some (pageCopies cmd.opcode base remaining offset paddrs) := by
  induction fuel generalizing remaining offset cursor paddrs with
  | zero =>
      unfold collectPrps at hcollect
      unfold performIoLoop
      by_cases hzero : remaining = 0
      · rw [if_pos hzero] at hcollect ⊢
        cases hcollect
        exact ⟨hzero, rfl⟩
      · rw [if_neg hzero] at hcollect
        cases hcollect
  | succ fuel ih =>
      unfold collectPrps at hcollect
      unfold performIoLoop
      by_cases hzero : remaining = 0
      · rw [if_pos hzero] at hcollect ⊢
        cases hcollect
        exact ⟨hzero, rfl⟩
      · rw [if_neg hzero] at hcollect ⊢
        dsimp only at hcollect ⊢
        split at hcollect
        · cases hcollect
        cases hnext : nextPrp cmd words remaining cursor with
        | none =>
            rw [hnext] at hcollect
            cases hcollect
        | some found =>
            obtain ⟨paddr, next⟩ := found
            rw [hnext] at hcollect
            change (collectPrps cmd words fuel _ next).bind _ = some paddrs
              at hcollect
            obtain ⟨rest, hrest, hpaddrs⟩ :=
              Option.bind_eq_some_iff.mp hcollect
            cases hpaddrs
            obtain ⟨hcovers, hloop⟩ :=
              @ih (remaining - pageIoSize remaining paddr)
                (offset + pageIoSize remaining paddr) next rest hrest
            refine ⟨⟨hzero, hcovers⟩, ?_⟩
            change (performIoLoop cmd words base fuel _ _ next).bind _ = _
            rw [hloop]
            rfl

/-- A run of contiguous pages is copied at once. -/
theorem moves_pageCopies_run {paddr : ℕ} {rest : List ℕ}
    (hcovers : Covers remaining (paddr :: rest))
    (haligned : ∀ page ∈ rest, page % pageSize = 0) :
    let following := contiguous paddr rest
    let ioSize := min remaining
      (pageIoSize remaining paddr + following * pageSize)
    Covers (remaining - ioSize) (rest.drop following) ∧
      moves opcode (pageCopies opcode base remaining offset (paddr :: rest)) =
        moves opcode (transfer opcode paddr (base + offset) ioSize) ++
          moves opcode (pageCopies opcode base (remaining - ioSize)
            (offset + ioSize) (rest.drop following)) := by
  induction rest generalizing paddr remaining offset with
  | nil =>
      have hsize := pageIoSize_le remaining paddr
      simp only [contiguous, Nat.zero_mul, Nat.add_zero, List.drop_zero,
        Nat.min_eq_right hsize]
      exact ⟨hcovers.2, moves_append _ _⟩
  | cons page rest ih =>
      dsimp only
      by_cases hnext : page = (paddr + pageSize) % 2 ^ 64
      · -- The page before an aligned one is aligned, and copied as a whole.
        have hpage : page % pageSize = 0 := haligned page List.mem_cons_self
        have hpaddr : paddr % pageSize = 0 := by
          simp only [pageSize] at hnext hpage ⊢
          omega
        have hwhole : pageIoSize remaining paddr = pageSize := by
          have hmore : remaining - pageIoSize remaining paddr ≠ 0 := hcovers.2.1
          rw [pageIoSize_of_aligned hpaddr] at hmore ⊢
          omega
        have hcovers' := hcovers.2
        rw [hwhole] at hcovers'
        obtain ⟨hdrop, hmoves⟩ := @ih (remaining - pageSize)
          (offset + pageSize) page hcovers'
          fun other hother => haligned other (List.mem_cons_of_mem _ hother)
        have hcount : contiguous paddr (page :: rest) =
            contiguous page rest + 1 := by
          rw [contiguous, if_pos hnext]
        have htotal : min remaining (pageIoSize remaining paddr +
            (contiguous page rest + 1) * pageSize) =
            pageSize + min (remaining - pageSize)
              (pageIoSize (remaining - pageSize) page +
                contiguous page rest * pageSize) := by
          have hle := pageIoSize_le remaining paddr
          rw [hwhole, pageIoSize_of_aligned hpage, Nat.succ_mul]
          rw [hwhole] at hle
          generalize contiguous page rest * pageSize = bytes
          generalize pageSize = size at hle
          omega
        rw [hcount, htotal, List.drop_succ_cons, ← Nat.sub_sub,
          ← Nat.add_assoc]
        refine ⟨hdrop, ?_⟩
        rw [pageCopies, moves_append, hwhole, hmoves, ← List.append_assoc,
          ← Nat.add_assoc, moves_join hnext]
      · have hcount : contiguous paddr (page :: rest) = 0 := by
          rw [contiguous, if_neg hnext]
        have hsize := pageIoSize_le remaining paddr
        simp only [hcount, Nat.zero_mul, Nat.add_zero, List.drop_zero,
          Nat.min_eq_right hsize]
        exact ⟨hcovers.2, moves_append _ _⟩

theorem submitLoop_moves {fuel : ℕ} {paddrs : List ℕ}
    (hfuel : remaining ≤ fuel) (hcovers : Covers remaining paddrs)
    (haligned : ∀ page ∈ paddrs.tail, page % pageSize = 0) :
    ∃ copies, submitLoop opcode base fuel remaining offset paddrs =
        some copies ∧
      moves opcode copies =
        moves opcode (pageCopies opcode base remaining offset paddrs) := by
  induction fuel generalizing remaining offset paddrs with
  | zero =>
      have hzero : remaining = 0 := Nat.le_zero.mp hfuel
      cases paddrs with
      | nil => exact ⟨[], by rw [submitLoop, if_pos hzero], rfl⟩
      | cons paddr rest => exact absurd hzero hcovers.1
  | succ fuel ih =>
      cases paddrs with
      | nil =>
          have hzero : remaining = 0 := hcovers
          exact ⟨[], by rw [submitLoop, if_pos hzero], rfl⟩
      | cons paddr rest =>
          obtain ⟨hdrop, hmoves⟩ :=
            @moves_pageCopies_run opcode base remaining offset paddr rest
              hcovers haligned
          set following := contiguous paddr rest
          set ioSize := min remaining
            (pageIoSize remaining paddr + following * pageSize) with hioSize
          have hpos := pageIoSize_pos hcovers.1 paddr
          obtain ⟨copies, hloop, hcopies⟩ :=
            @ih (remaining - ioSize) (offset + ioSize) (rest.drop following)
              (by omega) hdrop fun page hpage => haligned page
                (List.mem_of_mem_drop (List.mem_of_mem_tail hpage))
          refine ⟨transfer opcode paddr (base + offset) ioSize ++ copies, ?_, ?_⟩
          · rw [submitLoop, if_neg hcovers.1]
            change (submitLoop opcode base fuel (remaining - ioSize)
              (offset + ioSize) (rest.drop following)).bind _ = _
            rw [hloop]
            rfl
          · rw [moves_append, hcopies, hmoves]

/-! ## Well-formed PRP entries -/

theorem sub_pageIoSize (remaining paddr : ℕ) :
    remaining - pageIoSize remaining paddr =
      paddr % pageSize + remaining - pageSize := by
  have hmod : paddr % pageSize < pageSize := Nat.mod_lt _ (by decide)
  simp only [pageIoSize]
  split <;> omega

theorem nextPrp_list {cmd : RwCommand} {words : ℕ → ℕ} {cursor : PrpCursor}
    {list : ℕ} (hoffs : 2 ≤ cursor.prpOffs) (hlist : cursor.list = some list) :
    nextPrp cmd words remaining cursor =
      some (words (list + 8 * cursor.prp2Offs),
        ⟨cursor.prpOffs + 1, cursor.prp2Offs + 1, some list⟩) := by
  simp only [nextPrp, hlist]
  rw [if_neg (by omega), if_neg (by omega)]

theorem collectPrps_done (cmd : RwCommand) (words : ℕ → ℕ) (fuel : ℕ)
    (cursor : PrpCursor) : collectPrps cmd words fuel 0 cursor = some [] := by
  unfold collectPrps
  rw [if_pos rfl]

theorem collectPrps_cons {cmd : RwCommand} {words : ℕ → ℕ} {fuel paddr : ℕ}
    {cursor next : PrpCursor} {rest : List ℕ} (hremaining : remaining ≠ 0)
    (hin : cursor.prpOffs < 512)
    (hnext : nextPrp cmd words remaining cursor = some (paddr, next))
    (hrest : collectPrps cmd words fuel
      (remaining - pageIoSize remaining paddr) next = some rest) :
    collectPrps cmd words (fuel + 1) remaining cursor =
      some (paddr :: rest) := by
  rw [collectPrps, if_neg hremaining]
  dsimp only
  rw [if_neg (by omega), hnext]
  change (collectPrps cmd words fuel _ next).bind _ = _
  rw [hrest]
  rfl

/-- A list with an aligned page in front. -/
theorem aligned_cons {page : ℕ} {rest : List ℕ} (hpage : page % pageSize = 0)
    (hrest : ∀ other ∈ rest, other % pageSize = 0) :
    ∀ other ∈ page :: rest, other % pageSize = 0 :=
  List.forall_mem_cons.mpr ⟨hpage, hrest⟩

theorem room_next {offs remaining : ℕ} (hin : offs < 512)
    (hroom : offs * pageSize + remaining ≤ 512 * pageSize) :
    (offs + 1) * pageSize + (remaining - pageSize) ≤ 512 * pageSize := by
  rcases Nat.le_total pageSize remaining with hle | hle
  · rw [Nat.succ_mul, Nat.add_assoc, Nat.add_sub_cancel' hle]
    exact hroom
  · rw [Nat.sub_eq_zero_of_le hle, Nat.add_zero]
    exact Nat.mul_le_mul_right _ hin

/-- What is left after a page of the list needs only the pages after it. -/
theorem list_next {offs i remaining : ℕ} (hremaining : remaining ≠ 0)
    (hi : i * pageSize < (offs + 1) * pageSize + (remaining - pageSize)) :
    i * pageSize < offs * pageSize + remaining := by
  rcases Nat.le_total pageSize remaining with hle | hle
  · rwa [Nat.succ_mul, Nat.add_assoc, Nat.add_sub_cancel' hle] at hi
  · rw [Nat.sub_eq_zero_of_le hle, Nat.add_zero] at hi
    have hlt := Nat.lt_of_mul_lt_mul_right hi
    have hpages := Nat.mul_le_mul_right pageSize (Nat.lt_succ_iff.mp hlt)
    omega

/-- The entries of a PRP list that lie in the array. -/
theorem collectPrps_list {cmd : RwCommand} {words : ℕ → ℕ} {fuel list : ℕ}
    {cursor : PrpCursor} (hoffs : 2 ≤ cursor.prpOffs)
    (hlist : cursor.list = some list) (hfuel : remaining ≤ fuel)
    (hroom : cursor.prpOffs * pageSize + remaining ≤ 512 * pageSize)
    (haligned : ∀ i, i * pageSize < cursor.prp2Offs * pageSize + remaining →
      words (list + 8 * i) % pageSize = 0) :
    ∃ paddrs, collectPrps cmd words fuel remaining cursor = some paddrs ∧
      ∀ page ∈ paddrs, page % pageSize = 0 := by
  induction fuel generalizing remaining cursor with
  | zero =>
      obtain rfl : remaining = 0 := Nat.le_zero.mp hfuel
      exact ⟨[], collectPrps_done cmd words 0 cursor, by simp⟩
  | succ fuel ih =>
      by_cases hzero : remaining = 0
      · subst hzero
        exact ⟨[], collectPrps_done cmd words _ cursor, by simp⟩
      have hin : cursor.prpOffs < 512 := by
        simp only [pageSize] at hroom
        omega
      have hpage := haligned cursor.prp2Offs (by omega)
      have hpos := pageIoSize_pos hzero (words (list + 8 * cursor.prp2Offs))
      have hleft := sub_pageIoSize remaining
        (words (list + 8 * cursor.prp2Offs))
      rw [hpage, Nat.zero_add] at hleft
      have hroom' : (cursor.prpOffs + 1) * pageSize +
          (remaining - pageIoSize remaining
            (words (list + 8 * cursor.prp2Offs))) ≤ 512 * pageSize := by
        rw [hleft]
        exact room_next hin hroom
      obtain ⟨rest, hrest, hrestAligned⟩ := @ih _
        ⟨cursor.prpOffs + 1, cursor.prp2Offs + 1, some list⟩
        (Nat.le_succ_of_le hoffs) rfl (by omega) hroom' (by
          intro i hi
          rw [hleft] at hi
          exact haligned i (list_next hzero hi))
      exact ⟨_, collectPrps_cons hzero hin (nextPrp_list hoffs hlist) hrest,
        aligned_cons hpage hrestAligned⟩

/-- The entries of a command of at most 512 pages whose entries after the first
are page aligned. -/
theorem collectPrps_start {cmd : RwCommand} {words : ℕ → ℕ} {size : ℕ}
    (hsize : size ≠ 0)
    (hroom : cmd.prp1 % pageSize + size ≤ 512 * pageSize)
    (hsecond : pageSize < cmd.prp1 % pageSize + size →
      cmd.prp1 % pageSize + size ≤ 2 * pageSize → cmd.prp2 % pageSize = 0)
    (hlist : 2 * pageSize < cmd.prp1 % pageSize + size →
      ∀ i, (i + 1) * pageSize < cmd.prp1 % pageSize + size →
        words (cmd.prp2 + 8 * i) % pageSize = 0) :
    ∃ paddrs, collectPrps cmd words size size .start = some paddrs ∧
      ∀ page ∈ paddrs.tail, page % pageSize = 0 := by
  have hpos := pageIoSize_pos hsize cmd.prp1
  have hfirst := sub_pageIoSize size cmd.prp1
  have hle := pageIoSize_le size cmd.prp1
  obtain ⟨fuel, hfuel⟩ : ∃ fuel, size = fuel + 1 :=
    Nat.exists_eq_succ_of_ne_zero hsize
  generalize hleft : size - pageIoSize size cmd.prp1 = left at hfirst
  suffices hrest : ∃ rest, collectPrps cmd words fuel left ⟨1, 0, none⟩ =
      some rest ∧ ∀ page ∈ rest, page % pageSize = 0 by
    obtain ⟨rest, hcollect, haligned⟩ := hrest
    rw [← hleft] at hcollect
    refine ⟨cmd.prp1 :: rest, ?_, haligned⟩
    nth_rewrite 1 [hfuel]
    exact collectPrps_cons hsize (by decide) rfl hcollect
  by_cases hdone : left = 0
  · subst hdone
    exact ⟨[], collectPrps_done cmd words fuel _, by simp⟩
  obtain ⟨fuel', rfl⟩ : ∃ fuel', fuel = fuel' + 1 :=
    Nat.exists_eq_succ_of_ne_zero (by omega)
  by_cases hmany : pageSize < left
  · -- The second entry is the first of a list.
    have haligned := hlist (by omega)
    have hpage := haligned 0 (by omega)
    have hentries : ∀ i, i * pageSize < 1 * pageSize +
        (left - pageSize) → words (cmd.prp2 + 8 * i) % pageSize = 0 := by
      intro i hi
      refine haligned i ?_
      rw [Nat.succ_mul]
      omega
    have hnext : nextPrp cmd words left ⟨1, 0, none⟩ =
        some (words (cmd.prp2 + 8 * 0), ⟨2, 1, some cmd.prp2⟩) := by
      simp [nextPrp, hmany]
    have hpos' := pageIoSize_pos hdone (words (cmd.prp2 + 8 * 0))
    have hleft' := sub_pageIoSize left (words (cmd.prp2 + 8 * 0))
    rw [hpage, Nat.zero_add] at hleft'
    have hroom' : 2 * pageSize +
        (left - pageIoSize left (words (cmd.prp2 + 8 * 0))) ≤
          512 * pageSize := by
      rw [hleft']
      omega
    obtain ⟨rest, hrest, hrestAligned⟩ := @collectPrps_list _ cmd words fuel'
      cmd.prp2 ⟨2, 1, some cmd.prp2⟩ le_rfl rfl (by omega) hroom' (by
        intro i hi
        rw [hleft'] at hi
        exact hentries i hi)
    exact ⟨_, collectPrps_cons hdone (by decide) hnext hrest,
      aligned_cons hpage hrestAligned⟩
  · have hpage := hsecond (by omega) (by omega)
    have hnext : nextPrp cmd words left ⟨1, 0, none⟩ =
        some (cmd.prp2, ⟨2, 0, none⟩) := by
      simp [nextPrp, hmany]
    have hall : left - pageIoSize left cmd.prp2 = 0 := by
      rw [sub_pageIoSize, hpage]
      omega
    refine ⟨[cmd.prp2], collectPrps_cons hdone (by decide) hnext ?_,
      by simpa using hpage⟩
    rw [hall]
    exact collectPrps_done cmd words fuel' _

end NvmeVirt.Io
