import NvmeVirt.Io.DataPath
import NvmeVirt.Lib.Copying

/-!
# The storage as a block device

Host memory and the storage share the physical addresses.  The data path finds
the bytes of the host's buffer where the PRP entries of the command say they
are, so to the host the storage is a flat array of bytes that its commands read
and overwrite, whether the CPU or the DMA engine moves them.
-/

namespace NvmeVirt.Io

open Function Copying

/-! ## The bytes of a command -/

/-- The address of a byte of the buffer, by the meaning of the PRP entries: the
first may begin inside a page, the second is the other page of a buffer of two,
and else the address of a list of the pages after the first. -/
def prpAddress (cmd : RwCommand) (words : ℕ → ℕ) (i : ℕ) : ℕ :=
  let offs := cmd.prp1 % pageSize
  let page := (offs + i) / pageSize
  let byte := (offs + i) % pageSize
  if page = 0 then cmd.prp1 + i
  else if offs + cmdIoSize cmd ≤ 2 * pageSize then cmd.prp2 + byte
  else words (cmd.prp2 + 8 * (page - 1)) + byte

/-- The buffer has at most 512 pages, and all but the first begin at a page
boundary. -/
structure PrpAligned (cmd : RwCommand) (words : ℕ → ℕ) : Prop where
  room : cmd.prp1 % pageSize + cmdIoSize cmd ≤ 512 * pageSize
  second : pageSize < cmd.prp1 % pageSize + cmdIoSize cmd →
    cmd.prp1 % pageSize + cmdIoSize cmd ≤ 2 * pageSize →
    cmd.prp2 % pageSize = 0
  list : 2 * pageSize < cmd.prp1 % pageSize + cmdIoSize cmd →
    ∀ i, (i + 1) * pageSize < cmd.prp1 % pageSize + cmdIoSize cmd →
      words (cmd.prp2 + 8 * i) % pageSize = 0

/-- One byte from where to where, in the direction of the opcode. -/
def byteMove (opcode : IoOpcode) (host storage : ℕ) : List (ℕ × ℕ) :=
  match opcode with
  | .other => []
  | .read => [(storage % 2 ^ 64, host % 2 ^ 64)]
  | _ => [(host % 2 ^ 64, storage % 2 ^ 64)]

def byteMoves (opcode : IoOpcode) (n : ℕ) (host storage : ℕ → ℕ) :
    List (ℕ × ℕ) :=
  (List.range n).flatMap fun i => byteMove opcode (host i) (storage i)

variable {opcode : IoOpcode} {base remaining offset m n : ℕ}

theorem byteMoves_congr {host host' storage storage' : ℕ → ℕ}
    (hhost : ∀ i < n, host i = host' i)
    (hstorage : ∀ i < n, storage i = storage' i) :
    byteMoves opcode n host storage = byteMoves opcode n host' storage' :=
  List.flatMap_congr fun i hi => by
    rw [hhost i (List.mem_range.mp hi), hstorage i (List.mem_range.mp hi)]

theorem byteMoves_add (host storage : ℕ → ℕ) :
    byteMoves opcode (m + n) host storage =
      byteMoves opcode m host storage ++
        byteMoves opcode n (fun i => host (m + i))
          fun i => storage (m + i) := by
  rw [byteMoves, List.range_add, List.flatMap_append, List.flatMap_map]
  rfl

theorem moves_transfer (host storage : ℕ) :
    moves opcode (transfer opcode host storage n) =
      byteMoves opcode n (fun i => host + i) fun i => storage + i := by
  cases opcode with
  | other => exact (List.flatMap_eq_nil_iff.mpr fun _ _ => rfl).symm
  | read | write | zoneAppend =>
      simp only [moves, transfer, List.flatMap_singleton, Copy.moves,
        byteMoves, byteMove, List.map_eq_flatMap, reduceCtorEq, if_false,
        if_true]

/-- A first page, and the bytes that follow it. -/
theorem moves_page {paddr : ℕ} {host : ℕ → ℕ} {rest : List Copy}
    (hfirst : ∀ i < pageIoSize remaining paddr, host i = paddr + i)
    (hrest : moves opcode rest =
      byteMoves opcode (remaining - pageIoSize remaining paddr)
        (fun i => host (pageIoSize remaining paddr + i))
        fun i => base + (offset + pageIoSize remaining paddr) + i) :
    moves opcode (transfer opcode paddr (base + offset)
        (pageIoSize remaining paddr) ++ rest) =
      byteMoves opcode remaining host fun i => base + offset + i := by
  have hsplit := Nat.add_sub_cancel' (pageIoSize_le remaining paddr)
  calc moves opcode (transfer opcode paddr (base + offset)
        (pageIoSize remaining paddr) ++ rest)
      = byteMoves opcode (pageIoSize remaining paddr) host
            (fun i => base + offset + i) ++
          byteMoves opcode (remaining - pageIoSize remaining paddr)
            (fun i => host (pageIoSize remaining paddr + i))
            (fun i => base + offset + (pageIoSize remaining paddr + i)) := by
        rw [moves_append, moves_transfer, hrest]
        congr 1
        · exact byteMoves_congr (fun i hi => (hfirst i hi).symm)
            fun _ _ => rfl
        · exact byteMoves_congr (fun _ _ => rfl) fun i _ => by
            simp only [Nat.add_assoc]
    _ = byteMoves opcode remaining host fun i => base + offset + i := by
        rw [← byteMoves_add, hsplit]

/-! ## The walk through the entries -/

theorem performIoLoop_done (cmd : RwCommand) (words : ℕ → ℕ) (fuel : ℕ)
    (cursor : PrpCursor) :
    performIoLoop cmd words base fuel 0 offset cursor = some [] := by
  unfold performIoLoop
  rw [if_pos rfl]

theorem performIoLoop_cons {cmd : RwCommand} {words : ℕ → ℕ}
    {fuel paddr : ℕ} {cursor next : PrpCursor} {rest : List Copy}
    (hremaining : remaining ≠ 0)
    (hnext : nextPrp cmd words remaining cursor = some (paddr, next))
    (hrest : performIoLoop cmd words base fuel
      (remaining - pageIoSize remaining paddr)
      (offset + pageIoSize remaining paddr) next = some rest) :
    performIoLoop cmd words base (fuel + 1) remaining offset cursor =
      some (transfer cmd.opcode paddr (base + offset)
        (pageIoSize remaining paddr) ++ rest) := by
  rw [performIoLoop, if_neg hremaining, hnext]
  change (performIoLoop cmd words base fuel _ _ next).bind _ = _
  rw [hrest]
  rfl

theorem page_succ (i : ℕ) :
    (pageSize + i) / pageSize = i / pageSize + 1 ∧
      (pageSize + i) % pageSize = i % pageSize := by
  simp only [pageSize]
  omega

/-- The pages of a PRP list. -/
theorem performIoLoop_list {cmd : RwCommand} {words : ℕ → ℕ} {fuel list : ℕ}
    {cursor : PrpCursor} (hoffs : 2 ≤ cursor.prpOffs)
    (hlist : cursor.list = some list) (hfuel : remaining ≤ fuel)
    (haligned : ∀ i, i * pageSize < remaining →
      words (list + 8 * (cursor.prp2Offs + i)) % pageSize = 0) :
    ∃ copies, performIoLoop cmd words base fuel remaining offset cursor =
        some copies ∧
      moves cmd.opcode copies = byteMoves cmd.opcode remaining
        (fun i => words (list + 8 * (cursor.prp2Offs + i / pageSize)) +
          i % pageSize)
        fun i => base + offset + i := by
  induction fuel generalizing remaining offset cursor with
  | zero =>
      obtain rfl : remaining = 0 := Nat.le_zero.mp hfuel
      exact ⟨[], performIoLoop_done cmd words 0 cursor, rfl⟩
  | succ fuel ih =>
      by_cases hzero : remaining = 0
      · subst hzero
        exact ⟨[], performIoLoop_done cmd words _ cursor, rfl⟩
      set paddr := words (list + 8 * cursor.prp2Offs) with hpaddr
      have hpage : paddr % pageSize = 0 :=
        haligned 0 (by rw [Nat.zero_mul]; exact Nat.pos_of_ne_zero hzero)
      have hsize := @pageIoSize_of_aligned remaining paddr hpage
      have hpos := pageIoSize_pos hzero paddr
      obtain ⟨rest, hrest, hmoves⟩ := @ih
        (remaining - pageIoSize remaining paddr)
        (offset + pageIoSize remaining paddr)
        ⟨cursor.prpOffs + 1, cursor.prp2Offs + 1, some list⟩
        (Nat.le_succ_of_le hoffs) rfl (by omega) (by
          intro i hi
          have halign := haligned (1 + i) (by
            rw [Nat.add_mul, Nat.one_mul]
            omega)
          rwa [← Nat.add_assoc] at halign)
      refine ⟨_, performIoLoop_cons hzero (nextPrp_list hoffs hlist) hrest,
        moves_page ?_ ?_⟩
      · intro i hi
        have hlt : i < pageSize := hi.trans_le (hsize ▸ min_le_right _ _)
        simp only [Nat.div_eq_of_lt hlt, Nat.mod_eq_of_lt hlt, Nat.add_zero]
      · rw [hmoves]
        refine byteMoves_congr (fun i hi => ?_) fun _ _ => rfl
        have hwhole : pageIoSize remaining paddr = pageSize := by omega
        obtain ⟨hdiv, hmod⟩ := page_succ i
        change words (list + 8 * (cursor.prp2Offs + 1 + i / pageSize)) +
            i % pageSize =
          words (list + 8 * (cursor.prp2Offs +
            (pageIoSize remaining paddr + i) / pageSize)) +
            (pageIoSize remaining paddr + i) % pageSize
        rw [hwhole, hdiv, hmod, Nat.add_assoc, Nat.add_comm 1]

theorem pageIoSize_fits (remaining paddr : ℕ) :
    paddr % pageSize + pageIoSize remaining paddr ≤ pageSize := by
  have hmod : paddr % pageSize < pageSize := Nat.mod_lt _ (by decide)
  simp only [pageIoSize]
  split <;> omega

theorem cmdIoSize_ne_zero (cmd : RwCommand) : cmdIoSize cmd ≠ 0 := by
  simp only [cmdIoSize, lbaSize]
  omega

/-- The code walks through the entries as they are meant. -/
theorem performIo_moves {cmd : RwCommand} {words : ℕ → ℕ}
    (hprp : PrpAligned cmd words) (base : ℕ) :
    ∃ copies, performIo cmd words base = some copies ∧
      moves cmd.opcode copies = byteMoves cmd.opcode (cmdIoSize cmd)
        (prpAddress cmd words) fun i => base + cmdIoOffset cmd + i := by
  have hsize := cmdIoSize_ne_zero cmd
  obtain ⟨hroom, hsecond, hlist⟩ := hprp
  set size := cmdIoSize cmd with hsizeEq
  set offs := cmd.prp1 % pageSize with hoffs
  have hpos := pageIoSize_pos hsize cmd.prp1
  have hfits := pageIoSize_fits size cmd.prp1
  have hleft := sub_pageIoSize size cmd.prp1
  have hle := pageIoSize_le size cmd.prp1
  rw [← hoffs] at hfits hleft
  set first := pageIoSize size cmd.prp1 with hfirst
  obtain ⟨fuel, hfuel⟩ := Nat.exists_eq_succ_of_ne_zero hsize
  suffices hrest : ∃ rest, performIoLoop cmd words base fuel (size - first)
      (cmdIoOffset cmd + first) ⟨1, 0, none⟩ = some rest ∧
      moves cmd.opcode rest = byteMoves cmd.opcode (size - first)
        (fun i => prpAddress cmd words (first + i))
        fun i => base + (cmdIoOffset cmd + first) + i by
    obtain ⟨rest, hloop, hmoves⟩ := hrest
    refine ⟨_, ?_, moves_page (fun i hi => ?_) hmoves⟩
    · rw [performIo, ← hsizeEq]
      nth_rewrite 1 [hfuel]
      exact performIoLoop_cons hsize rfl hloop
    · have hpage : (offs + i) / pageSize = 0 := Nat.div_eq_of_lt (by omega)
      simp only [prpAddress, ← hoffs, hpage, if_true]
  by_cases hdone : size - first = 0
  · rw [hdone]
    exact ⟨[], performIoLoop_done cmd words fuel _, rfl⟩
  have hwhole : offs + first = pageSize := by omega
  -- Past the first page, the bytes are those of the pages that follow.
  have hfollow : ∀ i, prpAddress cmd words (first + i) =
      if offs + size ≤ 2 * pageSize then cmd.prp2 + i % pageSize
      else words (cmd.prp2 + 8 * (i / pageSize)) + i % pageSize := by
    intro i
    obtain ⟨hdiv, hmod⟩ := page_succ i
    simp only [prpAddress, ← hoffs, ← hsizeEq, ← Nat.add_assoc, hwhole, hdiv,
      hmod, Nat.add_sub_cancel]
    rw [if_neg (Nat.succ_ne_zero _)]
  obtain ⟨fuel, rfl⟩ := Nat.exists_eq_succ_of_ne_zero
    (show fuel ≠ 0 by omega)
  by_cases hmany : pageSize < size - first
  · have hnext : nextPrp cmd words (size - first) ⟨1, 0, none⟩ =
        some (words (cmd.prp2 + 8 * 0), ⟨2, 1, some cmd.prp2⟩) := by
      simp [nextPrp, hmany]
    have hpage : words (cmd.prp2 + 8 * 0) % pageSize = 0 :=
      hlist (by omega) 0 (by omega)
    set paddr := words (cmd.prp2 + 8 * 0) with hpaddr
    have hsecondSize : pageIoSize (size - first) paddr = pageSize := by
      rw [pageIoSize_of_aligned hpage]
      exact Nat.min_eq_right hmany.le
    obtain ⟨rest, hrest, hmoves⟩ := @performIoLoop_list base
      (size - first - pageIoSize (size - first) paddr)
      (cmdIoOffset cmd + first + pageIoSize (size - first) paddr) cmd words
      fuel cmd.prp2 ⟨2, 1, some cmd.prp2⟩ le_rfl rfl (by omega) (by
        intro i hi
        refine hlist (by omega) (1 + i) ?_
        rw [Nat.add_mul, Nat.add_mul, Nat.one_mul]
        omega)
    refine ⟨_, performIoLoop_cons hdone hnext hrest, moves_page ?_ ?_⟩
    · intro i hi
      have hlt : i < pageSize := hsecondSize ▸ hi
      rw [hfollow, if_neg (by omega), Nat.div_eq_of_lt hlt,
        Nat.mod_eq_of_lt hlt, hpaddr]
    · rw [hmoves]
      refine byteMoves_congr (fun i _ => ?_) fun _ _ => rfl
      obtain ⟨hdiv, hmod⟩ := page_succ i
      rw [hfollow, if_neg (by omega), hsecondSize, hdiv, hmod, Nat.add_comm 1]
  · have hnext : nextPrp cmd words (size - first) ⟨1, 0, none⟩ =
        some (cmd.prp2, ⟨2, 0, none⟩) := by
      simp [nextPrp, hmany]
    have hpage : cmd.prp2 % pageSize = 0 := hsecond (by omega) (by omega)
    have hall : pageIoSize (size - first) cmd.prp2 = size - first := by
      rw [pageIoSize_of_aligned hpage]
      exact Nat.min_eq_left (not_lt.mp hmany)
    have hlast : performIoLoop cmd words base fuel
        (size - first - pageIoSize (size - first) cmd.prp2)
        (cmdIoOffset cmd + first + pageIoSize (size - first) cmd.prp2)
        ⟨2, 0, none⟩ = some [] := by
      rw [hall, Nat.sub_self]
      exact performIoLoop_done cmd words fuel _
    refine ⟨_, performIoLoop_cons hdone hnext hlast, moves_page ?_ ?_⟩
    · intro i hi
      have hlt : i < pageSize := by omega
      rw [hfollow, if_pos (by omega), Nat.mod_eq_of_lt hlt]
    · rw [hall, Nat.sub_self]
      rfl

/-- The two engines of the data path. -/
def moveData (dma : Bool) (cmd : RwCommand) (words : ℕ → ℕ) (base : ℕ) :
    Option (List Copy) :=
  if dma then performIoUsingDma cmd words base else performIo cmd words base

theorem moveData_moves {cmd : RwCommand} {words : ℕ → ℕ}
    (hprp : PrpAligned cmd words) (dma : Bool) (base : ℕ) :
    ∃ copies, moveData dma cmd words base = some copies ∧
      moves cmd.opcode copies = byteMoves cmd.opcode (cmdIoSize cmd)
        (prpAddress cmd words) fun i => base + cmdIoOffset cmd + i := by
  obtain ⟨copies, hcopies, hmoves⟩ := performIo_moves hprp base
  cases dma with
  | false => exact ⟨copies, hcopies, hmoves⟩
  | true =>
      obtain ⟨paddrs, hcollect, haligned⟩ := collectPrps_start
        (cmdIoSize_ne_zero cmd) hprp.room hprp.second hprp.list
      obtain ⟨hcovers, hio⟩ := @performIoLoop_of_collect base (cmdIoSize cmd)
        (cmdIoOffset cmd) cmd words _ _ paddrs hcollect
      obtain ⟨copies', hsubmit, hsame⟩ := @submitLoop_moves cmd.opcode base
        (cmdIoSize cmd) (cmdIoOffset cmd) _ paddrs le_rfl hcovers haligned
      refine ⟨copies', ?_, ?_⟩
      · simp only [moveData, if_true, performIoUsingDma, hcollect]
        exact hsubmit
      · rw [hsame, ← hmoves]
        exact congrArg _ (Option.some.inj (hio.symm.trans hcopies))

/-! ## The device seen by the host -/

section Device

variable {β : Type}

/-- What the host does: it stores a byte in its memory, or has the data of a
command moved.  `words` are the words of its memory at that time. -/
inductive HostEvent (β : Type) where
  | store (address : ℕ) (value : β)
  | io (dma : Bool) (cmd : RwCommand) (words : ℕ → ℕ)

/-- The effect on the physical memory, for a storage at `base`. -/
def HostEvent.run (base : ℕ) (mem : ℕ → β) : HostEvent β → Option (ℕ → β)
  | .store address value => some (update mem address value)
  | .io dma cmd words =>
      (moveData dma cmd words base).map fun copies =>
        copyAll mem (moves cmd.opcode copies)

/-- A block device and the memory of its host. -/
structure BlockDevice (β : Type) where
  host : ℕ → β
  disk : ℕ → β

def bufferAddress (cmd : RwCommand) (words : ℕ → ℕ) (i : ℕ) : ℕ :=
  prpAddress cmd words i % 2 ^ 64

/-- A write stores the bytes of the buffer from the offset of the command on, a
read brings the bytes there into the buffer. -/
def BlockDevice.step (dev : BlockDevice β) : HostEvent β → BlockDevice β
  | .store address value => { dev with host := update dev.host address value }
  | .io _ cmd words =>
      match cmd.opcode with
      | .other => dev
      | .read =>
          { dev with
            host := overwrite dev.host (cmdIoSize cmd) (bufferAddress cmd words)
              fun i => dev.disk (cmdIoOffset cmd + i) }
      | _ =>
          { dev with
            disk := overwrite dev.disk (cmdIoSize cmd)
              (fun i => cmdIoOffset cmd + i)
              fun i => dev.host (bufferAddress cmd words i) }

/-- The storage has its own range of addresses: the host's bytes and buffers lie
outside, the commands inside. -/
def HostEvent.Allowed (base capacity : ℕ) : HostEvent β → Prop
  | .store address _ => address ∉ Set.Ico base (base + capacity)
  | .io _ cmd words => PrpAligned cmd words ∧
      cmdIoOffset cmd + cmdIoSize cmd ≤ capacity ∧
      ∀ i < cmdIoSize cmd,
        bufferAddress cmd words i ∉ Set.Ico base (base + capacity)

/-- The physical memory holds the block device and the memory of its host. -/
structure Shows (base capacity : ℕ) (mem : ℕ → β) (dev : BlockDevice β) :
    Prop where
  host : ∀ address, address ∉ Set.Ico base (base + capacity) →
    mem address = dev.host address
  disk : ∀ offset < capacity, mem (base + offset) = dev.disk offset

section Shows

variable {capacity : ℕ} (hfits : base + capacity ≤ 2 ^ 64) {mem : ℕ → β}
  {dev : BlockDevice β} (hmem : Shows base capacity mem dev)

/-- The addresses of the storage are not those of anything else. -/
theorem add_mem_Ico {offset : ℕ} (hoffset : offset < capacity) :
    base + offset ∈ Set.Ico base (base + capacity) :=
  ⟨Nat.le_add_right .., Nat.add_lt_add_left hoffset base⟩

include hmem

theorem Shows.store {address : ℕ}
    (haddress : address ∉ Set.Ico base (base + capacity)) (value : β) :
    Shows base capacity (update mem address value)
      { dev with host := update dev.host address value } where
  host other hother := by
    change update mem address value other = update dev.host address value other
    rw [update_apply, update_apply, hmem.host other hother]
  disk offset hoffset := by
    have hne : base + offset ≠ address := fun heq =>
      haddress (heq ▸ add_mem_Ico hoffset)
    rw [update_of_ne hne]
    exact hmem.disk offset hoffset

variable {n start : ℕ} {buffer : ℕ → ℕ} (hrange : start + n ≤ capacity)
  (hbuffer : ∀ i < n, buffer i ∉ Set.Ico base (base + capacity))
include hfits hrange hbuffer

theorem Shows.read :
    Shows base capacity
      (copyAll mem ((List.range n).map fun i =>
        ((base + start + i) % 2 ^ 64, buffer i)))
      { dev with
        host := overwrite dev.host n buffer
          fun i => dev.disk (start + i) } := by
  have hsource : ∀ i < n, (base + start + i) % 2 ^ 64 = base + (start + i) :=
    fun i hi => by rw [Nat.mod_eq_of_lt (by omega), Nat.add_assoc]
  have hin : ∀ i < n, base + (start + i) ∈ Set.Ico base (base + capacity) :=
    fun i hi => add_mem_Ico (by omega)
  have hcopy : copyAll mem ((List.range n).map fun i =>
      ((base + start + i) % 2 ^ 64, buffer i)) =
        overwrite mem n buffer fun i => mem ((base + start + i) % 2 ^ 64) := by
    refine copyAll_eq_overwrite fun i hi j hj heq => hbuffer j hj ?_
    rw [heq, hsource i hi]
    exact hin i hi
  rw [hcopy]
  constructor
  · refine overwrite_congr hmem.host fun i hi => ?_
    rw [hsource i hi]
    exact hmem.disk _ (by omega)
  · intro offset hoffset
    refine (overwrite_of_ne fun i hi heq => hbuffer i hi ?_).trans
      (hmem.disk offset hoffset)
    rw [heq]
    exact add_mem_Ico hoffset

theorem Shows.write :
    Shows base capacity
      (copyAll mem ((List.range n).map fun i =>
        (buffer i, (base + start + i) % 2 ^ 64)))
      { dev with
        disk := overwrite dev.disk n (fun i => start + i)
          fun i => dev.host (buffer i) } := by
  have htarget : ∀ i < n, (base + start + i) % 2 ^ 64 = base + (start + i) :=
    fun i hi => by rw [Nat.mod_eq_of_lt (by omega), Nat.add_assoc]
  have hin : ∀ i < n, base + (start + i) ∈ Set.Ico base (base + capacity) :=
    fun i hi => add_mem_Ico (by omega)
  have hcopy : copyAll mem ((List.range n).map fun i =>
      (buffer i, (base + start + i) % 2 ^ 64)) =
        overwrite mem n (fun i => base + (start + i))
          fun i => mem (buffer i) := by
    have hmoves : ((List.range n).map fun i =>
        (buffer i, (base + start + i) % 2 ^ 64)) =
          (List.range n).map fun i => (buffer i, base + (start + i)) :=
      List.map_congr_left fun i hi => by rw [htarget i (List.mem_range.mp hi)]
    rw [hmoves]
    exact copyAll_eq_overwrite fun i hi j hj heq =>
      hbuffer i hi (heq ▸ hin j hj)
  rw [hcopy]
  constructor
  · intro address haddress
    refine (overwrite_of_ne fun i hi heq => haddress ?_).trans
      (hmem.host address haddress)
    rw [← heq]
    exact hin i hi
  · intro offset hoffset
    have hcells : ∀ offset ∈ Set.Iio capacity,
        mem (base + offset) = dev.disk offset := hmem.disk
    calc overwrite mem n (fun i => base + (start + i))
          (fun i => mem (buffer i)) (base + offset)
        = overwrite (fun offset => mem (base + offset)) n (fun i => start + i)
            (fun i => mem (buffer i)) offset :=
          overwrite_comp (add_right_injective base) (fun i => start + i) offset
      _ = overwrite dev.disk n (fun i => start + i)
            (fun i => dev.host (buffer i)) offset :=
          overwrite_congr hcells (fun i hi => hmem.host _ (hbuffer i hi)) offset
            hoffset

omit hrange hbuffer in
theorem Shows.run {event : HostEvent β}
    (hevent : event.Allowed base capacity) :
    ∃ mem', event.run base mem = some mem' ∧
      Shows base capacity mem' (dev.step event) := by
  cases event with
  | store address value => exact ⟨_, rfl, hmem.store hevent value⟩
  | io dma cmd words =>
      obtain ⟨hprp, hrange, hbuffer⟩ := hevent
      obtain ⟨copies, hcopies, hmoves⟩ := moveData_moves hprp dma base
      refine ⟨_, by rw [HostEvent.run, hcopies]; rfl, ?_⟩
      change Shows base capacity (copyAll mem (moves cmd.opcode copies)) _
      rw [hmoves]
      cases hopcode : cmd.opcode with
      | other =>
          have hnone : byteMoves .other (cmdIoSize cmd) (prpAddress cmd words)
              (fun i => base + cmdIoOffset cmd + i) = [] :=
            List.flatMap_eq_nil_iff.mpr fun _ _ => rfl
          rw [hnone, BlockDevice.step, hopcode]
          exact hmem
      | read =>
          have hread := hmem.read hfits hrange hbuffer
          rw [List.map_eq_flatMap] at hread
          rw [BlockDevice.step, hopcode]
          exact hread
      | write | zoneAppend =>
          have hwrite := hmem.write hfits hrange hbuffer
          rw [List.map_eq_flatMap] at hwrite
          rw [BlockDevice.step, hopcode]
          exact hwrite

end Shows

end Device

end NvmeVirt.Io
