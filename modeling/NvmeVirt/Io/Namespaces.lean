import NvmeVirt.Io.DataPath

/-!
# Namespaces

`NVMEV_NAMESPACE_INIT` lays the namespaces out one after the other in the
storage.  `simple_proc_nvme_io_cmd` accepts a read or a write without a look at
its address, `__do_perform_io` adds the address to the start of the namespace,
and `__do_perform_io_using_dma` adds it to the start of the storage.  None of
them compares it with the size of the namespace.
-/

namespace NvmeVirt.Io

/-- `size` and `mapped` of `struct nvmev_ns`; the start is relative to the start
of the storage. -/
structure Namespace where
  size : ℕ
  base : ℕ
  deriving DecidableEq

/-- The loop of `NVMEV_NAMESPACE_INIT`; a capacity of 0 stands for the rest. -/
def namespaceInit : List ℕ → ℕ → ℕ → List Namespace
  | [], _, _ => []
  | capacity :: rest, remainingCapacity, nsAddr =>
      let size :=
        if capacity = 0 then remainingCapacity
        else min capacity remainingCapacity
      ⟨size, nsAddr⟩ ::
        namespaceInit rest (remainingCapacity - size) (nsAddr + size)

/-- The namespace with a number; the numbers start at 1. -/
def findNamespace (spaces : List Namespace) : ℕ → Option Namespace
  | 0 => none
  | nsid + 1 => spaces[nsid]?

/-- `config.storage_start` and `config.storage_size`, a range of physical
memory. -/
structure StorageConfig where
  start : ℕ
  size : ℕ
  end_lt : start + size < 2 ^ 64

/-- The answer of `simple_proc_nvme_io_cmd`: it schedules a read or a write,
reports an opcode that it does not know, and returns true in either case. -/
def simpleProcNvmeIoCmd (cmd : RwCommand) : Bool :=
  match cmd.opcode with
  | .read | .write => true
  | .zoneAppend | .other => true

/-- The copies of a command that the device accepts, by the path that
`io_using_dma` selects. -/
def executeIo (ioUsingDma : Bool) (storage : StorageConfig) (ns : Namespace)
    (cmd : RwCommand) (words : ℕ → ℕ) : Option (List Copy) :=
  if simpleProcNvmeIoCmd cmd then
    if ioUsingDma then performIoUsingDma cmd words storage.start
    else performIo cmd words (storage.start + ns.base)
  else none

/-- The bytes of the storage that a list of copies touches. -/
def storageBytes (copies : List Copy) : List ℕ :=
  copies.flatMap fun copy =>
    (List.range copy.size).map fun i => (copy.storage + i) % 2 ^ 64

/-- The bytes from an address on. -/
def byteRange (first size : ℕ) : List ℕ :=
  (List.range size).map fun i => (first + i) % 2 ^ 64

theorem byteRange_add (first m n : ℕ) :
    byteRange first m ++ byteRange (first + m) n = byteRange first (m + n) := by
  simp only [byteRange, List.range_add, List.map_append, List.map_map,
    Nat.add_assoc]
  rfl

variable {cmd : RwCommand} {words : ℕ → ℕ} {base remaining offset fuel : ℕ}

theorem storageBytes_transfer {opcode : IoOpcode} (hopcode : opcode ≠ .other)
    (host storage size : ℕ) (rest : List Copy) :
    storageBytes (transfer opcode host storage size ++ rest) =
      byteRange storage size ++ storageBytes rest := by
  cases opcode with
  | other => exact absurd rfl hopcode
  | write | zoneAppend | read => rfl

theorem storageBytes_performIoLoop (hopcode : cmd.opcode ≠ .other)
    {cursor : PrpCursor} {copies : List Copy}
    (hio : performIoLoop cmd words base fuel remaining offset cursor =
      some copies) :
    storageBytes copies = byteRange (base + offset) remaining := by
  induction fuel generalizing remaining offset cursor copies with
  | zero =>
      unfold performIoLoop at hio
      split at hio
      · rename_i hzero
        cases hio
        rw [hzero]
        rfl
      · cases hio
  | succ fuel ih =>
      unfold performIoLoop at hio
      split at hio
      · rename_i hzero
        cases hio
        rw [hzero]
        rfl
      · obtain ⟨⟨paddr, next⟩, -, hrest⟩ := Option.bind_eq_some_iff.mp hio
        obtain ⟨rest, hloop, hcopies⟩ := Option.bind_eq_some_iff.mp hrest
        cases hcopies
        have hle := pageIoSize_le remaining paddr
        rw [storageBytes_transfer hopcode, ih hloop, ← Nat.add_assoc,
          byteRange_add, Nat.add_sub_cancel' hle]

theorem storageBytes_submitLoop {opcode : IoOpcode} (hopcode : opcode ≠ .other)
    {paddrs : List ℕ} {copies : List Copy}
    (hio : submitLoop opcode base fuel remaining offset paddrs =
      some copies) :
    storageBytes copies = byteRange (base + offset) remaining := by
  induction fuel generalizing remaining offset paddrs copies with
  | zero =>
      unfold submitLoop at hio
      split at hio
      · rename_i hzero
        cases hio
        rw [hzero]
        rfl
      · cases hio
  | succ fuel ih =>
      unfold submitLoop at hio
      split at hio
      · rename_i hzero
        cases hio
        rw [hzero]
        rfl
      · obtain ⟨rest, hloop, hcopies⟩ := Option.bind_eq_some_iff.mp hio
        cases hcopies
        rw [storageBytes_transfer hopcode, ih hloop, ← Nat.add_assoc,
          byteRange_add, Nat.add_sub_cancel' (Nat.min_le_left _ _)]

/-- When the bytes from an address on, computed with 64 bits, lie in a range
that starts no earlier. -/
theorem byteRange_inside_iff {start offset size low high : ℕ}
    (hlow : start ≤ low) (hhigh : high < 2 ^ 64) (hoffset : offset < 2 ^ 64)
    (hsize : 0 < size) :
    (∀ address ∈ byteRange (start + offset) size,
        low ≤ address ∧ address < high) ↔
      low ≤ start + offset ∧ start + offset + size ≤ high := by
  simp only [byteRange, List.mem_map, List.mem_range, forall_exists_index,
    and_imp, forall_apply_eq_imp_iff₂]
  constructor
  · intro hinside
    have hfirst := hinside 0 hsize
    rw [Nat.add_zero] at hfirst
    have hlt : start + offset < 2 ^ 64 := by
      by_contra hwraps
      rw [Nat.mod_eq_sub_mod (not_lt.mp hwraps), Nat.mod_eq_of_lt (by omega)]
        at hfirst
      omega
    rw [Nat.mod_eq_of_lt hlt] at hfirst
    refine ⟨hfirst.1, ?_⟩
    by_contra hpast
    have hlast := hinside (high - (start + offset)) (by omega)
    rw [Nat.add_sub_cancel' hfirst.2.le, Nat.mod_eq_of_lt hhigh] at hlast
    omega
  · rintro ⟨hfirst, hlast⟩ i hi
    rw [Nat.mod_eq_of_lt (by omega)]
    omega

theorem namespaceInit_within {capacities : List ℕ} {remaining addr : ℕ}
    {ns : Namespace} (hns : ns ∈ namespaceInit capacities remaining addr) :
    ns.base + ns.size ≤ addr + remaining := by
  induction capacities generalizing remaining addr with
  | nil => exact absurd hns List.not_mem_nil
  | cons capacity rest ih =>
      rw [namespaceInit] at hns
      have hle : (if capacity = 0 then remaining
          else min capacity remaining) ≤ remaining := by
        split <;> omega
      rcases List.mem_cons.mp hns with rfl | hmem
      · dsimp only
        omega
      · have hrest := ih hmem
        omega

theorem mem_of_findNamespace {spaces : List Namespace} {nsid : ℕ}
    {ns : Namespace} (hns : findNamespace spaces nsid = some ns) :
    ns ∈ spaces := by
  cases nsid with
  | zero => cases hns
  | succ nsid => exact List.mem_of_getElem? hns

/-- The storage bytes of the namespace. -/
def Namespace.Holds (storage : StorageConfig) (ns : Namespace)
    (address : ℕ) : Prop :=
  storage.start + ns.base ≤ address ∧
    address < storage.start + ns.base + ns.size

theorem cmdIoSize_pos (cmd : RwCommand) : 0 < cmdIoSize cmd := by
  simp only [cmdIoSize, lbaSize]
  omega

/-- A read or a write stays inside its namespace exactly if its range of
addresses ends in the namespace, and on the DMA path if that range, taken from
the start of the storage, is one of the namespace. -/
theorem transfer_inside_namespace_iff (storage : StorageConfig)
    (capacities : List ℕ) (ns : Namespace) (cmd : RwCommand) (words : ℕ → ℕ)
    (copies : List Copy) (ioUsingDma : Bool)
    (hns : findNamespace (namespaceInit capacities storage.size 0) cmd.nsid =
      some ns)
    (hopcode : cmd.opcode = .read ∨ cmd.opcode = .write)
    (hio : executeIo ioUsingDma storage ns cmd words = some copies) :
    (∀ address ∈ storageBytes copies, ns.Holds storage address) ↔
      if ioUsingDma then
        ns.base ≤ cmdIoOffset cmd ∧
          cmdIoOffset cmd + cmdIoSize cmd ≤ ns.base + ns.size
      else cmdIoOffset cmd + cmdIoSize cmd ≤ ns.size := by
  have hmoves : cmd.opcode ≠ .other := by
    rcases hopcode with h | h <;> simp [h]
  have hwithin := namespaceInit_within (mem_of_findNamespace hns)
  have hend := storage.end_lt
  have hoffset : cmdIoOffset cmd < 2 ^ 64 := Nat.mod_lt _ (by decide)
  have hsize := cmdIoSize_pos cmd
  have haccept : simpleProcNvmeIoCmd cmd = true := by
    rcases hopcode with h | h <;> simp [simpleProcNvmeIoCmd, h]
  rw [executeIo, if_pos haccept] at hio
  cases ioUsingDma with
  | true =>
      obtain ⟨paddrs, -, hsubmit⟩ := Option.bind_eq_some_iff.mp hio
      rw [storageBytes_submitLoop hmoves hsubmit]
      have hinside := byteRange_inside_iff
        (Nat.le_add_right storage.start ns.base)
        (show storage.start + ns.base + ns.size < 2 ^ 64 by omega) hoffset hsize
      simp only [Namespace.Holds, hinside, if_pos]
      omega
  | false =>
      rw [storageBytes_performIoLoop hmoves hio]
      have hinside := byteRange_inside_iff (le_refl (storage.start + ns.base))
        (show storage.start + ns.base + ns.size < 2 ^ 64 by omega) hoffset hsize
      simp only [Namespace.Holds, hinside, Bool.false_eq_true, if_false]
      omega

/-- Room for two namespaces of one page each. -/
def twoPages : StorageConfig := ⟨0x100000, 8192, by decide⟩

def blockRead (nsid : ℕ) (slba : UInt64) : RwCommand :=
  ⟨.read, nsid, slba, 0, 0x7000, 0⟩

theorem transfer_inside_namespace_iff_first :
    executeIo false twoPages ⟨4096, 0⟩ (blockRead 1 1) (fun _ => 0) =
        some [⟨0x7000, 0x100200, 512⟩] ∧
      ∀ address ∈ storageBytes [⟨0x7000, 0x100200, 512⟩],
        Namespace.Holds twoPages ⟨4096, 0⟩ address := by
  have hio : executeIo false twoPages ⟨4096, 0⟩ (blockRead 1 1) (fun _ => 0) =
      some [⟨0x7000, 0x100200, 512⟩] := by decide +kernel
  exact ⟨hio, (transfer_inside_namespace_iff twoPages [4096, 0] ⟨4096, 0⟩
    (blockRead 1 1) (fun _ => 0) [⟨0x7000, 0x100200, 512⟩] false (by decide)
    (.inl rfl) hio).mpr (by decide)⟩

/-- A read of the first namespace past its end, and by DMA a read of the second
namespace at its first block. -/
theorem transfer_leaves_namespace :
    namespaceInit [4096, 0] twoPages.size 0 = [⟨4096, 0⟩, ⟨4096, 4096⟩] ∧
    (∃ copies, executeIo false twoPages ⟨4096, 0⟩ (blockRead 1 8)
        (fun _ => 0) = some copies ∧
      ¬∀ address ∈ storageBytes copies,
        Namespace.Holds twoPages ⟨4096, 0⟩ address) ∧
    ∃ copies, executeIo true twoPages ⟨4096, 4096⟩ (blockRead 2 0)
        (fun _ => 0) = some copies ∧
      ¬∀ address ∈ storageBytes copies,
        Namespace.Holds twoPages ⟨4096, 4096⟩ address := by
  refine ⟨by decide, ⟨[⟨0x7000, 0x101000, 512⟩], by decide +kernel, ?_⟩,
    [⟨0x7000, 0x100000, 512⟩], by decide +kernel, ?_⟩
  · intro hinside
    have hfirst := hinside 0x101000 (by decide +kernel)
    exact absurd hfirst.2 (by decide)
  · intro hinside
    have hfirst := hinside 0x100000 (by decide +kernel)
    exact absurd hfirst.1 (by decide)

end NvmeVirt.Io
