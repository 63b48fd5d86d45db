import NvmeVirt.Io.CompletionQueue

/-!
# Memory of the host

The admin rings and the pages that admin commands fill lie in the memory of the
host.  A handler finds the command in its slot of the ring whenever it reads a
field, the page of the answer at `prp1`, and leaves the completion in the other
ring.  All addresses are physical, and every address is taken to be memory.
-/

namespace NvmeVirt.Admin

open NvmeVirt.Io (NvmeCompletion)

abbrev HostMemory := ℕ → UInt8

namespace HostMemory

/-- The value of `n` bytes, the lowest first. -/
def readLe (host : HostMemory) (address : ℕ) : ℕ → ℕ
  | 0 => 0
  | n + 1 => (host address).toNat + 256 * readLe host (address + 1) n

/-- Writes `length` bytes, given by their offsets. -/
def fill (host : HostMemory) (address length : ℕ) (bytes : ℕ → UInt8) :
    HostMemory := fun a =>
  if address ≤ a ∧ a < address + length then bytes (a - address) else host a

/-- Writes a list of bytes. -/
def put (host : HostMemory) (address : ℕ) (bytes : List UInt8) : HostMemory :=
  host.fill address bytes.length fun i => bytes.getD i 0

/-- `memset` with zeros. -/
def zero (host : HostMemory) (address length : ℕ) : HostMemory :=
  host.fill address length fun _ => 0

end HostMemory

/-- The `n` bytes of a value, the lowest first. -/
def leBytes : ℕ → ℕ → List UInt8
  | 0, _ => []
  | n + 1, value => .ofNat value :: leBytes n (value / 256)

/-! ## Commands and completions -/

inductive AdminOpcode where
  | deleteSq
  | createSq
  | getLogPage
  | deleteCq
  | createCq
  | identify
  | abortCmd
  | setFeatures
  | getFeatures
  | asyncEvent
  | unhandled (code : UInt8)
  deriving DecidableEq

/-- `enum nvme_admin_opcode`, as far as there are handlers. -/
def AdminOpcode.ofCode : UInt8 → AdminOpcode
  | 0x00 => .deleteSq
  | 0x01 => .createSq
  | 0x02 => .getLogPage
  | 0x04 => .deleteCq
  | 0x05 => .createCq
  | 0x06 => .identify
  | 0x08 => .abortCmd
  | 0x09 => .setFeatures
  | 0x0a => .getFeatures
  | 0x0c => .asyncEvent
  | code => .unhandled code

/-- The words of `struct nvme_command` that the handlers read. -/
structure AdminCommand where
  opcode : AdminOpcode
  commandId : UInt16
  nsid : UInt32
  prp1 : UInt64
  cdw10 : UInt32
  cdw11 : UInt32
  deriving DecidableEq

/-- `sizeof(struct nvme_command)`. -/
def sqeSize : ℕ := 64

/-- `sizeof(struct nvme_completion)`. -/
def cqeSize : ℕ := 16

/-- The command in the 64 bytes at an address. -/
def HostMemory.command (host : HostMemory) (address : ℕ) : AdminCommand where
  opcode := .ofCode (host address)
  commandId := .ofNat (host.readLe (address + 2) 2)
  nsid := .ofNat (host.readLe (address + 4) 4)
  prp1 := .ofNat (host.readLe (address + 24) 8)
  cdw10 := .ofNat (host.readLe (address + 40) 4)
  cdw11 := .ofNat (host.readLe (address + 44) 4)

/-- The 16 bytes of `struct nvme_completion`. -/
def completionBytes (cqe : NvmeCompletion) : List UInt8 :=
  leBytes 4 cqe.result0 ++ leBytes 4 cqe.result1 ++ leBytes 2 cqe.sqHead ++
    leBytes 2 cqe.sqId ++ leBytes 2 cqe.commandId ++ leBytes 2 cqe.status

namespace AdminCommand

/-- `sqid`, `cqid` and `qid` of the commands that manage queues. -/
def qid (cmd : AdminCommand) : ℕ := cmd.cdw10.toNat % 2 ^ 16

def qsize (cmd : AdminCommand) : ℕ := cmd.cdw10.toNat / 2 ^ 16

/-- `sq_flags` and `cq_flags`. -/
def flags (cmd : AdminCommand) : ℕ := cmd.cdw11.toNat % 2 ^ 16

/-- `cqid` of `create_sq` and `irq_vector` of `create_cq`. -/
def vector (cmd : AdminCommand) : ℕ := cmd.cdw11.toNat / 2 ^ 16

def lid (cmd : AdminCommand) : ℕ := cmd.cdw10.toNat % 2 ^ 8

/-- The number of bytes of a log page, with 32 bits. -/
def logLength (cmd : AdminCommand) : ℕ :=
  ((((cmd.cdw11 <<< 16) ||| (cmd.cdw10 >>> 16)) + 1) <<< 2).toNat

end AdminCommand

/-! ## Pages -/

inductive SsdType where
  | nvm
  | conv
  | zns
  | kv
  deriving DecidableEq

/-- The fields of `struct znsparams` that are reported to the host. -/
structure ZnsLimits where
  nrActiveZones : ℕ
  nrOpenZones : ℕ
  nrZrwaZones : ℕ
  zrwafgSize : ℕ
  zrwaSize : ℕ
  zoneSize : ℕ

/-- `struct nvmev_ns`; the limits are those of a zoned namespace. -/
structure Namespace where
  ssdType : SsdType
  size : ℕ
  zns : ZnsLimits

/-- `csi`, as the namespaces are initialized: `NVME_CSI_ZNS` or
`NVME_CSI_NVM`. -/
def Namespace.csi (ns : Namespace) : UInt8 :=
  if ns.ssdType = .zns then 2 else 0

/-- A page that a handler fills: zeros, and then fields at their offsets. -/
structure HostPage where
  zeroed : ℕ
  fields : List (ℕ × List UInt8)

def HostPage.putFields (fields : List (ℕ × List UInt8)) (address : ℕ)
    (host : HostMemory) : HostMemory :=
  fields.foldl (fun host field => host.put (address + field.1) field.2) host

def HostMemory.putPage (host : HostMemory) (address : ℕ) (page : HostPage) :
    HostMemory :=
  HostPage.putFields page.fields address (host.zero address page.zeroed)

def pageSize : ℕ := 4096

/-- `LBA_BITS`, in every configuration. -/
def lbaBits : ℕ := 9

/-- One `struct nvme_lbaf`. -/
def lbafBytes (ms ds rp : ℕ) : List UInt8 :=
  leBytes 2 ms ++ leBytes 1 ds ++ leBytes 1 rp

/-- The `struct nvme_id_ns` of a namespace. -/
def namespacePage (ns : Namespace) : HostPage where
  zeroed := pageSize
  fields :=
    [(128, lbafBytes 0 9 2), (132, lbafBytes 8 9 2), (136, lbafBytes 16 9 2),
      (140, lbafBytes 0 12 0), (144, lbafBytes 8 12 0),
      (148, lbafBytes 64 12 0), (152, lbafBytes 128 12 0),
      (26, [0]), (25, [6]), (29, [0]),
      (0, leBytes 8 (ns.size >>> lbaBits)),
      (8, leBytes 8 (ns.size >>> lbaBits)),
      (16, leBytes 8 (ns.size >>> lbaBits))]

/-- The `struct nvme_id_ns_desc` of a namespace. -/
def descPage (ns : Namespace) : HostPage where
  zeroed := pageSize
  fields := [(0, [4]), (1, [1]), (4, [ns.csi])]

/-- The `struct nvme_id_zns_ns` of a namespace. -/
def znsPage (zns : ZnsLimits) : HostPage where
  zeroed := pageSize
  fields :=
    [(0, leBytes 2 0), (2, leBytes 2 0),
      (4, leBytes 4 (zns.nrActiveZones + (2 ^ 32 - 1))),
      (8, leBytes 4 (zns.nrOpenZones + (2 ^ 32 - 1)))] ++
    (if 0 < zns.nrZrwaZones then
      [(2, leBytes 2 2), (44, leBytes 4 (zns.nrZrwaZones - 1)),
        (48, leBytes 2 zns.zrwafgSize), (50, leBytes 2 zns.zrwaSize),
        (52, [0]), (52, [1])]
    else []) ++
    [(2816, leBytes 8 (zns.zoneSize >>> lbaBits)), (2824, [0])]

/-- The `struct nvme_id_zns_ctrl`: one field, and nothing is cleared. -/
def znsCtrlPage : HostPage where
  zeroed := 0
  fields := [(0, [0])]

/-- What `snprintf` leaves in an array of `size` bytes. -/
def snprintf (size : ℕ) (text : String) : List UInt8 :=
  (text.toList.map fun c => UInt8.ofNat c.toNat).take (size - 1) ++ [0]

/-- `VIRT_ID` with two digits at least. -/
def twoDigits (virtId : ℕ) : String :=
  (if virtId < 10 then "0" else "") ++ toString virtId

/-- The `struct nvme_id_ctrl`. -/
def ctrlPage (nrNs virtId : ℕ) (mdts : UInt8) : HostPage where
  zeroed := pageSize
  fields :=
    [(516, leBytes 4 nrNs), (520, leBytes 2 0), (258, [3]), (525, [0]),
      (4, snprintf 20 ("CSL_Virt_SN_" ++ twoDigits virtId)),
      (24, snprintf 40 ("CSL_Virt_MN_" ++ twoDigits virtId)),
      (64, snprintf 8 "CSL_002"), (77, [mdts]), (512, [0x66]), (513, [0x44])]

/-- `smart_log`. -/
def smartLog : ℕ → UInt8 := Function.update (fun _ => 0) 4 20

/-- `effects_log`: words of four bytes for the admin commands, and from 1024
on, if zoned namespaces are supported, for the I/O commands. -/
def effectsLog (zns : Bool) (i : ℕ) : UInt8 :=
  if i ∈ [4 * 0x02, 4 * 0x06, 4 * 0x09, 4 * 0x0a, 4 * 0x0c] then 1
  else if zns then
    if i ∈ [1024 + 4 * 0x7d, 1024 + 4 * 0x7a] then 1
    else if i = 1024 + 4 * 0x79 then 3
    else 0
  else 0

/-! ## What is not written -/

namespace HostMemory

variable {host host' : HostMemory} {address length a : ℕ}

theorem fill_outside {bytes : ℕ → UInt8}
    (houtside : a < address ∨ address + length ≤ a) :
    host.fill address length bytes a = host a :=
  if_neg (by omega)

theorem put_outside {bytes : List UInt8}
    (houtside : a < address ∨ address + bytes.length ≤ a) :
    host.put address bytes a = host a :=
  fill_outside houtside

theorem zero_outside (houtside : a < address ∨ address + length ≤ a) :
    host.zero address length a = host a :=
  fill_outside houtside

theorem put_inside {bytes : List UInt8} {i : ℕ} (hi : i < bytes.length) :
    host.put address bytes (address + i) = bytes.getD i 0 := by
  rw [put, fill, if_pos (by omega), Nat.add_sub_cancel_left]

theorem readLe_congr {n : ℕ}
    (hsame : ∀ a, address ≤ a → a < address + n → host' a = host a) :
    host'.readLe address n = host.readLe address n := by
  induction n generalizing address with
  | zero => rfl
  | succ n ih =>
      rw [readLe, readLe, hsame address le_rfl (by omega),
        ih fun a hle hlt => hsame a (by omega) (by omega)]

/-- A command is read from its 64 bytes. -/
theorem command_congr
    (hsame : ∀ a, address ≤ a → a < address + sqeSize → host' a = host a) :
    host'.command address = host.command address := by
  have hword : ∀ offset n, offset + n ≤ sqeSize →
      host'.readLe (address + offset) n = host.readLe (address + offset) n :=
    fun offset n hle => readLe_congr fun a ha ha' =>
      hsame a (by omega) (by omega)
  unfold command
  rw [hsame address le_rfl (Nat.lt_add_of_pos_right (by decide)),
    hword 2 2 (by decide), hword 4 4 (by decide), hword 24 8 (by decide),
    hword 40 4 (by decide), hword 44 4 (by decide)]

end HostMemory

theorem length_leBytes (n value : ℕ) : (leBytes n value).length = n := by
  induction n generalizing value with
  | zero => rfl
  | succ n ih => rw [leBytes, List.length_cons, ih]

theorem length_completionBytes (cqe : NvmeCompletion) :
    (completionBytes cqe).length = cqeSize := by
  simp only [completionBytes, List.length_append, length_leBytes]
  rfl

/-- A page whose fields end before `span` leaves the memory behind alone. -/
def HostPage.Within (page : HostPage) (span : ℕ) : Prop :=
  page.zeroed ≤ span ∧ ∀ field ∈ page.fields, field.1 + field.2.length ≤ span

theorem HostPage.putFields_outside {fields : List (ℕ × List UInt8)}
    {span address a : ℕ} {host : HostMemory}
    (hfields : ∀ field ∈ fields, field.1 + field.2.length ≤ span)
    (houtside : a < address ∨ address + span ≤ a) :
    HostPage.putFields fields address host a = host a := by
  induction fields generalizing host with
  | nil => rfl
  | cons field rest ih =>
      obtain ⟨hfield, hrest⟩ := List.forall_mem_cons.mp hfields
      rw [putFields, List.foldl_cons]
      exact (ih hrest).trans (HostMemory.put_outside (by omega))

theorem HostMemory.putPage_outside {page : HostPage} {span address a : ℕ}
    {host : HostMemory} (hpage : page.Within span)
    (houtside : a < address ∨ address + span ≤ a) :
    host.putPage address page a = host a :=
  (HostPage.putFields_outside hpage.2 houtside).trans
    (zero_outside (by have := hpage.1; omega))

theorem namespacePage_within (ns : Namespace) :
    (namespacePage ns).Within pageSize := by
  refine ⟨le_rfl, ?_⟩
  simp [namespacePage, lbafBytes, length_leBytes, pageSize]

theorem descPage_within (ns : Namespace) : (descPage ns).Within pageSize := by
  refine ⟨le_rfl, ?_⟩
  simp [descPage, pageSize]

theorem znsPage_within (zns : ZnsLimits) : (znsPage zns).Within pageSize := by
  refine ⟨le_rfl, ?_⟩
  simp only [znsPage, List.forall_mem_append]
  refine ⟨⟨by simp [length_leBytes, pageSize], ?_⟩,
    by simp [length_leBytes, pageSize]⟩
  split <;> simp [length_leBytes, pageSize]

theorem znsCtrlPage_within : znsCtrlPage.Within 1 :=
  ⟨Nat.zero_le _, by simp [znsCtrlPage]⟩

theorem length_snprintf {size : ℕ} (hsize : 0 < size) (text : String) :
    (snprintf size text).length ≤ size := by
  simp only [snprintf, List.length_append, List.length_take, List.length_map,
    List.length_singleton]
  omega

theorem ctrlPage_within (nrNs virtId : ℕ) (mdts : UInt8) :
    (ctrlPage nrNs virtId mdts).Within pageSize := by
  have hsn := length_snprintf (by decide : 0 < 20)
    ("CSL_Virt_SN_" ++ twoDigits virtId)
  have hmn := length_snprintf (by decide : 0 < 40)
    ("CSL_Virt_MN_" ++ twoDigits virtId)
  have hfr := length_snprintf (by decide : 0 < 8) "CSL_002"
  refine ⟨le_rfl, ?_⟩
  simp only [ctrlPage, List.forall_mem_cons, List.not_mem_nil, length_leBytes,
    List.length_cons, List.length_nil, pageSize]
  refine ⟨by omega, by omega, by omega, by omega, by omega, by omega, by omega,
    by omega, by omega, by omega, fun _ hmem => hmem.elim⟩

end NvmeVirt.Admin
