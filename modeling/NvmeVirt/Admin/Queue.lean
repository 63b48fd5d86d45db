import NvmeVirt.Admin.Memory
import NvmeVirt.Lib.Ring

/-!
# Admin commands

`nvmev_proc_dbs` hands the entries between the last doorbell of the admin queue
and the present one to `nvmev_proc_admin_sq`, which calls the handler of each
command.  A completion is posted by the handlers, each on its own exit paths,
after they have filled the page of the answer.  The fields of a command are read
from the ring when they are needed: the command id only when the completion is
posted.  An access beyond the end of an array of the device is a fault.
-/

namespace NvmeVirt.Admin

open NvmeVirt.Io (NvmeCompletion)

def nrMaxIoQueue : ℕ := 72

/-- `struct nvmev_admin_queue`; the rings begin at the addresses `nvmeSq` and
`nvmeCq`, once these have been set. -/
structure AdminQueue where
  phase : Bool
  sqDepth : ℕ
  cqDepth : ℕ
  cqHead : ℕ
  nvmeSq : Option ℕ
  nvmeCq : Option ℕ
  deriving DecidableEq

/-- The head and the phase after a completion. -/
def AdminQueue.advance (queue : AdminQueue) : AdminQueue :=
  if queue.cqHead + 1 = queue.cqDepth then
    { queue with cqHead := 0, phase := !queue.phase }
  else { queue with cqHead := queue.cqHead + 1 }

/-- `struct nvmev_submission_queue`, as it is created. -/
structure IoSq where
  qid : ℕ
  cqid : ℕ
  priority : ℕ
  queueSize : ℕ
  physContig : Bool
  sq : UInt64

/-- `struct nvmev_completion_queue`, as it is created; the phase is 1 and the
head 0. -/
structure IoCq where
  qid : ℕ
  irqEnabled : Bool
  irqVector : ℕ
  queueSize : ℕ
  physContig : Bool
  cq : UInt64

/-- The part of `struct nvmev_dev` that admin commands work on, and the memory
of the host.  `posted` are the writes to the admin completion queue, each with
its slot. -/
structure AdminDevice where
  adminQ : AdminQueue
  nrSq : UInt32
  nrCq : UInt32
  sqes : ℕ → Option IoSq
  cqes : ℕ → Option IoCq
  ns : List Namespace
  mdts : UInt8
  virtId : ℕ
  dbs : ℕ → ℕ
  oldDbs : ℕ → ℕ
  host : HostMemory
  posted : List (ℕ × NvmeCompletion)

/-- `sq_entry`. -/
def AdminDevice.sqEntry (dev : AdminDevice) (eid : ℕ) : Option AdminCommand :=
  dev.adminQ.nvmeSq.map fun sq => dev.host.command (sq + sqeSize * eid)

/-! ## Handlers -/

/-- The completion of a command. -/
def AdminQueue.completion (queue : AdminQueue) (eid : ℕ) (cmd : AdminCommand)
    (ret : ℕ) (result0 result1 : UInt32) : NvmeCompletion where
  commandId := cmd.commandId.toNat
  sqId := 0
  sqHead := eid
  result0 := result0.toNat
  result1 := result1.toNat
  status := queue.phase.toNat ||| ret <<< 1

/-- `__make_cq_entry_results`. -/
def makeCqEntryResults (dev : AdminDevice) (eid ret : ℕ)
    (result0 result1 : UInt32) : Option AdminDevice := do
  let queue := dev.adminQ
  let cmd ← dev.sqEntry eid
  let cq ← queue.nvmeCq
  let cqe := queue.completion eid cmd ret result0 result1
  return { dev with
    host := dev.host.put (cq + cqeSize * queue.cqHead) (completionBytes cqe)
    posted := dev.posted ++ [(queue.cqHead, cqe)]
    adminQ := queue.advance }

def scSuccess : ℕ := 0

def scInvalidOpcode : ℕ := 1

/-- `__make_cq_entry`. -/
def makeCqEntry (dev : AdminDevice) (eid ret : ℕ) : Option AdminDevice :=
  makeCqEntryResults dev eid ret 0 0

def adminCreateCq (dev : AdminDevice) (eid : ℕ) : Option AdminDevice := do
  let cmd ← dev.sqEntry eid
  let irqEnabled := cmd.flags.testBit 1
  let cq : IoCq :=
    { qid := cmd.qid
      irqEnabled
      irqVector := if irqEnabled then cmd.vector else 0
      queueSize := cmd.qsize + 1
      physContig := cmd.flags.testBit 0
      cq := cmd.prp1 }
  if cmd.qid ≤ nrMaxIoQueue then
    let dbsIdx := cmd.qid * 2 + 1
    let dev := { dev with
      cqes := Function.update dev.cqes cmd.qid (some cq)
      dbs := Function.update dev.dbs dbsIdx 0
      oldDbs := Function.update dev.oldDbs dbsIdx 0 }
    makeCqEntry dev eid scSuccess
  else none

def adminDeleteCq (dev : AdminDevice) (eid : ℕ) : Option AdminDevice := do
  let cmd ← dev.sqEntry eid
  if cmd.qid ≤ nrMaxIoQueue then
    let dev := { dev with cqes := Function.update dev.cqes cmd.qid none }
    makeCqEntry dev eid scSuccess
  else none

def adminCreateSq (dev : AdminDevice) (eid : ℕ) : Option AdminDevice := do
  let cmd ← dev.sqEntry eid
  let sq : IoSq :=
    { qid := cmd.qid
      cqid := cmd.vector
      priority := cmd.flags &&& 0xFFFE
      queueSize := cmd.qsize + 1
      physContig := cmd.flags.testBit 0
      sq := cmd.prp1 }
  if cmd.qid ≤ nrMaxIoQueue then
    let dbsIdx := cmd.qid * 2
    let dev := { dev with
      sqes := Function.update dev.sqes cmd.qid (some sq)
      dbs := Function.update dev.dbs dbsIdx 0
      oldDbs := Function.update dev.oldDbs dbsIdx 0 }
    makeCqEntry dev eid scSuccess
  else none

def adminDeleteSq (dev : AdminDevice) (eid : ℕ) : Option AdminDevice := do
  let cmd ← dev.sqEntry eid
  if cmd.qid ≤ nrMaxIoQueue then
    let dev := { dev with sqes := Function.update dev.sqes cmd.qid none }
    makeCqEntry dev eid scSuccess
  else none

/-- `SUPPORTED_SSD_TYPE(ZNS)`. -/
def AdminDevice.supportsZns (dev : AdminDevice) : Bool :=
  dev.ns.any fun ns => decide (ns.ssdType = .zns)

/-- The log pages that there are, with their sizes. -/
def AdminDevice.logPage (dev : AdminDevice) : ℕ → Option (ℕ × (ℕ → UInt8))
  | 2 => some (512, smartLog)
  | 5 => some (4096, effectsLog dev.supportsZns)
  | _ => none

/-- `__nvmev_admin_get_log_page`.  The length comes from the host, and the copy
does not stop at the end of the page.  A log page that there is not is filled
with zeros. -/
def adminGetLogPage (dev : AdminDevice) (eid : ℕ) : Option AdminDevice := do
  let cmd ← dev.sqEntry eid
  let page := cmd.prp1.toNat
  match dev.logPage cmd.lid with
  | some (size, log) =>
      if cmd.logLength ≤ size then
        let dev := { dev with host := dev.host.fill page cmd.logLength log }
        makeCqEntry dev eid scSuccess
      else none
  | none =>
      let dev := { dev with host := dev.host.zero page cmd.logLength }
      makeCqEntry dev eid scSuccess

/-- The entry of `nvmev_vdev->ns` for `cmd->nsid - 1`. -/
def AdminDevice.nsEntry (dev : AdminDevice) (cmd : AdminCommand) :
    Option Namespace :=
  match cmd.nsid.toNat with
  | 0 => none
  | nsid + 1 => dev.ns[nsid]?

def AdminDevice.putPage (dev : AdminDevice) (cmd : AdminCommand)
    (page : HostPage) : AdminDevice :=
  { dev with host := dev.host.putPage cmd.prp1.toNat page }

def adminIdentifyNamespace (dev : AdminDevice) (eid : ℕ) :
    Option AdminDevice := do
  let cmd ← dev.sqEntry eid
  let ns ← dev.nsEntry cmd
  makeCqEntry (dev.putPage cmd (namespacePage ns)) eid scSuccess

/-- The loop of `__nvmev_admin_identify_namespaces` from the `i`-th namespace
on; `entry` is the address of the command, whose `nsid` is read each time. -/
def listNamespaces (entry : ℕ) : ℕ → ℕ → ℕ → HostMemory → HostMemory
  | 0, _, _, host => host
  | count + 1, i, ns, host =>
      if (host.command entry).nsid.toNat < i then
        listNamespaces entry count (i + 1) (ns + 4) (host.put ns (leBytes 4 i))
      else listNamespaces entry count (i + 1) ns host

def adminIdentifyNamespaces (dev : AdminDevice) (eid : ℕ) :
    Option AdminDevice := do
  let cmd ← dev.sqEntry eid
  let sq ← dev.adminQ.nvmeSq
  let ns := cmd.prp1.toNat
  let host := dev.host.zero ns (pageSize * 2)
  let host := listNamespaces (sq + sqeSize * eid) dev.ns.length 1 ns host
  makeCqEntry { dev with host } eid scSuccess

def adminIdentifyNamespaceDesc (dev : AdminDevice) (eid : ℕ) :
    Option AdminDevice := do
  let cmd ← dev.sqEntry eid
  let ns ← dev.nsEntry cmd
  makeCqEntry (dev.putPage cmd (descPage ns)) eid scSuccess

/-- With the `BUG_ON` for a zoned namespace of another command set. -/
def adminIdentifyZnsNamespace (dev : AdminDevice) (eid : ℕ) :
    Option AdminDevice := do
  let cmd ← dev.sqEntry eid
  let ns ← dev.nsEntry cmd
  if ns.ssdType ≠ .zns then makeCqEntry dev eid scSuccess
  else if ns.csi ≠ 2 then none
  else makeCqEntry (dev.putPage cmd (znsPage ns.zns)) eid scSuccess

def adminIdentifyZnsCtrl (dev : AdminDevice) (eid : ℕ) :
    Option AdminDevice := do
  let cmd ← dev.sqEntry eid
  makeCqEntry (dev.putPage cmd znsCtrlPage) eid scSuccess

def adminIdentifyCtrl (dev : AdminDevice) (eid : ℕ) : Option AdminDevice := do
  let cmd ← dev.sqEntry eid
  let page := ctrlPage dev.ns.length dev.virtId dev.mdts
  makeCqEntry (dev.putPage cmd page) eid scSuccess

/-- `__nvmev_admin_identify`; `cns` is the whole word. -/
def adminIdentify (dev : AdminDevice) (eid : ℕ) : Option AdminDevice := do
  let cmd ← dev.sqEntry eid
  match cmd.cdw10.toNat with
  | 0 => adminIdentifyNamespace dev eid
  | 1 => adminIdentifyCtrl dev eid
  | 2 => adminIdentifyNamespaces dev eid
  | 3 => adminIdentifyNamespaceDesc dev eid
  | 5 => adminIdentifyZnsNamespace dev eid
  | 6 => adminIdentifyZnsCtrl dev eid
  | _ => makeCqEntry dev eid scInvalidOpcode

def featNumQueues : UInt32 := 7

/-- The answer to a number of queues: both counts, 0-based. -/
def queueCounts (dev : AdminDevice) : UInt32 :=
  (dev.nrCq - 1) <<< 16 ||| (dev.nrSq - 1)

def adminSetFeatures (dev : AdminDevice) (eid : ℕ) : Option AdminDevice := do
  let cmd ← dev.sqEntry eid
  if cmd.cdw10 = featNumQueues then
    let dev := { dev with
      nrSq := .ofNat (min (cmd.flags + 1) nrMaxIoQueue)
      nrCq := .ofNat (min (cmd.vector + 1) nrMaxIoQueue) }
    makeCqEntryResults dev eid scSuccess (queueCounts dev) 0
  else makeCqEntryResults dev eid scSuccess 0 0

def adminGetFeatures (dev : AdminDevice) (eid : ℕ) : Option AdminDevice := do
  let cmd ← dev.sqEntry eid
  let result0 := if cmd.cdw10 = featNumQueues then queueCounts dev else 0
  makeCqEntryResults dev eid scSuccess result0 0

def adminAsyncEvent (dev : AdminDevice) (eid : ℕ) : Option AdminDevice :=
  makeCqEntry dev eid scSuccess

/-- `__nvmev_proc_admin_req`.  An abort command has no handler. -/
def procAdminReq (entryId : ℕ) (dev : AdminDevice) : Option AdminDevice := do
  let cmd ← dev.sqEntry entryId
  match cmd.opcode with
  | .deleteSq => adminDeleteSq dev entryId
  | .createSq => adminCreateSq dev entryId
  | .getLogPage => adminGetLogPage dev entryId
  | .deleteCq => adminDeleteCq dev entryId
  | .createCq => adminCreateCq dev entryId
  | .identify => adminIdentify dev entryId
  | .abortCmd => some dev
  | .setFeatures => adminSetFeatures dev entryId
  | .getFeatures => adminGetFeatures dev entryId
  | .asyncEvent => adminAsyncEvent dev entryId
  | .unhandled _ => makeCqEntry dev entryId scInvalidOpcode

/-! ## The rings -/

/-- The loop of `nvmev_proc_admin_sq`. -/
def procAdminLoop : ℕ → ℕ → AdminDevice → Option AdminDevice
  | 0, _, dev => some dev
  | numProc + 1, curr, dev => do
      let dev ← procAdminReq curr dev
      let curr := if curr + 1 = dev.adminQ.sqDepth then 0 else curr + 1
      procAdminLoop numProc curr dev

/-- `nvmev_proc_admin_sq`. -/
def procAdminSq (newDb oldDb : ℕ) (dev : AdminDevice) : Option AdminDevice :=
  let numProc :=
    if newDb < oldDb then newDb + dev.adminQ.sqDepth - oldDb
    else newDb - oldDb
  procAdminLoop numProc oldDb dev

/-- The first lines of `nvmev_proc_dbs`: the submission doorbell. -/
def procAdminSqDb (dev : AdminDevice) : Option AdminDevice :=
  let newDb := dev.dbs 0
  if newDb ≠ dev.oldDbs 0 then
    (procAdminSq newDb (dev.oldDbs 0) dev).map fun dev =>
      { dev with oldDbs := Function.update dev.oldDbs 0 newDb }
  else some dev

/-- The completion doorbell; `nvmev_proc_admin_cq` is empty. -/
def procAdminCqDb (dev : AdminDevice) : AdminDevice :=
  let newDb := dev.dbs 1
  if newDb ≠ dev.oldDbs 1 then
    { dev with oldDbs := Function.update dev.oldDbs 1 newDb }
  else dev

/-- The part of `nvmev_proc_dbs` for the admin queue. -/
def procAdminDbs (dev : AdminDevice) : Option AdminDevice :=
  (procAdminSqDb dev).map procAdminCqDb

/-- What happens to the admin queue: the host writes a doorbell, or the device
looks at the doorbells while the memory of the host holds certain bytes. -/
inductive AdminEvent where
  | sqDoorbell (value : ℕ)
  | cqDoorbell (value : ℕ)
  | poll (host : HostMemory)

def adminStep (dev : AdminDevice) : AdminEvent → Option AdminDevice
  | .sqDoorbell value =>
      some { dev with dbs := Function.update dev.dbs 0 value }
  | .cqDoorbell value =>
      some { dev with dbs := Function.update dev.dbs 1 value }
  | .poll host => procAdminDbs { dev with host }

end NvmeVirt.Admin
