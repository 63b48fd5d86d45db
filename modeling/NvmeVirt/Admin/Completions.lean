import NvmeVirt.Admin.Queue

/-!
# One completion for each admin command

The handlers post one completion on each of their exit paths, and a command
without a handler posts one with an error.  The abort command is the exception:
it is taken from the ring and never completed.  A command that creates
submission queue 0 resets the doorbell of the admin queue, some field values
make a handler leave its arrays, and a page of an answer may lie over a ring.
In the runs without these commands the rings go round independently, one
completion for each entry.
-/

namespace NvmeVirt.Admin

open NvmeVirt.Io (NvmeCompletion)
open NvmeVirt.Io.PostingState (lapPhase lapPhase_succ)

/-- The places of the two rings. -/
structure AdminRings where
  sq : ℕ
  sqDepth : ℕ
  cq : ℕ
  cqDepth : ℕ

namespace AdminRings

def InSq (rings : AdminRings) (a : ℕ) : Prop :=
  rings.sq ≤ a ∧ a < rings.sq + sqeSize * rings.sqDepth

def InCq (rings : AdminRings) (a : ℕ) : Prop :=
  rings.cq ≤ a ∧ a < rings.cq + cqeSize * rings.cqDepth

/-- The rings have no byte in common. -/
def Apart (rings : AdminRings) : Prop :=
  rings.sq + sqeSize * rings.sqDepth ≤ rings.cq ∨
    rings.cq + cqeSize * rings.cqDepth ≤ rings.sq

/-- No byte from an address on belongs to a ring. -/
def Spares (rings : AdminRings) (address span : ℕ) : Prop :=
  ∀ a, rings.InSq a ∨ rings.InCq a → a < address ∨ address + span ≤ a

/-- The command in a slot of the submission ring. -/
def entry (rings : AdminRings) (host : HostMemory) (i : ℕ) : AdminCommand :=
  host.command (rings.sq + sqeSize * i)

end AdminRings

/-- The number of bytes from `prp1` on that the handler of a command writes. -/
def AdminCommand.span (ns : List Namespace) (cmd : AdminCommand) : ℕ :=
  match cmd.opcode with
  | .getLogPage => cmd.logLength
  | .identify =>
      match cmd.cdw10.toNat with
      | 0 | 1 | 3 | 5 => pageSize
      | 2 => max (pageSize * 2) (4 * ns.length)
      | 6 => 1
      | _ => 0
  | _ => 0

/-- The sizes of the log pages that are copied. -/
def logPageSize : ℕ → Option ℕ
  | 2 => some 512
  | 5 => some 4096
  | _ => none

/-- The command has a handler, its fields name queues, namespaces and log bytes
that exist, and the page of its answer lies outside of the rings. -/
structure AdminCommand.Proper (rings : AdminRings) (ns : List Namespace)
    (cmd : AdminCommand) : Prop where
  fields : match cmd.opcode with
    | .deleteSq | .deleteCq | .createCq => cmd.qid ≤ nrMaxIoQueue
    | .createSq => 0 < cmd.qid ∧ cmd.qid ≤ nrMaxIoQueue
    | .getLogPage => ∀ size ∈ logPageSize cmd.lid, cmd.logLength ≤ size
    | .identify => cmd.cdw10.toNat ∈ [0, 3, 5] →
        0 < cmd.nsid.toNat ∧ cmd.nsid.toNat ≤ ns.length
    | .abortCmd => False
    | .setFeatures | .getFeatures | .asyncEvent | .unhandled _ => True
  spares : rings.Spares cmd.prp1.toNat (cmd.span ns)

/-! ## One command -/

variable {rings : AdminRings} {dev dev' : AdminDevice} {eid : ℕ}
  {cmd : AdminCommand}

/-- The device knows where the rings are. -/
structure AdminDevice.Uses (rings : AdminRings) (dev : AdminDevice) : Prop where
  nvmeSq_eq : dev.adminQ.nvmeSq = some rings.sq
  sqDepth_eq : dev.adminQ.sqDepth = rings.sqDepth
  nvmeCq_eq : dev.adminQ.nvmeCq = some rings.cq
  cqDepth_eq : dev.adminQ.cqDepth = rings.cqDepth

/-- Nothing that concerns the admin queue is different. -/
structure SameQueue (rings : AdminRings) (dev dev' : AdminDevice) : Prop where
  adminQ_eq : dev'.adminQ = dev.adminQ
  posted_eq : dev'.posted = dev.posted
  ns_eq : dev'.ns = dev.ns
  dbs_eq : dev'.dbs 0 = dev.dbs 0
  oldDbs_eq : dev'.oldDbs 0 = dev.oldDbs 0
  host_eq : ∀ a, rings.InSq a ∨ rings.InCq a → dev'.host a = dev.host a

/-- A completion for the entry stands in the next slot. -/
structure Posts (rings : AdminRings) (eid : ℕ) (cmd : AdminCommand)
    (dev dev' : AdminDevice) (cqe : NvmeCompletion) : Prop where
  adminQ_eq : dev'.adminQ = dev.adminQ.advance
  posted_eq : dev'.posted = dev.posted ++ [(dev.adminQ.cqHead, cqe)]
  sqHead_eq : cqe.sqHead = eid
  commandId_eq : cqe.commandId = cmd.commandId.toNat
  phase_eq : cqe.status.testBit 0 = dev.adminQ.phase
  ns_eq : dev'.ns = dev.ns
  dbs_eq : dev'.dbs 0 = dev.dbs 0
  oldDbs_eq : dev'.oldDbs 0 = dev.oldDbs 0
  sq_eq : ∀ a, rings.InSq a → dev'.host a = dev.host a
  cq_eq : ∀ a, rings.InCq a →
    dev'.host a = dev.host.put (rings.cq + cqeSize * dev.adminQ.cqHead)
      (completionBytes cqe) a

/-- The handler leaves a completion for the entry. -/
def Completes (rings : AdminRings) (eid : ℕ) (cmd : AdminCommand)
    (dev : AdminDevice) (result : Option AdminDevice) : Prop :=
  ∃ dev' cqe, result = some dev' ∧ Posts rings eid cmd dev dev' cqe

theorem SameQueue.refl (rings : AdminRings) (dev : AdminDevice) :
    SameQueue rings dev dev :=
  ⟨rfl, rfl, rfl, rfl, rfl, fun _ _ => rfl⟩

theorem AdminDevice.Uses.sqEntry (huses : dev.Uses rings) (eid : ℕ) :
    dev.sqEntry eid = some (rings.entry dev.host eid) := by
  rw [AdminDevice.sqEntry, huses.nvmeSq_eq]
  rfl

/-- Commands lie in the ring as a whole. -/
theorem AdminRings.inSq_entry (heid : eid < rings.sqDepth) {a : ℕ}
    (hle : rings.sq + sqeSize * eid ≤ a)
    (hlt : a < rings.sq + sqeSize * eid + sqeSize) : rings.InSq a := by
  have hnext : sqeSize * (eid + 1) ≤ sqeSize * rings.sqDepth :=
    Nat.mul_le_mul_left _ heid
  rw [Nat.mul_succ] at hnext
  exact ⟨by omega, by omega⟩

theorem AdminRings.inCq_entry {slot : ℕ} (hslot : slot < rings.cqDepth) {a : ℕ}
    (hle : rings.cq + cqeSize * slot ≤ a)
    (hlt : a < rings.cq + cqeSize * slot + cqeSize) : rings.InCq a := by
  have hnext : cqeSize * (slot + 1) ≤ cqeSize * rings.cqDepth :=
    Nat.mul_le_mul_left _ hslot
  rw [Nat.mul_succ] at hnext
  exact ⟨by omega, by omega⟩

/-- A memory that agrees on the ring holds the same commands. -/
theorem AdminRings.entry_congr {host host' : HostMemory}
    (heid : eid < rings.sqDepth)
    (hsame : ∀ a, rings.InSq a → host' a = host a) :
    rings.entry host' eid = rings.entry host eid :=
  HostMemory.command_congr fun a hle hlt =>
    hsame a (rings.inSq_entry heid hle hlt)

theorem AdminRings.Apart.not_inCq (hapart : rings.Apart) {a : ℕ}
    (hsq : rings.InSq a) (hcq : rings.InCq a) : False := by
  unfold Apart InSq InCq at *
  omega

/-- What is left of a handler once it has done its own work. -/
theorem SameQueue.completes (hsame : SameQueue rings dev dev')
    (huses : dev.Uses rings) (hapart : rings.Apart)
    (hhead : dev.adminQ.cqHead < rings.cqDepth) (heid : eid < rings.sqDepth)
    (ret : ℕ) (result0 result1 : UInt32) :
    Completes rings eid (rings.entry dev.host eid) dev
      (makeCqEntryResults dev' eid ret result0 result1) := by
  have huses' : dev'.Uses rings := by
    obtain ⟨h1, h2, h3, h4⟩ := huses
    rw [← hsame.adminQ_eq] at h1 h2 h3 h4
    exact ⟨h1, h2, h3, h4⟩
  have hentry : rings.entry dev'.host eid = rings.entry dev.host eid :=
    AdminRings.entry_congr heid fun a ha => hsame.host_eq a (.inl ha)
  have hqueue := hsame.adminQ_eq
  unfold makeCqEntryResults
  dsimp only
  rw [huses'.sqEntry, hentry, huses'.nvmeCq_eq]
  refine ⟨_, dev'.adminQ.completion eid (rings.entry dev.host eid) ret result0
    result1, rfl, ?_⟩
  refine ⟨by rw [← hqueue], by rw [← hqueue, ← hsame.posted_eq], rfl, rfl, ?_,
    hsame.ns_eq, hsame.dbs_eq, hsame.oldDbs_eq, ?_, ?_⟩
  · rw [← hqueue, AdminQueue.completion]
    cases dev'.adminQ.phase <;> simp
  · -- The slot of the completion lies in the other ring.
    intro a ha
    refine (HostMemory.put_outside ?_).trans (hsame.host_eq a (.inl ha))
    by_contra hinside
    rw [length_completionBytes, hqueue] at hinside
    exact hapart.not_inCq ha
      (rings.inCq_entry hhead (by omega) (by omega))
  · intro a ha
    rw [hqueue]
    simp only [HostMemory.put, HostMemory.fill]
    split
    · rfl
    · exact hsame.host_eq a (.inr ha)

/-! ## The handlers -/

/-- The doorbells of another queue do not matter. -/
theorem update_zero {dbs : ℕ → ℕ} {i : ℕ} (hi : i ≠ 0) :
    Function.update dbs i 0 0 = dbs 0 :=
  Function.update_of_ne hi.symm 0 dbs

theorem nsEntry_of_le (hpos : 0 < cmd.nsid.toNat)
    (hle : cmd.nsid.toNat ≤ dev.ns.length) :
    ∃ ns, dev.nsEntry cmd = some ns := by
  obtain ⟨nsid, hnsid⟩ := Nat.exists_eq_succ_of_ne_zero hpos.ne'
  rw [AdminDevice.nsEntry, hnsid]
  exact ⟨_, List.getElem?_eq_getElem (by omega)⟩

/-- A page that spares the rings leaves the admin queue alone. -/
theorem sameQueue_host {address span : ℕ} {host : HostMemory}
    (hspares : rings.Spares address span)
    (hhost : ∀ a, a < address ∨ address + span ≤ a → host a = dev.host a) :
    SameQueue rings dev { dev with host } :=
  ⟨rfl, rfl, rfl, rfl, rfl, fun a ha => hhost a (hspares a ha)⟩

theorem sameQueue_putPage {span : ℕ} {page : HostPage}
    (hspares : rings.Spares cmd.prp1.toNat span) (hpage : page.Within span) :
    SameQueue rings dev (dev.putPage cmd page) :=
  sameQueue_host hspares fun _ ha => HostMemory.putPage_outside hpage ha

/-- The list of the namespaces takes four bytes for each. -/
theorem listNamespaces_outside {entry count i ns a : ℕ} {host : HostMemory}
    (houtside : a < ns ∨ ns + 4 * count ≤ a) :
    listNamespaces entry count i ns host a = host a := by
  induction count generalizing i ns host with
  | zero => rfl
  | succ count ih =>
      rw [listNamespaces]
      split
      · refine (ih (by omega)).trans (HostMemory.put_outside ?_)
        rw [length_leBytes]
        omega
      · exact ih (by omega)

theorem logPage_size {lid size : ℕ} {log : ℕ → UInt8}
    (hlog : dev.logPage lid = some (size, log)) :
    logPageSize lid = some size := by
  unfold AdminDevice.logPage at hlog
  split at hlog
  · cases hlog
    rfl
  · cases hlog
    rfl
  · cases hlog

section Handlers

variable (huses : dev.Uses rings) (hapart : rings.Apart)
  (hhead : dev.adminQ.cqHead < rings.cqDepth) (heid : eid < rings.sqDepth)
  (hcmd : rings.entry dev.host eid = cmd) (hproper : cmd.Proper rings dev.ns)

include huses hapart hhead heid hcmd

/-- A handler that leaves the admin queue alone, and then completes. -/
theorem completes_of_same (hsame : SameQueue rings dev dev') (ret : ℕ)
    (result0 result1 : UInt32) :
    Completes rings eid cmd dev
      (makeCqEntryResults dev' eid ret result0 result1) := by
  rw [← hcmd]
  exact hsame.completes huses hapart hhead heid ret result0 result1

include hproper

theorem adminGetLogPage_completes (hopcode : cmd.opcode = .getLogPage) :
    Completes rings eid cmd dev (adminGetLogPage dev eid) := by
  have hspares := hproper.spares
  have hfields := hproper.fields
  simp only [AdminCommand.span, hopcode] at hspares hfields
  have hdone : ∀ bytes, SameQueue rings dev { dev with
      host := dev.host.fill cmd.prp1.toNat cmd.logLength bytes } :=
    fun bytes => sameQueue_host hspares fun a ha => HostMemory.fill_outside ha
  rw [adminGetLogPage, huses.sqEntry, hcmd, Option.bind_eq_bind,
    Option.bind_some]
  split
  next size log hlog =>
    rw [if_pos (hfields size (logPage_size hlog))]
    exact completes_of_same huses hapart hhead heid hcmd (hdone log) _ _ _
  next =>
    exact completes_of_same huses hapart hhead heid hcmd (hdone _) _ _ _

theorem adminIdentify_completes (hopcode : cmd.opcode = .identify) :
    Completes rings eid cmd dev (adminIdentify dev eid) := by
  have hspares := hproper.spares
  have hfields := hproper.fields
  simp only [AdminCommand.span, hopcode] at hspares hfields
  have hns : cmd.cdw10.toNat ∈ [0, 3, 5] →
      ∃ ns, dev.nsEntry cmd = some ns := fun hcns =>
    nsEntry_of_le (hfields hcns).1 (hfields hcns).2
  have hsame : ∀ {dev'}, SameQueue rings dev dev' → ∀ ret,
      Completes rings eid cmd dev (makeCqEntry dev' eid ret) :=
    fun hsame ret =>
      completes_of_same huses hapart hhead heid hcmd hsame ret 0 0
  have hentry : dev.sqEntry eid = some cmd := by rw [huses.sqEntry, hcmd]
  rw [adminIdentify, hentry, Option.bind_eq_bind, Option.bind_some]
  split
  next hcns =>
    obtain ⟨ns, hns⟩ := hns (by simp [hcns])
    rw [hcns] at hspares
    rw [adminIdentifyNamespace, hentry, Option.bind_eq_bind, Option.bind_some,
      hns]
    exact hsame (sameQueue_putPage hspares (namespacePage_within ns)) _
  next hcns =>
    rw [hcns] at hspares
    rw [adminIdentifyCtrl, hentry]
    exact hsame (sameQueue_putPage hspares (ctrlPage_within _ _ _)) _
  next hcns =>
    rw [hcns] at hspares
    change rings.Spares _ (max (pageSize * 2) (4 * dev.ns.length)) at hspares
    rw [adminIdentifyNamespaces, hentry, Option.bind_eq_bind,
      Option.bind_some, huses.nvmeSq_eq]
    refine hsame (sameQueue_host hspares fun a ha => ?_) _
    have hlist : a < cmd.prp1.toNat ∨
        cmd.prp1.toNat + 4 * dev.ns.length ≤ a := by omega
    exact (listNamespaces_outside hlist).trans
      (HostMemory.zero_outside (by omega))
  next hcns =>
    obtain ⟨ns, hns⟩ := hns (by simp [hcns])
    rw [hcns] at hspares
    rw [adminIdentifyNamespaceDesc, hentry, Option.bind_eq_bind,
      Option.bind_some, hns]
    exact hsame (sameQueue_putPage hspares (descPage_within ns)) _
  next hcns =>
    obtain ⟨ns, hns⟩ := hns (by simp [hcns])
    rw [hcns] at hspares
    rw [adminIdentifyZnsNamespace, hentry, Option.bind_eq_bind,
      Option.bind_some, hns, Option.bind_eq_bind, Option.bind_some]
    split
    · exact hsame (SameQueue.refl rings dev) _
    next hzns =>
      have hcsi : ns.csi = 2 := if_pos (not_not.mp hzns)
      rw [if_neg (not_not.mpr hcsi)]
      exact hsame (sameQueue_putPage hspares (znsPage_within ns.zns)) _
  next hcns =>
    rw [hcns] at hspares
    rw [adminIdentifyZnsCtrl, hentry]
    exact hsame (sameQueue_putPage hspares znsCtrlPage_within) _
  next => exact hsame (SameQueue.refl rings dev) _

/-- Every handler posts exactly one completion. -/
theorem procAdminReq_completes :
    Completes rings eid cmd dev (procAdminReq eid dev) := by
  have hfields := hproper.fields
  have hentry : dev.sqEntry eid = some cmd := by rw [huses.sqEntry, hcmd]
  have hsame : ∀ {dev'}, SameQueue rings dev dev' → ∀ ret result0 result1,
      Completes rings eid cmd dev
        (makeCqEntryResults dev' eid ret result0 result1) :=
    fun hsame => completes_of_same huses hapart hhead heid hcmd hsame
  unfold procAdminReq
  rw [hentry, Option.bind_eq_bind, Option.bind_some]
  cases hopcode : cmd.opcode with
  | deleteSq =>
      simp only [hopcode] at hfields
      dsimp only
      rw [adminDeleteSq, hentry, Option.bind_eq_bind, Option.bind_some,
        if_pos hfields]
      refine hsame ?_ _ _ _
      exact ⟨rfl, rfl, rfl, rfl, rfl, fun _ _ => rfl⟩
  | createSq =>
      simp only [hopcode] at hfields
      have hidx : cmd.qid * 2 ≠ 0 := by omega
      dsimp only
      rw [adminCreateSq, hentry, Option.bind_eq_bind, Option.bind_some,
        if_pos hfields.2]
      refine hsame ?_ _ _ _
      exact ⟨rfl, rfl, rfl, update_zero hidx, update_zero hidx, fun _ _ => rfl⟩
  | getLogPage =>
      exact adminGetLogPage_completes huses hapart hhead heid hcmd hproper
        hopcode
  | deleteCq =>
      simp only [hopcode] at hfields
      dsimp only
      rw [adminDeleteCq, hentry, Option.bind_eq_bind, Option.bind_some,
        if_pos hfields]
      refine hsame ?_ _ _ _
      exact ⟨rfl, rfl, rfl, rfl, rfl, fun _ _ => rfl⟩
  | createCq =>
      simp only [hopcode] at hfields
      have hidx : cmd.qid * 2 + 1 ≠ 0 := by omega
      dsimp only
      rw [adminCreateCq, hentry, Option.bind_eq_bind, Option.bind_some,
        if_pos hfields]
      refine hsame ?_ _ _ _
      exact ⟨rfl, rfl, rfl, update_zero hidx, update_zero hidx, fun _ _ => rfl⟩
  | identify =>
      exact adminIdentify_completes huses hapart hhead heid hcmd hproper hopcode
  | abortCmd =>
      simp only [hopcode] at hfields
  | setFeatures =>
      dsimp only
      rw [adminSetFeatures, hentry, Option.bind_eq_bind, Option.bind_some]
      split
      · refine hsame ?_ _ _ _
        exact ⟨rfl, rfl, rfl, rfl, rfl, fun _ _ => rfl⟩
      · exact hsame (SameQueue.refl rings dev) _ _ _
  | getFeatures =>
      dsimp only
      rw [adminGetFeatures, hentry]
      exact hsame (SameQueue.refl rings dev) _ _ _
  | asyncEvent | unhandled => exact hsame (SameQueue.refl rings dev) _ _ _

end Handlers

/-! ## Rounds of the rings -/

/-- What the host sees of a completion: its slot, the entry and the command it
is for, and the phase bit. -/
def completionView (posted : ℕ × NvmeCompletion) : ℕ × ℕ × ℕ × Bool :=
  (posted.1, posted.2.sqHead, posted.2.commandId, posted.2.status.testBit 0)

/-- The completion that is due for the `k`-th entry. -/
def dueCompletion (cqDepth k : ℕ) (entry : ℕ × AdminCommand) :
    ℕ × ℕ × ℕ × Bool :=
  (k % cqDepth, entry.1, entry.2.commandId.toNat, lapPhase cqDepth k)

/-- The entries have been completed, in order, and no others. -/
structure Completed (rings : AdminRings) (ns : List Namespace)
    (entries : List (ℕ × AdminCommand)) (dev : AdminDevice) : Prop
    extends dev.Uses rings where
  ns_eq : dev.ns = ns
  cqHead_eq : dev.adminQ.cqHead = entries.length % rings.cqDepth
  phase_eq : dev.adminQ.phase = lapPhase rings.cqDepth entries.length
  posted_eq : dev.posted.map completionView =
    entries.mapIdx (dueCompletion rings.cqDepth)

/-- The completions from the `first` on stand in their slots, if no later one
has taken the slot. -/
def Shown (rings : AdminRings) (first : ℕ) (dev : AdminDevice) : Prop :=
  ∀ k slot cqe, first ≤ k → dev.posted.length ≤ k + rings.cqDepth →
    dev.posted[k]? = some (slot, cqe) → ∀ i < cqeSize,
      dev.host (rings.cq + cqeSize * slot + i) = (completionBytes cqe).getD i 0

variable {ns : List Namespace} {done : List (ℕ × AdminCommand)}

theorem Completed.congr (hdone : Completed rings ns done dev)
    (hadminQ : dev'.adminQ = dev.adminQ) (hposted : dev'.posted = dev.posted)
    (hns : dev'.ns = dev.ns) : Completed rings ns done dev' := by
  obtain ⟨⟨h1, h2, h3, h4⟩, h5, h6, h7, h8⟩ := hdone
  rw [← hadminQ] at h1 h2 h3 h4 h6 h7
  rw [← hns] at h5
  rw [← hposted] at h8
  exact ⟨⟨h1, h2, h3, h4⟩, h5, h6, h7, h8⟩

theorem Completed.length_posted (hdone : Completed rings ns done dev) :
    dev.posted.length = done.length := by
  have hlength := congrArg List.length hdone.posted_eq
  rwa [List.length_map, List.length_mapIdx] at hlength

/-- The `k`-th completion stands in slot `k` modulo the depth. -/
theorem Completed.slot_eq (hdone : Completed rings ns done dev) {k slot : ℕ}
    {cqe : NvmeCompletion} (hget : dev.posted[k]? = some (slot, cqe)) :
    slot = k % rings.cqDepth := by
  have hview := congrArg (·[k]?) hdone.posted_eq
  simp only [List.getElem?_map, hget, Option.map_some, List.getElem?_mapIdx]
    at hview
  obtain ⟨entry, -, hentry⟩ := Option.map_eq_some_iff.mp hview.symm
  exact (congrArg Prod.fst hentry).symm

theorem Completed.advance (hcqDepth : 0 < rings.cqDepth)
    (hdone : Completed rings ns done dev) :
    dev.adminQ.advance.cqHead = (done.length + 1) % rings.cqDepth ∧
      dev.adminQ.advance.phase = lapPhase rings.cqDepth (done.length + 1) := by
  have hhead := Io.succ_mod_eq hcqDepth done.length
  have hphase := lapPhase_succ hcqDepth done.length
  rw [← hdone.cqHead_eq, ← hdone.cqDepth_eq] at hhead hphase
  rw [hdone.cqDepth_eq, ← hdone.phase_eq] at hphase
  rw [AdminQueue.advance, ← hdone.cqDepth_eq, hhead, hdone.cqDepth_eq, hphase,
    ← hdone.cqDepth_eq]
  split <;> exact ⟨rfl, rfl⟩

theorem Completed.posts {cqe : NvmeCompletion} (hcqDepth : 0 < rings.cqDepth)
    (hdone : Completed rings ns done dev)
    (hposts : Posts rings eid cmd dev dev' cqe) :
    Completed rings ns (done ++ [(eid, cmd)]) dev' := by
  obtain ⟨hhead, hphase⟩ := hdone.advance hcqDepth
  have hqueue : dev'.adminQ = dev.adminQ.advance := hposts.adminQ_eq
  have huses : dev.adminQ.advance.nvmeSq = dev.adminQ.nvmeSq ∧
      dev.adminQ.advance.sqDepth = dev.adminQ.sqDepth ∧
      dev.adminQ.advance.nvmeCq = dev.adminQ.nvmeCq ∧
      dev.adminQ.advance.cqDepth = dev.adminQ.cqDepth := by
    rw [AdminQueue.advance]
    split <;> exact ⟨rfl, rfl, rfl, rfl⟩
  rw [← hqueue] at hhead hphase huses
  obtain ⟨h1, h2, h3, h4⟩ := huses
  refine ⟨⟨h1.trans hdone.nvmeSq_eq, h2.trans hdone.sqDepth_eq,
    h3.trans hdone.nvmeCq_eq, h4.trans hdone.cqDepth_eq⟩,
    hposts.ns_eq.trans hdone.ns_eq, ?_, ?_, ?_⟩
  · rwa [List.length_append, List.length_singleton]
  · rwa [List.length_append, List.length_singleton]
  · rw [hposts.posted_eq, List.map_append, List.mapIdx_concat, hdone.posted_eq]
    simp only [List.map_cons, List.map_nil, completionView, dueCompletion,
      hposts.sqHead_eq, hposts.commandId_eq, hposts.phase_eq, hdone.cqHead_eq,
      hdone.phase_eq]

/-- Nothing has been posted since. -/
theorem Shown.start (rings : AdminRings) {first : ℕ}
    (hfirst : dev.posted.length ≤ first) : Shown rings first dev := by
  intro k slot cqe hk _ hget
  rw [List.getElem?_eq_none (hfirst.trans hk)] at hget
  cases hget

/-- A completion takes the slot of the one that came a round before, and no
other. -/
theorem Shown.posts {first : ℕ} {cqe : NvmeCompletion}
    (hcqDepth : 0 < rings.cqDepth) (hdone : Completed rings ns done dev)
    (hshown : Shown rings first dev)
    (hposts : Posts rings eid cmd dev dev' cqe) : Shown rings first dev' := by
  intro k slot cqe' hk hround hget i hi
  have hlength := hdone.length_posted
  have hslot := (hdone.posts hcqDepth hposts).slot_eq hget
  have hin : rings.InCq (rings.cq + cqeSize * slot + i) :=
    rings.inCq_entry (hslot ▸ Nat.mod_lt k hcqDepth) (by omega) (by omega)
  rw [hposts.posted_eq] at hround hget
  rw [List.length_append, List.length_singleton] at hround
  rw [hposts.cq_eq _ hin]
  by_cases hlast : k = dev.posted.length
  · subst hlast
    rw [List.getElem?_append_right le_rfl, Nat.sub_self] at hget
    cases hget
    exact HostMemory.put_inside (hi.trans_eq (length_completionBytes cqe).symm)
  · have hlt : k < dev.posted.length := by
      have hbound := (List.getElem?_eq_some_iff.mp hget).1
      rw [List.length_append, List.length_singleton] at hbound
      omega
    rw [List.getElem?_append_left hlt] at hget
    -- Less than a round lies between the two completions.
    have hne : slot ≠ dev.adminQ.cqHead := by
      rw [hslot, hdone.cqHead_eq, ← hlength]
      intro heq
      have hdvd : rings.cqDepth ∣ dev.posted.length - k :=
        (Nat.modEq_iff_dvd' hlt.le).mp heq
      have := Nat.le_of_dvd (by omega) hdvd
      omega
    refine (HostMemory.put_outside ?_).trans
      (hshown k slot cqe' hk (by omega) hget i hi)
    rw [length_completionBytes]
    rcases Nat.lt_or_gt_of_ne hne with hlt | hgt
    · have := Nat.mul_le_mul_left cqeSize hlt
      rw [Nat.succ_eq_add_one, Nat.mul_succ] at this
      exact .inl (by omega)
    · have := Nat.mul_le_mul_left cqeSize hgt
      rw [Nat.succ_eq_add_one, Nat.mul_succ] at this
      exact .inr (by omega)

/-- The entries of the ring from the `start`-th on. -/
def ringEntries (rings : AdminRings) (host : HostMemory) (start count : ℕ) :
    List (ℕ × AdminCommand) :=
  (Ring.visited rings.sqDepth start count).map fun i => (i, rings.entry host i)

theorem ringEntries_zero (rings : AdminRings) (host : HostMemory) (start : ℕ) :
    ringEntries rings host start 0 = [] := by
  rw [ringEntries, Ring.visited, List.range'_zero, List.map_nil, List.map_nil]

section Rounds

variable (hsqDepth : 0 < rings.sqDepth) (hcqDepth : 0 < rings.cqDepth)
  (hapart : rings.Apart)

include hsqDepth hcqDepth hapart

/-- A call completes the entries it is given, in the order of the ring. -/
theorem procAdminLoop_completes {host : HostMemory} {numProc start first : ℕ}
    (hdone : Completed rings ns done dev) (hshown : Shown rings first dev)
    (hhost : ∀ a, rings.InSq a → dev.host a = host a)
    (hproper : ∀ entry ∈ ringEntries rings host start numProc,
      entry.2.Proper rings ns) :
    ∃ dev', procAdminLoop numProc (start % rings.sqDepth) dev = some dev' ∧
      Completed rings ns (done ++ ringEntries rings host start numProc) dev' ∧
      Shown rings first dev' ∧ dev'.dbs 0 = dev.dbs 0 ∧
      dev'.oldDbs 0 = dev.oldDbs 0 := by
  induction numProc generalizing start dev done with
  | zero =>
      refine ⟨dev, rfl, ?_, hshown, rfl, rfl⟩
      rwa [ringEntries_zero, List.append_nil]
  | succ numProc ih =>
      have hsplit : ringEntries rings host start (numProc + 1) =
          (start % rings.sqDepth, rings.entry host (start % rings.sqDepth)) ::
            ringEntries rings host (start + 1) numProc := by
        rw [ringEntries, Ring.visited_succ, List.map_cons, ringEntries]
      rw [hsplit] at hproper ⊢
      obtain ⟨hfirst, hrest⟩ := List.forall_mem_cons.mp hproper
      rw [← hdone.ns_eq] at hfirst
      have hslot := Nat.mod_lt start hsqDepth
      have hhead : dev.adminQ.cqHead < rings.cqDepth :=
        hdone.cqHead_eq ▸ Nat.mod_lt _ hcqDepth
      have hcmd := AdminRings.entry_congr hslot hhost
      obtain ⟨mid, cqe, hreq, hposts⟩ := procAdminReq_completes hdone.toUses
        hapart hhead hslot hcmd hfirst
      have hmid := hdone.posts hcqDepth hposts
      obtain ⟨dev', hloop, hdev', hshown', hdbs, holdDbs⟩ := ih hmid
        (hshown.posts hcqDepth hdone hposts)
        (fun a ha => (hposts.sq_eq a ha).trans (hhost a ha)) hrest
      refine ⟨dev', ?_, ?_, hshown', hdbs.trans hposts.dbs_eq,
        holdDbs.trans hposts.oldDbs_eq⟩
      · rw [procAdminLoop, hreq]
        change procAdminLoop numProc (if start % rings.sqDepth + 1 =
          mid.adminQ.sqDepth then 0 else start % rings.sqDepth + 1) mid = _
        rw [hmid.sqDepth_eq, ← Io.succ_mod_eq hsqDepth]
        exact hloop
      · rwa [List.append_assoc, List.singleton_append] at hdev'

/-- The submission doorbell: the entries up to it are done. -/
theorem procAdminSqDb_completes {db seen : ℕ} (hseen : seen < rings.sqDepth)
    (hdbs : dev.dbs 0 = db) (holdDbs : dev.oldDbs 0 = seen)
    (hdone : Completed rings ns done dev)
    (hproper : ∀ entry ∈ ringEntries rings dev.host seen
      (Ring.distance rings.sqDepth seen db), entry.2.Proper rings ns) :
    ∃ dev', procAdminSqDb dev = some dev' ∧
      Completed rings ns (done ++ ringEntries rings dev.host seen
        (Ring.distance rings.sqDepth seen db)) dev' ∧
      Shown rings done.length dev' ∧ dev'.dbs 0 = db ∧ dev'.oldDbs 0 = db := by
  have hshown : Shown rings done.length dev :=
    .start rings hdone.length_posted.le
  unfold procAdminSqDb
  rw [hdbs, holdDbs]
  by_cases hmoved : db = seen
  · have hnone : Ring.distance rings.sqDepth seen db = 0 := by
      rw [hmoved, Ring.distance, if_neg (lt_irrefl _), Nat.sub_self]
    refine ⟨dev, if_neg (not_not.mpr hmoved), ?_, hshown, hdbs,
      holdDbs.trans hmoved.symm⟩
    rwa [hnone, ringEntries_zero, List.append_nil]
  · obtain ⟨mid, hloop, hmid, hmidShown, hmidDbs, -⟩ :=
      procAdminLoop_completes hsqDepth hcqDepth hapart hdone hshown
        (fun _ _ => rfl) hproper
    rw [Nat.mod_eq_of_lt hseen] at hloop
    have hcall : procAdminSq db seen dev = some mid := by
      rw [procAdminSq, hdone.sqDepth_eq]
      exact hloop
    dsimp only
    rw [if_pos hmoved, hcall]
    exact ⟨_, rfl, hmid.congr rfl rfl rfl, hmidShown, hmidDbs.trans hdbs,
      Function.update_self 0 db mid.oldDbs⟩

omit hsqDepth hcqDepth hapart in
theorem procAdminCqDb_sameQueue (rings : AdminRings) (dev : AdminDevice) :
    SameQueue rings dev (procAdminCqDb dev) := by
  unfold procAdminCqDb
  dsimp only
  split
  · exact ⟨rfl, rfl, rfl, rfl,
      Function.update_of_ne Nat.zero_ne_one (dev.dbs 1) dev.oldDbs,
      fun _ _ => rfl⟩
  · exact SameQueue.refl rings dev

theorem procAdminDbs_completes {db seen : ℕ} (hseen : seen < rings.sqDepth)
    (hdbs : dev.dbs 0 = db) (holdDbs : dev.oldDbs 0 = seen)
    (hdone : Completed rings ns done dev)
    (hproper : ∀ entry ∈ ringEntries rings dev.host seen
      (Ring.distance rings.sqDepth seen db), entry.2.Proper rings ns) :
    ∃ dev', procAdminDbs dev = some dev' ∧
      Completed rings ns (done ++ ringEntries rings dev.host seen
        (Ring.distance rings.sqDepth seen db)) dev' ∧
      Shown rings done.length dev' ∧ dev'.dbs 0 = db ∧ dev'.oldDbs 0 = db := by
  obtain ⟨mid, hcall, hmid, hshown, hmidDbs, hmidOld⟩ :=
    procAdminSqDb_completes hsqDepth hcqDepth hapart hseen hdbs holdDbs hdone
      hproper
  have hsame := procAdminCqDb_sameQueue rings mid
  refine ⟨procAdminCqDb mid, by rw [procAdminDbs, hcall]; rfl,
    hmid.congr hsame.adminQ_eq hsame.posted_eq hsame.ns_eq, ?_,
    hsame.dbs_eq.trans hmidDbs, hsame.oldDbs_eq.trans hmidOld⟩
  have hhost : (procAdminCqDb mid).host = mid.host := by
    unfold procAdminCqDb
    dsimp only
    split <;> rfl
  unfold Shown
  rw [hsame.posted_eq, hhost]
  exact hshown

end Rounds

/-! ## Runs -/

/-- The entries that the host submits, each with its slot: those between the
doorbell at the last look of the device and the doorbell at this one. -/
def submittedEntries (rings : AdminRings) :
    List AdminEvent → ℕ → ℕ → List (ℕ × AdminCommand)
  | [], _, _ => []
  | .sqDoorbell value :: rest, _, seen =>
      submittedEntries rings rest value seen
  | .cqDoorbell _ :: rest, db, seen => submittedEntries rings rest db seen
  | .poll host :: rest, db, seen =>
      ringEntries rings host seen (Ring.distance rings.sqDepth seen db) ++
        submittedEntries rings rest db db

theorem submittedEntries_slots {events : List AdminEvent} {db seen : ℕ}
    (hdb : db < rings.sqDepth) (hseen : seen < rings.sqDepth)
    (hevents : ∀ value, .sqDoorbell value ∈ events → value < rings.sqDepth) :
    (submittedEntries rings events db seen).map Prod.fst =
      Ring.visited rings.sqDepth seen
        (submittedEntries rings events db seen).length := by
  induction events generalizing db seen with
  | nil => rfl
  | cons event rest ih =>
      have hrest : ∀ value, .sqDoorbell value ∈ rest → value < rings.sqDepth :=
        fun value hmem => hevents value (List.mem_cons_of_mem _ hmem)
      cases event with
      | sqDoorbell value =>
          exact ih (hevents value List.mem_cons_self) hseen hrest
      | cqDoorbell value => exact ih hdb hseen hrest
      | poll host =>
          have hlength : (ringEntries rings host seen
              (Ring.distance rings.sqDepth seen db)).length =
              Ring.distance rings.sqDepth seen db := by
            simp [ringEntries, Ring.visited]
          have hfirst : (ringEntries rings host seen
              (Ring.distance rings.sqDepth seen db)).map Prod.fst =
              Ring.visited rings.sqDepth seen
                (Ring.distance rings.sqDepth seen db) := by
            rw [ringEntries, List.map_map]
            exact List.map_id _
          rw [submittedEntries, List.map_append, List.length_append, hlength,
            hfirst, ih hdb hdb hrest, ← Ring.visited_append,
            ← Ring.visited_mod (seen + _), Ring.add_distance_mod hseen hdb]

/-- If the last event is a look of the device, the completions that it posted
stand in their slots. -/
def LastShown (rings : AdminRings) (events : List AdminEvent)
    (db seen first : ℕ) (dev : AdminDevice) : Prop :=
  ∀ earlier host, events = earlier ++ [.poll host] →
    Shown rings (first + (submittedEntries rings earlier db seen).length) dev

theorem LastShown.cons {event : AdminEvent} {rest : List AdminEvent}
    {db seen db' seen' first : ℕ}
    (hrest : LastShown rings rest db' seen'
      (first + (submittedEntries rings [event] db seen).length) dev)
    (hsplit : ∀ earlier, submittedEntries rings (event :: earlier) db seen =
      submittedEntries rings [event] db seen ++
        submittedEntries rings earlier db' seen')
    (hone : ∀ host, event = .poll host → rest = [] →
      Shown rings first dev) :
    LastShown rings (event :: rest) db seen first dev := by
  intro earlier host heq
  cases earlier with
  | nil =>
      obtain ⟨rfl, rfl⟩ := List.cons.inj heq
      exact hone host rfl rfl
  | cons event' earlier =>
      obtain ⟨rfl, htail⟩ := List.cons.inj heq
      rw [hsplit, List.length_append, ← Nat.add_assoc]
      exact hrest earlier host htail

theorem run_completes (hcqDepth : 0 < rings.cqDepth) (hapart : rings.Apart)
    {events : List AdminEvent} {db seen : ℕ} (hdb : db < rings.sqDepth)
    (hseen : seen < rings.sqDepth) (hdbs : dev.dbs 0 = db)
    (holdDbs : dev.oldDbs 0 = seen) (hdone : Completed rings ns done dev)
    (hevents : ∀ value, .sqDoorbell value ∈ events → value < rings.sqDepth)
    (hproper : ∀ entry ∈ submittedEntries rings events db seen,
      entry.2.Proper rings ns) :
    ∃ dev', events.foldlM adminStep dev = some dev' ∧
      Completed rings ns (done ++ submittedEntries rings events db seen) dev' ∧
      LastShown rings events db seen done.length dev' := by
  induction events generalizing dev db seen done with
  | nil =>
      refine ⟨dev, rfl, by rwa [submittedEntries, List.append_nil], ?_⟩
      intro earlier host heq
      simp at heq
  | cons event rest ih =>
      have hrest : ∀ value, .sqDoorbell value ∈ rest → value < rings.sqDepth :=
        fun value hmem => hevents value (List.mem_cons_of_mem _ hmem)
      rw [List.foldlM_cons]
      cases event with
      | sqDoorbell value =>
          have hwritten : Completed rings ns done
              { dev with dbs := Function.update dev.dbs 0 value } :=
            hdone.congr rfl rfl rfl
          obtain ⟨dev', hrun, hdev', hlast⟩ :=
            @ih { dev with dbs := Function.update dev.dbs 0 value } done value
              seen (hevents value List.mem_cons_self) hseen
              (Function.update_self 0 value dev.dbs) holdDbs hwritten hrest
              hproper
          exact ⟨dev', hrun, hdev',
            hlast.cons (fun _ => rfl) (fun _ heq => by cases heq)⟩
      | cqDoorbell value =>
          have hother : Function.update dev.dbs 1 value 0 = db :=
            (Function.update_of_ne (by decide) value dev.dbs).trans hdbs
          have hwritten : Completed rings ns done
              { dev with dbs := Function.update dev.dbs 1 value } :=
            hdone.congr rfl rfl rfl
          obtain ⟨dev', hrun, hdev', hlast⟩ :=
            @ih { dev with dbs := Function.update dev.dbs 1 value } done db
              seen hdb hseen hother holdDbs hwritten hrest hproper
          exact ⟨dev', hrun, hdev',
            hlast.cons (fun _ => rfl) (fun _ heq => by cases heq)⟩
      | poll host =>
          rw [submittedEntries] at hproper ⊢
          obtain ⟨hnew, hlater⟩ := List.forall_mem_append.mp hproper
          have hheld : Completed rings ns done { dev with host } :=
            hdone.congr rfl rfl rfl
          obtain ⟨mid, hpoll, hmid, hshown, hmidDbs, hmidOld⟩ :=
            @procAdminDbs_completes rings { dev with host } ns done
              (Nat.zero_lt_of_lt hseen) hcqDepth hapart db seen hseen hdbs
              holdDbs hheld hnew
          obtain ⟨dev', hrun, hdev', hlast⟩ :=
            ih hdb hdb hmidDbs hmidOld hmid hrest hlater
          rw [List.length_append] at hlast
          have hlater : LastShown rings rest db db (done.length +
              (submittedEntries rings [.poll host] db seen).length) dev' := by
            rwa [submittedEntries, submittedEntries, List.append_nil]
          refine ⟨dev', ?_, by rwa [List.append_assoc] at hdev',
            hlater.cons ?_ ?_⟩
          · rw [adminStep, hpoll]
            exact hrun
          · intro earlier
            rw [submittedEntries, submittedEntries, submittedEntries,
              List.append_nil]
          · intro _ _ hnil
            subst hnil
            cases hrun
            exact hshown

/-- The device has set up its admin queue and has done nothing since. -/
structure AdminDevice.Started (rings : AdminRings) (dev : AdminDevice) :
    Prop where
  adminQ_eq : dev.adminQ =
    ⟨true, rings.sqDepth, rings.cqDepth, 0, some rings.sq, some rings.cq⟩
  posted_eq : dev.posted = []
  dbs_eq : dev.dbs 0 = 0
  oldDbs_eq : dev.oldDbs 0 = 0

theorem AdminDevice.Started.completed (hstarted : dev.Started rings) :
    Completed rings dev.ns [] dev where
  nvmeSq_eq := by rw [hstarted.adminQ_eq]
  sqDepth_eq := by rw [hstarted.adminQ_eq]
  nvmeCq_eq := by rw [hstarted.adminQ_eq]
  cqDepth_eq := by rw [hstarted.adminQ_eq]
  ns_eq := rfl
  cqHead_eq := by
    rw [hstarted.adminQ_eq]
    exact (Nat.zero_mod rings.cqDepth).symm
  phase_eq := by rw [hstarted.adminQ_eq]; simp [lapPhase]
  posted_eq := by rw [hstarted.posted_eq]; rfl

/-- In every run in which the host submits only commands that have a handler,
name what exists and leave the rings alone, the entries are taken round the
ring, each one once, and the `k`-th is answered by the `k`-th completion: with
its command id, in slot `k` modulo the depth, and with a phase that flips each
time round.  After a look of the device the completions that it posted stand in
their slots. -/
theorem admin_commands_completed_once (rings : AdminRings) (dev : AdminDevice)
    (events : List AdminEvent) (hsqDepth : 0 < rings.sqDepth)
    (hcqDepth : 0 < rings.cqDepth) (hapart : rings.Apart)
    (hstarted : dev.Started rings)
    (hevents : ∀ value, .sqDoorbell value ∈ events → value < rings.sqDepth)
    (hproper : ∀ entry ∈ submittedEntries rings events 0 0,
      entry.2.Proper rings dev.ns) :
    ∃ dev', events.foldlM adminStep dev = some dev' ∧
      let submitted := submittedEntries rings events 0 0
      submitted.map Prod.fst =
          (List.range submitted.length).map (· % rings.sqDepth) ∧
        dev'.posted.map completionView =
          submitted.mapIdx (dueCompletion rings.cqDepth) ∧
        ∀ earlier host, events = earlier ++ [.poll host] →
          Shown rings (submittedEntries rings earlier 0 0).length dev' := by
  obtain ⟨dev', hrun, hdev', hlast⟩ := run_completes hcqDepth hapart hsqDepth
    hsqDepth hstarted.dbs_eq hstarted.oldDbs_eq hstarted.completed hevents
    hproper
  refine ⟨dev', hrun, ?_, hdev'.posted_eq, fun earlier host heq => ?_⟩
  · rw [List.range_eq_range']
    exact submittedEntries_slots hsqDepth hsqDepth hevents
  · have hshown := hlast earlier host heq
    rwa [List.length_nil, Nat.zero_add] at hshown

/-- A submission ring of three entries at 4096, and a completion ring of two at
8192. -/
def smallRings : AdminRings := ⟨4096, 3, 8192, 2⟩

def smallAdmin : AdminDevice where
  adminQ := ⟨true, 3, 2, 0, some 4096, some 8192⟩
  nrSq := 0
  nrCq := 0
  sqes _ := none
  cqes _ := none
  ns := [⟨.nvm, 0, ⟨0, 0, 0, 0, 0, 0⟩⟩]
  mdts := 5
  virtId := 0
  dbs _ := 0
  oldDbs _ := 0
  host _ := 0
  posted := []

theorem smallAdmin_started : smallAdmin.Started smallRings :=
  ⟨rfl, rfl, rfl, rfl⟩

/-- Memory that holds a command with an opcode, an id, a number of a structure
to identify and a page, in each of the slots. -/
def commandMemory (opcode : UInt8) (id : ℕ → UInt8) (cns page : UInt8) :
    HostMemory := fun a =>
  let offset := (a - 4096) % sqeSize
  if offset = 0 then opcode
  else if offset = 2 then id ((a - 4096) / sqeSize)
  else if offset = 26 then page
  else if offset = 40 then cns
  else 0

/-- Requests for the list of the namespaces, with the ids 10, 11 and so on and
the page at 65536. -/
def identifyMemory : HostMemory :=
  commandMemory 0x06 (fun i => .ofNat (10 + i)) 2 1

theorem identifyMemory_entry {i : ℕ} (hi : i < 3) :
    smallRings.entry identifyMemory i =
      ⟨.identify, .ofNat (10 + i), 0, 0x10000, 2, 0⟩ := by
  obtain rfl | rfl | rfl : i = 0 ∨ i = 1 ∨ i = 2 := by omega
  all_goals decide +kernel

theorem identifyMemory_proper {i : ℕ} (hi : i < 3) :
    (smallRings.entry identifyMemory i).Proper smallRings smallAdmin.ns := by
  rw [identifyMemory_entry hi]
  refine ⟨by simp, ?_⟩
  intro a ha
  left
  simp only [AdminRings.InSq, AdminRings.InCq, smallRings, sqeSize, cqeSize]
    at ha
  change a < 65536
  omega

theorem admin_commands_completed_once_wrap :
    ∃ dev', [AdminEvent.sqDoorbell 2, .poll identifyMemory, .sqDoorbell 1,
        .poll identifyMemory].foldlM adminStep smallAdmin = some dev' ∧
      dev'.posted.map completionView =
        [(0, 0, 10, true), (1, 1, 11, true), (0, 2, 12, false),
          (1, 0, 10, false)] ∧
      dev'.host (8192 + 16 * 1 + 12) = 10 := by
  have hall : submittedEntries smallRings [.sqDoorbell 2,
      .poll identifyMemory, .sqDoorbell 1, .poll identifyMemory] 0 0 =
      [0, 1, 2, 0].map fun i => (i, smallRings.entry identifyMemory i) := rfl
  obtain ⟨dev', hrun, -, hposted, hshown⟩ := admin_commands_completed_once
    smallRings smallAdmin [.sqDoorbell 2, .poll identifyMemory, .sqDoorbell 1,
      .poll identifyMemory] (by decide) (by decide) (.inl (by decide))
    smallAdmin_started (by simp [smallRings]) (by
      intro entry hentry
      rw [hall, List.mem_map] at hentry
      obtain ⟨i, hi, rfl⟩ := hentry
      exact identifyMemory_proper (by simp at hi; omega))
  have hview : dev'.posted.map completionView =
      [(0, 0, 10, true), (1, 1, 11, true), (0, 2, 12, false),
        (1, 0, 10, false)] := hposted.trans (by rw [hall]; decide +kernel)
  refine ⟨dev', hrun, hview, ?_⟩
  have hlast := congrArg (·[3]?) hview
  simp only [List.getElem?_map] at hlast
  obtain ⟨⟨slot, cqe⟩, hget, hcqe⟩ := Option.map_eq_some_iff.mp hlast
  have hlength : dev'.posted.length = 4 := by
    simpa using congrArg List.length hview
  obtain ⟨rfl, -, hid, -⟩ : slot = 1 ∧ cqe.sqHead = 0 ∧ cqe.commandId = 10 ∧
      cqe.status.testBit 0 = false := by
    simpa [completionView] using hcqe
  have hbyte := hshown [.sqDoorbell 2, .poll identifyMemory, .sqDoorbell 1]
    identifyMemory rfl 3 1 cqe (by decide) (by rw [hlength]; decide) hget 12
    (by decide)
  have hbytes : (completionBytes cqe).getD 12 0 = 10 := by
    simp [completionBytes, leBytes, hid]
  exact hbyte.trans hbytes

/-- An abort command with the id 7. -/
def abortMemory : HostMemory := commandMemory 0x08 (fun _ => 7) 0 0

/-- The abort command in slot 0 is submitted and taken from the ring, and no
completion is posted. -/
theorem abort_never_completed :
    smallAdmin.Started smallRings ∧
      (submittedEntries smallRings [.sqDoorbell 1, .poll abortMemory] 0
        0).length = 1 ∧
      ∃ dev', [AdminEvent.sqDoorbell 1, .poll abortMemory].foldlM adminStep
          smallAdmin = some dev' ∧
        dev'.oldDbs 0 = 1 ∧ dev'.posted.length = 0 := by
  have hview : ([AdminEvent.sqDoorbell 1, .poll abortMemory].foldlM adminStep
      smallAdmin).map (fun dev => (dev.oldDbs 0, dev.posted.length)) =
        some (1, 0) := by decide +kernel
  obtain ⟨dev', hrun, heq⟩ := Option.map_eq_some_iff.mp hview
  obtain ⟨hdb, hposted⟩ := Prod.mk.inj heq
  exact ⟨smallAdmin_started, rfl, dev', hrun, hdb, hposted⟩

end NvmeVirt.Admin
