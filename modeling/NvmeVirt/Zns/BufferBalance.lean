import NvmeVirt.Lib.Counting
import NvmeVirt.Zns.FlushLoop

/-!
# The balance of the zone write buffers

Space is reserved for the blocks of a write and released for the one-shot pages
it completes.  The two balance over the life of a zone unless a write ends
inside the last page of a one-shot page or of the zone: that page is then
flushed, and released, once more by the write that goes on in it.
-/

namespace NvmeVirt.Zns

open Function Ftl Interleaving

/-! ## Accounts -/

/-- The zoned FTL with the bytes reserved and released for each zone so far,
which the code does not record. -/
structure Ledger where
  ftl : ZnsFtl
  reserved : ℕ → ℕ
  released : ℕ → ℕ

def ledgerInit (zp : ZnsParams) : Ledger := ⟨znsInitFtl zp, 0, 0⟩

/-- The bytes that a command reserves for good, and the zone. -/
def reservation (zp : ZnsParams) (ftl : ZnsFtl) : ZnsEvent → ℕ × ℕ
  | .write append slba length =>
      match znsWrite zp ftl append slba (nrLbasFromRwCmd length) with
      | some (.done _, _) =>
          (zp.lbaToZone slba, lbaToByte (nrLbasFromRwCmd length))
      | _ => (0, 0)
  | _ => (0, 0)

/-- The bytes that the completion of an internal operation gives back, and the
zone. -/
def repayment (ftl : ZnsFtl) : ZnsEvent → ℕ × ℕ
  | .release index =>
      match ftl.scheduled[index]? with
      | some release => (release.zid, release.bytes)
      | none => (0, 0)
  | _ => (0, 0)

/-- One more entry in an account. -/
def book (account : ℕ → ℕ) (entry : ℕ × ℕ) : ℕ → ℕ :=
  update account entry.1 (account entry.1 + entry.2)

def ledgerStep (zp : ZnsParams) (event : ZnsEvent) (ledger : Ledger) :
    Option Ledger :=
  (znsStep zp event ledger.ftl).map fun ftl =>
    { ftl := ftl
      reserved := book ledger.reserved (reservation zp ledger.ftl event)
      released := book ledger.released (repayment ledger.ftl event) }

/-- The zones that use a write buffer. -/
def users (zp : ZnsParams) (buffer : BufferId) : Finset ℕ :=
  (Finset.range zp.nrZones).filter fun zid => writeBufferOf zp zid = buffer

/-! ## Runs of writes -/

/-- A write is put off, or ends with success. -/
def notRejected : Option (WriteResult × ZnsFtl) → Bool
  | some (.done status, _) => status = .success
  | _ => true

/-- A write that is not rejected, a read, or the completion of an internal
operation. -/
def Succeeds (zp : ZnsParams) (ftl : ZnsFtl) : ZnsEvent → Prop
  | .write append slba length =>
      notRejected (znsWrite zp ftl append slba (nrLbasFromRwCmd length)) = true
  | .read _ _ | .release _ => True
  | .mgmtSend _ _ _ _ => False

instance (zp : ZnsParams) (ftl : ZnsFtl) : DecidablePred (Succeeds zp ftl)
  | .write _ _ _ => inferInstanceAs (Decidable (notRejected _ = true))
  | .read _ _ | .release _ => inferInstanceAs (Decidable True)
  | .mgmtSend _ _ _ _ => inferInstanceAs (Decidable False)

/-- The pages of a zone that its first `lbas` blocks touch. -/
def touchedPgs (lbas : ℕ) : ℕ := (lbas + secsPerPg - 1) / secsPerPg

/-- The first `lbas` blocks of a zone end with a page, or inside a page that is
the last neither of a one-shot page nor of the zone. -/
def EndsClean (zp : ZnsParams) (lbas : ℕ) : Prop :=
  lbas % secsPerPg = 0 ∨
    (touchedPgs lbas % zp.pgsPerOneshotpg ≠ 0 ∧
      touchedPgs lbas ≠ zp.pgsPerZone)

instance (zp : ZnsParams) (lbas : ℕ) : Decidable (EndsClean zp lbas) :=
  inferInstanceAs (Decidable (_ ∨ _))

/-- A write does not end inside the last page of a one-shot page or of its
zone. -/
def WritesClean (zp : ZnsParams) (ftl : ZnsFtl) : ZnsEvent → Prop
  | .write append slba length =>
      EndsClean zp (startLba zp ftl append slba + nrLbasFromRwCmd length -
        (ftl.zoneDescs (zp.lbaToZone slba)).zslba)
  | _ => True

instance (zp : ZnsParams) (ftl : ZnsFtl) : DecidablePred (WritesClean zp ftl)
  | .write _ _ _ => inferInstanceAs (Decidable (EndsClean zp _))
  | .read _ _ | .release _ | .mgmtSend _ _ _ _ =>
      inferInstanceAs (Decidable True)

/-! ## What a successful write does -/

section Write

variable {zp : ZnsParams} {ftl ftl' : ZnsFtl} {zid : ℕ}

/-- The buffers, the scheduled operations and the write pointers are left
alone. -/
structure SameWrites (ftl ftl' : ZnsFtl) : Prop where
  buffers : ftl'.buffers = ftl.buffers
  scheduled : ftl'.scheduled = ftl.scheduled
  wp : ∀ zid, (ftl'.zoneDescs zid).wp = (ftl.zoneDescs zid).wp

theorem SameWrites.refl (ftl : ZnsFtl) : SameWrites ftl ftl :=
  ⟨rfl, rfl, fun _ => rfl⟩

theorem SameWrites.trans {ftl'' : ZnsFtl} (hsame : SameWrites ftl ftl')
    (hsame' : SameWrites ftl' ftl'') : SameWrites ftl ftl'' where
  buffers := hsame'.buffers.trans hsame.buffers
  scheduled := hsame'.scheduled.trans hsame.scheduled
  wp zid := (hsame'.wp zid).trans (hsame.wp zid)

theorem sameWrites_acquire (ftl : ZnsFtl) (type : ZoneResourceType) :
    SameWrites ftl (acquireZoneResource ftl type).2 := by
  unfold acquireZoneResource
  split
  · exact ⟨rfl, rfl, fun _ => rfl⟩
  · exact .refl ftl

theorem sameWrites_changeZoneState (ftl : ZnsFtl) (zid : ℕ)
    (state : ZoneState) : SameWrites ftl (changeZoneState ftl zid state) := by
  refine ⟨rfl, rfl, fun other => ?_⟩
  by_cases hother : other = zid
  · simp [hother]
  · simp [hother]

theorem sameWrites_openImplicitly (ftl : ZnsFtl) (zid : ℕ) :
    SameWrites ftl (openImplicitly ftl zid).2 := by
  unfold openImplicitly
  dsimp only
  split
  · exact sameWrites_acquire ftl _
  · exact (sameWrites_acquire ftl _).trans (sameWrites_changeZoneState _ _ _)

theorem sameWrites_prepareZone (ftl : ZnsFtl) (zid slba : ℕ) :
    SameWrites ftl (prepareZone ftl zid slba).2 := by
  unfold prepareZone
  split
  · split
    · exact .refl ftl
    split
    · exact .refl ftl
    split
    · exact .refl ftl
    exact (sameWrites_acquire ftl _).trans (sameWrites_openImplicitly _ zid)
  · exact sameWrites_openImplicitly ftl zid
  all_goals exact .refl ftl

/-- A write whose blocks are accepted moves the write pointer over them. -/
structure Advances (zid nrLba : ℕ) (ftl ftl' : ZnsFtl) : Prop where
  buffers : ftl'.buffers = ftl.buffers
  scheduled : ftl'.scheduled = ftl.scheduled
  wp : (ftl'.zoneDescs zid).wp = (ftl.zoneDescs zid).wp + nrLba
  others : ∀ other, other ≠ zid →
    (ftl'.zoneDescs other).wp = (ftl.zoneDescs other).wp

theorem Advances.trans {nrLba : ℕ} {ftl'' : ZnsFtl}
    (hadvances : Advances zid nrLba ftl ftl') (hsame : SameWrites ftl' ftl'') :
    Advances zid nrLba ftl ftl'' where
  buffers := hsame.buffers.trans hadvances.buffers
  scheduled := hsame.scheduled.trans hadvances.scheduled
  wp := (hsame.wp zid).trans hadvances.wp
  others other hother := (hsame.wp other).trans (hadvances.others other hother)

theorem SameWrites.advances {nrLba : ℕ} {ftl'' : ZnsFtl}
    (hsame : SameWrites ftl ftl') (hadvances : Advances zid nrLba ftl' ftl'') :
    Advances zid nrLba ftl ftl'' where
  buffers := hadvances.buffers.trans hsame.buffers
  scheduled := hadvances.scheduled.trans hsame.scheduled
  wp := by rw [hadvances.wp, hsame.wp]
  others other hother := (hadvances.others other hother).trans (hsame.wp other)

theorem advances_increaseWritePtr (zp : ZnsParams) (ftl : ZnsFtl)
    (zid nrLba : ℕ) :
    Advances zid nrLba ftl (increaseWritePtr zp ftl zid nrLba) := by
  have hmoved : Advances zid nrLba ftl (modifyZone ftl zid fun desc =>
      { desc with wp := (ftl.zoneDescs zid).wp + nrLba }) := by
    refine ⟨rfl, rfl, by simp, fun other hother => by simp [hother]⟩
  unfold increaseWritePtr
  dsimp only
  split
  · refine hmoved.trans ⟨rfl, rfl, fun other => ?_⟩
    by_cases hother : other = zid
    · simp [hother]
    · simp [hother]
  · exact hmoved

/-- The internal operations that a write at the write pointer of a zone
schedules. -/
def writeReleases (zp : ZnsParams) (ftl : ZnsFtl) (zid nrLba : ℕ) :
    List BufferRelease :=
  let slba := (ftl.zoneDescs zid).wp
  flushLoop zp (writeBufferOf zp zid) zid (zp.zoneToElpn zid)
    (lbaToLpn (slba + nrLba - 1))
    (lbaToLpn (slba + nrLba - 1) + 1 - lbaToLpn slba) (lbaToLpn slba)

/-- A successful write to a zone without a random write area. -/
structure WriteDone (zp : ZnsParams) (zid nrLba : ℕ) (ftl ftl' : ZnsFtl) :
    Prop where
  room : lbaToByte nrLba ≤ (ftl.buffers (writeBufferOf zp zid)).remaining
  buffers : ftl'.buffers = (reserve zp ftl zid nrLba).buffers
  scheduled : ftl'.scheduled =
    ftl.scheduled ++ writeReleases zp ftl zid nrLba
  wp : (ftl'.zoneDescs zid).wp = (ftl.zoneDescs zid).wp + nrLba
  others : ∀ other, other ≠ zid →
    (ftl'.zoneDescs other).wp = (ftl.zoneDescs other).wp

theorem writeReserved_success {slba nrLba : ℕ}
    (hwrite : writeReserved zp ftl zid slba nrLba = (.success, ftl')) :
    slba = (ftl.zoneDescs zid).wp ∧ ∃ ftl₁, Advances zid nrLba ftl ftl₁ ∧
      ftl' = scheduleReleases ftl₁ (writeReleases zp ftl zid nrLba) := by
  unfold writeReserved at hwrite
  split at hwrite
  · rename_i hcheck
    obtain ⟨-, -, hslba⟩ := checkWrite_eq_success hcheck
    have hsame := sameWrites_prepareZone ftl zid slba
    split at hwrite
    · rename_i ftl₂ hprepare
      rw [hprepare] at hsame
      cases hwrite
      refine ⟨hslba, _, hsame.advances (advances_increaseWritePtr zp ftl₂ zid
        nrLba), ?_⟩
      rw [writeReleases, hslba]
    · rename_i hstatus hprepare
      obtain ⟨hsuccess, -⟩ := Prod.mk.inj hwrite
      exact absurd hsuccess hstatus
  · rename_i hcheck
    obtain ⟨hsuccess, -⟩ := Prod.mk.inj hwrite
    exact absurd hsuccess hcheck

theorem writeDone_of_success {append : Bool} {slba nrLba : ℕ}
    (hplain : ∀ zid, (ftl.zoneDescs zid).zrwav = false)
    (hwrite : znsWrite zp ftl append slba nrLba =
      some (.done .success, ftl')) :
    startLba zp ftl append slba = (ftl.zoneDescs (zp.lbaToZone slba)).wp ∧
      WriteDone zp (zp.lbaToZone slba) nrLba ftl ftl' := by
  rw [znsWrite, hplain] at hwrite
  rcases znsWritePlain_cases hwrite with ⟨hput, -⟩ | ⟨hroom, heq⟩
  · cases hput
  obtain ⟨hstatus, hftl⟩ := Prod.mk.inj heq
  have hreserved : writeReserved zp (reserve zp ftl (zp.lbaToZone slba) nrLba)
      (zp.lbaToZone slba) (startLba zp ftl append slba) nrLba =
        (.success, ftl') :=
    Prod.ext (WriteResult.done.inj hstatus).symm hftl.symm
  obtain ⟨hstart, ftl₁, hadvances, rfl⟩ := writeReserved_success hreserved
  refine ⟨hstart, hroom, hadvances.buffers, ?_, hadvances.wp, hadvances.others⟩
  rw [scheduleReleases, hadvances.scheduled]
  rfl

end Write

/-! ## Counting pages and bytes -/

section Counting

variable {zp : ZnsParams} {lbas : ℕ}

/-- Where the blocks of a zone end cleanly, the page they go on with completes
no more than the pages they touch. -/
theorem flushedPgs_touchedPgs (hclean : EndsClean zp lbas)
    (hlt : lbas < zp.lbasPerZone) :
    flushedPgs zp.pgsPerZone zp.pgsPerOneshotpg (touchedPgs lbas) =
      flushedPgs zp.pgsPerZone zp.pgsPerOneshotpg (lbas / secsPerPg) := by
  rw [lbasPerZone_eq] at hlt
  by_cases haligned : lbas % secsPerPg = 0
  · congr 1
    rw [touchedPgs, secsPerPg] at *
    omega
  · obtain ⟨hgroup, hzone⟩ := hclean.resolve_left haligned
    have htouched : touchedPgs lbas = lbas / secsPerPg + 1 := by
      rw [touchedPgs, secsPerPg] at *
      omega
    rw [htouched] at hgroup hzone ⊢
    refine flushedPgs_add_of_inside ?_ ?_ hzone
    · rw [secsPerPg] at *
      omega
    · have hmod := Nat.mod_lt (lbas / secsPerPg) zp.pgsPerOneshotpg_pos
      by_contra hfull
      have hone : lbas / secsPerPg % zp.pgsPerOneshotpg + 1 =
          zp.pgsPerOneshotpg := by omega
      apply hgroup
      rw [← Nat.mod_add_mod, hone, Nat.mod_self]

theorem flushedPgs_bytes_le (hclean : EndsClean zp lbas)
    (hle : lbas ≤ zp.lbasPerZone) :
    flushedPgs zp.pgsPerZone zp.pgsPerOneshotpg (touchedPgs lbas) * pgsz ≤
      lbaToByte lbas := by
  have hpages : flushedPgs zp.pgsPerZone zp.pgsPerOneshotpg (touchedPgs lbas) ≤
      lbas / secsPerPg := by
    by_cases haligned : lbas % secsPerPg = 0
    · have htouched : touchedPgs lbas = lbas / secsPerPg := by
        rw [touchedPgs, secsPerPg] at *
        omega
      rw [htouched]
      exact flushedPgs_le
    · rw [flushedPgs_touchedPgs hclean]
      · exact flushedPgs_le
      · rw [lbasPerZone_eq, secsPerPg] at *
        omega
  rw [lbaToByte, pgsz, secsz]
  rw [secsPerPg] at hpages
  omega

/-- A new entry adds to the sums over the zones it is among. -/
theorem sum_book (zids : Finset ℕ) (account : ℕ → ℕ) (zid bytes : ℕ) :
    ∑ other ∈ zids, book account (zid, bytes) other =
      (∑ other ∈ zids, account other) + if zid ∈ zids then bytes else 0 := by
  unfold book
  dsimp only
  split
  · rename_i hmem
    have hsum := Counting.sum_update_add hmem account (account zid + bytes)
    omega
  · rename_i hmem
    rw [Finset.sum_update_of_notMem hmem, Nat.add_zero]

theorem book_apply (account : ℕ → ℕ) (zid bytes other : ℕ) :
    book account (zid, bytes) other =
      account other + if zid = other then bytes else 0 := by
  by_cases hother : other = zid
  · simp [book, hother]
  · simp [book, hother, Ne.symm hother]

theorem book_zero (account : ℕ → ℕ) (zid : ℕ) :
    book account (zid, 0) = account := by
  simp [book]

/-- The bytes that wait to be released for a zone. -/
def pendingBytes (releases : List BufferRelease) (zid : ℕ) : ℕ :=
  (releases.map fun release =>
    if release.zid = zid then release.bytes else 0).sum

theorem pendingBytes_append (releases releases' : List BufferRelease)
    (zid : ℕ) : pendingBytes (releases ++ releases') zid =
      pendingBytes releases zid + pendingBytes releases' zid := by
  simp [pendingBytes]

theorem pendingBytes_of_zid {releases : List BufferRelease} {zid : ℕ}
    (hzid : ∀ release ∈ releases, release.zid = zid) (other : ℕ) :
    pendingBytes releases other =
      if other = zid then releaseBytes releases else 0 := by
  have hmap : releases.map (fun release =>
      if release.zid = other then release.bytes else 0) =
      releases.map fun release => if other = zid then release.bytes else 0 := by
    apply List.map_congr_left
    intro release hmem
    rw [hzid release hmem]
    simp only [eq_comm]
  rw [pendingBytes, hmap]
  split
  · rfl
  · simp

/-- An operation that completes leaves the list. -/
theorem pendingBytes_eraseIdx {releases : List BufferRelease} {index : ℕ}
    {release : BufferRelease} (hget : releases[index]? = some release)
    (zid : ℕ) : pendingBytes (releases.eraseIdx index) zid +
      (if release.zid = zid then release.bytes else 0) =
        pendingBytes releases zid := by
  obtain ⟨hlt, rfl⟩ := List.getElem?_eq_some_iff.mp hget
  have hperm := (List.getElem_cons_eraseIdx_perm hlt).map fun release =>
    if release.zid = zid then release.bytes else 0
  rw [pendingBytes, pendingBytes, ← hperm.sum_eq, List.map_cons, List.sum_cons,
    Nat.add_comm]

end Counting

/-! ## The invariant -/

/-- The blocks of a zone that have been written. -/
def writtenLbas (ftl : ZnsFtl) (zid : ℕ) : ℕ :=
  (ftl.zoneDescs zid).wp - (ftl.zoneDescs zid).zslba

/-- What is reserved for a zone is what is written to it, and what is released
for it, or waits to be, are the one-shot pages that are complete. -/
structure ZoneBalance (zp : ZnsParams) (ledger : Ledger) (zid : ℕ) : Prop where
  clean : EndsClean zp (writtenLbas ledger.ftl zid)
  reserved : ledger.reserved zid = lbaToByte (writtenLbas ledger.ftl zid)
  released : ledger.released zid + pendingBytes ledger.ftl.scheduled zid =
    flushedPgs zp.pgsPerZone zp.pgsPerOneshotpg
      (touchedPgs (writtenLbas ledger.ftl zid)) * pgsz

structure Balanced (zp : ZnsParams) (ledger : Ledger) : Prop where
  plain : PlainInv zp ledger.ftl
  owner : ∀ release ∈ ledger.ftl.scheduled, release.zid < zp.nrZones ∧
    release.buffer = writeBufferOf zp release.zid
  zone : ∀ zid < zp.nrZones, ZoneBalance zp ledger zid
  conserved : ∀ buffer, (ledger.ftl.buffers buffer).remaining +
      ∑ zid ∈ users zp buffer, ledger.reserved zid =
    (ledger.ftl.buffers buffer).size +
      ∑ zid ∈ users zp buffer, ledger.released zid

section Invariant

variable {zp : ZnsParams} {ledger ledger' : Ledger} {zid : ℕ}

/-- A new entry counts for the buffer of its zone. -/
theorem sum_users_book (buffer : BufferId) (account : ℕ → ℕ) (bytes : ℕ)
    (hzid : zid < zp.nrZones) :
    ∑ other ∈ users zp buffer, book account (zid, bytes) other =
      (∑ other ∈ users zp buffer, account other) +
        if writeBufferOf zp zid = buffer then bytes else 0 := by
  have hmem : zid ∈ users zp buffer ↔ writeBufferOf zp zid = buffer := by
    simp [users, hzid]
  rw [sum_book]
  simp only [hmem]

theorem Balanced.writtenLbas_le (hbalanced : Balanced zp ledger)
    (hzid : zid < zp.nrZones) :
    writtenLbas ledger.ftl zid ≤ zp.lbasPerZone := by
  have hwithin := (hbalanced.plain.pointer zid hzid).within
  rw [(hbalanced.plain.accounted.shape zid).capacity] at hwithin
  rw [writtenLbas]
  omega

/-- Nothing is released that was not reserved. -/
theorem Balanced.released_le (hbalanced : Balanced zp ledger)
    (hzid : zid < zp.nrZones) :
    ledger.released zid ≤ ledger.reserved zid := by
  have hzone := hbalanced.zone zid hzid
  have hbytes := flushedPgs_bytes_le hzone.clean (hbalanced.writtenLbas_le hzid)
  have hreleased := hzone.released
  rw [hzone.reserved]
  omega

theorem Balanced.remaining_le (hbalanced : Balanced zp ledger)
    (buffer : BufferId) :
    (ledger.ftl.buffers buffer).remaining ≤
      (ledger.ftl.buffers buffer).size := by
  have hconserved := hbalanced.conserved buffer
  have hsum : ∑ zid ∈ users zp buffer, ledger.released zid ≤
      ∑ zid ∈ users zp buffer, ledger.reserved zid := by
    apply Finset.sum_le_sum
    intro zid hmem
    rw [users, Finset.mem_filter, Finset.mem_range] at hmem
    exact hbalanced.released_le hmem.1
  omega

/-- A zone that is written completely and has no release left is even. -/
theorem Balanced.even (hbalanced : Balanced zp ledger)
    (hzid : zid < zp.nrZones)
    (hfull : (ledger.ftl.zoneDescs zid).wp =
      (ledger.ftl.zoneDescs zid).zslba +
        (ledger.ftl.zoneDescs zid).zoneCapacity)
    (hpending : pendingBytes ledger.ftl.scheduled zid = 0) :
    ledger.released zid = ledger.reserved zid := by
  have hzone := hbalanced.zone zid hzid
  have hwritten : writtenLbas ledger.ftl zid = zp.pgsPerZone * secsPerPg := by
    rw [writtenLbas, hfull, (hbalanced.plain.accounted.shape zid).capacity,
      Nat.add_sub_cancel_left, lbasPerZone_eq]
  have htouched : touchedPgs (writtenLbas ledger.ftl zid) = zp.pgsPerZone := by
    rw [hwritten, touchedPgs, secsPerPg]
    omega
  have hreleased := hzone.released
  rw [hpending, htouched, flushedPgs, if_pos rfl, Nat.add_zero] at hreleased
  rw [hreleased, hzone.reserved, hwritten, lbaToByte, secsPerPg, secsz, pgsz]
  omega

theorem balanced_ledgerInit (zp : ZnsParams) : Balanced zp (ledgerInit zp) := by
  have hwritten : ∀ zid, writtenLbas (ledgerInit zp).ftl zid = 0 := fun zid =>
    Nat.sub_self _
  have hpos := pgsPerZone_pos zp
  refine ⟨plainInv_znsInitFtl zp, nofun, fun zid _ => ⟨?_, ?_, ?_⟩, fun buffer =>
    ?_⟩
  · rw [hwritten]
    exact .inl rfl
  · rw [hwritten, lbaToByte, Nat.zero_mul]
    rfl
  · have htouched : touchedPgs 0 = 0 := rfl
    rw [hwritten, htouched, flushedPgs, if_neg hpos.ne, Nat.zero_div,
      Nat.zero_mul, Nat.zero_mul]
    rfl
  · cases buffer <;> rfl

/-! ## Steps -/

/-- A completed operation moves its bytes from the list to the account. -/
theorem balanced_release (hbalanced : Balanced zp ledger) {index : ℕ}
    (hplain : PlainInv zp ledger'.ftl)
    (hstep : ledgerStep zp (.release index) ledger = some ledger') :
    Balanced zp ledger' := by
  simp only [ledgerStep, znsStep, runRelease, repayment, reservation, book_zero]
    at hstep
  cases hget : ledger.ftl.scheduled[index]? with
  | none =>
      rw [hget] at hstep
      cases hstep
  | some release =>
      rw [hget] at hstep
      cases hstep
      have hmem := List.mem_of_getElem? hget
      obtain ⟨hzid, hbuffer⟩ := hbalanced.owner release hmem
      refine ⟨hplain, fun other hother => ?_, fun zid hzid' => ?_,
        fun buffer => ?_⟩
      · exact hbalanced.owner other (List.mem_of_mem_eraseIdx hother)
      · have hzone := hbalanced.zone zid hzid'
        refine ⟨hzone.clean, hzone.reserved, ?_⟩
        have hpending := pendingBytes_eraseIdx hget zid
        have hmoved : book ledger.released (release.zid, release.bytes) zid +
            pendingBytes (ledger.ftl.scheduled.eraseIdx index) zid =
              ledger.released zid +
                pendingBytes ledger.ftl.scheduled zid := by
          rw [book_apply]
          omega
        exact hmoved.trans hzone.released
      · have hconserved := hbalanced.conserved buffer
        dsimp only [setBuffer]
        rw [sum_users_book buffer _ _ hzid, ← hbuffer]
        by_cases hsame : release.buffer = buffer
        · rw [if_pos hsame, ← hsame, update_self]
          rw [← hsame] at hconserved
          dsimp only [bufferRelease]
          omega
        · rw [if_neg hsame, update_of_ne (Ne.symm hsame)]
          exact hconserved

/-- The bytes that a successful write schedules for release. -/
theorem releaseBytes_write {ftl : ZnsFtl} {nrLba : ℕ}
    (hend : (zid + 1) * zp.lbasPerZone < 2 ^ 32) (hnr : 0 < nrLba)
    (hshape : ZoneShape zp zid (ftl.zoneDescs zid))
    (hclean : EndsClean zp (writtenLbas ftl zid))
    (hle : writtenLbas ftl zid + nrLba ≤ zp.lbasPerZone) :
    releaseBytes (writeReleases zp ftl zid nrLba) +
      flushedPgs zp.pgsPerZone zp.pgsPerOneshotpg
        (touchedPgs (writtenLbas ftl zid)) * pgsz =
      flushedPgs zp.pgsPerZone zp.pgsPerOneshotpg
        (touchedPgs (writtenLbas ftl zid + nrLba)) * pgsz := by
  have hwp : (ftl.zoneDescs zid).wp =
      zid * zp.pgsPerZone * secsPerPg + writtenLbas ftl zid := by
    have hstart := hshape.start
    rw [writtenLbas]
    rw [hshape.zslba, lbasPerZone_eq, ← Nat.mul_assoc] at *
    omega
  generalize writtenLbas ftl zid = lbas at *
  have hfirst : lbaToLpn (ftl.zoneDescs zid).wp =
      zid * zp.pgsPerZone + lbas / secsPerPg := by
    rw [lbaToLpn, hwp, secsPerPg]
    omega
  have hlast : lbaToLpn ((ftl.zoneDescs zid).wp + nrLba - 1) + 1 =
      zid * zp.pgsPerZone + touchedPgs (lbas + nrLba) := by
    rw [lbaToLpn, hwp, touchedPgs, secsPerPg]
    omega
  rw [flushedPgs_touchedPgs hclean (by omega), writeReleases, hfirst]
  apply releaseBytes_flushLoop hend _ hlast
  · rw [lbasPerZone_eq] at hle
    rw [touchedPgs]
    rw [secsPerPg] at *
    omega
  · rw [touchedPgs, secsPerPg]
    omega
  · omega

theorem balanced_write (hsmall : zp.nrZones * zp.lbasPerZone < 2 ^ 32)
    (hbalanced : Balanced zp ledger) {nrLba : ℕ} {ftl' : ZnsFtl}
    (hzid : zid < zp.nrZones) (hnr : 0 < nrLba) (hplain : PlainInv zp ftl')
    (hclean : EndsClean zp (writtenLbas ledger.ftl zid + nrLba))
    (hdone : WriteDone zp zid nrLba ledger.ftl ftl') :
    Balanced zp
      { ledger with
        ftl := ftl'
        reserved := book ledger.reserved (zid, lbaToByte nrLba) } := by
  have hshape := hbalanced.plain.accounted.shape
  have hshape' := hplain.accounted.shape
  have hwritten : writtenLbas ftl' zid = writtenLbas ledger.ftl zid + nrLba := by
    have hstart := (hshape zid).start
    rw [writtenLbas, writtenLbas, hdone.wp, (hshape' zid).zslba,
      (hshape zid).zslba] at *
    omega
  have hle : writtenLbas ftl' zid ≤ zp.lbasPerZone := by
    have hwithin := (hplain.pointer zid hzid).within
    rw [(hshape' zid).capacity] at hwithin
    rw [writtenLbas]
    omega
  have hothers : ∀ other, other ≠ zid →
      writtenLbas ftl' other = writtenLbas ledger.ftl other := by
    intro other hother
    rw [writtenLbas, writtenLbas, hdone.others other hother,
      (hshape' other).zslba, (hshape other).zslba]
  have hpending : ∀ other, pendingBytes ftl'.scheduled other =
      pendingBytes ledger.ftl.scheduled other +
        if other = zid then releaseBytes (writeReleases zp ledger.ftl zid nrLba)
        else 0 := by
    intro other
    have hreleases : ∀ release ∈ writeReleases zp ledger.ftl zid nrLba,
        release.zid = zid := fun release hmem => (mem_flushLoop hmem).2
    rw [hdone.scheduled, pendingBytes_append, pendingBytes_of_zid hreleases]
  refine ⟨hplain, fun release hmem => ?_, fun other hother => ?_,
    fun buffer => ?_⟩
  · dsimp only at hmem
    rw [hdone.scheduled] at hmem
    rcases List.mem_append.mp hmem with hold | hnew
    · exact hbalanced.owner release hold
    · obtain ⟨hbuffer, hrelease⟩ := mem_flushLoop hnew
      rw [hbuffer, hrelease]
      exact ⟨hzid, rfl⟩
  · have hzone := hbalanced.zone other hother
    by_cases hsame : other = zid
    · subst hsame
      have hreleased := hzone.released
      have hend : (other + 1) * zp.lbasPerZone < 2 ^ 32 :=
        (Nat.mul_le_mul_right _ hother).trans_lt hsmall
      have hbytes := releaseBytes_write hend hnr (hshape other) hzone.clean
        (hwritten ▸ hle)
      refine ⟨?_, ?_, ?_⟩
      · rw [hwritten]
        exact hclean
      · dsimp only
        rw [hwritten, book_apply, if_pos rfl, hzone.reserved, lbaToByte,
          lbaToByte, lbaToByte, Nat.add_mul]
      · dsimp only
        rw [hwritten, hpending, if_pos rfl]
        omega
    · refine ⟨?_, ?_, ?_⟩
      · rw [hothers other hsame]
        exact hzone.clean
      · dsimp only
        rw [hothers other hsame, book_apply, if_neg (Ne.symm hsame)]
        exact hzone.reserved
      · dsimp only
        rw [hothers other hsame, hpending, if_neg hsame]
        exact hzone.released
  · have hconserved := hbalanced.conserved buffer
    dsimp only
    rw [sum_users_book buffer _ _ hzid, hdone.buffers]
    by_cases hsame : writeBufferOf zp zid = buffer
    · have hroom := hdone.room
      rw [if_pos hsame]
      subst hsame
      simp only [reserve, setBuffer, update_self]
      omega
    · rw [if_neg hsame, reserve, setBuffer]
      dsimp only
      rw [update_of_ne (Ne.symm hsame)]
      exact hconserved

theorem znsWrite_putOff {ftl ftl' : ZnsFtl} {append : Bool} {slba nrLba : ℕ}
    (hplain : ∀ zid, (ftl.zoneDescs zid).zrwav = false)
    (hwrite : znsWrite zp ftl append slba nrLba = some (.putOff, ftl')) :
    ftl' = ftl := by
  rw [znsWrite, hplain] at hwrite
  rcases znsWritePlain_cases hwrite with ⟨-, hftl⟩ | ⟨-, heq⟩
  · exact hftl
  · cases (Prod.mk.inj heq).1

theorem ledgerStep_balanced (hsmall : zp.nrZones * zp.lbasPerZone < 2 ^ 32)
    {event : ZnsEvent} (hevent : event.InNamespace zp)
    (hsucceeds : Succeeds zp ledger.ftl event)
    (hclean : WritesClean zp ledger.ftl event) (hbalanced : Balanced zp ledger)
    (hstep : ledgerStep zp event ledger = some ledger') :
    Balanced zp ledger' := by
  obtain ⟨ftl', hznsStep, hledger⟩ := Option.map_eq_some_iff.mp hstep
  have hplain : PlainInv zp ledger'.ftl := by
    have hevent' : event.WithoutZrwa := by
      cases event with
      | mgmtSend => exact hsucceeds.elim
      | _ => trivial
    rw [← hledger]
    exact znsStep_plainInv hsmall ⟨hevent, hevent'⟩ hbalanced.plain hznsStep
  cases event with
  | mgmtSend => exact hsucceeds.elim
  | read slba length =>
      cases hznsStep
      simp only [reservation, repayment, book_zero] at hledger
      exact hledger ▸ hbalanced
  | release index => exact balanced_release hbalanced hplain hstep
  | write append slba length =>
      obtain ⟨⟨result, next⟩, hwrite, rfl⟩ := Option.map_eq_some_iff.mp hznsStep
      simp only [reservation, repayment, book_zero, hwrite] at hledger
      cases result with
      | putOff =>
          rw [book_zero, znsWrite_putOff hbalanced.plain.plain hwrite]
            at hledger
          exact hledger ▸ hbalanced
      | done status =>
          rw [Succeeds, hwrite] at hsucceeds
          rw [of_decide_eq_true hsucceeds] at hwrite
          obtain ⟨hstart, hdone⟩ := writeDone_of_success hbalanced.plain.plain
            hwrite
          subst hledger
          apply balanced_write hsmall hbalanced (lbaToZone_lt hevent)
            (nrLbasFromRwCmd_pos length) hplain _ hdone
          have hpointer := (hbalanced.plain.pointer _
            (lbaToZone_lt hevent)).start
          rw [WritesClean, hstart] at hclean
          rwa [writtenLbas, ← Nat.sub_add_comm hpointer]

end Invariant

/-- In every run of writes that succeed and completions in any order, on a
namespace whose block numbers fit 32 bits, if no write ends inside the last page
of a one-shot page or of its zone, then no write buffer ever has more space left
than its size, and a zone that is written completely, with no release left, has
had as much released as was reserved. -/
theorem write_buffers_balanced (zp : ZnsParams)
    (hsmall : zp.nrZones * zp.lbasPerZone < 2 ^ 32) (events : List ZnsEvent)
    (hevents : Meets (ledgerStep zp) (fun event ledger =>
      event.InNamespace zp ∧ Succeeds zp ledger.ftl event ∧
        WritesClean zp ledger.ftl event) events (ledgerInit zp)) :
    let ledger := run (ledgerStep zp) events (ledgerInit zp)
    ∀ zid < zp.nrZones,
      (ledger.ftl.buffers (writeBufferOf zp zid)).remaining ≤
          (ledger.ftl.buffers (writeBufferOf zp zid)).size ∧
        ((ledger.ftl.zoneDescs zid).wp = (ledger.ftl.zoneDescs zid).zslba +
            (ledger.ftl.zoneDescs zid).zoneCapacity →
          (∀ release ∈ ledger.ftl.scheduled, release.zid ≠ zid) →
          ledger.released zid = ledger.reserved zid) := by
  intro ledger zid hzid
  have hbalanced : Balanced zp ledger := run_invariant_of_meets (ledgerStep zp)
    (fun _ _ _ hevent hbalanced hstep => ledgerStep_balanced hsmall hevent.1
      hevent.2.1 hevent.2.2 hbalanced hstep) (balanced_ledgerInit zp) hevents
  refine ⟨hbalanced.remaining_le _, fun hfull hnone => ?_⟩
  refine hbalanced.even hzid hfull ?_
  rw [pendingBytes, List.sum_eq_zero_iff]
  intro bytes hbytes
  obtain ⟨release, hmem, rfl⟩ := List.mem_map.mp hbytes
  exact if_neg (hnone release hmem)

/-- A zone is written completely, and what was reserved for it comes back. -/
theorem write_buffers_balanced_twoZones :
    let ledger := run (ledgerStep twoZones) [.write false 0 7, .release 0]
      (ledgerInit twoZones)
    (ledger.ftl.zoneDescs 0).state = .full ∧
      ledger.released 0 = ledger.reserved 0 ∧
      (ledger.ftl.buffers (writeBufferOf twoZones 0)).remaining ≤
        (ledger.ftl.buffers (writeBufferOf twoZones 0)).size := by
  obtain ⟨hremaining, heven⟩ := write_buffers_balanced twoZones (by decide)
    [.write false 0 7, .release 0] (by decide) 0 (by decide)
  exact ⟨by decide, heven (by decide) (by decide), hremaining⟩

/-- The configuration of the WD ZN540, with two zones. -/
def wdZn540 : ZnsParams where
  zoneSize := 2 ^ 31
  nrZones := 2
  zoneWbSize := 10 * 98304
  writeBufferSize := 0
  writeUnitSize := 512
  pgsPerOneshotpg := 24
  zrwaSize := 0
  zrwafgSize := 0
  zrwaBufferSize := 0
  zoneSize_pos := Nat.le_of_ble_eq_true rfl
  zoneSize_lt := Nat.le_of_ble_eq_true rfl
  nrZones_lt := two_lt_uint32
  pgsz_dvd := ⟨2 ^ 19, rfl⟩
  writeUnitSize_pos := secsz_pos
  pgsPerOneshotpg_pos := Nat.succ_pos _

/-- A write that ends four blocks before the end of a one-shot page has the
whole one-shot page released. -/
theorem short_write_overfills_buffer :
    let events : List ZnsEvent := [.write false 0 187, .release 0]
    let ledger := run (ledgerStep wdZn540) events (ledgerInit wdZn540)
    Meets (ledgerStep wdZn540) (fun event ledger =>
        event.InNamespace wdZn540 ∧ Succeeds wdZn540 ledger.ftl event) events
        (ledgerInit wdZn540) ∧
      (ledger.ftl.buffers (.zone 0)).remaining =
        (ledger.ftl.buffers (.zone 0)).size + 2048 := by
  decide

end NvmeVirt.Zns
