import NvmeVirt.Zns.BufferBalance
import NvmeVirt.Zns.ZrwaResources

/-!
# The divisors of random write areas

The flushes of a random write area divide by the size of a flush granule.  They
are kept from it by range checks only, and these subtract one from an unsigned
sum.  With random write areas switched off the sum is zero at the first block of
the namespace, the difference is the largest block number, and the checks pass.
-/

namespace NvmeVirt.Zns

open Function Ftl Interleaving

variable {zp : ZnsParams} {ftl ftl' : ZnsFtl} {zid : ℕ}

/-! ## What divides by nothing -/

section Frames

variable (ftl : ZnsFtl) (zid : ℕ)

@[simp]
theorem divisorsOk_releaseZoneResource (type : ZoneResourceType) :
    (releaseZoneResource ftl type).divisorsOk = ftl.divisorsOk := rfl

@[simp]
theorem divisorsOk_acquireZoneResource (type : ZoneResourceType) :
    (acquireZoneResource ftl type).2.divisorsOk = ftl.divisorsOk := by
  unfold acquireZoneResource
  split <;> rfl

@[simp]
theorem divisorsOk_modifyZone (f : ZoneDescriptor → ZoneDescriptor) :
    (modifyZone ftl zid f).divisorsOk = ftl.divisorsOk := rfl

@[simp]
theorem divisorsOk_changeZoneState (state : ZoneState) :
    (changeZoneState ftl zid state).divisorsOk = ftl.divisorsOk := rfl

@[simp]
theorem divisorsOk_setBuffer (buffer : BufferId) (buf : Buffer) :
    (setBuffer ftl buffer buf).divisorsOk = ftl.divisorsOk := rfl

@[simp]
theorem divisorsOk_scheduleReleases (releases : List BufferRelease) :
    (scheduleReleases ftl releases).divisorsOk = ftl.divisorsOk := rfl

@[simp]
theorem divisorsOk_increaseWritePtr (zp : ZnsParams) (nrLba : ℕ) :
    (increaseWritePtr zp ftl zid nrLba).divisorsOk = ftl.divisorsOk := by
  unfold increaseWritePtr
  dsimp only
  split <;> rfl

@[simp]
theorem divisorsOk_openImplicitly :
    (openImplicitly ftl zid).2.divisorsOk = ftl.divisorsOk := by
  unfold openImplicitly
  dsimp only
  split <;> simp

@[simp]
theorem divisorsOk_prepareZone (slba : ℕ) :
    (prepareZone ftl zid slba).2.divisorsOk = ftl.divisorsOk := by
  unfold prepareZone
  split
  · split
    · rfl
    split
    · rfl
    split
    · rfl
    simp
  all_goals simp

@[simp]
theorem divisorsOk_releaseZone :
    (releaseZone ftl zid).divisorsOk = ftl.divisorsOk := by
  cases hstate : (ftl.zoneDescs zid).state with
  | openedImpl | openedExpl | closed =>
      simp only [releaseZone, hstate]
      split <;> rfl
  | _ => simp only [releaseZone, hstate]

@[simp]
theorem divisorsOk_openExplicitly :
    (openExplicitly ftl zid).2.divisorsOk = ftl.divisorsOk := by
  unfold openExplicitly
  dsimp only
  split <;> simp

@[simp]
theorem divisorsOk_resetZone (zp : ZnsParams) :
    (resetZone zp ftl zid).divisorsOk = ftl.divisorsOk := by
  unfold resetZone
  split <;> rfl

@[simp]
theorem divisorsOk_flushExplicitly (zp : ZnsParams) (slba : ℕ) :
    (flushExplicitly zp ftl zid slba).2.divisorsOk = ftl.divisorsOk := by
  unfold flushExplicitly
  dsimp only
  split
  any_goals split
  any_goals split
  all_goals rfl

end Frames

@[simp]
theorem divisorsOk_divideBy (ftl : ZnsFtl) (divisor : ℕ) :
    (divideBy ftl divisor).divisorsOk = true ↔
      ftl.divisorsOk = true ∧ divisor ≠ 0 := by
  simp [divideBy]

/-! ## Commands that reach a division -/

/-- Whether a flush gets past the range check: its block lies in the zone at or
after the write pointer, and within the random write area or else at a write
pointer where the end of the area wraps. -/
def FlushInRange (zp : ZnsParams) (ftl : ZnsFtl) (slba : ℕ) : Prop :=
  let zid := zp.lbaToZone slba
  let desc := ftl.zoneDescs zid
  desc.zrwav = true ∧ desc.wp ≤ slba ∧
    slba < zp.zoneToSlba zid + zp.lbasPerZone ∧
    (slba < desc.wp + zp.lbasPerZrwa ∨ desc.wp + zp.lbasPerZrwa = 0)

/-- Whether a write reaches the region that is flushed implicitly: it passes the
checks, its zone is open or can be opened, and its last block lies in that
region or else the end of the region wraps. -/
def WriteInRange (zp : ZnsParams) (ftl : ZnsFtl) (slba nrLba : ℕ) : Prop :=
  let zid := zp.lbaToZone slba
  let desc := ftl.zoneDescs zid
  let buf := ftl.buffers (.zrwa zid)
  let elba := slba + nrLba - 1
  desc.zrwav = true ∧ desc.state.isActive = true ∧
    (desc.state = .closed → 0 < zp.zrwaSize ∧ zp.zrwaSize ≤ buf.size ∧
      zp.zrwaSize ≤ buf.remaining) ∧
    lbaToByte nrLba % zp.writeUnitSize = 0 ∧
    checkBoundaryError zp slba nrLba = true ∧
    desc.wp ≤ slba ∧ desc.wp + zp.lbasPerZrwa ≤ elba ∧
    (elba < desc.wp + 2 * zp.lbasPerZrwa ∨ desc.wp + zp.lbasPerZrwa = 0)

/-- Whether a command gets to a division by the size of a flush granule. -/
def ReachesDivision (zp : ZnsParams) (ftl : ZnsFtl) : ZnsEvent → Prop
  | .write _ slba length => WriteInRange zp ftl slba (nrLbasFromRwCmd length)
  | .mgmtSend slba .flushExplZrwa selectAll _ =>
      if selectAll then
        ∃ zid < zp.nrZones, FlushInRange zp ftl (zp.zoneToSlba zid)
      else FlushInRange zp ftl slba
  | _ => False

theorem lt_uint64_of_lt_zoneEnd {slba : ℕ}
    (hend : slba < zp.zoneToSlba zid + zp.lbasPerZone) : slba < 2 ^ 64 := by
  have hlbas := lbasPerZone_lt zp
  rw [ZnsParams.zoneToSlba, uint32] at hend
  omega

/-- The range check lets a flush pass exactly if it is in range. -/
theorem flushInRange_iff {slba : ℕ}
    (hshape : ZoneShape zp zid (ftl.zoneDescs zid))
    (hzone : zp.lbaToZone slba = zid) :
    FlushInRange zp ftl slba ↔ (ftl.zoneDescs zid).zrwav = true ∧
      ¬ (slba < (ftl.zoneDescs zid).wp ∨
        min (predUint64 ((ftl.zoneDescs zid).wp + zp.lbasPerZrwa))
          (predUint64 (zp.zoneToSlba zid +
            (ftl.zoneDescs zid).zoneCapacity)) < slba) := by
  have hpos := lbasPerZone_pos zp
  rw [FlushInRange, hzone]
  have hlast : predUint64 (zp.zoneToSlba zid + zp.lbasPerZone) =
      zp.zoneToSlba zid + zp.lbasPerZone - 1 := predUint64_of_pos (by omega)
  rw [hshape.capacity, hlast]
  refine and_congr_right fun _ => ?_
  by_cases hwrap : (ftl.zoneDescs zid).wp + zp.lbasPerZrwa = 0
  · rw [predUint64, if_pos hwrap]
    have hlt := @lt_uint64_of_lt_zoneEnd zp zid slba
    omega
  · rw [predUint64_of_pos (Nat.pos_of_ne_zero hwrap)]
    omega

theorem flushExplicitZrwa_divides (haccounted : Accounted zp ftl) (slba : ℕ) :
    (zmgmtSendFlushExplicitZrwa zp ftl slba).2.divisorsOk = true ↔
      ftl.divisorsOk = true ∧
        ¬ (zp.lbasPerZrwafg = 0 ∧ FlushInRange zp ftl slba) := by
  rw [flushInRange_iff (haccounted.shape _) rfl]
  unfold zmgmtSendFlushExplicitZrwa
  dsimp only
  split
  · simp_all
  split
  · simp_all
  split
  · simp_all
  · simp_all

theorem flushExplicitZrwa_of_not_inRange (haccounted : Accounted zp ftl)
    {slba : ℕ} (hrange : ¬ FlushInRange zp ftl slba) :
    (zmgmtSendFlushExplicitZrwa zp ftl slba).2 = ftl := by
  rw [flushInRange_iff (haccounted.shape _) rfl] at hrange
  unfold zmgmtSendFlushExplicitZrwa
  dsimp only
  split
  · rfl
  rename_i hzrwav
  split
  · rfl
  rename_i hpast
  exact absurd ⟨by simpa using hzrwav, hpast⟩ hrange

/-- Without flush granules, a flush of all zones stops at the first zone that is
in range, and does nothing up to there. -/
theorem flushAll_divides (haccounted : Accounted zp ftl) (option : Bool)
    (zids : List ℕ) (hzids : ∀ zid ∈ zids, zid < zp.nrZones) :
    (zids.foldl (fun ftl zid => zmgmtSend zp ftl (zp.zoneToSlba zid)
        .flushExplZrwa option) ftl).divisorsOk = true ↔
      ftl.divisorsOk = true ∧ ¬ (zp.lbasPerZrwafg = 0 ∧
        ∃ zid ∈ zids, FlushInRange zp ftl (zp.zoneToSlba zid)) := by
  induction zids generalizing ftl with
  | nil => simp
  | cons zid rest ih =>
      have hmoves : Moves zp true false ftl
          (zmgmtSend zp ftl (zp.zoneToSlba zid) .flushExplZrwa option) :=
        moves_zmgmtSend haccounted
          (zoneToSlba_lt (hzids zid List.mem_cons_self)) nofun
      have hfirst := flushExplicitZrwa_divides haccounted (zp.zoneToSlba zid)
      have hrest := ih hmoves.accounted fun other hother =>
        hzids other (List.mem_cons_of_mem _ hother)
      rw [List.foldl_cons, hrest, zmgmtSend, hfirst, List.exists_mem_cons_iff]
      by_cases hrange : FlushInRange zp ftl (zp.zoneToSlba zid)
      · by_cases hfg : zp.lbasPerZrwafg = 0
        · simp [hfg, hrange]
        · simp [hfg]
      · rw [flushExplicitZrwa_of_not_inRange haccounted hrange]
        simp [hrange]

theorem divisorsOk_zmgmtSend (ftl : ZnsFtl) (slba : ℕ) {action : ZoneAction}
    (haction : action ≠ .flushExplZrwa) (option : Bool) :
    (zmgmtSend zp ftl slba action option).divisorsOk = ftl.divisorsOk := by
  cases action with
  | closeZone =>
      simp only [zmgmtSend, zmgmtSendCloseZone]
      split <;> rfl
  | finishZone =>
      simp only [zmgmtSend, zmgmtSendFinishZone]
      split <;> simp
  | openZone =>
      simp only [zmgmtSend, zmgmtSendOpenZone]
      split
      · split
        · rfl
        split
        · rfl
        split
        · rfl
        split <;> simp
      all_goals simp
  | resetZone =>
      simp only [zmgmtSend, zmgmtSendResetZone]
      split <;> simp
  | offlineZone =>
      simp only [zmgmtSend, zmgmtSendOfflineZone]
      split <;> simp
  | flushExplZrwa => exact absurd rfl haction
  | unknown => rfl

theorem mgmtSend_divides (haccounted : Accounted zp ftl) (slba : ℕ)
    (action : ZoneAction) (selectAll zsaso : Bool) :
    (znsZmgmtSend zp ftl slba action selectAll zsaso).divisorsOk = true ↔
      ftl.divisorsOk = true ∧ ¬ (zp.lbasPerZrwafg = 0 ∧
        ReachesDivision zp ftl (.mgmtSend slba action selectAll zsaso)) := by
  by_cases haction : action = .flushExplZrwa
  · subst haction
    cases selectAll with
    | false => exact flushExplicitZrwa_divides haccounted slba
    | true =>
        have hall := flushAll_divides haccounted zsaso (List.range zp.nrZones)
          fun zid => List.mem_range.mp
        simpa [znsZmgmtSend, ReachesDivision] using hall
  · have hreaches : ¬ ReachesDivision zp ftl
        (.mgmtSend slba action selectAll zsaso) := by
      cases action <;> first | exact absurd rfl haction | exact id
    have hsame : (znsZmgmtSend zp ftl slba action selectAll zsaso).divisorsOk =
        ftl.divisorsOk := by
      cases selectAll with
      | false => exact divisorsOk_zmgmtSend ftl slba haction zsaso
      | true =>
          refine List.foldlRecOn
            (motive := fun st : ZnsFtl => st.divisorsOk = ftl.divisorsOk)
            (List.range zp.nrZones) _ rfl ?_
          intro st hst zid _
          rw [divisorsOk_zmgmtSend st _ haction, hst]
    simp [hsame, hreaches]

/-! ## Writes -/

theorem divisorsOk_writeReserved (ftl : ZnsFtl) (zid slba nrLba : ℕ) :
    (writeReserved zp ftl zid slba nrLba).2.divisorsOk = ftl.divisorsOk := by
  have hprepare := divisorsOk_prepareZone ftl zid slba
  unfold writeReserved
  split
  · split
    · rename_i heq
      rw [heq] at hprepare
      simpa using hprepare
    · rename_i heq
      rwa [heq] at hprepare
  · rfl

theorem divisorsOk_writePlain {append : Bool} {slba nrLba : ℕ}
    {result : WriteResult}
    (hwrite : znsWritePlain zp ftl append slba nrLba = some (result, ftl')) :
    ftl'.divisorsOk = ftl.divisorsOk := by
  rcases znsWritePlain_cases hwrite with ⟨-, rfl⟩ | ⟨-, heq⟩
  · rfl
  · obtain ⟨-, rfl⟩ := Prod.mk.inj heq
    exact divisorsOk_writeReserved _ _ _ _

/-- A zone that is made ready for a write is active, and one that is closed has
room for its random write area. -/
theorem prepareZrwaZone_cases (haccounted : Accounted zp ftl)
    (hzrwav : (ftl.zoneDescs zid).zrwav = true)
    {status : Status} (hprepare : prepareZrwaZone zp ftl zid =
      some (status, ftl')) :
    ftl'.divisorsOk = ftl.divisorsOk ∧ (status = .success →
      (ftl.zoneDescs zid).state.isActive = true ∧
        ((ftl.zoneDescs zid).state = .closed → 0 < zp.zrwaSize ∧
          zp.zrwaSize ≤ (ftl.buffers (.zrwa zid)).size ∧
          zp.zrwaSize ≤ (ftl.buffers (.zrwa zid)).remaining)) := by
  have hactive := (haccounted.shape zid).zrwa hzrwav
  cases hstate : (ftl.zoneDescs zid).state with
  | empty | readOnly | offline => simp [hstate] at hactive
  | full | openedImpl | openedExpl =>
      simp only [prepareZrwaZone, hstate] at hprepare
      cases hprepare
      simp
  | closed =>
      simp only [prepareZrwaZone, hstate, buffers_acquireZoneResource]
        at hprepare
      split at hprepare
      · cases hprepare
        simp
      cases hsome : bufferAllocate (ftl.buffers (.zrwa zid)) zp.zrwaSize with
      | none =>
          rw [hsome] at hprepare
          cases hprepare
      | some found =>
          rw [hsome] at hprepare
          dsimp only at hprepare
          split at hprepare
          · cases hprepare
          rename_i hallocated
          cases hprepare
          obtain ⟨hsize, ⟨-, hzero, -⟩ | ⟨hroom, hall, -⟩⟩ :=
            bufferAllocate_cases hsome
          · exact absurd hzero hallocated
          · rw [hall] at hallocated
            simp [hsize, hroom, Nat.pos_of_ne_zero hallocated]

/-- A write is in range exactly if it passes the checks, its zone is made ready,
and it reaches the region that is flushed implicitly. -/
theorem writeInRange_iff (haccounted : Accounted zp ftl) {slba nrLba : ℕ}
    (hslba : slba < zp.nrZones * zp.lbasPerZone) (hmax : nrLba ≤ 2 ^ 16)
    (hzrwav : (ftl.zoneDescs (zp.lbaToZone slba)).zrwav = true) :
    WriteInRange zp ftl slba nrLba ↔
      checkWriteZrwa zp ftl (zp.lbaToZone slba) slba nrLba = .success ∧
        (∃ ftl₁, prepareZrwaZone zp ftl (zp.lbaToZone slba) =
          some (.success, ftl₁)) ∧
        (ftl.zoneDescs (zp.lbaToZone slba)).wp + zp.lbasPerZrwa ≤
          slba + nrLba - 1 := by
  have hlimit := (lba_mem_zone hslba).2.trans (zoneEnd_lt (lbaToZone_lt hslba))
  rw [checkWriteZrwa_eq_success]
  constructor
  · rintro ⟨-, hactive, hclosed, hunit, hboundary, hwp, himpl, hend⟩
    refine ⟨⟨hunit, hboundary, hwp, ?_⟩, ?_, himpl⟩
    · rw [predUint64]
      split <;> omega
    · obtain ⟨ftl₁, hprepare, -⟩ := prepareZrwaZone_of_room haccounted
        (lbaToZone_lt hslba) (fun hstate => (hclosed hstate).1) hactive
        (by rw [openingBytes]; split <;> simp_all)
        (by rw [openingBytes]; split <;> simp_all)
      exact ⟨ftl₁, hprepare⟩
  · rintro ⟨⟨hunit, hboundary, hwp, hend⟩, ⟨ftl₁, hprepare⟩, himpl⟩
    obtain ⟨-, hready⟩ := prepareZrwaZone_cases haccounted hzrwav hprepare
    obtain ⟨hactive, hclosed⟩ := hready rfl
    refine ⟨hzrwav, hactive, hclosed, hunit, hboundary, hwp, himpl, ?_⟩
    rw [predUint64] at hend
    split at hend <;> omega

theorem divideForFlush_divides (wp elba : ℕ) :
    (divideForFlush zp ftl wp elba).divisorsOk = true ↔
      ftl.divisorsOk = true ∧
        ¬ (zp.lbasPerZrwafg = 0 ∧ wp + zp.lbasPerZrwa ≤ elba) := by
  unfold divideForFlush
  split
  · simp_all
  · simp_all

theorem divisorsOk_flushZrwa {wp elba : ℕ} {result : WriteResult}
    (hflush : flushZrwa zp ftl zid wp elba = some (result, ftl')) :
    ftl'.divisorsOk = ftl.divisorsOk := by
  unfold flushZrwa at hflush
  dsimp only at hflush
  split at hflush
  · cases hflush
    rfl
  split at hflush
  · cases hflush
  split at hflush
  · cases hflush
    rfl
  · cases hflush
    simp

theorem flushZrwa_of_no_granule (hfg : zp.lbasPerZrwafg = 0) {wp elba : ℕ}
    (himpl : wp + zp.lbasPerZrwa ≤ elba) :
    flushZrwa zp ftl zid wp elba = some (.done .success, ftl) := by
  have hflush : nrLbasFlush zp zid wp elba = 0 := by
    rw [nrLbasFlush, if_pos himpl, hfg, Nat.mul_zero]
  simp only [flushZrwa, if_pos hflush]

theorem writeZrwa_divides (haccounted : Accounted zp ftl) {slba nrLba : ℕ}
    (hslba : slba < zp.nrZones * zp.lbasPerZone) (hmax : nrLba ≤ 2 ^ 16)
    (hzrwav : (ftl.zoneDescs (zp.lbaToZone slba)).zrwav = true) :
    (((znsWriteZrwa zp ftl slba nrLba).map Prod.snd).getD ftl).divisorsOk =
        true ↔
      ftl.divisorsOk = true ∧
        ¬ (zp.lbasPerZrwafg = 0 ∧ WriteInRange zp ftl slba nrLba) := by
  rw [writeInRange_iff haccounted hslba hmax hzrwav]
  unfold znsWriteZrwa
  dsimp only
  split
  · rename_i hcheck
    cases hprepare : prepareZrwaZone zp ftl (zp.lbaToZone slba) with
    | none => simp
    | some found =>
        obtain ⟨status, ftl₁⟩ := found
        obtain ⟨hsame, -⟩ := prepareZrwaZone_cases haccounted hzrwav hprepare
        by_cases hstatus : status = .success
        · subst hstatus
          have hdivides := @divideForFlush_divides zp ftl₁
            (ftl.zoneDescs (zp.lbaToZone slba)).wp (slba + nrLba - 1)
          rw [hsame] at hdivides
          dsimp only
          cases hflush : flushZrwa zp (divideForFlush zp ftl₁
              (ftl.zoneDescs (zp.lbaToZone slba)).wp (slba + nrLba - 1))
              (zp.lbaToZone slba) (ftl.zoneDescs (zp.lbaToZone slba)).wp
              (slba + nrLba - 1) with
          | none =>
              have hpast : ¬ (zp.lbasPerZrwafg = 0 ∧
                  (ftl.zoneDescs (zp.lbaToZone slba)).wp + zp.lbasPerZrwa ≤
                    slba + nrLba - 1) := by
                rintro ⟨hfg, himpl⟩
                rw [flushZrwa_of_no_granule hfg himpl] at hflush
                cases hflush
              simp_all
          | some found =>
              obtain ⟨result, ftl'⟩ := found
              have hkept := divisorsOk_flushZrwa hflush
              simp_all
        · cases status <;> simp_all
  · rename_i hcheck
    have hfails : checkWriteZrwa zp ftl (zp.lbaToZone slba) slba nrLba ≠
        .success := hcheck
    simp [hfails]

theorem write_divides (haccounted : Accounted zp ftl) (append : Bool)
    {slba : ℕ} (hslba : slba < zp.nrZones * zp.lbasPerZone)
    (length : UInt16) :
    (turn (znsStep zp) ftl (.write append slba length)).divisorsOk = true ↔
      ftl.divisorsOk = true ∧ ¬ (zp.lbasPerZrwafg = 0 ∧
        ReachesDivision zp ftl (.write append slba length)) := by
  rw [turn, znsStep, znsWrite, lpnToZone_lbaToLpn]
  cases hzrwav : (ftl.zoneDescs (zp.lbaToZone slba)).zrwav with
  | false =>
      have hreaches : ¬ ReachesDivision zp ftl (.write append slba length) := by
        rintro ⟨htrue, -⟩
        rw [hzrwav] at htrue
        cases htrue
      cases hwrite : znsWritePlain zp ftl append slba
          (nrLbasFromRwCmd length) with
      | none => simp [hreaches]
      | some found => simp [hreaches, divisorsOk_writePlain hwrite]
  | true =>
      exact writeZrwa_divides haccounted hslba (nrLbasFromRwCmd_le length)
        hzrwav

/-! ## Runs -/

theorem turn_divides (haccounted : Accounted zp ftl) {event : ZnsEvent}
    (hevent : event.InNamespace zp) :
    (turn (znsStep zp) ftl event).divisorsOk = true ↔
      ftl.divisorsOk = true ∧
        ¬ (zp.lbasPerZrwafg = 0 ∧ ReachesDivision zp ftl event) := by
  cases event with
  | write append slba length =>
      exact write_divides haccounted append hevent length
  | read slba length => simp [turn, znsStep, ReachesDivision]
  | mgmtSend slba action selectAll zsaso =>
      exact mgmtSend_divides haccounted slba action selectAll zsaso
  | release index =>
      have hsame : (turn (znsStep zp) ftl (.release index)).divisorsOk =
          ftl.divisorsOk := by
        rw [turn, znsStep, runRelease]
        split <;> rfl
      simp [hsame, ReachesDivision]

theorem turn_accounted (haccounted : Accounted zp ftl) {event : ZnsEvent}
    (hevent : event.InNamespace zp) :
    Accounted zp (turn (znsStep zp) ftl event) := by
  rw [turn]
  cases hstep : znsStep zp event ftl with
  | none => exact haccounted
  | some ftl' =>
      have hmoves : Moves zp true _ ftl ftl' :=
        moves_znsStep haccounted hevent (fun hnone => absurd hnone (by decide))
          hstep
      exact hmoves.accounted

/-- No division of a run has a zero divisor exactly if there are flush granules
or no command of the run gets to a division. -/
theorem divisors_nonzero_iff (zp : ZnsParams) (events : List ZnsEvent)
    (hevents : ∀ event ∈ events, event.InNamespace zp) :
    (run (znsStep zp) events (znsInitFtl zp)).divisorsOk = true ↔
      Meets (znsStep zp) (fun event ftl =>
        ¬ (zp.lbasPerZrwafg = 0 ∧ ReachesDivision zp ftl event)) events
        (znsInitFtl zp) := by
  have hkeeps : ∀ (event : ZnsEvent) (ftl : ZnsFtl), Accounted zp ftl →
      event.InNamespace zp → Accounted zp (turn (znsStep zp) ftl event) :=
    fun _ _ haccounted hevent => turn_accounted haccounted hevent
  have hflag := run_flag_iff (znsStep zp) (fun ftl => ftl.divisorsOk = true)
    hkeeps (fun _ _ haccounted hevent => turn_divides haccounted hevent)
    (accounted_znsInitFtl zp) (meets_of_forall (znsStep zp) hevents _)
  rw [hflag]
  exact and_iff_right rfl

instance (zp : ZnsParams) (ftl : ZnsFtl) (slba : ℕ) :
    Decidable (FlushInRange zp ftl slba) :=
  inferInstanceAs (Decidable (_ ∧ _ ∧ _ ∧ _))

instance (zp : ZnsParams) (ftl : ZnsFtl) (slba nrLba : ℕ) :
    Decidable (WriteInRange zp ftl slba nrLba) :=
  inferInstanceAs (Decidable (_ ∧ _ ∧ _ ∧ _ ∧ _ ∧ _ ∧ _ ∧ _))

instance (zp : ZnsParams) (ftl : ZnsFtl) :
    DecidablePred (ReachesDivision zp ftl)
  | .write _ slba length =>
      inferInstanceAs (Decidable
        (WriteInRange zp ftl slba (nrLbasFromRwCmd length)))
  | .mgmtSend slba .flushExplZrwa selectAll _ =>
      inferInstanceAs (Decidable (if selectAll then
        ∃ zid < zp.nrZones, FlushInRange zp ftl (zp.zoneToSlba zid)
      else FlushInRange zp ftl slba))
  | .mgmtSend _ .closeZone _ _ | .mgmtSend _ .finishZone _ _
  | .mgmtSend _ .openZone _ _ | .mgmtSend _ .resetZone _ _
  | .mgmtSend _ .offlineZone _ _ | .mgmtSend _ .unknown _ _
  | .read _ _ | .release _ => inferInstanceAs (Decidable False)

/-- With random write areas switched off, the second zone of the shipped
configuration refuses the flushes that the first one divides for. -/
theorem divisors_nonzero_second_zone :
    let events : List ZnsEvent := [.mgmtSend (2 ^ 22) .openZone false true,
      .mgmtSend (2 ^ 22) .flushExplZrwa false false,
      .write false (2 ^ 22) 7]
    ((run (znsStep wdZn540) events (znsInitFtl wdZn540)).zoneDescs 1).zrwav =
        true ∧
      (run (znsStep wdZn540) events (znsInitFtl wdZn540)).divisorsOk = true :=
  ⟨by decide, (divisors_nonzero_iff wdZn540 _ (by decide)).mpr (by decide)⟩

/-- The first zone of the shipped configuration is opened with a random write
area, and flushed at its first block or written. -/
theorem flush_divides_by_zero :
    let opened : ZnsEvent := .mgmtSend 0 .openZone false true
    let flush : ZnsEvent := .mgmtSend 0 .flushExplZrwa false false
    let write : ZnsEvent := .write false 0 7
    (∀ event ∈ [opened, flush, write], event.InNamespace wdZn540) ∧
      (run (znsStep wdZn540) [opened, flush] (znsInitFtl wdZn540)).divisorsOk =
        false ∧
      (run (znsStep wdZn540) [opened, write] (znsInitFtl wdZn540)).divisorsOk =
        false := by
  decide

end NvmeVirt.Zns
