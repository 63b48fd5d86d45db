import NvmeVirt.Zns.Commands

/-!
# The resources of random write areas

A write that ends at the last block of its zone, and does so within the random
write area, makes the zone full without giving its resource back: the release
that an explicit flush and a finish command have is missing there, and an
assertion that is compiled out stands in its place.  No other command loses a
resource.
-/

namespace NvmeVirt.Zns

open Function Ftl Interleaving

variable {zp : ZnsParams} {ftl ftl' : ZnsFtl} {zid : ℕ}

/-- Whether a command is a write that ends a zone within its random write area,
with room in the buffer of the area. -/
def EndsZrwaZone (zp : ZnsParams) (ftl : ZnsFtl) : ZnsEvent → Prop
  | .write _ slba length =>
      let zid := zp.lbaToZone slba
      let desc := ftl.zoneDescs zid
      let buf := ftl.buffers (.zrwa zid)
      let nrLba := nrLbasFromRwCmd length
      let elba := slba + nrLba - 1
      desc.zrwav = true ∧ desc.state.isActive = true ∧
        lbaToByte nrLba % zp.writeUnitSize = 0 ∧ desc.wp ≤ slba ∧
        elba = zp.zoneToElba zid ∧ elba < desc.wp + zp.lbasPerZrwa ∧
        openingBytes zp ftl zid ≤ buf.size ∧
        lbaToByte (elba + 1 - desc.wp) ≤ buf.size ∧
        lbaToByte (elba + 1 - desc.wp) + openingBytes zp ftl zid ≤
          buf.remaining
  | _ => False

instance (zp : ZnsParams) (ftl : ZnsFtl) :
    DecidablePred (EndsZrwaZone zp ftl)
  | .write _ _ _ =>
      inferInstanceAs (Decidable (_ ∧ _ ∧ _ ∧ _ ∧ _ ∧ _ ∧ _ ∧ _ ∧ _))
  | .read _ _ | .mgmtSend _ _ _ _ | .release _ =>
      inferInstanceAs (Decidable False)

/-! ## Where a flush ends -/

/-- The implicit flush stops short of the end of the write, since a flush
granule is no larger than the random write area. -/
theorem add_nrLbasFlush_le (zid : ℕ) {wp elba : ℕ}
    (hfg : zp.lbasPerZrwafg ≤ zp.lbasPerZrwa)
    (himpl : wp + zp.lbasPerZrwa ≤ elba) :
    wp + nrLbasFlush zp zid wp elba ≤ elba := by
  rw [nrLbasFlush, if_pos himpl]
  have hmul := Nat.div_mul_le_self
    (elba - (wp + zp.lbasPerZrwa) + 1 + zp.lbasPerZrwafg - 1) zp.lbasPerZrwafg
  omega

/-- At the end of the zone everything is flushed. -/
theorem nrLbasFlush_of_end {wp elba : ℕ} (hwp : wp ≤ elba)
    (helba : elba = zp.zoneToElba zid) (hin : elba < wp + zp.lbasPerZrwa) :
    nrLbasFlush zp zid wp elba = elba + 1 - wp := by
  rw [nrLbasFlush, if_neg (by omega), if_pos helba]
  omega

theorem lbasPerZone_lt (zp : ZnsParams) : zp.lbasPerZone < 2 ^ 23 := by
  have hlt := zp.zoneSize_lt
  rw [ZnsParams.lbasPerZone, secsz]
  omega

theorem zoneEnd_lt (hzid : zid < zp.nrZones) :
    (zid + 1) * zp.lbasPerZone < 2 ^ 55 :=
  calc (zid + 1) * zp.lbasPerZone
      ≤ 2 ^ 32 * zp.lbasPerZone :=
        Nat.mul_le_mul_right _ (by have := zp.nrZones_lt; omega)
    _ < 2 ^ 32 * 2 ^ 23 :=
        Nat.mul_lt_mul_of_pos_left (lbasPerZone_lt zp) (by norm_num)
    _ = 2 ^ 55 := by norm_num

/-- The code computes the start of a zone with 32 bits. -/
theorem zoneToSlba_cases (zp : ZnsParams) (zid : ℕ) :
    zp.zoneToSlba zid = zid * zp.lbasPerZone ∨
      zp.zoneToSlba zid + 2 ^ 32 ≤ zid * zp.lbasPerZone := by
  rw [ZnsParams.zoneToSlba, uint32]
  omega

/-- If a block at or after the start of a zone is the last one that the code
computes, the numbers did not wrap. -/
theorem eq_zoneToElba {elba : ℕ} (hzid : zid < zp.nrZones)
    (hstart : zid * zp.lbasPerZone ≤ elba) (hlt : elba < 2 ^ 56)
    (helba : elba = zp.zoneToElba zid) :
    elba + 1 = (zid + 1) * zp.lbasPerZone ∧
      zp.zoneToSlba zid = zid * zp.lbasPerZone := by
  have hend := zoneEnd_lt hzid
  have hnr := zp.nrZones_lt
  have hlbas := lbasPerZone_lt zp
  rw [ZnsParams.zoneToElba, ZnsParams.zoneToSlba, uint32, uint32,
    Nat.mod_eq_of_lt (by omega : zid + 1 < 2 ^ 32)] at helba
  rw [ZnsParams.zoneToSlba, uint32]
  rw [Nat.succ_mul] at hend helba ⊢
  omega

/-- A flush takes the write pointer to the end of the zone exactly if the write
ends there within the random write area. -/
theorem flush_reaches_end_iff {wp elba : ℕ} (hzid : zid < zp.nrZones)
    (hfg : zp.lbasPerZrwafg ≤ zp.lbasPerZrwa)
    (hstart : zid * zp.lbasPerZone ≤ wp) (hwp : wp ≤ elba)
    (hend : elba < (zid + 1) * zp.lbasPerZone) :
    (0 < nrLbasFlush zp zid wp elba ∧
        wp + nrLbasFlush zp zid wp elba =
          zp.zoneToSlba zid + zp.lbasPerZone) ↔
      elba = zp.zoneToElba zid ∧ elba < wp + zp.lbasPerZrwa := by
  have hlbas := lbasPerZone_lt zp
  by_cases himpl : wp + zp.lbasPerZrwa ≤ elba
  · have hle := add_nrLbasFlush_le zid hfg himpl
    have hcases := zoneToSlba_cases zp zid
    rw [Nat.succ_mul] at hend
    omega
  · rw [nrLbasFlush, if_neg himpl]
    by_cases helba : elba = zp.zoneToElba zid
    · have hlt := hend.trans (zoneEnd_lt hzid)
      obtain ⟨hlast, hslba⟩ := eq_zoneToElba hzid (hstart.trans hwp) (by omega)
        helba
      rw [Nat.succ_mul] at hlast
      rw [if_pos helba]
      omega
    · rw [if_neg helba]
      omega

/-! ## Commands that lose a resource -/

/-- A block of the namespace lies between the ends of its zone. -/
theorem lba_mem_zone {lba : ℕ} (hlba : lba < zp.nrZones * zp.lbasPerZone) :
    zp.lbaToZone lba * zp.lbasPerZone ≤ lba ∧
      lba < (zp.lbaToZone lba + 1) * zp.lbasPerZone := by
  rw [lbaToZone_eq hlba]
  exact ⟨Nat.div_mul_le_self _ _,
    (Nat.div_lt_iff_lt_mul (lbasPerZone_pos zp)).mp (Nat.lt_succ_self _)⟩

theorem lbaToZone_of_mem {lba : ℕ} (hzid : zid < 2 ^ 32)
    (hstart : zid * zp.lbasPerZone ≤ lba)
    (hend : lba < (zid + 1) * zp.lbasPerZone) : zp.lbaToZone lba = zid := by
  rw [ZnsParams.lbaToZone, Nat.div_eq_of_lt_le hstart hend]
  exact Nat.mod_eq_of_lt hzid

theorem endsZrwaZone_iff {append : Bool} {slba : ℕ} {length : UInt16}
    (hfg : zp.lbasPerZrwafg ≤ zp.lbasPerZrwa) (haccounted : Accounted zp ftl)
    (hslba : slba < zp.nrZones * zp.lbasPerZone) :
    EndsZrwaZone zp ftl (.write append slba length) ↔
      leaks zp ftl (.write append slba length) = true := by
  obtain ⟨hlow, hhigh⟩ := lba_mem_zone hslba
  have hzid := lbaToZone_lt hslba
  have hnr := nrLbasFromRwCmd_pos length
  have hmax := nrLbasFromRwCmd_le length
  have hlimit := zoneEnd_lt hzid
  have hshape := haccounted.shape (zp.lbaToZone slba)
  have hstart := hshape.start
  rw [hshape.zslba] at hstart
  simp only [EndsZrwaZone, leaks, WriteFills, FlushFills, bufferAfterOpening,
    checkWriteZrwa_eq_success, Bool.and_eq_true, decide_eq_true_eq,
    hshape.capacity]
  constructor
  · rintro ⟨hzrwav, hactive, hunit, hwp, helba, hin, hopening, hsize, hroom⟩
    obtain ⟨hlast, -⟩ := eq_zoneToElba hzid (by omega) (by omega) helba
    have hzone : zp.lbaToZone (slba + nrLbasFromRwCmd length - 1) =
        zp.lbaToZone slba :=
      lbaToZone_of_mem (hzid.trans zp.nrZones_lt) (by omega) (by omega)
    have hflush := nrLbasFlush_of_end (by omega) helba hin
    have hreaches := (flush_reaches_end_iff hzid hfg hstart (by omega)
      (by omega)).mpr ⟨helba, hin⟩
    rw [hflush] at hreaches ⊢
    have himpl : predUint64 ((ftl.zoneDescs (zp.lbaToZone slba)).wp +
        2 * zp.lbasPerZrwa) = _ := predUint64_of_pos (by omega)
    exact ⟨hzrwav, ⟨hunit, decide_eq_true hzone.symm, hwp, by omega⟩, hactive,
      hopening, hreaches.1, hsize, by omega, hreaches.2⟩
  · rintro ⟨hzrwav, ⟨hunit, hboundary, hwp, -⟩, hactive, hopening, hpos, hsize,
      hroom, hend⟩
    have hle := end_le_of_checkBoundaryError hnr hmax hlow hhigh
      (hzid.trans zp.nrZones_lt) hboundary
    obtain ⟨helba, hin⟩ := (flush_reaches_end_iff hzid hfg hstart (by omega)
      (by omega)).mp ⟨hpos, hend⟩
    rw [nrLbasFlush_of_end (by omega) helba hin] at hsize hroom hpos
    have hbytes := Nat.mul_pos hpos (Nat.succ_pos 511)
    have hopened := (Nat.lt_of_sub_pos (hbytes.trans_le hroom)).le
    exact ⟨hzrwav, hactive, hunit, hwp, helba, hin, hopening, hsize,
      Nat.add_le_of_le_sub hopened hroom⟩

theorem resInfos_acquire_of_ne {type other : ZoneResourceType}
    (hother : other ≠ type) :
    (acquireZoneResource ftl type).2.resInfos other = ftl.resInfos other := by
  unfold acquireZoneResource
  split
  · simp [setAcquired, hother]
  · rfl

/-- An active zone with room in its buffer is opened for a write. -/
theorem prepareZrwaZone_of_room (haccounted : Accounted zp ftl)
    (hzid : zid < zp.nrZones)
    (hzrwa : (ftl.zoneDescs zid).state = .closed → 0 < zp.zrwaSize)
    (hactive : (ftl.zoneDescs zid).state.isActive = true)
    (hsize : openingBytes zp ftl zid ≤ (ftl.buffers (.zrwa zid)).size)
    (hroom : openingBytes zp ftl zid ≤ (ftl.buffers (.zrwa zid)).remaining) :
    ∃ ftl', prepareZrwaZone zp ftl zid = some (.success, ftl') ∧
      ftl'.resInfos .zrwaZone = ftl.resInfos .zrwaZone := by
  rcases ZoneState.isActive_iff.mp hactive with hstate | hstate | hstate
  · exact ⟨ftl, by simp only [prepareZrwaZone, hstate], rfl⟩
  · exact ⟨ftl, by simp only [prepareZrwaZone, hstate], rfl⟩
  · have havail := haccounted.avail_of_closed hzid hstate
    rw [openingBytes, if_pos hstate] at hsize hroom
    simp only [prepareZrwaZone, hstate, acquire_fst_of_avail havail,
      Bool.not_true, Bool.false_eq_true, if_false, buffers_acquireZoneResource,
      bufferAllocate_of_le hsize hroom, if_neg (hzrwa hstate).ne']
    exact ⟨_, rfl, resInfos_acquire_of_ne (by decide)⟩

/-- A zone becomes full without a look at its random write area. -/
theorem increaseWritePtr_of_end (ftl : ZnsFtl) {nrLba : ℕ}
    (hend : (ftl.zoneDescs zid).wp + nrLba =
      zp.zoneToSlba zid + (ftl.zoneDescs zid).zoneCapacity) :
    (increaseWritePtr zp ftl zid nrLba).resInfos .zrwaZone =
        ftl.resInfos .zrwaZone ∧
      ((increaseWritePtr zp ftl zid nrLba).zoneDescs zid).state = .full := by
  unfold increaseWritePtr
  simp only [zoneDescs_modifyZone, update_self, if_pos hend]
  constructor
  · simp [changeZoneState, modifyZone, releaseZoneResource, setAcquired]
  · simp

/-- A flush that fills the zone leaves the counter of random write areas
alone. -/
theorem flushZrwa_of_fills {elba : ℕ}
    (hfills : FlushFills zp (ftl.zoneDescs zid) (ftl.buffers (.zrwa zid)) zid
      elba) :
    ∃ ftl', flushZrwa zp
          (divideForFlush zp ftl (ftl.zoneDescs zid).wp elba) zid
          (ftl.zoneDescs zid).wp elba = some (.done .success, ftl') ∧
      ftl'.resInfos .zrwaZone = ftl.resInfos .zrwaZone ∧
      (ftl'.zoneDescs zid).state = .full := by
  obtain ⟨hpos, hsize, hroom, hend⟩ := hfills
  have hbytes : lbaToByte (nrLbasFlush zp zid (ftl.zoneDescs zid).wp elba) ≠ 0 :=
    (Nat.mul_pos hpos (Nat.succ_pos 511)).ne'
  simp only [flushZrwa, if_neg hpos.ne', buffers_divideForFlush,
    bufferAllocate_of_le hsize hroom, if_neg hbytes]
  have hmoved := increaseWritePtr_of_end (setBuffer
    (divideForFlush zp ftl (ftl.zoneDescs zid).wp elba) (.zrwa zid)
    { ftl.buffers (.zrwa zid) with
      remaining := (ftl.buffers (.zrwa zid)).remaining -
        lbaToByte (nrLbasFlush zp zid (ftl.zoneDescs zid).wp elba) })
    (by simpa using hend)
  refine ⟨_, rfl, hmoved.1.trans ?_, hmoved.2⟩
  exact congrFun (resInfos_divideForFlush zp ftl _ elba) _

/-- A write that fills its zone keeps the count, though the zone does not hold
the resource any more. -/
theorem lost_of_fills (haccounted : Accounted zp ftl)
    (hasserted : ftl.asserted = true) (hzrwa : 0 < zp.zrwaSize) {slba nrLba : ℕ}
    (hzid : zp.lbaToZone slba < zp.nrZones) (hnr : 0 < nrLba)
    (hzrwav : (ftl.zoneDescs (zp.lbaToZone slba)).zrwav = true)
    (hfills : WriteFills zp ftl slba nrLba) :
    ∃ result ftl', znsWriteZrwa zp ftl slba nrLba = some (result, ftl') ∧
      (ftl'.resInfos .zrwaZone).acquiredCnt =
        holders zp ftl' .zrwaZone + 1 := by
  obtain ⟨hcheck, hactive, hopening, hflush⟩ := hfills
  have hroom : openingBytes zp ftl (zp.lbaToZone slba) ≤
      (ftl.buffers (.zrwa (zp.lbaToZone slba))).remaining := by
    have hbytes := Nat.mul_pos hflush.1 (Nat.succ_pos 511)
    exact (Nat.lt_of_sub_pos (hbytes.trans_le hflush.2.2.1)).le
  obtain ⟨ftl₁, hprepare, hres₁⟩ := prepareZrwaZone_of_room haccounted hzid
    (fun _ => hzrwa) hactive hopening hroom
  rcases prepareZrwaZone_spec true haccounted hzid hzrwav hprepare with
    ⟨hstatus, -⟩ | ⟨-, hprepared, -, -, hbuf⟩
  · exact absurd rfl hstatus
  have hshape₁ := hprepared.serves.path.shape (haccounted.shape _)
  have hflush₁ : FlushFills zp (ftl₁.zoneDescs (zp.lbaToZone slba))
      (ftl₁.buffers (.zrwa (zp.lbaToZone slba))) (zp.lbaToZone slba)
      (slba + nrLba - 1) := by
    rw [FlushFills, (haccounted.shape _).capacity] at hflush
    rwa [FlushFills, hprepared.wp, hshape₁.capacity, hbuf]
  obtain ⟨ftl', hwrite, hres', hfull⟩ := flushZrwa_of_fills hflush₁
  rw [hprepared.wp] at hwrite
  have hresult : znsWriteZrwa zp ftl slba nrLba =
      some (.done .success, ftl') := by
    simp only [znsWriteZrwa, hcheck, hprepare, hwrite]
  refine ⟨_, ftl', hresult, ?_⟩
  have hserves : Serves zp true (zp.lbaToZone slba) _ ftl ftl' :=
    serves_writeZrwa haccounted hzid hzrwav hnr hresult
  have hbefore : holds (ftl.zoneDescs (zp.lbaToZone slba)) .zrwaZone = true := by
    simp [holds, resources, hzrwav, hactive]
  have hafter : holds (ftl'.zoneDescs (zp.lbaToZone slba)) .zrwaZone =
      false := by
    simp [holds, resources, hfull]
  rw [hres', hres₁, haccounted.exactly .zrwaZone fun _ => hasserted,
    holders_eq hzid, holders_eq hzid, hbefore, hafter,
    otherHolders_congr hserves.others]
  rfl

/-! ## Runs -/

theorem lbasPerZrwafg_le (hzrwa : 0 < zp.zrwaSize)
    (hfg : zp.zrwafgSize ∣ zp.zrwaSize) :
    zp.lbasPerZrwafg ≤ zp.lbasPerZrwa :=
  Nat.div_le_div_right (Nat.le_of_dvd hzrwa hfg)

/-- The invariant of the runs that lose nothing. -/
def ZrwaInv (zp : ZnsParams) (ftl : ZnsFtl) : Prop :=
  Accounted zp ftl ∧ ftl.asserted = true

/-- The count of random write areas is that of the active zones that have one. -/
def ZrwaCounted (zp : ZnsParams) (ftl : ZnsFtl) : Prop :=
  (ftl.resInfos .zrwaZone).acquiredCnt =
    ((Finset.range zp.nrZones).filter fun zid =>
      (ftl.zoneDescs zid).zrwav = true ∧
        ((ftl.zoneDescs zid).state = .openedImpl ∨
          (ftl.zoneDescs zid).state = .openedExpl ∨
          (ftl.zoneDescs zid).state = .closed)).card

instance (zp : ZnsParams) : DecidablePred (ZrwaCounted zp) := fun ftl =>
  inferInstanceAs (Decidable ((ftl.resInfos .zrwaZone).acquiredCnt = _))

theorem zrwaCounted_iff :
    ZrwaCounted zp ftl ↔
      (ftl.resInfos .zrwaZone).acquiredCnt = holders zp ftl .zrwaZone := by
  have hfilter : ((Finset.range zp.nrZones).filter fun zid =>
      (ftl.zoneDescs zid).zrwav = true ∧
        ((ftl.zoneDescs zid).state = .openedImpl ∨
          (ftl.zoneDescs zid).state = .openedExpl ∨
          (ftl.zoneDescs zid).state = .closed)) =
      (Finset.range zp.nrZones).filter
        fun zid => holds (ftl.zoneDescs zid) .zrwaZone = true := by
    apply Finset.filter_congr
    intro zid _
    simp [holds, resources, ZoneState.isActive_iff]
  rw [ZrwaCounted, hfilter, holders]

theorem turn_zrwaInv (hfg : zp.lbasPerZrwafg ≤ zp.lbasPerZrwa)
    {event : ZnsEvent} (hevent : event.InNamespace zp)
    (hinv : ZrwaInv zp ftl) (hkeeps : ¬ EndsZrwaZone zp ftl event) :
    ZrwaInv zp (turn (znsStep zp) ftl event) := by
  rw [turn]
  cases hstep : znsStep zp event ftl with
  | none => exact hinv
  | some ftl' =>
      have hmoves : Moves zp true _ ftl ftl' :=
        moves_znsStep hinv.1 hevent (by simp) hstep
      have hleak : leaks zp ftl event = false := by
        cases event with
        | write append slba length =>
            rwa [endsZrwaZone_iff hfg hinv.1 hevent, Bool.not_eq_true]
              at hkeeps
        | _ => rfl
      refine ⟨hmoves.accounted, ?_⟩
      rw [Option.getD_some, hmoves.asserted, hinv.2, hleak]
      rfl

theorem turn_loses (hfg : zp.lbasPerZrwafg ≤ zp.lbasPerZrwa)
    (hzrwa : 0 < zp.zrwaSize) {event : ZnsEvent}
    (hevent : event.InNamespace zp) (hinv : ZrwaInv zp ftl)
    (hends : EndsZrwaZone zp ftl event) :
    ¬ ZrwaCounted zp (turn (znsStep zp) ftl event) := by
  cases event with
  | write append slba length =>
      have hleak := (endsZrwaZone_iff hfg hinv.1 hevent).mp hends
      rw [leaks, Bool.and_eq_true, decide_eq_true_eq] at hleak
      obtain ⟨hzrwav, hfills⟩ := hleak
      obtain ⟨result, ftl', hwrite, hlost⟩ := lost_of_fills hinv.1 hinv.2 hzrwa
        (lbaToZone_lt hevent) (nrLbasFromRwCmd_pos length) hzrwav hfills
      have hstep : znsStep zp (.write append slba length) ftl = some ftl' := by
        simp [znsStep, znsWrite, lpnToZone_lbaToLpn, hzrwav, hwrite]
      rw [turn, hstep, Option.getD_some, zrwaCounted_iff, hlost]
      exact Nat.succ_ne_self _
  | _ => exact hends.elim

/-- The count of random write areas is exact in every state of a run, exactly if
no write of the run ends a zone within its random write area. -/
theorem zrwa_resources_accounted (zp : ZnsParams) (hzrwa : 0 < zp.zrwaSize)
    (hfg : zp.zrwafgSize ∣ zp.zrwaSize) (events : List ZnsEvent)
    (hevents : ∀ event ∈ events, event.InNamespace zp) :
    Always (znsStep zp) (ZrwaCounted zp) events (znsInitFtl zp) ↔
      Meets (znsStep zp) (fun event ftl => ¬ EndsZrwaZone zp ftl event) events
        (znsInitFtl zp) := by
  have hlbas := lbasPerZrwafg_le hzrwa hfg
  have hcounted : ∀ ftl, ZrwaInv zp ftl → ZrwaCounted zp ftl := by
    intro ftl hinv
    exact zrwaCounted_iff.mpr (hinv.1.exactly .zrwaZone fun _ => hinv.2)
  refine always_iff_meets (znsStep zp) hcounted ?_ ?_
    ⟨accounted_znsInitFtl zp, rfl⟩ (meets_of_forall (znsStep zp) hevents _)
  · intro event ftl hinv hevent hkeeps
    exact turn_zrwaInv hlbas hevent hinv hkeeps
  · intro event ftl hinv hevent hcounted hends
    exact turn_loses hlbas hzrwa hevent hinv hends hcounted

/-- A zone of one page that is all random write area. -/
def zrwaZone : ZnsParams where
  zoneSize := 4096
  nrZones := 1
  zoneWbSize := 0
  writeBufferSize := 4096
  writeUnitSize := 512
  pgsPerOneshotpg := 1
  zrwaSize := 4096
  zrwafgSize := 4096
  zrwaBufferSize := 8192
  zoneSize_pos := pgsz_pos
  zoneSize_lt := pgsz_lt_uint32
  nrZones_lt := one_lt_uint32
  pgsz_dvd := pgsz_dvd_pgsz
  writeUnitSize_pos := secsz_pos
  pgsPerOneshotpg_pos := Nat.one_pos

/-- The zone is written in part and filled by an explicit flush. -/
theorem zrwa_resources_accounted_flush :
    let events : List ZnsEvent := [.mgmtSend 0 .openZone false true,
      .write false 0 3, .mgmtSend 7 .flushExplZrwa false false]
    ((run (znsStep zrwaZone) events (znsInitFtl zrwaZone)).zoneDescs 0).state =
        .full ∧
      Always (znsStep zrwaZone) (ZrwaCounted zrwaZone) events
        (znsInitFtl zrwaZone) :=
  ⟨by decide, (zrwa_resources_accounted zrwaZone (by decide) (by decide) _
    (by decide)).mpr (by decide)⟩

/-- The zone is filled by a write: it is full, and the resource stays taken. -/
theorem full_zone_keeps_zrwa :
    let events : List ZnsEvent :=
      [.mgmtSend 0 .openZone false true, .write false 0 7]
    let ftl := run (znsStep zrwaZone) events (znsInitFtl zrwaZone)
    (∀ event ∈ events, event.InNamespace zrwaZone) ∧
      (ftl.zoneDescs 0).state = .full ∧
      (ftl.resInfos .zrwaZone).acquiredCnt = 1 ∧ ¬ ZrwaCounted zrwaZone ftl := by
  decide

end NvmeVirt.Zns
