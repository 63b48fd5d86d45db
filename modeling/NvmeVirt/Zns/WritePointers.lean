import NvmeVirt.Zns.Commands

/-!
# Write pointers

Without random write areas, and on a namespace whose block numbers fit 32 bits,
the write pointer of a zone stays within the zone and its state says where.
-/

namespace NvmeVirt.Zns

open Function Ftl Interleaving

variable {zp : ZnsParams} {ftl ftl' : ZnsFtl} {zid : ℕ}

/-- The write pointer of a zone agrees with its state. -/
structure PointerOk (desc : ZoneDescriptor) : Prop where
  plain : desc.zrwav = false
  start : desc.zslba ≤ desc.wp
  within : desc.wp ≤ desc.zslba + desc.zoneCapacity
  empty : desc.state = .empty → desc.wp = desc.zslba
  active : desc.state.isActive = true →
    desc.wp < desc.zslba + desc.zoneCapacity

theorem zoneToSlba_eq (hend : (zid + 1) * zp.lbasPerZone < 2 ^ 32) :
    zp.zoneToSlba zid = zid * zp.lbasPerZone := by
  have hle : zid * zp.lbasPerZone ≤ (zid + 1) * zp.lbasPerZone :=
    Nat.mul_le_mul_right _ (Nat.le_succ zid)
  exact Nat.mod_eq_of_lt (hle.trans_lt hend)

/-- A zone that stays open keeps room for a write. -/
theorem pointerOk_advance {desc : ZoneDescriptor} {wp : ℕ}
    (hpointer : PointerOk desc) (hslba : zp.zoneToSlba zid = desc.zslba)
    (hwp : desc.wp ≤ wp) (hend : wp ≤ desc.zslba + desc.zoneCapacity)
    (hempty : desc.state ≠ .empty) : PointerOk (desc.advance zp zid wp) := by
  refine ⟨hpointer.plain, hpointer.start.trans hwp, hend, ?_, ?_⟩
  · simp only [ZoneDescriptor.advance]
    split
    · simp
    · exact fun hstate => absurd hstate hempty
  · simp only [ZoneDescriptor.advance]
    split
    · simp
    · intro _
      omega

theorem ZoneStep.pointerOk (hend : (zid + 1) * zp.lbasPerZone < 2 ^ 32)
    {desc desc' : ZoneDescriptor} (hstep : ZoneStep zp false zid desc desc')
    (hok : ZoneShape zp zid desc ∧ PointerOk desc) :
    ZoneShape zp zid desc' ∧ PointerOk desc' := by
  obtain ⟨hshape, hpointer⟩ := hok
  refine ⟨hstep.shape hshape, ?_⟩
  have hpos := lbasPerZone_pos zp
  have hcapacity := hshape.capacity
  have hzid : zid < 2 ^ 32 := by
    have := Nat.le_mul_of_pos_right (zid + 1) hpos
    omega
  cases hstep with
  | opens hfrom hto =>
      refine { hpointer with empty := ?_, active := fun _ => ?_ }
      · rintro rfl
        cases hto
      · rcases hfrom with hempty | hactive
        · have hwp := hpointer.empty hempty
          dsimp only
          omega
        · exact hpointer.active hactive
  | opensZrwa hzrwa => cases hzrwa
  | closes hfrom =>
      refine { hpointer with empty := nofun, active := fun _ => ?_ }
      exact hpointer.active (ZoneState.isActive_of_isOpen hfrom)
  | finishes => exact { hpointer with empty := nofun, active := nofun }
  | resets =>
      exact
        { plain := rfl
          start := le_rfl
          within := Nat.le_add_right _ _
          empty := fun _ => rfl
          active := nofun }
  | retires => exact { hpointer with empty := nofun, active := nofun }
  | writes hnr hmax hfrom hplain hboundary =>
      have hslba := zoneToSlba_eq hend
      have hactive := hpointer.active (ZoneState.isActive_of_isOpen hfrom)
      have hzslba := hshape.zslba
      have hstart := hpointer.start
      have hle := end_le_of_checkBoundaryError hnr hmax (by omega)
        (by rw [Nat.succ_mul]; omega) hzid hboundary
      rw [Nat.succ_mul] at hle
      exact pointerOk_advance hpointer (by omega) (by omega) (by omega)
        fun hempty => by rw [hempty] at hfrom; cases hfrom
  | writesZrwa _ hzrwa =>
      rw [hpointer.plain] at hzrwa
      cases hzrwa
  | flushes _ hzrwa =>
      rw [hpointer.plain] at hzrwa
      cases hzrwa

/-- The state of the zoned FTL in a run without random write areas. -/
structure PlainInv (zp : ZnsParams) (ftl : ZnsFtl) : Prop where
  accounted : Accounted zp ftl
  asserted : ftl.asserted = true
  plain : ∀ zid, (ftl.zoneDescs zid).zrwav = false
  pointer : ∀ zid < zp.nrZones, PointerOk (ftl.zoneDescs zid)

theorem ZoneStep.plain {desc desc' : ZoneDescriptor}
    (hstep : ZoneStep zp false zid desc desc') (hplain : desc.zrwav = false) :
    desc'.zrwav = false := by
  cases hstep with
  | opensZrwa hzrwa => cases hzrwa
  | resets => rfl
  | _ => exact hplain

theorem znsStep_plainInv (hsmall : zp.nrZones * zp.lbasPerZone < 2 ^ 32)
    {event : ZnsEvent} (hevent : event.InNamespace zp ∧ event.WithoutZrwa)
    (hinv : PlainInv zp ftl) (hstep : znsStep zp event ftl = some ftl') :
    PlainInv zp ftl' := by
  have hmoves : Moves zp false _ ftl ftl' :=
    moves_znsStep hinv.accounted hevent.1 (fun _ => hevent.2) hstep
  refine ⟨hmoves.accounted, ?_, fun zid => ?_, fun zid hzid => ?_⟩
  · have hleak : leaks zp ftl event = false := by
      cases event <;> simp [leaks, hinv.plain]
    rw [hmoves.asserted, hinv.asserted, hleak]
    rfl
  · exact (hmoves.path zid).invariant (fun _ _ hmove => hmove.plain)
      (hinv.plain zid)
  · have hend : (zid + 1) * zp.lbasPerZone < 2 ^ 32 :=
      (Nat.mul_le_mul_right _ hzid).trans_lt hsmall
    exact ((hmoves.path zid).invariant (fun _ _ hmove => hmove.pointerOk hend)
      ⟨hinv.accounted.shape zid, hinv.pointer zid hzid⟩).2

theorem plainInv_znsInitFtl (zp : ZnsParams) : PlainInv zp (znsInitFtl zp) := by
  refine ⟨accounted_znsInitFtl zp, rfl, fun _ => rfl, fun zid _ => ?_⟩
  exact ⟨rfl, le_rfl, Nat.le_add_right _ _, fun _ => rfl, nofun⟩

/-- Without random write areas, the counters of open and active zones are exact
and never wrap, and every write pointer agrees with the state of its zone. -/
theorem zone_states_accounted (zp : ZnsParams)
    (hsmall : zp.nrZones * zp.lbasPerZone < 2 ^ 32) (events : List ZnsEvent)
    (hevents : ∀ event ∈ events, event.InNamespace zp ∧ event.WithoutZrwa) :
    let ftl := run (znsStep zp) events (znsInitFtl zp)
    (ftl.resInfos .openZone).acquiredCnt =
        ((Finset.range zp.nrZones).filter fun zid =>
          (ftl.zoneDescs zid).state = .openedImpl ∨
            (ftl.zoneDescs zid).state = .openedExpl).card ∧
      (ftl.resInfos .activeZone).acquiredCnt =
        ((Finset.range zp.nrZones).filter fun zid =>
          (ftl.zoneDescs zid).state = .openedImpl ∨
            (ftl.zoneDescs zid).state = .openedExpl ∨
            (ftl.zoneDescs zid).state = .closed).card ∧
      (∀ type, (ftl.resInfos type).acquiredCnt ≤
        (ftl.resInfos type).totalCnt) ∧
      ftl.asserted = true ∧
      ∀ zid < zp.nrZones,
        let desc := ftl.zoneDescs zid
        desc.zslba ≤ desc.wp ∧ desc.wp ≤ desc.zslba + desc.zoneCapacity ∧
          (desc.state = .empty → desc.wp = desc.zslba) ∧
          (desc.state = .openedImpl ∨ desc.state = .openedExpl ∨
              desc.state = .closed →
            desc.wp < desc.zslba + desc.zoneCapacity) := by
  intro ftl
  have hinv : PlainInv zp ftl := run_invariant_of_meets (znsStep zp)
    (fun _ _ _ hevent hinv hstep => znsStep_plainInv hsmall hevent hinv hstep)
    (plainInv_znsInitFtl zp) (meets_of_forall (znsStep zp) hevents _)
  have haccounted := hinv.accounted
  refine ⟨?_, ?_, fun type => ?_, hinv.asserted, fun zid hzid => ?_⟩
  · rw [haccounted.exactly .openZone (by simp), holders]
    exact congrArg Finset.card (Finset.filter_congr fun zid _ =>
      ZoneState.isOpen_iff)
  · rw [haccounted.exactly .activeZone (by simp), holders]
    exact congrArg Finset.card (Finset.filter_congr fun zid _ =>
      ZoneState.isActive_iff)
  · rw [haccounted.total]
    exact haccounted.bounded type
  · have hpointer := hinv.pointer zid hzid
    exact ⟨hpointer.start, hpointer.within, hpointer.empty,
      fun hactive => hpointer.active (ZoneState.isActive_iff.mpr hactive)⟩

/-- Two zones of one page each. -/
def twoZones : ZnsParams where
  zoneSize := 4096
  nrZones := 2
  zoneWbSize := 0
  writeBufferSize := 4096
  writeUnitSize := 512
  pgsPerOneshotpg := 1
  zrwaSize := 0
  zrwafgSize := 0
  zrwaBufferSize := 0
  zoneSize_pos := pgsz_pos
  zoneSize_lt := pgsz_lt_uint32
  nrZones_lt := two_lt_uint32
  pgsz_dvd := pgsz_dvd_pgsz
  writeUnitSize_pos := secsz_pos
  pgsPerOneshotpg_pos := Nat.one_pos

/-- Both zones are opened, one is written and closed. -/
def openWriteClose : List ZnsEvent :=
  [.mgmtSend 0 .openZone false false, .write false 8 3, .write true 9 1,
    .release 0, .read 8 0, .mgmtSend 8 .closeZone false false]

theorem zone_states_accounted_openWriteClose :
    let ftl := run (znsStep twoZones) openWriteClose (znsInitFtl twoZones)
    (∀ event ∈ openWriteClose,
        event.InNamespace twoZones ∧ event.WithoutZrwa) ∧
      (ftl.resInfos .openZone).acquiredCnt = 1 ∧
      (ftl.resInfos .activeZone).acquiredCnt = 2 ∧ ftl.asserted = true := by
  have hevents : ∀ event ∈ openWriteClose,
      event.InNamespace twoZones ∧ event.WithoutZrwa := by decide
  obtain ⟨hopen, hactive, -, hasserted, -⟩ := zone_states_accounted twoZones
    (by decide) openWriteClose hevents
  exact ⟨hevents, hopen.trans (by decide), hactive.trans (by decide), hasserted⟩

end NvmeVirt.Zns
