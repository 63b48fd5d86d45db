import NvmeVirt.Zns.ZoneMachine

/-!
# Zone resources

The counters of active zones, open zones and zones with a random write area
follow the states of the zones, whatever commands are served.  One slip of the
code loses a count, and an assertion that is compiled out marks the place: the
third counter is exact as long as every assertion held.
-/

namespace NvmeVirt.Zns

open Function Ftl

/-- A choice of resources. -/
def resources (active opened zrwa : Bool) : ZoneResourceType → Bool
  | .activeZone => active
  | .openZone => opened
  | .zrwaZone => zrwa

/-- Whether a zone holds a resource. -/
def holds (desc : ZoneDescriptor) : ZoneResourceType → Bool :=
  resources desc.state.isActive desc.state.isOpen
    (desc.zrwav && desc.state.isActive)

section Resources

variable (active opened zrwa value : Bool)

@[simp]
theorem update_resources_active :
    update (resources active opened zrwa) .activeZone value =
      resources value opened zrwa := by
  funext type
  cases type <;> rfl

@[simp]
theorem update_resources_open :
    update (resources active opened zrwa) .openZone value =
      resources active value zrwa := by
  funext type
  cases type <;> rfl

@[simp]
theorem update_resources_zrwa :
    update (resources active opened zrwa) .zrwaZone value =
      resources active opened value := by
  funext type
  cases type <;> rfl

end Resources

/-- The number of zones that hold a resource. -/
def holders (zp : ZnsParams) (ftl : ZnsFtl) (type : ZoneResourceType) : ℕ :=
  ((Finset.range zp.nrZones).filter
    fun zid => holds (ftl.zoneDescs zid) type = true).card

/-- The number of zones other than `zid` that hold a resource. -/
def otherHolders (zp : ZnsParams) (ftl : ZnsFtl) (zid : ℕ)
    (type : ZoneResourceType) : ℕ :=
  (((Finset.range zp.nrZones).erase zid).filter
    fun other => holds (ftl.zoneDescs other) type = true).card

theorem holders_eq {zp : ZnsParams} {zid : ℕ} (hzid : zid < zp.nrZones)
    (ftl : ZnsFtl) (type : ZoneResourceType) :
    holders zp ftl type = otherHolders zp ftl zid type +
      (holds (ftl.zoneDescs zid) type).toNat := by
  have hmem : zid ∈ Finset.range zp.nrZones := Finset.mem_range.mpr hzid
  rw [holders, ← Finset.insert_erase hmem, Finset.filter_insert]
  cases hholds : holds (ftl.zoneDescs zid) type with
  | false => simp [otherHolders]
  | true =>
      rw [if_pos rfl, Finset.card_insert_of_notMem (by simp)]
      simp [otherHolders]

theorem otherHolders_congr {zp : ZnsParams} {ftl ftl' : ZnsFtl} {zid : ℕ}
    (hdescs : ∀ other, other ≠ zid →
      ftl'.zoneDescs other = ftl.zoneDescs other) (type : ZoneResourceType) :
    otherHolders zp ftl' zid type = otherHolders zp ftl zid type := by
  rw [otherHolders, otherHolders]
  congr 1
  apply Finset.filter_congr
  intro other hother
  rw [hdescs other (Finset.ne_of_mem_erase hother)]

/-! ## What the primitive operations leave alone -/

section Frames

variable (ftl : ZnsFtl) (zid : ℕ) (type : ZoneResourceType)

@[simp]
theorem zoneDescs_releaseZoneResource :
    (releaseZoneResource ftl type).zoneDescs = ftl.zoneDescs := rfl

@[simp]
theorem zoneDescs_acquireZoneResource :
    (acquireZoneResource ftl type).2.zoneDescs = ftl.zoneDescs := by
  unfold acquireZoneResource
  split <;> rfl

@[simp]
theorem zoneDescs_modifyZone (f : ZoneDescriptor → ZoneDescriptor) :
    (modifyZone ftl zid f).zoneDescs =
      update ftl.zoneDescs zid (f (ftl.zoneDescs zid)) := rfl

@[simp]
theorem zoneDescs_changeZoneState (state : ZoneState) :
    (changeZoneState ftl zid state).zoneDescs =
      update ftl.zoneDescs zid
        { ftl.zoneDescs zid with state := state } := rfl

@[simp]
theorem zoneDescs_setBuffer (buffer : BufferId) (buf : Buffer) :
    (setBuffer ftl buffer buf).zoneDescs = ftl.zoneDescs := rfl

@[simp]
theorem zoneDescs_resetZone (zp : ZnsParams) :
    (resetZone zp ftl zid).zoneDescs =
      update ftl.zoneDescs zid { ftl.zoneDescs zid with
        wp := (ftl.zoneDescs zid).zslba, zrwav := false } := by
  unfold resetZone
  split <;> rfl

@[simp]
theorem buffers_acquireZoneResource :
    (acquireZoneResource ftl type).2.buffers = ftl.buffers := by
  unfold acquireZoneResource
  split <;> rfl

@[simp]
theorem asserted_resetZone (zp : ZnsParams) :
    (resetZone zp ftl zid).asserted = ftl.asserted := by
  unfold resetZone
  split <;> rfl

@[simp]
theorem asserted_acquireZoneResource :
    (acquireZoneResource ftl type).2.asserted = ftl.asserted := by
  unfold acquireZoneResource
  split <;> rfl

theorem isZoneResourceAvail_acquire_of_ne {other : ZoneResourceType}
    (hother : other ≠ type) :
    isZoneResourceAvail (acquireZoneResource ftl type).2 other =
      isZoneResourceAvail ftl other := by
  unfold acquireZoneResource
  split
  · simp [isZoneResourceAvail, setAcquired, hother]
  · rfl

theorem acquire_of_not_avail {ftl : ZnsFtl} {type : ZoneResourceType}
    (havail : isZoneResourceAvail ftl type = false) :
    acquireZoneResource ftl type = (false, ftl) := by
  simp [acquireZoneResource, havail]

theorem acquire_fst_of_avail {ftl : ZnsFtl} {type : ZoneResourceType}
    (havail : isZoneResourceAvail ftl type = true) :
    (acquireZoneResource ftl type).1 = true := by
  simp [acquireZoneResource, havail]

end Frames

/-! ## The balance of the counters -/

/-- The counters while a zone is being moved: they stand for what the other
zones hold and for what is still held on behalf of this one. -/
structure Tally (zp : ZnsParams) (ftl : ZnsFtl) (zid : ℕ)
    (held : ZoneResourceType → Bool) : Prop where
  total : ∀ type, (ftl.resInfos type).totalCnt = zp.nrZones
  bounded : ∀ type, (ftl.resInfos type).acquiredCnt ≤ zp.nrZones
  covers : ∀ type, otherHolders zp ftl zid type + (held type).toNat ≤
    (ftl.resInfos type).acquiredCnt
  exactly : ∀ type, (type = .zrwaZone → ftl.asserted = true) →
    (ftl.resInfos type).acquiredCnt =
      otherHolders zp ftl zid type + (held type).toNat

namespace Tally

variable {zp : ZnsParams} {ftl : ZnsFtl} {zid : ℕ}
  {held : ZoneResourceType → Bool}

/-- Only the counters, the assertions and the other zones matter. -/
theorem congr {ftl' : ZnsFtl} (htally : Tally zp ftl zid held)
    (hdescs : ∀ other, other ≠ zid →
      ftl'.zoneDescs other = ftl.zoneDescs other)
    (hres : ftl'.resInfos = ftl.resInfos)
    (hasserted : ftl'.asserted = true → ftl.asserted = true) :
    Tally zp ftl' zid held where
  total type := by rw [hres]; exact htally.total type
  bounded type := by rw [hres]; exact htally.bounded type
  covers type := by
    rw [hres, otherHolders_congr hdescs]
    exact htally.covers type
  exactly type hexact := by
    rw [hres, otherHolders_congr hdescs]
    exact htally.exactly type fun htype => hasserted (hexact htype)

theorem modifyZone (htally : Tally zp ftl zid held)
    (f : ZoneDescriptor → ZoneDescriptor) :
    Tally zp (modifyZone ftl zid f) zid held :=
  htally.congr (fun _ hother => update_of_ne hother _ _) rfl id

theorem changeZoneState (htally : Tally zp ftl zid held) (state : ZoneState) :
    Tally zp (changeZoneState ftl zid state) zid held :=
  htally.modifyZone _

theorem setBuffer (htally : Tally zp ftl zid held) (buffer : BufferId)
    (buf : Buffer) : Tally zp (setBuffer ftl buffer buf) zid held :=
  htally.congr (fun _ _ => rfl) rfl id

theorem resetZone (htally : Tally zp ftl zid held) :
    Tally zp (resetZone zp ftl zid) zid held := by
  unfold Zns.resetZone
  split
  · exact (htally.modifyZone _).setBuffer _ _
  · exact htally.modifyZone _

theorem pos_of_held (htally : Tally zp ftl zid held) {type : ZoneResourceType}
    (hheld : held type = true) : 0 < (ftl.resInfos type).acquiredCnt := by
  have hcovers := htally.covers type
  rw [hheld, Bool.toNat_true] at hcovers
  omega

theorem asserted_release (htally : Tally zp ftl zid held)
    (type : ZoneResourceType) (hheld : held type = true) :
    (releaseZoneResource ftl type).asserted = ftl.asserted := by
  simp [releaseZoneResource, htally.pos_of_held hheld]

/-- A resource that is held can be given back. -/
theorem release (htally : Tally zp ftl zid held) (type : ZoneResourceType)
    (hheld : held type = true) :
    Tally zp (releaseZoneResource ftl type) zid (update held type false) := by
  have hpos := htally.pos_of_held hheld
  have hcount : ∀ other, ((releaseZoneResource ftl type).resInfos
      other).acquiredCnt + (held other).toNat =
        (ftl.resInfos other).acquiredCnt +
          (update held type false other).toNat := by
    intro other
    by_cases hother : other = type
    · subst hother
      simp only [releaseZoneResource, setAcquired, update_self, hheld,
        if_neg hpos.ne', Bool.toNat_true, Bool.toNat_false]
      omega
    · simp [releaseZoneResource, setAcquired, hother]
  have hle : ∀ other, (update held type false other).toNat ≤
      (held other).toNat := by
    intro other
    by_cases hother : other = type
    · simp [hother]
    · simp [hother]
  have htotal : ∀ other, ((releaseZoneResource ftl type).resInfos
      other).totalCnt = (ftl.resInfos other).totalCnt := by
    intro other
    by_cases hother : other = type
    · simp [releaseZoneResource, setAcquired, hother]
    · simp [releaseZoneResource, setAcquired, hother]
  have hothers : ∀ other, otherHolders zp (releaseZoneResource ftl type) zid
      other = otherHolders zp ftl zid other := fun _ => rfl
  constructor
  · intro other
    rw [htotal, htally.total]
  · intro other
    have := htally.bounded other
    have := hcount other
    have := hle other
    omega
  · intro other
    have := htally.covers other
    have := hcount other
    rw [hothers]
    omega
  · intro other hexact
    rw [htally.asserted_release type hheld] at hexact
    have := htally.exactly other hexact
    have := hcount other
    rw [hothers]
    omega

/-- A resource that is available can be acquired. -/
theorem acquire (htally : Tally zp ftl zid held) (type : ZoneResourceType)
    (hheld : held type = false) (havail : isZoneResourceAvail ftl type = true) :
    Tally zp (acquireZoneResource ftl type).2 zid (update held type true) := by
  have hlt : (ftl.resInfos type).acquiredCnt < (ftl.resInfos type).totalCnt :=
    of_decide_eq_true havail
  have hcount : ∀ other, ((acquireZoneResource ftl type).2.resInfos
      other).acquiredCnt + (held other).toNat =
        (ftl.resInfos other).acquiredCnt +
          (update held type true other).toNat := by
    intro other
    by_cases hother : other = type
    · subst hother
      simp [acquireZoneResource, setAcquired, havail, hheld]
    · simp [acquireZoneResource, setAcquired, havail, hother]
  have htotal : ∀ other, ((acquireZoneResource ftl type).2.resInfos
      other).totalCnt = (ftl.resInfos other).totalCnt := by
    intro other
    by_cases hother : other = type
    · simp [acquireZoneResource, setAcquired, havail, hother]
    · simp [acquireZoneResource, setAcquired, havail, hother]
  have hothers : ∀ other, otherHolders zp (acquireZoneResource ftl type).2 zid
      other = otherHolders zp ftl zid other :=
    otherHolders_congr fun _ _ => by rw [zoneDescs_acquireZoneResource]
  constructor
  · intro other
    rw [htotal, htally.total]
  · intro other
    have hbounded := htally.bounded other
    have hcount := hcount other
    by_cases hother : other = type
    · subst hother
      rw [htally.total] at hlt
      rw [update_self, hheld] at hcount
      simp only [Bool.toNat_true, Bool.toNat_false] at hcount
      omega
    · rw [update_of_ne hother] at hcount
      omega
  · intro other
    have := htally.covers other
    have := hcount other
    rw [hothers]
    omega
  · intro other hexact
    rw [asserted_acquireZoneResource] at hexact
    have := htally.exactly other hexact
    have := hcount other
    rw [hothers]
    omega

theorem avail_of_not_full (htally : Tally zp ftl zid held)
    {type : ZoneResourceType} (hfull : ¬ isZoneResourceFull ftl type = true) :
    isZoneResourceAvail ftl type = true := by
  have hbounded := htally.bounded type
  rw [← htally.total type] at hbounded
  simp only [isZoneResourceFull, decide_eq_true_eq] at hfull
  simp only [isZoneResourceAvail, decide_eq_true_eq]
  omega

end Tally

/-- The counters count the zones that hold their resource. -/
structure Accounted (zp : ZnsParams) (ftl : ZnsFtl) : Prop where
  total : ∀ type, (ftl.resInfos type).totalCnt = zp.nrZones
  bounded : ∀ type, (ftl.resInfos type).acquiredCnt ≤ zp.nrZones
  covers : ∀ type, holders zp ftl type ≤ (ftl.resInfos type).acquiredCnt
  exactly : ∀ type, (type = .zrwaZone → ftl.asserted = true) →
    (ftl.resInfos type).acquiredCnt = holders zp ftl type
  shape : ∀ zid, ZoneShape zp zid (ftl.zoneDescs zid)

/-- What a command may do that is addressed to one zone.  If it leaks, an
assertion fails. -/
structure Serves (zp : ZnsParams) (zrwa : Bool) (zid : ℕ) (leak : Bool)
    (ftl ftl' : ZnsFtl) : Prop where
  others : ∀ other, other ≠ zid → ftl'.zoneDescs other = ftl.zoneDescs other
  path : ZonePath zp zrwa zid (ftl.zoneDescs zid) (ftl'.zoneDescs zid)
  tally : Tally zp ftl' zid (holds (ftl'.zoneDescs zid))
  asserted : ftl'.asserted = (ftl.asserted && !leak)

variable {zp : ZnsParams} {zrwa : Bool} {ftl ftl' : ZnsFtl} {zid : ℕ}

theorem Accounted.tally (haccounted : Accounted zp ftl)
    (hzid : zid < zp.nrZones) :
    Tally zp ftl zid (holds (ftl.zoneDescs zid)) where
  total := haccounted.total
  bounded := haccounted.bounded
  covers type := by
    rw [← holders_eq hzid]
    exact haccounted.covers type
  exactly type := by
    rw [← holders_eq hzid]
    exact haccounted.exactly type

theorem Accounted.divideBy (haccounted : Accounted zp ftl) (divisor : ℕ) :
    Accounted zp (divideBy ftl divisor) :=
  { haccounted with }

theorem Accounted.refl (haccounted : Accounted zp ftl)
    (hzid : zid < zp.nrZones) : Serves zp zrwa zid false ftl ftl where
  others _ _ := rfl
  path := .refl
  tally := haccounted.tally hzid
  asserted := by simp

theorem Serves.accounted {leak : Bool} (hserves : Serves zp zrwa zid leak ftl ftl')
    (haccounted : Accounted zp ftl) (hzid : zid < zp.nrZones) :
    Accounted zp ftl' where
  total := hserves.tally.total
  bounded := hserves.tally.bounded
  covers type := by
    rw [holders_eq hzid]
    exact hserves.tally.covers type
  exactly type := by
    rw [holders_eq hzid]
    exact hserves.tally.exactly type
  shape other := by
    by_cases hother : other = zid
    · rw [hother]
      exact hserves.path.shape (haccounted.shape zid)
    · rw [hserves.others other hother]
      exact haccounted.shape other

namespace Serves

theorem trans {ftl'' : ZnsFtl} {leak leak' : Bool}
    (hserves : Serves zp zrwa zid leak ftl ftl')
    (hserves' : Serves zp zrwa zid leak' ftl' ftl'') :
    Serves zp zrwa zid (leak || leak') ftl ftl'' where
  others other hother :=
    (hserves'.others other hother).trans (hserves.others other hother)
  path := hserves.path.trans hserves'.path
  tally := hserves'.tally
  asserted := by
    rw [hserves'.asserted, hserves.asserted, Bool.and_assoc, Bool.not_or]

/-- The buffers and the scheduled operations do not matter. -/
theorem congr {ftl₁ ftl₁' : ZnsFtl} {leak : Bool}
    (hserves : Serves zp zrwa zid leak ftl ftl')
    (hdescs : ftl₁.zoneDescs = ftl.zoneDescs)
    (hasserted : ftl₁.asserted = ftl.asserted)
    (hdescs' : ftl₁'.zoneDescs = ftl'.zoneDescs)
    (hres' : ftl₁'.resInfos = ftl'.resInfos)
    (hasserted' : ftl₁'.asserted = ftl'.asserted) :
    Serves zp zrwa zid leak ftl₁ ftl₁' where
  others other hother := by
    rw [hdescs, hdescs']
    exact hserves.others other hother
  path := by
    rw [hdescs, hdescs']
    exact hserves.path
  tally := by
    rw [hdescs']
    exact hserves.tally.congr (fun other _ => congrFun hdescs' other) hres'
      (fun htrue => hasserted' ▸ htrue)
  asserted := by
    rw [hasserted', hserves.asserted, hasserted]

end Serves

/-! ## Zone management -/

theorem serves_closeZone (haccounted : Accounted zp ftl)
    (hzid : zid < zp.nrZones) :
    Serves zp zrwa zid false ftl (zmgmtSendCloseZone ftl zid).2 := by
  have hopened (hopen : (ftl.zoneDescs zid).state.isOpen = true) :
      Serves zp zrwa zid false ftl
        (releaseZoneResource (changeZoneState ftl zid .closed) .openZone) := by
    have hstep : ZoneStep zp zrwa zid (ftl.zoneDescs zid)
        { ftl.zoneDescs zid with state := .closed } := .closes hopen
    have hactive := ZoneState.isActive_of_isOpen hopen
    have hclosed := (haccounted.tally hzid).changeZoneState .closed
    rw [holds, hactive, hopen] at hclosed
    constructor
    · intro other hother
      exact update_of_ne hother _ _
    · simpa using Relation.ReflTransGen.single hstep
    · simpa [holds] using hclosed.release .openZone rfl
    · rw [hclosed.asserted_release .openZone rfl]
      simp [changeZoneState, modifyZone]
  cases hstate : (ftl.zoneDescs zid).state with
  | openedImpl =>
      simpa only [zmgmtSendCloseZone, hstate] using hopened (by rw [hstate]; rfl)
  | openedExpl =>
      simpa only [zmgmtSendCloseZone, hstate] using hopened (by rw [hstate]; rfl)
  | _ =>
      simpa only [zmgmtSendCloseZone, hstate] using haccounted.refl hzid

/-- The part of `releaseZone` that a closed zone goes through. -/
theorem tally_releaseActive {zrwav : Bool}
    (htally : Tally zp ftl zid (resources true false zrwav)) :
    let ftl' := releaseZoneResource ftl .activeZone
    let ftl' := if zrwav then releaseZoneResource ftl' .zrwaZone else ftl'
    Tally zp ftl' zid (resources false false false) ∧
      ftl'.asserted = ftl.asserted ∧ ftl'.zoneDescs = ftl.zoneDescs := by
  have hactive := htally.release .activeZone rfl
  have hasserted := htally.asserted_release .activeZone rfl
  rw [update_resources_active] at hactive
  cases zrwav with
  | false => exact ⟨hactive, hasserted, rfl⟩
  | true =>
      have hzrwa := hactive.release .zrwaZone rfl
      rw [update_resources_zrwa] at hzrwa
      refine ⟨hzrwa, ?_, rfl⟩
      exact (hactive.asserted_release .zrwaZone rfl).trans hasserted

/-- A zone that is finished or reset gives back all that it holds. -/
theorem tally_releaseZone
    (htally : Tally zp ftl zid (holds (ftl.zoneDescs zid))) :
    Tally zp (releaseZone ftl zid) zid (resources false false false) ∧
      (releaseZone ftl zid).asserted = ftl.asserted ∧
      (releaseZone ftl zid).zoneDescs = ftl.zoneDescs := by
  rw [holds] at htally
  have hopened (hopen : (ftl.zoneDescs zid).state.isOpen = true) :
      let ftl' := releaseZoneResource (releaseZoneResource ftl .openZone)
        .activeZone
      let ftl' := if (ftl.zoneDescs zid).zrwav then
        releaseZoneResource ftl' .zrwaZone else ftl'
      Tally zp ftl' zid (resources false false false) ∧
        ftl'.asserted = ftl.asserted ∧ ftl'.zoneDescs = ftl.zoneDescs := by
    rw [hopen, ZoneState.isActive_of_isOpen hopen, Bool.and_true] at htally
    have hclosed := htally.release .openZone rfl
    rw [update_resources_open] at hclosed
    obtain ⟨hidle, hasserted, hdescs⟩ := tally_releaseActive hclosed
    exact ⟨hidle, hasserted.trans (htally.asserted_release .openZone rfl),
      hdescs⟩
  cases hstate : (ftl.zoneDescs zid).state with
  | openedImpl =>
      simpa only [releaseZone, hstate] using hopened (by rw [hstate]; rfl)
  | openedExpl =>
      simpa only [releaseZone, hstate] using hopened (by rw [hstate]; rfl)
  | closed =>
      rw [hstate] at htally
      simpa only [releaseZone, hstate] using
        tally_releaseActive (by simpa using htally)
  | _ =>
      rw [hstate] at htally
      simpa [releaseZone, hstate] using htally

theorem serves_finishZone (haccounted : Accounted zp ftl)
    (hzid : zid < zp.nrZones) :
    Serves zp zrwa zid false ftl (zmgmtSendFinishZone ftl zid).2 := by
  obtain ⟨hidle, hasserted, hdescs⟩ :=
    tally_releaseZone (haccounted.tally hzid)
  have hfinish (hfrom : (ftl.zoneDescs zid).state = .empty ∨
      (ftl.zoneDescs zid).state.isActive = true) :
      Serves zp zrwa zid false ftl
        (changeZoneState (releaseZone ftl zid) zid .full) := by
    have hstep : ZoneStep zp zrwa zid (ftl.zoneDescs zid)
        { ftl.zoneDescs zid with state := .full } := .finishes hfrom
    constructor
    · intro other hother
      simp [hother, hdescs]
    · simpa [hdescs] using Relation.ReflTransGen.single hstep
    · simpa [holds] using hidle.changeZoneState .full
    · simpa [changeZoneState, modifyZone] using hasserted
  cases hstate : (ftl.zoneDescs zid).state with
  | empty =>
      simpa only [zmgmtSendFinishZone, hstate] using hfinish (.inl hstate)
  | openedImpl | openedExpl | closed =>
      simpa only [zmgmtSendFinishZone, hstate] using
        hfinish (.inr (by rw [hstate]; rfl))
  | _ =>
      simpa only [zmgmtSendFinishZone, hstate] using haccounted.refl hzid

theorem serves_resetZone (haccounted : Accounted zp ftl)
    (hzid : zid < zp.nrZones) :
    Serves zp zrwa zid false ftl (zmgmtSendResetZone zp ftl zid).2 := by
  obtain ⟨hidle, hasserted, hdescs⟩ :=
    tally_releaseZone (haccounted.tally hzid)
  have hreset (hfrom : (ftl.zoneDescs zid).state ≠ .readOnly ∧
      (ftl.zoneDescs zid).state ≠ .offline) :
      Serves zp zrwa zid false ftl (resetZone zp
        (changeZoneState (releaseZone ftl zid) zid .empty) zid) := by
    have hstep : ZoneStep zp zrwa zid (ftl.zoneDescs zid)
        { ftl.zoneDescs zid with
          state := .empty
          wp := (ftl.zoneDescs zid).zslba
          zrwav := false } := .resets hfrom
    constructor
    · intro other hother
      simp [hother, hdescs]
    · simpa [hdescs] using Relation.ReflTransGen.single hstep
    · simpa [holds] using (hidle.changeZoneState .empty).resetZone
    · simpa [changeZoneState, modifyZone] using hasserted
  cases hstate : (ftl.zoneDescs zid).state with
  | readOnly | offline =>
      simpa only [zmgmtSendResetZone, hstate] using haccounted.refl hzid
  | _ =>
      simpa only [zmgmtSendResetZone, hstate] using hreset (by simp [hstate])

/-- A change of state that moves no resource. -/
theorem serves_changeState {state : ZoneState}
    (hstep : ZoneStep zp zrwa zid (ftl.zoneDescs zid)
      { ftl.zoneDescs zid with state := state })
    (htally : Tally zp ftl zid
      (holds { ftl.zoneDescs zid with state := state })) :
    Serves zp zrwa zid false ftl (changeZoneState ftl zid state) := by
  constructor
  · intro other hother
    exact update_of_ne hother _ _
  · simpa using Relation.ReflTransGen.single hstep
  · simpa using htally.changeZoneState state
  · simp [changeZoneState, modifyZone]

theorem serves_offlineZone (haccounted : Accounted zp ftl)
    (hzid : zid < zp.nrZones) :
    Serves zp zrwa zid false ftl (zmgmtSendOfflineZone ftl zid).2 := by
  have htally := haccounted.tally hzid
  cases hstate : (ftl.zoneDescs zid).state with
  | readOnly =>
      simp only [zmgmtSendOfflineZone, hstate]
      refine serves_changeState (.retires hstate) ?_
      simpa [holds, hstate] using htally
  | _ =>
      simpa only [zmgmtSendOfflineZone, hstate] using haccounted.refl hzid

/-- Opening a zone takes an open-zone resource; `ftl'` is the state in which the
zone is already active. -/
theorem serves_open {state : ZoneState}
    (hothers : ∀ other, other ≠ zid →
      ftl'.zoneDescs other = ftl.zoneDescs other)
    (hasserted : ftl'.asserted = ftl.asserted)
    (htally : Tally zp ftl' zid
      (resources true false (ftl'.zoneDescs zid).zrwav))
    (havail : isZoneResourceAvail ftl' .openZone = true)
    (hopen : state.isOpen = true)
    (hstep : ZoneStep zp zrwa zid (ftl.zoneDescs zid)
      { ftl'.zoneDescs zid with state := state }) :
    Serves zp zrwa zid false ftl (changeZoneState
      (acquireZoneResource ftl' .openZone).2 zid state) := by
  have hacquired := htally.acquire .openZone rfl havail
  rw [update_resources_open] at hacquired
  constructor
  · intro other hother
    simpa [hother] using hothers other hother
  · simpa using Relation.ReflTransGen.single hstep
  · simpa [holds, hopen, ZoneState.isActive_of_isOpen hopen] using
      hacquired.changeZoneState state
  · simpa [changeZoneState, modifyZone] using hasserted

theorem openExplicitly_of_avail
    (havail : isZoneResourceAvail ftl .openZone = true) :
    openExplicitly ftl zid = (.success, changeZoneState
      (acquireZoneResource ftl .openZone).2 zid .openedExpl) := by
  simp [openExplicitly, acquire_fst_of_avail havail]

theorem openImplicitly_of_avail
    (havail : isZoneResourceAvail ftl .openZone = true) :
    openImplicitly ftl zid = (.success, changeZoneState
      (acquireZoneResource ftl .openZone).2 zid .openedImpl) := by
  simp [openImplicitly, acquire_fst_of_avail havail]

/-- A closed zone is opened, if an open-zone resource is available. -/
theorem serves_reopen (state : ZoneState) (haccounted : Accounted zp ftl)
    (hzid : zid < zp.nrZones) (hclosed : (ftl.zoneDescs zid).state = .closed)
    (havail : isZoneResourceAvail ftl .openZone = true)
    (hopen : state.isOpen = true) :
    Serves zp zrwa zid false ftl (changeZoneState
      (acquireZoneResource ftl .openZone).2 zid state) := by
  have htally := haccounted.tally hzid
  rw [holds, hclosed] at htally
  exact serves_open (fun _ _ => rfl) rfl (by simpa using htally) havail hopen
    (.opens (.inr (by rw [hclosed]; rfl)) hopen)

/-- An empty zone becomes active before it is opened; `ftl'` is the state in
which the resources of a random write area are already taken. -/
theorem serves_activate (state : ZoneState)
    (hothers : ∀ other, other ≠ zid →
      ftl'.zoneDescs other = ftl.zoneDescs other)
    (hasserted : ftl'.asserted = ftl.asserted)
    (htally : Tally zp ftl' zid
      (resources false false (ftl'.zoneDescs zid).zrwav))
    (hactive : isZoneResourceAvail ftl' .activeZone = true)
    (havail : isZoneResourceAvail ftl' .openZone = true)
    (hopen : state.isOpen = true)
    (hstep : ZoneStep zp zrwa zid (ftl.zoneDescs zid)
      { ftl'.zoneDescs zid with state := state }) :
    isZoneResourceAvail (acquireZoneResource ftl' .activeZone).2
        .openZone = true ∧
      Serves zp zrwa zid false ftl (changeZoneState (acquireZoneResource
        (acquireZoneResource ftl' .activeZone).2 .openZone).2 zid state) := by
  have hacquired := htally.acquire .activeZone rfl hactive
  rw [update_resources_active] at hacquired
  have havail' : isZoneResourceAvail (acquireZoneResource ftl' .activeZone).2
      .openZone = true := by
    rwa [isZoneResourceAvail_acquire_of_ne ftl' _ (by decide)]
  exact ⟨havail', serves_open (by simpa using hothers) (by simpa using hasserted)
    (by simpa using hacquired) havail' hopen (by simpa using hstep)⟩

theorem Accounted.zrwav_of_empty (haccounted : Accounted zp ftl)
    (hempty : (ftl.zoneDescs zid).state = .empty) :
    (ftl.zoneDescs zid).zrwav = false := by
  by_contra hzrwav
  have hactive := (haccounted.shape zid).zrwa (by simpa using hzrwav)
  simp [hempty] at hactive

/-- Opening an empty zone with a random write area. -/
theorem serves_activateZrwa (hallowed : zrwa = true)
    (haccounted : Accounted zp ftl) (hzid : zid < zp.nrZones)
    (hempty : (ftl.zoneDescs zid).state = .empty)
    (hactive : isZoneResourceAvail ftl .activeZone = true)
    (hopen : isZoneResourceAvail ftl .openZone = true)
    (hzrwa : isZoneResourceAvail ftl .zrwaZone = true) :
    let ftl' := modifyZone (acquireZoneResource ftl .zrwaZone).2 zid
      fun desc => { desc with zrwav := true }
    isZoneResourceAvail (acquireZoneResource ftl' .activeZone).2
        .openZone = true ∧
      Serves zp zrwa zid false ftl (changeZoneState (acquireZoneResource
        (acquireZoneResource ftl' .activeZone).2 .openZone).2 zid
        .openedExpl) := by
  have htally := haccounted.tally hzid
  rw [holds, hempty, haccounted.zrwav_of_empty hempty] at htally
  have hacquired := htally.acquire .zrwaZone rfl hzrwa
  rw [update_resources_zrwa] at hacquired
  have hstep : ZoneStep zp zrwa zid (ftl.zoneDescs zid)
      { ftl.zoneDescs zid with state := .openedExpl, zrwav := true } :=
    .opensZrwa hallowed hempty
  apply serves_activate .openedExpl
  · intro other hother
    simp [hother]
  · exact asserted_acquireZoneResource ftl .zrwaZone
  · simpa using hacquired.modifyZone fun desc => { desc with zrwav := true }
  · rwa [← isZoneResourceAvail_acquire_of_ne ftl .zrwaZone (by decide)]
      at hactive
  · rwa [← isZoneResourceAvail_acquire_of_ne ftl .zrwaZone (by decide)]
      at hopen
  · rfl
  · simpa using hstep

theorem serves_openZone (haccounted : Accounted zp ftl)
    (hzid : zid < zp.nrZones) {option : Bool}
    (hallowed : option = true → zrwa = true) :
    Serves zp zrwa zid false ftl (zmgmtSendOpenZone ftl zid option).2 := by
  have htally := haccounted.tally hzid
  cases hstate : (ftl.zoneDescs zid).state with
  | empty =>
      simp only [zmgmtSendOpenZone, hstate]
      split
      · exact haccounted.refl hzid
      rename_i hactive
      split
      · exact haccounted.refl hzid
      rename_i hopen
      split
      · exact haccounted.refl hzid
      rename_i hzrwa
      have hactive := htally.avail_of_not_full hactive
      have hopen := htally.avail_of_not_full hopen
      cases option with
      | false =>
          rw [holds, hstate] at htally
          obtain ⟨havail, hserves⟩ := serves_activate .openedExpl
            (fun _ _ => rfl) rfl
            (by simpa [haccounted.zrwav_of_empty hstate] using htally)
            hactive hopen rfl (.opens (.inl hstate) rfl)
          simpa [openExplicitly_of_avail havail] using hserves
      | true =>
          obtain ⟨havail, hserves⟩ := serves_activateZrwa (hallowed rfl)
            haccounted hzid hstate hactive hopen
            (htally.avail_of_not_full (by simpa using hzrwa))
          simpa [openExplicitly_of_avail havail] using hserves
  | closed =>
      cases havail : isZoneResourceAvail ftl .openZone with
      | false =>
          simpa [zmgmtSendOpenZone, hstate, openExplicitly,
            acquire_of_not_avail havail] using haccounted.refl hzid
      | true =>
          simpa [zmgmtSendOpenZone, hstate, openExplicitly_of_avail havail] using
            serves_reopen _ haccounted hzid hstate havail rfl
  | openedImpl =>
      simp only [zmgmtSendOpenZone, hstate]
      refine serves_changeState (.opens (.inr (by rw [hstate]; rfl)) rfl) ?_
      simpa [holds, hstate] using htally
  | _ =>
      simpa only [zmgmtSendOpenZone, hstate] using haccounted.refl hzid

theorem zoneSize_pgs (zp : ZnsParams) : zp.zoneSize = zp.pgsPerZone * pgsz :=
  (Nat.div_mul_cancel zp.pgsz_dvd).symm

theorem lbasPerZone_eq (zp : ZnsParams) :
    zp.lbasPerZone = zp.pgsPerZone * secsPerPg := by
  rw [ZnsParams.lbasPerZone, zoneSize_pgs, secsz, pgsz, secsPerPg]
  omega

theorem lbasPerZone_pos (zp : ZnsParams) : 0 < zp.lbasPerZone := by
  have hpos := zp.zoneSize_pos
  rw [zoneSize_pgs, pgsz] at hpos
  rw [lbasPerZone_eq, secsPerPg]
  omega

/-- A zone that is full after an explicit flush gives back all it holds. -/
theorem serves_flushFull (haccounted : Accounted zp ftl)
    (hzid : zid < zp.nrZones) {wp : ℕ}
    (hactive : (ftl.zoneDescs zid).state.isActive = true)
    (hzrwav : (ftl.zoneDescs zid).zrwav = true)
    (hstep : ZoneStep zp zrwa zid (ftl.zoneDescs zid)
      { ftl.zoneDescs zid with wp := wp, state := .full }) :
    let ftl' := modifyZone ftl zid fun desc => { desc with wp := wp }
    let ftl' := if (ftl.zoneDescs zid).state ≠ .closed then
      releaseZoneResource ftl' .openZone else ftl'
    let ftl' := releaseZoneResource ftl' .activeZone
    let ftl' := releaseZoneResource ftl' .zrwaZone
    Serves zp zrwa zid false ftl (changeZoneState ftl' zid .full) := by
  have hmoved := (haccounted.tally hzid).modifyZone
    fun desc => { desc with wp := wp }
  rw [holds, hactive, hzrwav, Bool.and_true] at hmoved
  intro ftl₁ ftl₂ ftl₃ ftl₄
  have hclosed : Tally zp ftl₂ zid (resources true false true) ∧
      ftl₂.asserted = ftl.asserted ∧ ftl₂.zoneDescs = ftl₁.zoneDescs := by
    by_cases hstate : (ftl.zoneDescs zid).state = .closed
    · have hftl : ftl₂ = ftl₁ := if_neg (not_not.mpr hstate)
      rw [hstate, (ZoneState.isOpen_states).2.2.2.1] at hmoved
      rw [hftl]
      exact ⟨hmoved, rfl, rfl⟩
    · have hftl : ftl₂ = releaseZoneResource ftl₁ .openZone := if_pos hstate
      have hopen : (ftl.zoneDescs zid).state.isOpen = true := by
        revert hactive hstate
        cases (ftl.zoneDescs zid).state <;> simp
      rw [hopen] at hmoved
      have hreleased := hmoved.release .openZone rfl
      rw [update_resources_open] at hreleased
      rw [hftl]
      exact ⟨hreleased, hmoved.asserted_release .openZone rfl, rfl⟩
  obtain ⟨hclosed, hasserted, hdescs⟩ := hclosed
  obtain ⟨hidle, hasserted', hdescs'⟩ := tally_releaseActive hclosed
  simp only [if_true] at hidle hasserted' hdescs'
  constructor
  · intro other hother
    simp [ftl₄, ftl₃, hdescs, ftl₁, hother]
  · simpa [ftl₄, ftl₃, hdescs, ftl₁] using Relation.ReflTransGen.single hstep
  · simpa [holds] using hidle.changeZoneState .full
  · simpa [changeZoneState, modifyZone] using hasserted'.trans hasserted

theorem serves_flushExplicitly (haccounted : Accounted zp ftl)
    (hzid : zid < zp.nrZones) {slba : ℕ}
    (hzrwav : (ftl.zoneDescs zid).zrwav = true)
    (hwp : (ftl.zoneDescs zid).wp ≤ slba) (hzone : zp.lbaToZone slba = zid)
    (hend : slba < zp.zoneToSlba zid + (ftl.zoneDescs zid).zoneCapacity) :
    Serves zp zrwa zid false ftl (flushExplicitly zp ftl zid slba).2 := by
  have hflush (hactive : (ftl.zoneDescs zid).state.isActive = true) :
      Serves zp zrwa zid false ftl (if slba + 1 =
          zp.zoneToSlba zid + (ftl.zoneDescs zid).zoneCapacity then
        let ftl' := modifyZone ftl zid fun desc => { desc with wp := slba + 1 }
        let ftl' := if (ftl.zoneDescs zid).state ≠ .closed then
          releaseZoneResource ftl' .openZone else ftl'
        let ftl' := releaseZoneResource ftl' .activeZone
        let ftl' := releaseZoneResource ftl' .zrwaZone
        changeZoneState ftl' zid .full
      else modifyZone ftl zid fun desc => { desc with wp := slba + 1 }) := by
    have hstep : ZoneStep zp zrwa zid (ftl.zoneDescs zid) _ :=
      .flushes hactive hzrwav hwp hzone hend
    split
    · rename_i hfull
      rw [ZoneDescriptor.advance, if_pos hfull] at hstep
      exact serves_flushFull haccounted hzid hactive hzrwav hstep
    · rename_i hfull
      rw [ZoneDescriptor.advance, if_neg hfull] at hstep
      constructor
      · intro other hother
        simp [hother]
      · simpa using Relation.ReflTransGen.single hstep
      · simpa [holds] using (haccounted.tally hzid).modifyZone
          fun desc => { desc with wp := slba + 1 }
      · simp [modifyZone]
  unfold flushExplicitly
  cases hstate : (ftl.zoneDescs zid).state with
  | openedExpl | openedImpl | closed =>
      have hserves := hflush (by rw [hstate]; rfl)
      simp only [hstate] at hserves ⊢
      split at hserves
      · rename_i hfull
        simpa only [if_pos hfull] using hserves
      · rename_i hfull
        simpa only [if_neg hfull] using hserves
  | _ =>
      simp only [hstate]
      exact haccounted.refl hzid

/-- A flush that gets past the range check lies between the write pointer and
the end of the zone. -/
theorem flush_range (hshape : ZoneShape zp zid (ftl.zoneDescs zid)) {slba : ℕ}
    (hrange : ¬ (slba < (ftl.zoneDescs zid).wp ∨
      min (predUint64 ((ftl.zoneDescs zid).wp + zp.lbasPerZrwa))
        (predUint64 (zp.zoneToSlba zid + (ftl.zoneDescs zid).zoneCapacity)) <
          slba)) :
    (ftl.zoneDescs zid).wp ≤ slba ∧
      slba < zp.zoneToSlba zid + (ftl.zoneDescs zid).zoneCapacity := by
  have hpos := lbasPerZone_pos zp
  rw [hshape.capacity] at hrange ⊢
  have hend : predUint64 (zp.zoneToSlba zid + zp.lbasPerZone) =
      zp.zoneToSlba zid + zp.lbasPerZone - 1 := predUint64_of_pos (by omega)
  rw [hend] at hrange
  omega

theorem serves_flushExplicitZrwa (haccounted : Accounted zp ftl) {slba : ℕ}
    (hzid : zp.lbaToZone slba < zp.nrZones) :
    Serves zp zrwa (zp.lbaToZone slba) false ftl
      (zmgmtSendFlushExplicitZrwa zp ftl slba).2 := by
  generalize hzone : zp.lbaToZone slba = zid at hzid
  have hrefl : Serves zp zrwa zid false ftl ftl := haccounted.refl hzid
  unfold zmgmtSendFlushExplicitZrwa
  simp only [hzone]
  split
  · exact hrefl
  rename_i hzrwav
  split
  · exact hrefl
  rename_i hrange
  obtain ⟨hwp, hend⟩ := flush_range (haccounted.shape zid) hrange
  split
  · exact hrefl.congr rfl rfl rfl rfl rfl
  · have hserves : Serves zp zrwa zid false (divideBy ftl zp.lbasPerZrwafg) _ :=
      serves_flushExplicitly (haccounted.divideBy _) hzid
        (by simpa [divideBy] using hzrwav) hwp hzone hend
    exact hserves.congr rfl rfl rfl rfl rfl

end NvmeVirt.Zns
