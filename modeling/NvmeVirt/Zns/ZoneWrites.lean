import NvmeVirt.Zns.Resources

/-!
# Zone writes

A write to a zone keeps the balance of the counters, with or without a random
write area; one that fills a zone with a random write area leaks its resource.
-/

namespace NvmeVirt.Zns

open Function Ftl

variable {zp : ZnsParams} {zrwa : Bool} {ftl ftl' : ZnsFtl} {zid : ℕ}

theorem Accounted.setBuffer (haccounted : Accounted zp ftl) (buffer : BufferId)
    (buf : Buffer) : Accounted zp (setBuffer ftl buffer buf) :=
  { haccounted with }

/-- A zone without the resource of its random write area is balanced again,
after a failed assertion. -/
theorem Tally.dropZrwa {active opened zrwav : Bool}
    (htally : Tally zp ftl zid (resources active opened zrwav)) :
    Tally zp { ftl with asserted := ftl.asserted && !zrwav } zid
      (resources active opened false) where
  total := htally.total
  bounded := htally.bounded
  covers type := by
    have hcovers := htally.covers type
    cases type with
    | activeZone => exact hcovers
    | openZone => exact hcovers
    | zrwaZone => exact (Nat.le_add_right _ _).trans hcovers
  exactly type hexact := by
    have hexactly := htally.exactly type fun htype => by
      simpa using (Bool.and_eq_true_iff.mp (hexact htype)).1
    cases type with
    | activeZone => exact hexactly
    | openZone => exact hexactly
    | zrwaZone =>
        have hzrwav := (Bool.and_eq_true_iff.mp (hexact rfl)).2
        rw [Bool.not_eq_true'] at hzrwav
        rw [hzrwav] at hexactly
        exact hexactly

/-- A write that moves the write pointer of an open zone leaks if it makes a
zone with a random write area full. -/
theorem serves_increaseWritePtr (haccounted : Accounted zp ftl)
    (hzid : zid < zp.nrZones) {nrLba : ℕ}
    (hopen : (ftl.zoneDescs zid).state.isOpen = true)
    (hstep : ZoneStep zp zrwa zid (ftl.zoneDescs zid)
      ((ftl.zoneDescs zid).advance zp zid
        ((ftl.zoneDescs zid).wp + nrLba))) :
    Serves zp zrwa zid ((ftl.zoneDescs zid).zrwav &&
        ((ftl.zoneDescs zid).wp + nrLba =
          zp.zoneToSlba zid + (ftl.zoneDescs zid).zoneCapacity)) ftl
      (increaseWritePtr zp ftl zid nrLba) := by
  have htally := (haccounted.tally hzid).modifyZone
    fun desc => { desc with wp := (ftl.zoneDescs zid).wp + nrLba }
  have hactive := ZoneState.isActive_of_isOpen hopen
  rw [holds, hopen, hactive, Bool.and_true] at htally
  unfold increaseWritePtr
  simp only [zoneDescs_modifyZone, update_self]
  split
  · rename_i hfull
    have hreleased := htally.release .openZone rfl
    rw [update_resources_open] at hreleased
    have hidle := hreleased.release .activeZone rfl
    rw [update_resources_active] at hidle
    have hasserted := (hreleased.asserted_release .activeZone rfl).trans
      (htally.asserted_release .openZone rfl)
    rw [ZoneDescriptor.advance, if_pos hfull] at hstep
    constructor
    · intro other hother
      simp [hother]
    · simpa using Relation.ReflTransGen.single hstep
    · have hdropped := hidle.dropZrwa
      simpa [holds] using hdropped.changeZoneState .full
    · rw [decide_eq_true hfull, Bool.and_true]
      exact congrArg (· && !(ftl.zoneDescs zid).zrwav) hasserted
  · rename_i hfull
    rw [ZoneDescriptor.advance, if_neg hfull] at hstep
    constructor
    · intro other hother
      simp [hother]
    · simpa using Relation.ReflTransGen.single hstep
    · simpa [holds, hopen, hactive] using htally
    · simp [modifyZone, hfull]

/-- A zone is ready for a write: it is open, and nothing but its state has
changed. -/
structure Prepared (zp : ZnsParams) (zrwa : Bool) (zid : ℕ)
    (ftl ftl' : ZnsFtl) : Prop where
  serves : Serves zp zrwa zid false ftl ftl'
  isOpen : (ftl'.zoneDescs zid).state.isOpen = true
  wp : (ftl'.zoneDescs zid).wp = (ftl.zoneDescs zid).wp
  zrwav : (ftl'.zoneDescs zid).zrwav = (ftl.zoneDescs zid).zrwav

theorem prepared_of_change {ftl₁ : ZnsFtl} {state : ZoneState}
    (hserves : Serves zp zrwa zid false ftl (changeZoneState ftl₁ zid state))
    (hdescs : ftl₁.zoneDescs = ftl.zoneDescs) (hopen : state.isOpen = true) :
    Prepared zp zrwa zid ftl (changeZoneState ftl₁ zid state) := by
  refine ⟨hserves, ?_, ?_, ?_⟩
  · simpa using hopen
  · simp [hdescs]
  · simp [hdescs]

/-- A write that is refused for the state of its zone has not touched it. -/
theorem prepareZone_spec (zrwa : Bool) (haccounted : Accounted zp ftl)
    (hzid : zid < zp.nrZones) (slba : ℕ) :
    ((prepareZone ftl zid slba).1 ≠ .success ∧
        (prepareZone ftl zid slba).2 = ftl) ∨
      ((prepareZone ftl zid slba).1 = .success ∧
        Prepared zp zrwa zid ftl (prepareZone ftl zid slba).2) := by
  have htally := haccounted.tally hzid
  cases hstate : (ftl.zoneDescs zid).state with
  | empty =>
      simp only [prepareZone, hstate]
      split
      · exact .inl ⟨by simp, rfl⟩
      split
      · exact .inl ⟨by simp, rfl⟩
      rename_i hactive
      split
      · exact .inl ⟨by simp, rfl⟩
      rename_i hopen
      have hactive := htally.avail_of_not_full hactive
      have hopen := htally.avail_of_not_full hopen
      rw [holds, hstate] at htally
      obtain ⟨havail, hserves⟩ := serves_activate .openedImpl
        (fun _ _ => rfl) rfl
        (by simpa [haccounted.zrwav_of_empty hstate] using htally)
        hactive hopen rfl (.opens (.inl hstate) rfl)
      rw [openImplicitly_of_avail havail]
      exact .inr ⟨rfl, prepared_of_change hserves (by simp) rfl⟩
  | closed =>
      simp only [prepareZone, hstate]
      cases havail : isZoneResourceAvail ftl .openZone with
      | false =>
          rw [openImplicitly, acquire_of_not_avail havail]
          exact .inl ⟨by simp, rfl⟩
      | true =>
          rw [openImplicitly_of_avail havail]
          exact .inr ⟨rfl, prepared_of_change
            (serves_reopen _ haccounted hzid hstate havail rfl) (by simp) rfl⟩
  | openedImpl | openedExpl =>
      have hready : prepareZone ftl zid slba = (.success, ftl) := by
        simp only [prepareZone, hstate]
      rw [hready]
      exact .inr ⟨rfl, haccounted.refl hzid, by rw [hstate]; rfl, rfl, rfl⟩
  | full | readOnly | offline =>
      refine .inl ⟨?_, ?_⟩
      · simp [prepareZone, hstate]
      · simp only [prepareZone, hstate]

theorem checkWrite_eq_success {slba nrLba : ℕ}
    (hcheck : checkWrite zp ftl zid slba nrLba = .success) :
    lbaToByte nrLba % zp.writeUnitSize = 0 ∧
      checkBoundaryError zp slba nrLba = true ∧
      slba = (ftl.zoneDescs zid).wp := by
  unfold checkWrite at hcheck
  split at hcheck
  · cases hcheck
  split at hcheck
  · cases hcheck
  split at hcheck
  · cases hcheck
  simp_all

/-- A write to a zone without a random write area: it is refused and leaves the
zones and the counters alone, or it opens the zone and moves its write
pointer. -/
theorem writeReserved_spec (zrwa : Bool) (haccounted : Accounted zp ftl)
    (hzid : zid < zp.nrZones) (hplain : (ftl.zoneDescs zid).zrwav = false)
    {slba nrLba : ℕ} (hnr : 0 < nrLba) (hmax : nrLba ≤ 2 ^ 16) :
    ((writeReserved zp ftl zid slba nrLba).1 ≠ .success ∧
        (writeReserved zp ftl zid slba nrLba).2 = ftl) ∨
      ((writeReserved zp ftl zid slba nrLba).1 = .success ∧
        Serves zp zrwa zid false ftl (writeReserved zp ftl zid slba nrLba).2) := by
  unfold writeReserved
  split
  · rename_i hcheck
    obtain ⟨-, hboundary, rfl⟩ := checkWrite_eq_success hcheck
    rcases prepareZone_spec zrwa haccounted hzid (ftl.zoneDescs zid).wp with
      ⟨hstatus, hftl⟩ | ⟨hstatus, hprepared⟩
    · left
      split
      · rename_i heq
        rw [heq] at hstatus
        exact absurd rfl hstatus
      · rename_i heq
        rw [heq] at hstatus hftl
        exact ⟨hstatus, hftl⟩
    · right
      split
      · rename_i ftl₁ heq
        rw [heq] at hprepared
        have hzrwav := hprepared.zrwav.trans hplain
        have hmoved := hprepared.serves.trans (serves_increaseWritePtr
          (hprepared.serves.accounted haccounted hzid) hzid hprepared.isOpen
          (.writes hnr hmax hprepared.isOpen hzrwav
            (hprepared.wp ▸ hboundary)))
        rw [hzrwav, Bool.false_and, Bool.or_false] at hmoved
        exact ⟨rfl, hmoved.congr rfl rfl rfl rfl rfl⟩
      · rename_i hne heq
        rw [heq] at hstatus
        exact absurd hstatus (by simpa using hne)
  · rename_i hne
    exact .inl ⟨by simpa using hne, rfl⟩

/-- The block at which `__zns_write` starts. -/
def startLba (zp : ZnsParams) (ftl : ZnsFtl) (append : Bool) (slba : ℕ) : ℕ :=
  if append then (ftl.zoneDescs (zp.lbaToZone slba)).wp else slba

/-- The state in which `__zns_write` has taken its buffer space. -/
def reserve (zp : ZnsParams) (ftl : ZnsFtl) (zid nrLba : ℕ) : ZnsFtl :=
  let buf := ftl.buffers (writeBufferOf zp zid)
  setBuffer ftl (writeBufferOf zp zid)
    { buf with remaining := buf.remaining - lbaToByte nrLba }

/-- A write is put off for lack of buffer space, or goes on with the space it
has reserved. -/
theorem znsWritePlain_cases {append : Bool} {slba nrLba : ℕ}
    {result : WriteResult}
    (hwrite : znsWritePlain zp ftl append slba nrLba = some (result, ftl')) :
    (result = .putOff ∧ ftl' = ftl) ∨
      (lbaToByte nrLba ≤
          (ftl.buffers (writeBufferOf zp (zp.lbaToZone slba))).remaining ∧
        (result, ftl') = Prod.map WriteResult.done id (writeReserved zp
          (reserve zp ftl (zp.lbaToZone slba) nrLba) (zp.lbaToZone slba)
          (startLba zp ftl append slba) nrLba)) := by
  unfold znsWritePlain at hwrite
  dsimp only at hwrite
  cases hsome : bufferAllocate
      (ftl.buffers (writeBufferOf zp (zp.lbaToZone slba)))
      (lbaToByte nrLba) with
  | none =>
      rw [hsome] at hwrite
      cases hwrite
  | some found =>
      obtain ⟨allocated, buf⟩ := found
      rw [hsome] at hwrite
      dsimp only at hwrite
      obtain ⟨-, ⟨hlt, rfl, rfl⟩ | ⟨hle, rfl, rfl⟩⟩ :=
        bufferAllocate_cases hsome
      · rw [if_pos (by omega)] at hwrite
        cases hwrite
        exact .inl ⟨rfl, by rw [setBuffer, update_eq_self]⟩
      · rw [if_neg (lt_irrefl _)] at hwrite
        cases hwrite
        exact .inr ⟨hle, rfl⟩

theorem serves_writePlain (haccounted : Accounted zp ftl) {append : Bool}
    {slba nrLba : ℕ} {result : WriteResult}
    (hzid : zp.lbaToZone slba < zp.nrZones)
    (hplain : (ftl.zoneDescs (zp.lbaToZone slba)).zrwav = false)
    (hnr : 0 < nrLba) (hmax : nrLba ≤ 2 ^ 16)
    (hwrite : znsWritePlain zp ftl append slba nrLba = some (result, ftl')) :
    Serves zp zrwa (zp.lbaToZone slba) false ftl ftl' := by
  rcases znsWritePlain_cases hwrite with ⟨-, rfl⟩ | ⟨-, heq⟩
  · exact haccounted.refl hzid
  · have hftl := congrArg Prod.snd heq
    dsimp only [Prod.map_snd, id] at hftl
    have hreserved : Accounted zp (reserve zp ftl (zp.lbaToZone slba) nrLba) :=
      haccounted.setBuffer _ _
    rcases writeReserved_spec zrwa hreserved hzid hplain hnr hmax with
      ⟨-, hsame⟩ | ⟨-, hserves⟩
    · rw [hftl, hsame]
      exact (haccounted.refl hzid).congr rfl rfl rfl rfl rfl
    · rw [hftl]
      exact hserves.congr rfl rfl rfl rfl rfl

/-! ## Writes to a random write area -/

/-- There is always a resource to open a closed zone. -/
theorem Accounted.avail_of_closed (haccounted : Accounted zp ftl)
    (hzid : zid < zp.nrZones)
    (hclosed : (ftl.zoneDescs zid).state = .closed) :
    isZoneResourceAvail ftl .openZone = true := by
  have hacquired := haccounted.exactly .openZone nofun
  have hothers : otherHolders zp ftl zid .openZone < zp.nrZones := by
    have hcard : ((Finset.range zp.nrZones).erase zid).card = zp.nrZones - 1 := by
      rw [Finset.card_erase_of_mem (Finset.mem_range.mpr hzid),
        Finset.card_range]
    have := Finset.card_filter_le ((Finset.range zp.nrZones).erase zid)
      fun other => holds (ftl.zoneDescs other) .openZone = true
    rw [otherHolders]
    omega
  have hclosed' : holds (ftl.zoneDescs zid) .openZone = false := by
    simp [holds, hclosed, resources]
  rw [holders_eq hzid, hclosed', Bool.toNat_false] at hacquired
  simp only [isZoneResourceAvail, decide_eq_true_eq, haccounted.total]
  omega

/-- The buffer space that a write to a random write area needs to open its
zone. -/
def openingBytes (zp : ZnsParams) (ftl : ZnsFtl) (zid : ℕ) : ℕ :=
  if (ftl.zoneDescs zid).state = .closed then zp.zrwaSize else 0

/-- The buffer of a random write area once the zone is open. -/
def bufferAfterOpening (zp : ZnsParams) (ftl : ZnsFtl) (zid : ℕ) : Buffer :=
  let buf := ftl.buffers (.zrwa zid)
  { buf with remaining := buf.remaining - openingBytes zp ftl zid }

/-- A zone with a random write area is refused or prepared. -/
theorem prepareZrwaZone_spec (zrwa : Bool) (haccounted : Accounted zp ftl)
    (hzid : zid < zp.nrZones) (hzrwav : (ftl.zoneDescs zid).zrwav = true)
    {status : Status}
    (hprepare : prepareZrwaZone zp ftl zid = some (status, ftl')) :
    (status ≠ .success ∧ ftl' = ftl ∧
        (ftl.zoneDescs zid).state.isActive = false) ∨
      (status = .success ∧ Prepared zp zrwa zid ftl ftl' ∧
        (ftl.zoneDescs zid).state.isActive = true ∧
        openingBytes zp ftl zid ≤ (ftl.buffers (.zrwa zid)).size ∧
        ftl'.buffers (.zrwa zid) = bufferAfterOpening zp ftl zid) := by
  have hactive := (haccounted.shape zid).zrwa hzrwav
  cases hstate : (ftl.zoneDescs zid).state with
  | empty | readOnly | offline => simp [hstate] at hactive
  | full =>
      simp only [prepareZrwaZone, hstate] at hprepare
      cases hprepare
      exact .inl ⟨nofun, rfl, rfl⟩
  | openedImpl | openedExpl =>
      simp only [prepareZrwaZone, hstate] at hprepare
      cases hprepare
      refine .inr ⟨rfl, ⟨haccounted.refl hzid, ?_, rfl, rfl⟩, rfl, ?_, ?_⟩
      · rw [hstate]
        rfl
      · simp [openingBytes, hstate]
      · simp [bufferAfterOpening, openingBytes, hstate]
  | closed =>
      have havail := haccounted.avail_of_closed hzid hstate
      simp only [prepareZrwaZone, hstate, acquire_fst_of_avail havail,
        Bool.not_true, Bool.false_eq_true, if_false,
        buffers_acquireZoneResource] at hprepare
      cases hsome : bufferAllocate (ftl.buffers (.zrwa zid)) zp.zrwaSize with
      | none =>
          rw [hsome] at hprepare
          cases hprepare
      | some found =>
          obtain ⟨allocated, buf⟩ := found
          rw [hsome] at hprepare
          dsimp only at hprepare
          split at hprepare
          · cases hprepare
          rename_i hallocated
          cases hprepare
          have hserves : Serves zp zrwa zid false ftl _ :=
            serves_reopen .openedImpl haccounted hzid hstate havail rfl
          obtain ⟨hsize, ⟨-, rfl, -⟩ | ⟨-, -, rfl⟩⟩ :=
            bufferAllocate_cases hsome
          · exact absurd rfl hallocated
          refine .inr ⟨rfl, ?_, rfl, ?_, ?_⟩
          · exact prepared_of_change (hserves.congr rfl rfl rfl rfl rfl)
              (by simp) rfl
          · simpa [openingBytes, hstate] using hsize
          · simp [bufferAfterOpening, openingBytes, hstate, changeZoneState,
              modifyZone, setBuffer]

/-- Whether the flush of a write makes its zone full, with the buffer as it is
when the zone is open. -/
def FlushFills (zp : ZnsParams) (desc : ZoneDescriptor) (buf : Buffer)
    (zid elba : ℕ) : Prop :=
  0 < nrLbasFlush zp zid desc.wp elba ∧
    lbaToByte (nrLbasFlush zp zid desc.wp elba) ≤ buf.size ∧
    lbaToByte (nrLbasFlush zp zid desc.wp elba) ≤ buf.remaining ∧
    desc.wp + nrLbasFlush zp zid desc.wp elba =
      zp.zoneToSlba zid + desc.zoneCapacity

instance (zp : ZnsParams) (desc : ZoneDescriptor) (buf : Buffer)
    (zid elba : ℕ) : Decidable (FlushFills zp desc buf zid elba) :=
  inferInstanceAs (Decidable (_ ∧ _ ∧ _ ∧ _))

theorem divideForFlush_cases (zp : ZnsParams) (ftl : ZnsFtl) (wp elba : ℕ) :
    divideForFlush zp ftl wp elba = ftl ∨
      divideForFlush zp ftl wp elba = divideBy ftl zp.lbasPerZrwafg := by
  unfold divideForFlush
  split
  · exact .inr rfl
  · exact .inl rfl

@[simp]
theorem zoneDescs_divideForFlush (zp : ZnsParams) (ftl : ZnsFtl)
    (wp elba : ℕ) :
    (divideForFlush zp ftl wp elba).zoneDescs = ftl.zoneDescs := by
  rcases divideForFlush_cases zp ftl wp elba with hftl | hftl
  · rw [hftl]
  · rw [hftl, divideBy]

@[simp]
theorem buffers_divideForFlush (zp : ZnsParams) (ftl : ZnsFtl) (wp elba : ℕ) :
    (divideForFlush zp ftl wp elba).buffers = ftl.buffers := by
  rcases divideForFlush_cases zp ftl wp elba with hftl | hftl
  · rw [hftl]
  · rw [hftl, divideBy]

@[simp]
theorem resInfos_divideForFlush (zp : ZnsParams) (ftl : ZnsFtl) (wp elba : ℕ) :
    (divideForFlush zp ftl wp elba).resInfos = ftl.resInfos := by
  rcases divideForFlush_cases zp ftl wp elba with hftl | hftl
  · rw [hftl]
  · rw [hftl, divideBy]

/-- The flush of a write leaks if it makes the zone full. -/
theorem flushZrwa_spec (zrwa : Bool) (haccounted : Accounted zp ftl)
    (hzid : zid < zp.nrZones) {elba : ℕ} {result : WriteResult}
    (hopen : (ftl.zoneDescs zid).state.isOpen = true)
    (hzrwav : (ftl.zoneDescs zid).zrwav = true)
    (hwp : (ftl.zoneDescs zid).wp ≤ elba) (hzone : zp.lbaToZone elba = zid)
    (hflush : flushZrwa zp ftl zid (ftl.zoneDescs zid).wp elba =
      some (result, ftl')) :
    Serves zp zrwa zid (FlushFills zp (ftl.zoneDescs zid)
      (ftl.buffers (.zrwa zid)) zid elba) ftl ftl' := by
  unfold flushZrwa at hflush
  dsimp only at hflush
  split at hflush
  · rename_i hzero
    cases hflush
    have hfills : ¬ FlushFills zp (ftl.zoneDescs zid)
        (ftl.buffers (.zrwa zid)) zid elba :=
      fun hfills => hfills.1.ne' hzero
    rw [decide_eq_false hfills]
    exact haccounted.refl hzid
  rename_i hpos
  have hpos := Nat.pos_of_ne_zero hpos
  cases hsome : bufferAllocate (ftl.buffers (.zrwa zid))
      (lbaToByte (nrLbasFlush zp zid (ftl.zoneDescs zid).wp elba)) with
  | none =>
      rw [hsome] at hflush
      cases hflush
  | some found =>
      obtain ⟨allocated, buf⟩ := found
      rw [hsome] at hflush
      dsimp only at hflush
      obtain ⟨hsize, ⟨hlt, rfl, rfl⟩ | ⟨hle, rfl, -⟩⟩ :=
        bufferAllocate_cases hsome
      · rw [if_pos rfl] at hflush
        cases hflush
        have hfills : ¬ FlushFills zp (ftl.zoneDescs zid)
            (ftl.buffers (.zrwa zid)) zid elba :=
          fun hfills => hfills.2.2.1.not_gt hlt
        rw [decide_eq_false hfills]
        exact haccounted.refl hzid
      · have hbytes : lbaToByte (nrLbasFlush zp zid (ftl.zoneDescs zid).wp
            elba) ≠ 0 := by
          rw [lbaToByte, secsz]
          omega
        rw [if_neg hbytes] at hflush
        cases hflush
        have hserves : Serves zp zrwa zid _ (setBuffer ftl (.zrwa zid) buf) _ :=
          serves_increaseWritePtr (haccounted.setBuffer (.zrwa zid) buf) hzid
            hopen (.writesZrwa hopen hzrwav hwp hzone hpos)
        rw [zoneDescs_setBuffer, hzrwav, Bool.true_and] at hserves
        have hfills : FlushFills zp (ftl.zoneDescs zid)
            (ftl.buffers (.zrwa zid)) zid elba ↔
            (ftl.zoneDescs zid).wp +
                nrLbasFlush zp zid (ftl.zoneDescs zid).wp elba =
              zp.zoneToSlba zid + (ftl.zoneDescs zid).zoneCapacity :=
          ⟨fun hfills => hfills.2.2.2, fun hend => ⟨hpos, hsize, hle, hend⟩⟩
        rw [decide_eq_decide.mpr hfills]
        exact hserves.congr rfl rfl rfl rfl rfl

theorem checkWriteZrwa_eq_success {slba nrLba : ℕ} :
    checkWriteZrwa zp ftl zid slba nrLba = .success ↔
      lbaToByte nrLba % zp.writeUnitSize = 0 ∧
        checkBoundaryError zp slba nrLba = true ∧
        (ftl.zoneDescs zid).wp ≤ slba ∧ slba + nrLba - 1 ≤
          predUint64 ((ftl.zoneDescs zid).wp + 2 * zp.lbasPerZrwa) := by
  unfold checkWriteZrwa
  dsimp only
  split
  · simp_all
  split
  · simp_all
  split
  · simp only [reduceCtorEq, false_iff, not_and]
    omega
  · simp_all

/-- Whether a write fills a zone with a random write area. -/
def WriteFills (zp : ZnsParams) (ftl : ZnsFtl) (slba nrLba : ℕ) : Prop :=
  let zid := zp.lbaToZone slba
  checkWriteZrwa zp ftl zid slba nrLba = .success ∧
    (ftl.zoneDescs zid).state.isActive = true ∧
    openingBytes zp ftl zid ≤ (ftl.buffers (.zrwa zid)).size ∧
    FlushFills zp (ftl.zoneDescs zid) (bufferAfterOpening zp ftl zid) zid
      (slba + nrLba - 1)

instance (zp : ZnsParams) (ftl : ZnsFtl) (slba nrLba : ℕ) :
    Decidable (WriteFills zp ftl slba nrLba) :=
  inferInstanceAs (Decidable (_ ∧ _ ∧ _ ∧ _))

/-- A write to a random write area leaks if it fills the zone. -/
theorem serves_writeZrwa (haccounted : Accounted zp ftl) {slba nrLba : ℕ}
    {result : WriteResult} (hzid : zp.lbaToZone slba < zp.nrZones)
    (hzrwav : (ftl.zoneDescs (zp.lbaToZone slba)).zrwav = true)
    (hnr : 0 < nrLba)
    (hwrite : znsWriteZrwa zp ftl slba nrLba = some (result, ftl')) :
    Serves zp zrwa (zp.lbaToZone slba) (WriteFills zp ftl slba nrLba) ftl
      ftl' := by
  have hrefl (hfills : ¬ WriteFills zp ftl slba nrLba) :
      Serves zp zrwa (zp.lbaToZone slba) (WriteFills zp ftl slba nrLba) ftl
        ftl := by
    rw [decide_eq_false hfills]
    exact haccounted.refl hzid
  unfold znsWriteZrwa at hwrite
  dsimp only at hwrite
  split at hwrite
  · rename_i hcheck
    obtain ⟨-, hboundary, hwp, -⟩ := checkWriteZrwa_eq_success.mp hcheck
    have hzone := of_decide_eq_true hboundary
    cases hprepare : prepareZrwaZone zp ftl (zp.lbaToZone slba) with
    | none =>
        rw [hprepare] at hwrite
        cases hwrite
    | some found =>
        obtain ⟨status, ftl₁⟩ := found
        rw [hprepare] at hwrite
        rcases prepareZrwaZone_spec zrwa haccounted hzid hzrwav hprepare with
          ⟨hstatus, rfl, hidle⟩ | ⟨rfl, hprepared, hactive, hsize, hbuf⟩
        · have hfills : ¬ WriteFills zp ftl₁ slba nrLba := by
            rintro ⟨-, hactive, -⟩
            rw [hidle] at hactive
            cases hactive
          cases status <;> first
            | exact absurd rfl hstatus
            | cases hwrite; exact hrefl hfills
        · dsimp only at hwrite
          rw [← hprepared.wp] at hwrite
          have haccounted' := hprepared.serves.accounted haccounted hzid
          have hserves : Serves zp zrwa (zp.lbaToZone slba)
              (FlushFills zp (ftl₁.zoneDescs (zp.lbaToZone slba))
                (ftl₁.buffers (.zrwa (zp.lbaToZone slba))) (zp.lbaToZone slba)
                (slba + nrLba - 1)) ftl₁ ftl' := by
            have hzrwav₁ := hprepared.zrwav.trans hzrwav
            have hwp₁ : (ftl₁.zoneDescs (zp.lbaToZone slba)).wp ≤
                slba + nrLba - 1 := by
              rw [hprepared.wp]
              omega
            rcases divideForFlush_cases zp ftl₁
              (ftl₁.zoneDescs (zp.lbaToZone slba)).wp (slba + nrLba - 1) with
              hftl | hftl
            · rw [hftl] at hwrite
              exact flushZrwa_spec zrwa haccounted' hzid hprepared.isOpen
                hzrwav₁ hwp₁ hzone.symm hwrite
            · rw [hftl] at hwrite
              exact (flushZrwa_spec zrwa (haccounted'.divideBy _) hzid
                hprepared.isOpen hzrwav₁ hwp₁ hzone.symm hwrite).congr
                  rfl rfl rfl rfl rfl
          have hfills : FlushFills zp (ftl₁.zoneDescs (zp.lbaToZone slba))
              (ftl₁.buffers (.zrwa (zp.lbaToZone slba))) (zp.lbaToZone slba)
              (slba + nrLba - 1) ↔
              WriteFills zp ftl slba nrLba := by
            rw [WriteFills, FlushFills, FlushFills, hprepared.wp,
              (haccounted'.shape _).capacity, (haccounted.shape _).capacity,
              hbuf]
            exact ⟨fun hfills => ⟨hcheck, hactive, hsize, hfills⟩,
              fun hfills => hfills.2.2.2⟩
          have htrans := hprepared.serves.trans hserves
          rwa [Bool.false_or, decide_eq_decide.mpr hfills] at htrans
  · rename_i hcheck
    have hfills : ¬ WriteFills zp ftl slba nrLba := fun hfills =>
      hcheck hfills.1
    cases hwrite
    exact hrefl hfills

end NvmeVirt.Zns
