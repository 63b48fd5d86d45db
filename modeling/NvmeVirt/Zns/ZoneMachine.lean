import NvmeVirt.Zns.ZoneFtl

/-!
# The state machine of a zone

What a single zone goes through, whichever command moves it: the transitions of
its state, and how its write pointer follows.  The commands are shown to move
zones along these transitions in the next module.
-/

namespace NvmeVirt.Zns

namespace ZoneState

def isOpen : ZoneState → Bool
  | .openedImpl | .openedExpl => true
  | _ => false

def isActive : ZoneState → Bool
  | .openedImpl | .openedExpl | .closed => true
  | _ => false

@[simp]
theorem isOpen_states :
    isOpen .empty = false ∧ isOpen .openedImpl = true ∧
      isOpen .openedExpl = true ∧ isOpen .closed = false ∧
      isOpen .readOnly = false ∧ isOpen .full = false ∧
      isOpen .offline = false := by
  decide

@[simp]
theorem isActive_states :
    isActive .empty = false ∧ isActive .openedImpl = true ∧
      isActive .openedExpl = true ∧ isActive .closed = true ∧
      isActive .readOnly = false ∧ isActive .full = false ∧
      isActive .offline = false := by
  decide

theorem isOpen_iff {state : ZoneState} :
    state.isOpen = true ↔ state = .openedImpl ∨ state = .openedExpl := by
  cases state <;> simp

theorem isActive_iff {state : ZoneState} :
    state.isActive = true ↔
      state = .openedImpl ∨ state = .openedExpl ∨ state = .closed := by
  cases state <;> simp

theorem isActive_of_isOpen {state : ZoneState} (hopen : state.isOpen = true) :
    state.isActive = true := by
  cases state <;> first | rfl | cases hopen

end ZoneState

/-- The zone as a move of its write pointer leaves it: full if the pointer is at
the end that the code computes. -/
def ZoneDescriptor.advance (zp : ZnsParams) (zid : ℕ) (desc : ZoneDescriptor)
    (wp : ℕ) : ZoneDescriptor :=
  { desc with
    wp := wp
    state := if wp = zp.zoneToSlba zid + desc.zoneCapacity then .full
      else desc.state }

/-- The transitions of a zone; `zrwa` tells whether random write areas may be
opened. -/
inductive ZoneStep (zp : ZnsParams) (zrwa : Bool) (zid : ℕ) :
    ZoneDescriptor → ZoneDescriptor → Prop
  | opens {desc : ZoneDescriptor} {state : ZoneState}
      (hfrom : desc.state = .empty ∨ desc.state.isActive = true)
      (hto : state.isOpen = true) :
      ZoneStep zp zrwa zid desc { desc with state := state }
  | opensZrwa {desc : ZoneDescriptor} (hzrwa : zrwa = true)
      (hfrom : desc.state = .empty) :
      ZoneStep zp zrwa zid desc { desc with state := .openedExpl, zrwav := true }
  | closes {desc : ZoneDescriptor} (hfrom : desc.state.isOpen = true) :
      ZoneStep zp zrwa zid desc { desc with state := .closed }
  | finishes {desc : ZoneDescriptor}
      (hfrom : desc.state = .empty ∨ desc.state.isActive = true) :
      ZoneStep zp zrwa zid desc { desc with state := .full }
  | resets {desc : ZoneDescriptor}
      (hfrom : desc.state ≠ .readOnly ∧ desc.state ≠ .offline) :
      ZoneStep zp zrwa zid desc
        { desc with state := .empty, wp := desc.zslba, zrwav := false }
  | retires {desc : ZoneDescriptor} (hfrom : desc.state = .readOnly) :
      ZoneStep zp zrwa zid desc { desc with state := .offline }
  | writes {desc : ZoneDescriptor} {nrLba : ℕ} (hnr : 0 < nrLba)
      (hmax : nrLba ≤ 2 ^ 16) (hfrom : desc.state.isOpen = true)
      (hplain : desc.zrwav = false)
      (hboundary : checkBoundaryError zp desc.wp nrLba = true) :
      ZoneStep zp zrwa zid desc (desc.advance zp zid (desc.wp + nrLba))
  | writesZrwa {desc : ZoneDescriptor} {elba : ℕ}
      (hfrom : desc.state.isOpen = true) (hzrwa : desc.zrwav = true)
      (hwp : desc.wp ≤ elba) (hzone : zp.lbaToZone elba = zid)
      (hflush : 0 < nrLbasFlush zp zid desc.wp elba) :
      ZoneStep zp zrwa zid desc
        (desc.advance zp zid (desc.wp + nrLbasFlush zp zid desc.wp elba))
  | flushes {desc : ZoneDescriptor} {slba : ℕ}
      (hfrom : desc.state.isActive = true) (hzrwa : desc.zrwav = true)
      (hwp : desc.wp ≤ slba) (hzone : zp.lbaToZone slba = zid)
      (hend : slba < zp.zoneToSlba zid + desc.zoneCapacity) :
      ZoneStep zp zrwa zid desc (desc.advance zp zid (slba + 1))

/-- Any number of transitions. -/
abbrev ZonePath (zp : ZnsParams) (zrwa : Bool) (zid : ℕ) :
    ZoneDescriptor → ZoneDescriptor → Prop :=
  Relation.ReflTransGen (ZoneStep zp zrwa zid)

/-- What transitions keep, paths keep. -/
theorem ZonePath.invariant {zp : ZnsParams} {zrwa : Bool} {zid : ℕ}
    {property : ZoneDescriptor → Prop}
    (hstep : ∀ desc desc', ZoneStep zp zrwa zid desc desc' → property desc →
      property desc')
    {desc desc' : ZoneDescriptor} (hpath : ZonePath zp zrwa zid desc desc')
    (hdesc : property desc) : property desc' := by
  induction hpath with
  | refl => exact hdesc
  | tail _ hlast ih => exact hstep _ _ hlast ih

/-- The start and the capacity of a zone are its geometry; only an active or
full zone has a random write area. -/
structure ZoneShape (zp : ZnsParams) (zid : ℕ) (desc : ZoneDescriptor) :
    Prop where
  zslba : desc.zslba = zid * zp.lbasPerZone
  capacity : desc.zoneCapacity = zp.lbasPerZone
  start : desc.zslba ≤ desc.wp
  zrwa : desc.zrwav = true → desc.state.isActive = true ∨ desc.state = .full

theorem ZoneShape.advance {zp : ZnsParams} {zid : ℕ} {desc : ZoneDescriptor}
    {wp : ℕ} (hshape : ZoneShape zp zid desc) (hwp : desc.wp ≤ wp) :
    ZoneShape zp zid (desc.advance zp zid wp) where
  zslba := hshape.zslba
  capacity := hshape.capacity
  start := hshape.start.trans hwp
  zrwa hzrwav := by
    simp only [ZoneDescriptor.advance]
    split
    · exact .inr rfl
    · exact hshape.zrwa hzrwav

theorem ZoneStep.shape {zp : ZnsParams} {zrwa : Bool} {zid : ℕ}
    {desc desc' : ZoneDescriptor} (hstep : ZoneStep zp zrwa zid desc desc')
    (hshape : ZoneShape zp zid desc) : ZoneShape zp zid desc' := by
  cases hstep with
  | opens _ hto =>
      exact { hshape with
        zrwa := fun _ => .inl (ZoneState.isActive_of_isOpen hto) }
  | opensZrwa => exact { hshape with zrwa := fun _ => .inl rfl }
  | closes => exact { hshape with zrwa := fun _ => .inl rfl }
  | finishes => exact { hshape with zrwa := fun _ => .inr rfl }
  | resets => exact { hshape with start := le_rfl, zrwa := nofun }
  | retires hfrom =>
      refine { hshape with zrwa := fun hzrwav => ?_ }
      have hactive := hshape.zrwa hzrwav
      simp [hfrom, ZoneState.isActive] at hactive
  | writes => exact hshape.advance (Nat.le_add_right _ _)
  | writesZrwa => exact hshape.advance (Nat.le_add_right _ _)
  | flushes _ _ hwp => exact hshape.advance (by omega)

theorem ZonePath.shape {zp : ZnsParams} {zrwa : Bool} {zid : ℕ}
    {desc desc' : ZoneDescriptor} (hpath : ZonePath zp zrwa zid desc desc')
    (hshape : ZoneShape zp zid desc) : ZoneShape zp zid desc' :=
  hpath.invariant (fun _ _ hstep => hstep.shape) hshape

end NvmeVirt.Zns
