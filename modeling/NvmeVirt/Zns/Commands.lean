import NvmeVirt.Zns.ZoneWrites

/-!
# Runs of the zoned FTL

Every command moves zones along their transitions and keeps the balance of the
counters, and so does every run of commands.
-/

namespace NvmeVirt.Zns

open Function Ftl Interleaving

variable {zp : ZnsParams} {zrwa : Bool} {ftl ftl' : ZnsFtl}

/-! ## Zones and block numbers -/

theorem lbaToZone_eq {lba : ℕ} (hlba : lba < zp.nrZones * zp.lbasPerZone) :
    zp.lbaToZone lba = lba / zp.lbasPerZone := by
  have hlt : lba / zp.lbasPerZone < zp.nrZones :=
    (Nat.div_lt_iff_lt_mul (lbasPerZone_pos zp)).mpr hlba
  exact Nat.mod_eq_of_lt (hlt.trans zp.nrZones_lt)

theorem lbaToZone_lt {lba : ℕ} (hlba : lba < zp.nrZones * zp.lbasPerZone) :
    zp.lbaToZone lba < zp.nrZones := by
  rw [lbaToZone_eq hlba]
  exact (Nat.div_lt_iff_lt_mul (lbasPerZone_pos zp)).mpr hlba

theorem lpnToZone_lbaToLpn (zp : ZnsParams) (lba : ℕ) :
    zp.lpnToZone (lbaToLpn lba) = zp.lbaToZone lba := by
  rw [ZnsParams.lpnToZone, ZnsParams.lbaToZone, lbaToLpn, Nat.div_div_eq_div_mul,
    lbasPerZone_eq, Nat.mul_comm secsPerPg]

theorem zoneToSlba_lt {zid : ℕ} (hzid : zid < zp.nrZones) :
    zp.zoneToSlba zid < zp.nrZones * zp.lbasPerZone :=
  calc zp.zoneToSlba zid ≤ zid * zp.lbasPerZone := Nat.mod_le _ _
    _ < zp.nrZones * zp.lbasPerZone :=
      Nat.mul_lt_mul_of_pos_right hzid (lbasPerZone_pos zp)

/-- The blocks of a write that passes the boundary check are in the zone of its
first block. -/
theorem end_le_of_checkBoundaryError {zid slba nrLba : ℕ} (hnr : 0 < nrLba)
    (hmax : nrLba ≤ 2 ^ 16) (hstart : zid * zp.lbasPerZone ≤ slba)
    (hslba : slba < (zid + 1) * zp.lbasPerZone) (hzid : zid < 2 ^ 32)
    (hboundary : checkBoundaryError zp slba nrLba = true) :
    slba + nrLba ≤ (zid + 1) * zp.lbasPerZone := by
  have hpos := lbasPerZone_pos zp
  have hfirst : slba / zp.lbasPerZone = zid := Nat.div_eq_of_lt_le hstart hslba
  have hzone : zp.lbaToZone slba = zp.lbaToZone (slba + nrLba - 1) :=
    of_decide_eq_true hboundary
  rw [ZnsParams.lbaToZone, ZnsParams.lbaToZone, uint32, uint32, hfirst,
    Nat.mod_eq_of_lt hzid] at hzone
  -- The last block is at most 2 ^ 16 zones further, so the zone number that the
  -- code truncates to 32 bits cannot have gone round.
  have hnear : (slba + nrLba - 1) / zp.lbasPerZone ≤ zid + 2 ^ 16 := by
    have hle : slba + nrLba - 1 ≤ slba + 2 ^ 16 * zp.lbasPerZone := by
      have := Nat.le_mul_of_pos_right (2 ^ 16) hpos
      omega
    have := Nat.div_le_div_right (c := zp.lbasPerZone) hle
    rwa [Nat.add_mul_div_right _ _ hpos, hfirst] at this
  have hlt : (slba + nrLba - 1) / zp.lbasPerZone < zid + 1 := by omega
  rw [Nat.div_lt_iff_lt_mul hpos] at hlt
  omega

theorem nrLbasFromRwCmd_pos (length : UInt16) : 0 < nrLbasFromRwCmd length :=
  Nat.succ_pos _

theorem nrLbasFromRwCmd_le (length : UInt16) :
    nrLbasFromRwCmd length ≤ 2 ^ 16 :=
  Nat.succ_le_of_lt length.toNat_lt

/-! ## One command -/

namespace ZnsEvent

/-- The command is addressed to a zone of the namespace. -/
def InNamespace (zp : ZnsParams) : ZnsEvent → Prop
  | .write _ slba _ | .read slba _ | .mgmtSend slba _ _ _ =>
      slba < zp.nrZones * zp.lbasPerZone
  | .release _ => True

/-- The command opens no random write area. -/
def WithoutZrwa : ZnsEvent → Prop
  | .mgmtSend _ action _ zsaso => action = .openZone → zsaso = false
  | _ => True

instance (zp : ZnsParams) : DecidablePred (InNamespace zp)
  | .write _ slba _ | .read slba _ | .mgmtSend slba _ _ _ =>
      inferInstanceAs (Decidable (slba < zp.nrZones * zp.lbasPerZone))
  | .release _ => inferInstanceAs (Decidable True)

instance : DecidablePred WithoutZrwa
  | .mgmtSend _ action _ zsaso =>
      inferInstanceAs (Decidable (action = .openZone → zsaso = false))
  | .write _ _ _ | .read _ _ | .release _ => inferInstanceAs (Decidable True)

end ZnsEvent

/-- What a command may do. -/
structure Moves (zp : ZnsParams) (zrwa leak : Bool) (ftl ftl' : ZnsFtl) :
    Prop where
  accounted : Accounted zp ftl'
  path : ∀ zid, ZonePath zp zrwa zid (ftl.zoneDescs zid) (ftl'.zoneDescs zid)
  asserted : ftl'.asserted = (ftl.asserted && !leak)

theorem Moves.refl (haccounted : Accounted zp ftl) :
    Moves zp zrwa false ftl ftl :=
  ⟨haccounted, fun _ => .refl, by simp⟩

theorem Moves.trans {ftl'' : ZnsFtl} {leak leak' : Bool}
    (hmoves : Moves zp zrwa leak ftl ftl')
    (hmoves' : Moves zp zrwa leak' ftl' ftl'') :
    Moves zp zrwa (leak || leak') ftl ftl'' where
  accounted := hmoves'.accounted
  path zid := (hmoves.path zid).trans (hmoves'.path zid)
  asserted := by
    rw [hmoves'.asserted, hmoves.asserted, Bool.and_assoc, Bool.not_or]

theorem Serves.moves {zid : ℕ} {leak : Bool}
    (hserves : Serves zp zrwa zid leak ftl ftl')
    (haccounted : Accounted zp ftl) (hzid : zid < zp.nrZones) :
    Moves zp zrwa leak ftl ftl' where
  accounted := hserves.accounted haccounted hzid
  path other := by
    by_cases hother : other = zid
    · rw [hother]
      exact hserves.path
    · rw [hserves.others other hother]
  asserted := hserves.asserted

theorem moves_zmgmtSend (haccounted : Accounted zp ftl) {slba : ℕ}
    (hslba : slba < zp.nrZones * zp.lbasPerZone) {action : ZoneAction}
    {option : Bool}
    (hallowed : action = .openZone → option = true → zrwa = true) :
    Moves zp zrwa false ftl (zmgmtSend zp ftl slba action option) := by
  have hzid := lbaToZone_lt hslba
  cases action with
  | closeZone => exact (serves_closeZone haccounted hzid).moves haccounted hzid
  | finishZone =>
      exact (serves_finishZone haccounted hzid).moves haccounted hzid
  | openZone =>
      exact (serves_openZone haccounted hzid (hallowed rfl)).moves haccounted
        hzid
  | resetZone => exact (serves_resetZone haccounted hzid).moves haccounted hzid
  | offlineZone =>
      exact (serves_offlineZone haccounted hzid).moves haccounted hzid
  | flushExplZrwa =>
      exact (serves_flushExplicitZrwa haccounted hzid).moves haccounted hzid
  | unknown => exact .refl haccounted

/-- The command for all zones serves them one after the other. -/
theorem moves_selectAll (haccounted : Accounted zp ftl) {action : ZoneAction}
    {option : Bool}
    (hallowed : action = .openZone → option = true → zrwa = true)
    {zids : List ℕ} (hzids : ∀ zid ∈ zids, zid < zp.nrZones) :
    Moves zp zrwa false ftl (zids.foldl (fun ftl zid =>
      zmgmtSend zp ftl (zp.zoneToSlba zid) action option) ftl) := by
  induction zids generalizing ftl with
  | nil => exact .refl haccounted
  | cons zid rest ih =>
      have hfirst := moves_zmgmtSend haccounted
        (zoneToSlba_lt (hzids zid List.mem_cons_self)) hallowed
      exact hfirst.trans (ih hfirst.accounted fun other hother =>
        hzids other (List.mem_cons_of_mem _ hother))

theorem moves_znsZmgmtSend (haccounted : Accounted zp ftl) {slba : ℕ}
    (hslba : slba < zp.nrZones * zp.lbasPerZone) {action : ZoneAction}
    {selectAll option : Bool}
    (hallowed : action = .openZone → option = true → zrwa = true) :
    Moves zp zrwa false ftl
      (znsZmgmtSend zp ftl slba action selectAll option) := by
  unfold znsZmgmtSend
  split
  · exact moves_selectAll haccounted hallowed fun zid hzid =>
      List.mem_range.mp hzid
  · exact moves_zmgmtSend haccounted hslba hallowed

/-- Whether a command loses the resource of a random write area. -/
def leaks (zp : ZnsParams) (ftl : ZnsFtl) : ZnsEvent → Bool
  | .write _ slba length =>
      (ftl.zoneDescs (zp.lbaToZone slba)).zrwav &&
        WriteFills zp ftl slba (nrLbasFromRwCmd length)
  | _ => false

theorem moves_znsWrite (haccounted : Accounted zp ftl) {append : Bool}
    {slba : ℕ} {length : UInt16} (hslba : slba < zp.nrZones * zp.lbasPerZone)
    {result : WriteResult}
    (hwrite : znsWrite zp ftl append slba (nrLbasFromRwCmd length) =
      some (result, ftl')) :
    Moves zp zrwa (leaks zp ftl (.write append slba length)) ftl ftl' := by
  have hzid := lbaToZone_lt hslba
  have hnr := nrLbasFromRwCmd_pos length
  unfold znsWrite at hwrite
  dsimp only at hwrite
  rw [lpnToZone_lbaToLpn] at hwrite
  cases hzrwav : (ftl.zoneDescs (zp.lbaToZone slba)).zrwav with
  | false =>
      rw [hzrwav] at hwrite
      rw [leaks, hzrwav, Bool.false_and]
      exact (serves_writePlain haccounted hzid hzrwav hnr
        (nrLbasFromRwCmd_le length) hwrite).moves haccounted hzid
  | true =>
      rw [hzrwav] at hwrite
      rw [leaks, hzrwav, Bool.true_and]
      exact (serves_writeZrwa haccounted hzid hzrwav hnr hwrite).moves
        haccounted hzid

theorem moves_runRelease (haccounted : Accounted zp ftl) {index : ℕ}
    (hrun : runRelease ftl index = some ftl') :
    Moves zp zrwa false ftl ftl' := by
  unfold runRelease at hrun
  split at hrun
  · cases hrun
  · cases hrun
    refine ⟨{ haccounted with }, fun _ => .refl, ?_⟩
    simp [setBuffer]

theorem moves_znsStep (haccounted : Accounted zp ftl) {event : ZnsEvent}
    (hevent : event.InNamespace zp)
    (hallowed : zrwa = false → event.WithoutZrwa)
    (hstep : znsStep zp event ftl = some ftl') :
    Moves zp zrwa (leaks zp ftl event) ftl ftl' := by
  cases event with
  | write append slba length =>
      obtain ⟨⟨result, next⟩, hwrite, rfl⟩ := Option.map_eq_some_iff.mp hstep
      exact moves_znsWrite haccounted hevent hwrite
  | read slba length =>
      cases hstep
      exact .refl haccounted
  | mgmtSend slba action selectAll zsaso =>
      cases hstep
      refine moves_znsZmgmtSend haccounted hevent fun haction hzsaso => ?_
      by_contra hzrwa
      have hzero := hallowed (by simpa using hzrwa) haction
      rw [hzsaso] at hzero
      cases hzero
  | release index => exact moves_runRelease haccounted hstep

theorem accounted_znsInitFtl (zp : ZnsParams) :
    Accounted zp (znsInitFtl zp) := by
  have hholders : ∀ type, holders zp (znsInitFtl zp) type = 0 := by
    intro type
    rw [holders, Finset.card_eq_zero, Finset.filter_eq_empty_iff]
    intro zid _
    cases type <;> simp [holds, resources, znsInitFtl]
  refine ⟨fun _ => rfl, fun _ => Nat.zero_le _, fun type => ?_, fun type _ => ?_,
    fun zid => ⟨rfl, rfl, le_rfl, by simp [znsInitFtl]⟩⟩
  · rw [hholders]
    exact Nat.zero_le _
  · rw [hholders]
    rfl

end NvmeVirt.Zns
