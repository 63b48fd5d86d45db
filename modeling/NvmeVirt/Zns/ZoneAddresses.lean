import NvmeVirt.Zns.ZrwaResources

/-!
# Zone numbers and block numbers

The descriptors of the zones are set up by adding up block numbers with 64
bits.  The helpers that find the first and the last block of a zone multiply
with 32 bits and widen the product afterwards.  The two agree as long as no
zone starts at or beyond block 2 ^ 32.
-/

namespace NvmeVirt.Zns

open Function

variable {zp : ZnsParams} {zid : ℕ}

/-! ## The descriptors -/

/-- `BYTE_TO_LBA` with `LBA_BITS` 9. -/
def byteToLba (bytes : ℕ) : ℕ := bytes >>> 9

/-- One round of the loop of `__init_descriptor`, with `zslba` beside the
descriptors. -/
def initDescriptorStep (zp : ZnsParams) (loop : (ℕ → ZoneDescriptor) × ℕ)
    (i : ℕ) : (ℕ → ZoneDescriptor) × ℕ :=
  let zslba := loop.2
  (update loop.1 i
      { state := .empty
        zrwav := false
        zoneCapacity := byteToLba zp.zoneSize
        zslba := zslba
        wp := zslba },
    (zslba + byteToLba zp.zoneSize) % 2 ^ 64)

/-- `__init_descriptor`; `zeroed` are the descriptors that `kzalloc` returns. -/
def initDescriptor (zp : ZnsParams) (zeroed : ℕ → ZoneDescriptor) :
    ℕ → ZoneDescriptor :=
  ((List.range zp.nrZones).foldl (initDescriptorStep zp) (zeroed, 0)).1

theorem byteToLba_zoneSize (zp : ZnsParams) :
    byteToLba zp.zoneSize = zp.lbasPerZone :=
  Nat.shiftRight_eq_div_pow _ _

/-- The loop after some rounds: each zone starts where the one before ends. -/
theorem foldl_initDescriptorStep (zeroed : ℕ → ZoneDescriptor) {rounds : ℕ}
    (hrounds : rounds ≤ zp.nrZones) :
    (List.range rounds).foldl (initDescriptorStep zp) (zeroed, 0) =
      (fun zid => if zid < rounds then (znsInitFtl zp).zoneDescs zid
          else zeroed zid, rounds * zp.lbasPerZone) := by
  induction rounds with
  | zero => simp
  | succ rounds ih =>
      have hend : (rounds + 1) * zp.lbasPerZone < 2 ^ 55 := zoneEnd_lt hrounds
      rw [List.range_succ, List.foldl_append, ih (by omega), List.foldl_cons,
        List.foldl_nil, initDescriptorStep]
      refine Prod.ext (funext fun zid => ?_) ?_
      · simp only [update_apply, byteToLba_zoneSize]
        by_cases heq : zid = rounds
        · subst heq
          rw [if_pos rfl, if_pos (Nat.lt_succ_self zid)]
          rfl
        · rw [if_neg heq]
          by_cases hlt : zid < rounds
          · rw [if_pos hlt, if_pos (Nat.lt_succ_of_lt hlt)]
          · rw [if_neg hlt, if_neg (by omega)]
      · simp only [byteToLba_zoneSize]
        rw [Nat.mod_eq_of_lt (by rw [Nat.succ_mul] at hend; omega),
          Nat.succ_mul]

/-- The descriptors of the namespace are those of the state after
`zns_init_ftl`. -/
theorem initDescriptor_eq (zeroed : ℕ → ZoneDescriptor)
    (hzid : zid < zp.nrZones) :
    initDescriptor zp zeroed zid = (znsInitFtl zp).zoneDescs zid := by
  rw [initDescriptor, foldl_initDescriptorStep zeroed le_rfl]
  exact if_pos hzid

/-! ## The helpers -/

/-- What the helpers say of a zone: its first block is the one in the
descriptor, the blocks between its ends belong to it, and the next zone follows
it. -/
structure AddressesAgree (zp : ZnsParams) (zslba zid : ℕ) : Prop where
  slba : zp.zoneToSlba zid = zslba
  zslba_eq : zslba = zid * zp.lbasPerZone
  zone : ∀ lba, zp.zoneToSlba zid ≤ lba → lba ≤ zp.zoneToElba zid →
    zp.lbaToZone lba = zid
  next : (zp.zoneToElba zid + 1) % 2 ^ 64 = zp.zoneToSlba (uint32 (zid + 1))
  pages : ∀ lba, zp.lpnToZone (lbaToLpn lba) = zp.lbaToZone lba

/-- The end of a zone, computed with 64 bits, is one before the start that the
code finds for the next one. -/
theorem zoneToElba_succ (zp : ZnsParams) (zid : ℕ) :
    (zp.zoneToElba zid + 1) % 2 ^ 64 = zp.zoneToSlba (uint32 (zid + 1)) := by
  have hlt : zp.zoneToSlba (uint32 (zid + 1)) < 2 ^ 32 :=
    Nat.mod_lt _ (by norm_num)
  rw [ZnsParams.zoneToElba]
  omega

/-- The last block of a zone that ends below block 2 ^ 32. -/
theorem zoneToElba_eq (hend : (zid + 1) * zp.lbasPerZone < 2 ^ 32) :
    zp.zoneToElba zid = (zid + 1) * zp.lbasPerZone - 1 := by
  have hpos := lbasPerZone_pos zp
  have hzid : zid + 1 < 2 ^ 32 := (Nat.le_mul_of_pos_right _ hpos).trans_lt hend
  have hend_pos : 0 < (zid + 1) * zp.lbasPerZone :=
    Nat.mul_pos (Nat.succ_pos zid) hpos
  rw [ZnsParams.zoneToElba, ZnsParams.zoneToSlba, uint32, uint32,
    Nat.mod_eq_of_lt hzid, Nat.mod_eq_of_lt hend]
  omega

/-- The last block that the code finds for a zone that ends with block
2 ^ 32 - 1. -/
theorem zoneToElba_wraps (hzid : zid < zp.nrZones)
    (hend : (zid + 1) * zp.lbasPerZone = 2 ^ 32) :
    zp.zoneToElba zid = 2 ^ 64 - 1 := by
  have hnr := zp.nrZones_lt
  rw [ZnsParams.zoneToElba, ZnsParams.zoneToSlba, uint32, uint32,
    Nat.mod_eq_of_lt (by omega : zid + 1 < 2 ^ 32), hend]
  norm_num

/-- A zone across block 2 ^ 32 ends, for the code, before it starts. -/
theorem zoneToElba_lt_zoneToSlba (hzid : zid < zp.nrZones)
    (hstart : zid * zp.lbasPerZone < 2 ^ 32)
    (hend : 2 ^ 32 < (zid + 1) * zp.lbasPerZone) :
    zp.zoneToElba zid < zp.zoneToSlba zid := by
  have hnr := zp.nrZones_lt
  have hlbas := lbasPerZone_lt zp
  rw [ZnsParams.zoneToElba, ZnsParams.zoneToSlba, ZnsParams.zoneToSlba, uint32,
    uint32, uint32, Nat.mod_eq_of_lt (by omega : zid + 1 < 2 ^ 32)]
  rw [Nat.succ_mul] at hend ⊢
  omega

/-- The condition on the size of the device: the last zone starts below block
2 ^ 32 and does not end right before it. -/
def ZonesAddressable (zp : ZnsParams) : Prop :=
  (zp.nrZones - 1) * zp.lbasPerZone < 2 ^ 32 ∧
    zp.nrZones * zp.lbasPerZone ≠ 2 ^ 32

instance (zp : ZnsParams) : Decidable (ZonesAddressable zp) :=
  inferInstanceAs (Decidable (_ ∧ _))

theorem addressesAgree_of_zonesAddressable (hzones : ZonesAddressable zp)
    (hzid : zid < zp.nrZones) :
    AddressesAgree zp (zid * zp.lbasPerZone) zid := by
  obtain ⟨hlast, hnot⟩ := hzones
  have hstart : zid * zp.lbasPerZone < 2 ^ 32 :=
    (Nat.mul_le_mul_right _ (Nat.le_sub_one_of_lt hzid)).trans_lt hlast
  have hslba : zp.zoneToSlba zid = zid * zp.lbasPerZone :=
    Nat.mod_eq_of_lt hstart
  refine ⟨hslba, rfl, fun lba hfirst hlba => ?_, zoneToElba_succ zp zid,
    lpnToZone_lbaToLpn zp⟩
  rcases lt_trichotomy ((zid + 1) * zp.lbasPerZone) (2 ^ 32) with
    hend | hend | hend
  · rw [zoneToElba_eq hend] at hlba
    have hpos := lbasPerZone_pos zp
    have hnr := zp.nrZones_lt
    rw [hslba] at hfirst
    refine lbaToZone_of_mem (hzid.trans hnr) hfirst ?_
    rw [Nat.succ_mul] at hlba ⊢
    omega
  · -- such a zone is the last one
    rcases Nat.lt_or_ge (zid + 1) zp.nrZones with hmore | hmore
    · have hle : (zid + 1) * zp.lbasPerZone ≤
          (zp.nrZones - 1) * zp.lbasPerZone :=
        Nat.mul_le_mul_right _ (Nat.le_sub_one_of_lt hmore)
      omega
    · rw [show zp.nrZones = zid + 1 by omega] at hnot
      exact absurd hend hnot
  · exact absurd (hfirst.trans hlba)
      (zoneToElba_lt_zoneToSlba hzid hstart hend).not_ge

theorem zonesAddressable_of_addressesAgree (hpos : 0 < zp.nrZones)
    (hagree : AddressesAgree zp ((zp.nrZones - 1) * zp.lbasPerZone)
      (zp.nrZones - 1)) : ZonesAddressable zp := by
  have hlast : zp.nrZones - 1 < zp.nrZones := Nat.sub_one_lt_of_lt hpos
  have hsucc : zp.nrZones - 1 + 1 = zp.nrZones := Nat.sub_add_cancel hpos
  have hstart : (zp.nrZones - 1) * zp.lbasPerZone < 2 ^ 32 := by
    rw [← hagree.slba]
    exact Nat.mod_lt _ (by norm_num)
  refine ⟨hstart, fun hend => ?_⟩
  -- the block after the zone would belong to it
  have helba := zoneToElba_wraps hlast (hsucc.symm ▸ hend)
  have hzone := hagree.zone (zp.nrZones * zp.lbasPerZone)
    (by rw [hagree.slba]; exact Nat.mul_le_mul_right _ (Nat.sub_le _ _))
    (by rw [helba, hend]; norm_num)
  rw [ZnsParams.lbaToZone, Nat.mul_div_cancel _ (lbasPerZone_pos zp), uint32,
    Nat.mod_eq_of_lt zp.nrZones_lt] at hzone
  omega

/-- The helpers agree with the descriptors on every zone exactly if the last
zone starts below block 2 ^ 32 and does not end with block 2 ^ 32 - 1. -/
theorem zone_addresses_agree_iff (zp : ZnsParams)
    (zeroed : ℕ → ZoneDescriptor) :
    (∀ zid < zp.nrZones,
        AddressesAgree zp (initDescriptor zp zeroed zid).zslba zid) ↔
      ZonesAddressable zp := by
  have hzslba : ∀ zid < zp.nrZones,
      (initDescriptor zp zeroed zid).zslba = zid * zp.lbasPerZone :=
    fun zid hzid => by rw [initDescriptor_eq zeroed hzid]; rfl
  constructor
  · intro hagree
    rcases Nat.eq_zero_or_pos zp.nrZones with hzero | hpos
    · simp [ZonesAddressable, hzero]
    · have hlast : zp.nrZones - 1 < zp.nrZones := Nat.sub_one_lt_of_lt hpos
      refine zonesAddressable_of_addressesAgree hpos ?_
      rw [← hzslba _ hlast]
      exact hagree _ hlast
  · intro hzones zid hzid
    rw [hzslba zid hzid]
    exact addressesAgree_of_zonesAddressable hzones hzid

/-- Bytes of a zone of the `WD_ZN540` configuration. -/
def zn540ZoneSize : ℕ := 2 ^ 31

theorem zn540ZoneSize_lt : zn540ZoneSize < 2 ^ 32 :=
  Nat.pow_lt_pow_right Nat.one_lt_two (Nat.lt_succ_self 31)

theorem zn540ZoneSize_pos : 0 < zn540ZoneSize := Nat.two_pow_pos 31

theorem pgsz_dvd_zn540ZoneSize : pgsz ∣ zn540ZoneSize :=
  have hpgsz : pgsz = 2 ^ 12 := rfl
  hpgsz ▸ Nat.pow_dvd_pow 2 (by norm_num)

theorem largeNrZones_lt : 1025 < 2 ^ 32 := by norm_num

/-- A device of 1025 zones of two gigabytes. -/
def largeZn540 : ZnsParams where
  zoneSize := zn540ZoneSize
  nrZones := 1025
  zoneWbSize := 0
  writeBufferSize := 4096
  writeUnitSize := 512
  pgsPerOneshotpg := 1
  zrwaSize := 0
  zrwafgSize := 0
  zrwaBufferSize := 0
  zoneSize_pos := zn540ZoneSize_pos
  zoneSize_lt := zn540ZoneSize_lt
  nrZones_lt := largeNrZones_lt
  pgsz_dvd := pgsz_dvd_zn540ZoneSize
  writeUnitSize_pos := secsz_pos
  pgsPerOneshotpg_pos := Nat.one_pos

/-- The last zone of the device starts, for the helper, at block zero. -/
theorem zone_address_wraps :
    let zeroed : ℕ → ZoneDescriptor := fun _ => ⟨.empty, false, 0, 0, 0⟩
    largeZn540.zoneToSlba 1024 = 0 ∧
      (initDescriptor largeZn540 zeroed 1024).zslba = 2 ^ 32 ∧
      ¬ ∀ zid < largeZn540.nrZones,
        AddressesAgree largeZn540 (initDescriptor largeZn540 zeroed zid).zslba
          zid := by
  intro zeroed
  have hlbas : largeZn540.lbasPerZone = 2 ^ 22 := by
    show zn540ZoneSize / secsz = 2 ^ 22
    norm_num [zn540ZoneSize, secsz]
  have hzid : 1024 < largeZn540.nrZones := by norm_num [largeZn540]
  have hslba : largeZn540.zoneToSlba 1024 = 0 := by
    rw [ZnsParams.zoneToSlba, hlbas, uint32]
    norm_num
  have hzslba : (initDescriptor largeZn540 zeroed 1024).zslba = 2 ^ 32 := by
    rw [initDescriptor_eq zeroed hzid]
    show 1024 * largeZn540.lbasPerZone = 2 ^ 32
    rw [hlbas]
    norm_num
  refine ⟨hslba, hzslba, fun hagree => ?_⟩
  have heq := (hagree 1024 hzid).slba
  rw [hslba, hzslba] at heq
  norm_num at heq

end NvmeVirt.Zns
