import NvmeVirt.Io.Namespaces
import NvmeVirt.Zns.WritePointers

/-!
# Zone reports

`zns_zmgmt_recv` builds a report in a buffer with room for all zones: a header
and the descriptors from the zone of the start block on.  It then transfers as
many bytes as the command asks for, however many it has filled in.  For a
partial report the number of descriptors comes from the number of bytes, less
one for the header, which wraps if not even the header is asked for.
-/

namespace NvmeVirt.Zns

open Io

/-- `struct nvme_zone_mgmt_recv`; the flag is the bit of
`zra_specific_features`. -/
structure ZoneMgmtRecv where
  prp1 : ℕ
  prp2 : ℕ
  slba : ℕ
  nrDw : UInt32
  zra : UInt8
  zraSpecificField : UInt8
  zraSpecificFeatures : Bool

/-- `sizeof(struct zone_descriptor)`, and of the header of a report. -/
def descriptorSize : ℕ := 64

/-- The part of `struct zone_report` that a call fills in. -/
structure ZoneReport where
  nrZones : ℕ
  zd : List ZoneDescriptor

/-- The bytes of the header and of the descriptors. -/
def ZoneReport.bytes (report : ZoneReport) : ℕ :=
  descriptorSize + descriptorSize * report.zd.length

section Recv

variable (zp : ZnsParams)

/-- `(cmd->nr_dw + 1) * sizeof(uint32_t)`, where the sum has 32 bits. -/
def ZoneMgmtRecv.length (cmd : ZoneMgmtRecv) : ℕ := (cmd.nrDw + 1).toNat * 4

/-- The zones from the one of the start block on. -/
def ZoneMgmtRecv.zonesLeft (cmd : ZoneMgmtRecv) : ℕ :=
  zp.nrZones - zp.lbaToZone cmd.slba

/-- `__fill_zone_report`.  The difference for a partial report is unsigned. -/
def fillZoneReport (ftl : ZnsFtl) (cmd : ZoneMgmtRecv) : ZoneReport :=
  let nrZoneToReport :=
    if !cmd.zraSpecificFeatures then cmd.zonesLeft zp
    else (cmd.length / descriptorSize + (2 ^ 64 - 1)) % 2 ^ 64
  let nrZoneToReport :=
    if cmd.zonesLeft zp < nrZoneToReport then cmd.zonesLeft zp
    else nrZoneToReport
  { nrZones := nrZoneToReport
    zd := (List.range nrZoneToReport).map
      fun i => ftl.zoneDescs (zp.lbaToZone cmd.slba + i) }

/-- `__check_zmgmt_rcv_option_supported`. -/
def checkZmgmtRcvOptionSupported (cmd : ZoneMgmtRecv) : Bool :=
  if zp.nrZones ≤ zp.lbaToZone cmd.slba then false
  else if cmd.zra ≠ 0 then false
  else if cmd.zraSpecificField ≠ 0 then false
  else true

/-- `__prp_transfer_data` out of the report buffer: the loop of
`__do_perform_io` for a read, where `storage` is the position in the buffer. -/
def prpTransferData (words : ℕ → ℕ) (prp1 prp2 length : ℕ) :
    Option (List Copy) :=
  performIoLoop
    { opcode := .read, nsid := 0, slba := 0, length := 0, prp1, prp2 }
    words 0 length length 0 .start

/-- `zns_zmgmt_recv`: the status, and for a supported command the report and the
copies, which are missing if the kernel uses a PRP list that was never set
up. -/
def znsZmgmtRecv (words : ℕ → ℕ) (ftl : ZnsFtl) (cmd : ZoneMgmtRecv) :
    Status × Option (ZoneReport × Option (List Copy)) :=
  if checkZmgmtRcvOptionSupported zp cmd then
    (.success, some (fillZoneReport zp ftl cmd,
      prpTransferData words cmd.prp1 cmd.prp2 cmd.length))
  else (.invalidField, none)

/-- The zones whose descriptors fit completely in the bytes of a transfer. -/
def fittingZones (zones length : ℕ) : ℕ :=
  ((List.range zones).filter fun i =>
    descriptorSize + descriptorSize * (i + 1) ≤ length).length

/-- Every byte that is transferred is one of the report, and a partial report
names the zones whose descriptors fit. -/
structure ReportTransferred (cmd : ZoneMgmtRecv) (report : ZoneReport)
    (copies : List Copy) : Prop where
  inside : ∀ byte ∈ storageBytes copies, byte < report.bytes
  fitting : cmd.zraSpecificFeatures = true →
    report.nrZones = fittingZones (cmd.zonesLeft zp) cmd.length

end Recv

section Reports

variable {zp : ZnsParams} {ftl : ZnsFtl} {cmd : ZoneMgmtRecv}

theorem fittingZones_eq (zones length : ℕ) :
    fittingZones zones length =
      min zones ((length - descriptorSize) / descriptorSize) := by
  induction zones with
  | zero => simp [fittingZones]
  | succ zones ih =>
      rw [fittingZones, List.range_succ, List.filter_append,
        List.length_append]
      change fittingZones zones length + _ = _
      rw [ih]
      by_cases hfits : descriptorSize + descriptorSize * (zones + 1) ≤ length
      · rw [List.filter_cons_of_pos (by simpa using hfits)]
        rw [descriptorSize] at hfits ⊢
        simp only [List.filter_nil, List.length_singleton]
        omega
      · rw [List.filter_cons_of_neg (by simpa using hfits)]
        rw [descriptorSize] at hfits ⊢
        simp only [List.filter_nil, List.length_nil]
        omega

theorem ZoneMgmtRecv.length_lt (cmd : ZoneMgmtRecv) : cmd.length < 2 ^ 34 := by
  have hlt := (cmd.nrDw + 1).toNat_lt
  rw [ZoneMgmtRecv.length]
  omega

theorem zonesLeft_lt (zp : ZnsParams) (cmd : ZoneMgmtRecv) :
    cmd.zonesLeft zp < 2 ^ 32 :=
  (Nat.sub_le _ _).trans_lt zp.nrZones_lt

theorem zonesLeft_pos (hslba : cmd.slba < zp.nrZones * zp.lbasPerZone) :
    0 < cmd.zonesLeft zp :=
  Nat.sub_pos_of_lt (lbaToZone_lt hslba)

theorem length_fillZoneReport :
    (fillZoneReport zp ftl cmd).zd.length =
      (fillZoneReport zp ftl cmd).nrZones := by
  simp [fillZoneReport]

/-- The number of zones in a report of all zones. -/
theorem nrZones_all (hall : cmd.zraSpecificFeatures = false) :
    (fillZoneReport zp ftl cmd).nrZones = cmd.zonesLeft zp := by
  simp [fillZoneReport, hall]

/-- In a partial report it is the number of zones that fit, unless the command
does not even ask for the header. -/
theorem nrZones_partly (hpartly : cmd.zraSpecificFeatures = true) :
    (fillZoneReport zp ftl cmd).nrZones =
      if cmd.length < descriptorSize then cmd.zonesLeft zp
      else fittingZones (cmd.zonesLeft zp) cmd.length := by
  have hlength := cmd.length_lt
  have hleft := zonesLeft_lt zp cmd
  have hreport : (fillZoneReport zp ftl cmd).nrZones =
      min (cmd.zonesLeft zp)
        ((cmd.length / descriptorSize + (2 ^ 64 - 1)) % 2 ^ 64) := by
    simp only [fillZoneReport, hpartly, Bool.not_true, Bool.false_eq_true,
      if_false]
    split <;> omega
  rw [hreport, fittingZones_eq]
  by_cases hshort : cmd.length < descriptorSize
  · rw [if_pos hshort]
    rw [descriptorSize] at hshort ⊢
    omega
  · rw [if_neg hshort]
    rw [descriptorSize] at hshort ⊢
    omega

/-- A transfer takes the bytes of the buffer from its start on. -/
theorem storageBytes_prpTransferData {words : ℕ → ℕ} {prp1 prp2 length : ℕ}
    {copies : List Copy} (hlength : length < 2 ^ 64)
    (htransfer : prpTransferData words prp1 prp2 length = some copies) :
    storageBytes copies = List.range length := by
  rw [storageBytes_performIoLoop (by simp) htransfer, byteRange]
  refine (List.map_congr_left fun i hi => ?_).trans (List.map_id _)
  have hlt := List.mem_range.mp hi
  exact (congrArg (· % 2 ^ 64) (Nat.zero_add i)).trans
    (Nat.mod_eq_of_lt (hlt.trans hlength))

theorem inside_iff {words : ℕ → ℕ} {copies : List Copy} {size : ℕ}
    (htransfer : prpTransferData words cmd.prp1 cmd.prp2 cmd.length =
      some copies) :
    (∀ byte ∈ storageBytes copies, byte < size) ↔ cmd.length ≤ size := by
  have hlength := cmd.length_lt
  rw [storageBytes_prpTransferData (by omega) htransfer]
  simp only [List.mem_range]
  refine ⟨fun hinside => ?_, fun hle byte hbyte => hbyte.trans_le hle⟩
  by_contra hlt
  exact lt_irrefl _ (hinside size (not_le.mp hlt))

end Reports

/-- A report is transferred as it has been built exactly if the command asks for
no more than the zones from its start block on, and, if the report is partial,
for the header and whole descriptors. -/
theorem zone_report_transferred_iff (zp : ZnsParams) (ftl : ZnsFtl)
    {cmd : ZoneMgmtRecv} (hslba : cmd.slba < zp.nrZones * zp.lbasPerZone)
    {words : ℕ → ℕ} {report : ZoneReport} {copies : List Copy}
    (hrecv : znsZmgmtRecv zp words ftl cmd =
      (.success, some (report, some copies))) :
    ReportTransferred zp cmd report copies ↔
      cmd.length ≤ descriptorSize + descriptorSize * cmd.zonesLeft zp ∧
        (cmd.zraSpecificFeatures = true →
          descriptorSize ≤ cmd.length ∧ descriptorSize ∣ cmd.length) := by
  have hpos := zonesLeft_pos hslba
  rw [znsZmgmtRecv] at hrecv
  split at hrecv
  · obtain ⟨hreport, htransfer⟩ :=
      Prod.mk.inj (Option.some.inj (Prod.mk.inj hrecv).2)
    have hbytes : report.bytes =
        descriptorSize + descriptorSize * report.nrZones := by
      rw [ZoneReport.bytes, ← hreport, length_fillZoneReport]
    have hstructure : ReportTransferred zp cmd report copies ↔
        cmd.length ≤ report.bytes ∧ (cmd.zraSpecificFeatures = true →
          report.nrZones = fittingZones (cmd.zonesLeft zp) cmd.length) := by
      rw [← inside_iff htransfer]
      exact ⟨fun h => ⟨h.inside, h.fitting⟩, fun h => ⟨h.1, h.2⟩⟩
    rw [hstructure, hbytes, ← hreport]
    cases hpartly : cmd.zraSpecificFeatures with
    | false => simp [nrZones_all hpartly]
    | true =>
        simp only [nrZones_partly hpartly, fittingZones_eq, descriptorSize,
          forall_const]
        split
        · rename_i hshort
          refine ⟨fun h => ?_, fun h => absurd h.2.1 (by omega)⟩
          have hfitting := h.2
          omega
        · rename_i hlong
          omega
  · cases hrecv

/-- A command for a report from block 0 on, into one page of the host. -/
def reportCommand (nrDw : UInt32) (zraSpecificFeatures : Bool) :
    ZoneMgmtRecv where
  prp1 := 4096
  prp2 := 0
  slba := 0
  nrDw := nrDw
  zra := 0
  zraSpecificField := 0
  zraSpecificFeatures := zraSpecificFeatures

theorem zone_report_transferred_iff_oneZone :
    ReportTransferred twoZones (reportCommand 31 true)
      (fillZoneReport twoZones (znsInitFtl twoZones) (reportCommand 31 true))
      [⟨4096, 0, 128⟩] := by
  have hrecv : znsZmgmtRecv twoZones (fun _ => 0) (znsInitFtl twoZones)
      (reportCommand 31 true) = (.success, some (fillZoneReport twoZones
        (znsInitFtl twoZones) (reportCommand 31 true),
          some [⟨4096, 0, 128⟩])) := rfl
  exact (zone_report_transferred_iff twoZones (znsInitFtl twoZones) (by decide)
    hrecv).mpr (by decide)

/-- The report of two zones has 192 bytes.  A command for 4096 bytes is given
what lies behind it in the buffer, and behind the buffer. -/
theorem zone_report_overrun :
    ∃ report copies, znsZmgmtRecv twoZones (fun _ => 0) (znsInitFtl twoZones)
        (reportCommand 1023 false) =
          (.success, some (report, some copies)) ∧
      report.bytes = 192 ∧ copies = [⟨4096, 0, 4096⟩] ∧
      ¬ ReportTransferred twoZones (reportCommand 1023 false) report
        copies := by
  refine ⟨_, _, rfl, rfl, rfl, fun htransferred => ?_⟩
  have hbyte : 4095 ∈ storageBytes [⟨4096, 0, 4096⟩] := by
    rw [storageBytes, List.flatMap_singleton, List.mem_map]
    exact ⟨4095, List.mem_range.mpr (by decide), by decide⟩
  exact absurd (htransferred.inside 4095 hbyte) (by decide)

end NvmeVirt.Zns
