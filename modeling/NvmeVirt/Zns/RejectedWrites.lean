import NvmeVirt.Zns.WritePointers

/-!
# Rejected writes

`__zns_write` reserves its buffer space before it checks the command, and none
of its error exits gives the space back.  A rejected write leaves the zones and
the counters alone, schedules nothing, and keeps what it has reserved.
-/

namespace NvmeVirt.Zns

open Function Ftl Interleaving

variable {zp : ZnsParams} {ftl ftl' : ZnsFtl} {zid : ℕ}

/-- The internal operations that a call has scheduled. -/
def newReleases (ftl ftl' : ZnsFtl) : List BufferRelease :=
  ftl'.scheduled.drop ftl.scheduled.length

/-- The state once these internal operations have run. -/
def afterReleases (ftl ftl' : ZnsFtl) : ZnsFtl :=
  (newReleases ftl ftl').foldl (fun st release =>
    setBuffer st release.buffer
      (bufferRelease (st.buffers release.buffer) release.bytes)) ftl'

/-- The zone descriptors, the resource counters and the space of a write buffer
are the same. -/
structure Unaffected (buffer : BufferId) (ftl ftl' : ZnsFtl) : Prop where
  zoneDescs : ftl'.zoneDescs = ftl.zoneDescs
  resInfos : ftl'.resInfos = ftl.resInfos
  remaining : (ftl'.buffers buffer).remaining = (ftl.buffers buffer).remaining

theorem rejected_cases (haccounted : Accounted zp ftl) {append : Bool}
    {slba nrLba : ℕ} {status : Status}
    (hzid : zp.lbaToZone slba < zp.nrZones)
    (hplain : (ftl.zoneDescs (zp.lbaToZone slba)).zrwav = false)
    (hnr : 0 < nrLba) (hmax : nrLba ≤ 2 ^ 16)
    (hwrite : znsWritePlain zp ftl append slba nrLba =
      some (.done status, ftl')) (hstatus : status ≠ .success) :
    lbaToByte nrLba ≤
        (ftl.buffers (writeBufferOf zp (zp.lbaToZone slba))).remaining ∧
      ftl' = reserve zp ftl (zp.lbaToZone slba) nrLba := by
  rcases znsWritePlain_cases hwrite with ⟨hput, -⟩ | ⟨hroom, heq⟩
  · cases hput
  have hreserved : Accounted zp (reserve zp ftl (zp.lbaToZone slba) nrLba) :=
    haccounted.setBuffer _ _
  obtain ⟨hdone, hftl⟩ := Prod.mk.inj heq
  rcases writeReserved_spec false hreserved hzid hplain hnr hmax with
    ⟨-, hsame⟩ | ⟨hsuccess, -⟩
  · exact ⟨hroom, hftl.trans hsame⟩
  · have hstatus' := WriteResult.done.inj hdone
    exact absurd (hstatus'.trans hsuccess) hstatus

theorem accounted_run (zp : ZnsParams) {events : List ZnsEvent}
    (hevents : ∀ event ∈ events, event.InNamespace zp) :
    Accounted zp (run (znsStep zp) events (znsInitFtl zp)) := by
  refine run_invariant_of_meets (znsStep zp) (fun event ftl ftl' hevent
    haccounted hstep => ?_) (accounted_znsInitFtl zp)
    (meets_of_forall (znsStep zp) hevents _)
  have hmoves : Moves zp true _ ftl ftl' :=
    moves_znsStep haccounted hevent nofun hstep
  exact hmoves.accounted

/-- In every reachable state, a rejected write keeps the bytes it has reserved:
it never leaves the buffer as it was. -/
theorem rejected_write_keeps_space (zp : ZnsParams) (events : List ZnsEvent)
    (hevents : ∀ event ∈ events, event.InNamespace zp) (append : Bool)
    (slba : ℕ) (hslba : slba < zp.nrZones * zp.lbasPerZone) (length : UInt16)
    (status : Status) (ftl' : ZnsFtl) :
    let ftl := run (znsStep zp) events (znsInitFtl zp)
    let zid := zp.lbaToZone slba
    let buffer := writeBufferOf zp zid
    let nrLba := nrLbasFromRwCmd length
    (ftl.zoneDescs zid).zrwav = false →
      znsWritePlain zp ftl append slba nrLba = some (.done status, ftl') →
      status ≠ .success →
      ftl'.zoneDescs = ftl.zoneDescs ∧ ftl'.resInfos = ftl.resInfos ∧
        newReleases ftl ftl' = [] ∧
        (ftl'.buffers buffer).remaining + lbaToByte nrLba =
          (ftl.buffers buffer).remaining ∧
        ¬ Unaffected buffer ftl ftl' ∧
        ¬ Unaffected buffer ftl (afterReleases ftl ftl') := by
  intro ftl zid buffer nrLba hplain hwrite hstatus
  obtain ⟨hroom, rfl⟩ := rejected_cases (accounted_run zp hevents)
    (lbaToZone_lt hslba) hplain (nrLbasFromRwCmd_pos length)
    (nrLbasFromRwCmd_le length) hwrite hstatus
  have hnone : newReleases ftl (reserve zp ftl zid nrLba) = [] :=
    List.drop_length
  have hafter : afterReleases ftl (reserve zp ftl zid nrLba) =
      reserve zp ftl zid nrLba := by
    rw [afterReleases, hnone, List.foldl_nil]
  have hspace : ((reserve zp ftl zid nrLba).buffers buffer).remaining +
      lbaToByte nrLba = (ftl.buffers buffer).remaining := by
    simp only [reserve, setBuffer, buffer, update_self]
    exact Nat.sub_add_cancel hroom
  have hbytes : 0 < lbaToByte nrLba :=
    Nat.mul_pos (nrLbasFromRwCmd_pos length) (Nat.succ_pos 511)
  have haffected : ¬ Unaffected buffer ftl (reserve zp ftl zid nrLba) := by
    intro hsame
    have hremaining := hsame.remaining
    omega
  refine ⟨rfl, rfl, hnone, hspace, haffected, ?_⟩
  rw [hafter]
  exact haffected

/-- A write of one block that does not start at the write pointer, as the first
command. -/
theorem rejected_write_keeps_space_first :
    ∃ ftl', znsWritePlain twoZones (znsInitFtl twoZones) false 1 1 =
        some (.done .invalidWrite, ftl') ∧
      newReleases (znsInitFtl twoZones) ftl' = [] ∧
      ¬ Unaffected (writeBufferOf twoZones (twoZones.lbaToZone 1))
        (znsInitFtl twoZones) ftl' := by
  obtain ⟨ftl', hwrite⟩ : ∃ ftl', znsWritePlain twoZones (znsInitFtl twoZones)
      false 1 1 = some (.done .invalidWrite, ftl') := ⟨_, rfl⟩
  have hnr : nrLbasFromRwCmd 0 = 1 := rfl
  obtain ⟨-, -, hnone, -, haffected, -⟩ := rejected_write_keeps_space twoZones
    [] nofun false 1 (by decide) 0 .invalidWrite ftl' rfl
    (by rw [hnr]; exact hwrite) nofun
  exact ⟨ftl', hwrite, hnone, haffected⟩

/-- That write changes the space of the buffer, at once and for good. -/
theorem rejected_write_affects_buffer :
    ∃ ftl', znsWritePlain twoZones (znsInitFtl twoZones) false 1 1 =
        some (.done .invalidWrite, ftl') ∧
      ¬ Unaffected .global (znsInitFtl twoZones) ftl' ∧
      ¬ Unaffected .global (znsInitFtl twoZones)
        (afterReleases (znsInitFtl twoZones) ftl') := by
  refine ⟨_, rfl, fun hsame => ?_, fun hsame => ?_⟩
  · exact absurd hsame.remaining (by decide)
  · exact absurd hsame.remaining (by decide)

end NvmeVirt.Zns
