import NvmeVirt.Zns.WritePointers

/-!
# Retried writes

A write that `zns_write` refuses stays in its submission queue and is tried
again.  An append puts the write pointer into the command before it asks for
buffer space, and a zone with a random write area is opened before the space for
a flush is asked for: what is tried again need not be what the host wrote.
-/

namespace NvmeVirt.Zns

open Function Ftl Interleaving

/-- The fields of a write or append command that the zoned FTL looks at. -/
structure RwCommand where
  append : Bool
  slba : ℕ
  length : UInt16
  deriving DecidableEq

/-- A command in the submission queue, and as the host wrote it there. -/
structure SqEntry where
  host : RwCommand
  cmd : RwCommand
  deriving DecidableEq

/-- The zoned FTL and the command at the head of a submission queue. -/
structure SqState where
  ftl : ZnsFtl
  entry : Option SqEntry

/-- The host submits a command, the dispatcher tries the one that waits, or
something else happens in the FTL. -/
inductive SqEvent where
  | submit (cmd : RwCommand)
  | attempt
  | other (event : ZnsEvent)

section Operations

variable (zp : ZnsParams)

/-- What `zns_write` leaves of a command: `__zns_write` puts the write pointer
into an append. -/
def rewriteCommand (ftl : ZnsFtl) (cmd : RwCommand) : RwCommand :=
  if (ftl.zoneDescs (zp.lpnToZone (lbaToLpn cmd.slba))).zrwav then cmd
  else if cmd.append then
    { cmd with slba := (ftl.zoneDescs (zp.lbaToZone cmd.slba)).wp }
  else cmd

/-- One attempt at a command, with what it leaves of the command in the queue. -/
def tryWrite (ftl : ZnsFtl) (cmd : RwCommand) :
    Option (WriteResult × ZnsFtl × RwCommand) :=
  (znsWrite zp ftl cmd.append cmd.slba (nrLbasFromRwCmd cmd.length)).map
    fun (result, ftl') => (result, ftl', rewriteCommand zp ftl cmd)

/-- A refused command stays at the head of the queue. -/
def sqStep : SqEvent → SqState → Option SqState
  | .submit cmd, st =>
      match st.entry with
      | none => some { st with entry := some ⟨cmd, cmd⟩ }
      | some _ => none
  | .attempt, st =>
      match st.entry with
      | none => none
      | some entry =>
          match tryWrite zp st.ftl entry.cmd with
          | none => none
          | some (.putOff, ftl, cmd) =>
              some ⟨ftl, some { entry with cmd := cmd }⟩
          | some (.done _, ftl, _) => some ⟨ftl, none⟩
  | .other event, st =>
      (znsStep zp event st.ftl).map fun ftl => { st with ftl := ftl }

def sqInit : SqState := ⟨znsInitFtl zp, none⟩

end Operations

/-- The commands are addressed to zones of the namespace. -/
def SqEvent.InNamespace (zp : ZnsParams) : SqEvent → Prop
  | .submit cmd => cmd.slba < zp.nrZones * zp.lbasPerZone
  | .attempt => True
  | .other event => event.InNamespace zp

/-- Whether an attempt keeps to the zone that the host named, and changes
neither the FTL nor the command if it is refused. -/
def AttemptOk (zp : ZnsParams) : SqEvent → SqState → Prop
  | .attempt, st => ∀ entry result ftl' cmd', st.entry = some entry →
      tryWrite zp st.ftl entry.cmd = some (result, ftl', cmd') →
      (result = .putOff → ftl' = st.ftl ∧ cmd' = entry.cmd) ∧
        ∀ zid, zid ≠ zp.lbaToZone entry.host.slba →
          ftl'.zoneDescs zid = st.ftl.zoneDescs zid
  | _, _ => True

/-- Whether a refusal of a command does no harm: an append is addressed to the
write pointer, and a zone with a random write area is not closed. -/
def RefusesHarmlessly (zp : ZnsParams) (ftl : ZnsFtl) (cmd : RwCommand) :
    Prop :=
  let desc := ftl.zoneDescs (zp.lbaToZone cmd.slba)
  (desc.zrwav = false → cmd.append = true → cmd.slba = desc.wp) ∧
    (desc.zrwav = true → desc.state ≠ .closed)

/-- Whether an attempt is not refused, or is so harmlessly. -/
def RefusalOk (zp : ZnsParams) : SqEvent → SqState → Prop
  | .attempt, ⟨ftl, some entry⟩ =>
      (tryWrite zp ftl entry.cmd).map Prod.fst = some .putOff →
        RefusesHarmlessly zp ftl entry.cmd
  | _, _ => True

variable {zp : ZnsParams} {ftl ftl' : ZnsFtl} {zid : ℕ} {cmd cmd' : RwCommand}
  {st : SqState}

/-! ## One attempt -/

theorem tryWrite_eq_some {result : WriteResult}
    (htry : tryWrite zp ftl cmd = some (result, ftl', cmd')) :
    znsWrite zp ftl cmd.append cmd.slba (nrLbasFromRwCmd cmd.length) =
        some (result, ftl') ∧
      cmd' = rewriteCommand zp ftl cmd := by
  obtain ⟨⟨result', ftl₁⟩, hwrite, heq⟩ := Option.map_eq_some_iff.mp htry
  cases heq
  exact ⟨hwrite, rfl⟩

/-- A flush that is refused for lack of buffer space has changed nothing. -/
theorem flushZrwa_refused {wp elba : ℕ}
    (hflush : flushZrwa zp ftl zid wp elba = some (.putOff, ftl')) :
    nrLbasFlush zp zid wp elba ≠ 0 ∧ ftl' = ftl := by
  unfold flushZrwa at hflush
  dsimp only at hflush
  split at hflush
  · cases hflush
  rename_i hpos
  split at hflush
  · cases hflush
  split at hflush
  · cases hflush
    exact ⟨hpos, rfl⟩
  · cases hflush

theorem divideForFlush_of_flush {wp elba : ℕ}
    (hflush : nrLbasFlush zp zid wp elba ≠ 0) :
    divideForFlush zp ftl wp elba = ftl := by
  unfold divideForFlush
  split
  · rename_i himpl
    have hfg : zp.lbasPerZrwafg ≠ 0 := by
      intro hfg
      rw [nrLbasFlush, if_pos himpl, hfg] at hflush
      exact hflush (Nat.mul_zero _)
    simp [divideBy, hfg]
  · rfl

/-- A write to a random write area is refused once its zone is ready. -/
theorem writeZrwa_refused {slba nrLba : ℕ}
    (hwrite : znsWriteZrwa zp ftl slba nrLba = some (.putOff, ftl')) :
    prepareZrwaZone zp ftl (zp.lbaToZone slba) = some (.success, ftl') := by
  unfold znsWriteZrwa at hwrite
  dsimp only at hwrite
  split at hwrite
  · split at hwrite
    · cases hwrite
    · rename_i hprepare
      obtain ⟨hflush, rfl⟩ := flushZrwa_refused hwrite
      rw [divideForFlush_of_flush hflush]
      exact hprepare
    · cases hwrite
  · cases hwrite

/-- It leaves the FTL alone exactly if the zone was open already. -/
theorem writeZrwa_refused_iff (haccounted : Accounted zp ftl) {slba nrLba : ℕ}
    (hzid : zp.lbaToZone slba < zp.nrZones)
    (hzrwav : (ftl.zoneDescs (zp.lbaToZone slba)).zrwav = true)
    (hwrite : znsWriteZrwa zp ftl slba nrLba = some (.putOff, ftl')) :
    ftl' = ftl ↔ (ftl.zoneDescs (zp.lbaToZone slba)).state ≠ .closed := by
  have hprepare := writeZrwa_refused hwrite
  obtain ⟨hstatus, -⟩ | ⟨-, hprepared, hactive, -⟩ :=
    prepareZrwaZone_spec true haccounted hzid hzrwav hprepare
  · exact absurd rfl hstatus
  constructor
  · rintro rfl hclosed
    have hopen := hprepared.isOpen
    rw [hclosed] at hopen
    cases hopen
  · intro hclosed
    rcases ZoneState.isActive_iff.mp hactive with hstate | hstate | hstate
    · simp only [prepareZrwaZone, hstate] at hprepare
      cases hprepare
      rfl
    · simp only [prepareZrwaZone, hstate] at hprepare
      cases hprepare
      rfl
    · exact absurd hstate hclosed

theorem rewriteCommand_iff
    (hplain : (ftl.zoneDescs (zp.lbaToZone cmd.slba)).zrwav = false) :
    rewriteCommand zp ftl cmd = cmd ↔
      (cmd.append = true →
        cmd.slba = (ftl.zoneDescs (zp.lbaToZone cmd.slba)).wp) := by
  rw [rewriteCommand, lpnToZone_lbaToLpn, hplain]
  obtain ⟨append, slba, length⟩ := cmd
  cases append with
  | false => simp
  | true => simp [eq_comm]

/-- A refused attempt changes nothing exactly if it is refused harmlessly. -/
theorem refused_iff (haccounted : Accounted zp ftl)
    (hslba : cmd.slba < zp.nrZones * zp.lbasPerZone)
    (htry : tryWrite zp ftl cmd = some (.putOff, ftl', cmd')) :
    ftl' = ftl ∧ cmd' = cmd ↔ RefusesHarmlessly zp ftl cmd := by
  obtain ⟨hwrite, rfl⟩ := tryWrite_eq_some htry
  rw [znsWrite, lpnToZone_lbaToLpn] at hwrite
  rw [RefusesHarmlessly]
  cases hzrwav : (ftl.zoneDescs (zp.lbaToZone cmd.slba)).zrwav with
  | false =>
      rw [hzrwav] at hwrite
      have hsame : ftl' = ftl := by
        rcases znsWritePlain_cases hwrite with ⟨-, hsame⟩ | ⟨-, heq⟩
        · exact hsame
        · cases (Prod.mk.inj heq).1
      rw [rewriteCommand_iff hzrwav]
      simp [hsame]
  | true =>
      rw [hzrwav] at hwrite
      have hcmd : rewriteCommand zp ftl cmd = cmd := by
        rw [rewriteCommand, lpnToZone_lbaToLpn, if_pos hzrwav]
      rw [hcmd, writeZrwa_refused_iff haccounted (lbaToZone_lt hslba) hzrwav
        hwrite]
      simp

/-- An attempt keeps to the zone that the command names. -/
theorem tryWrite_others (haccounted : Accounted zp ftl)
    (hslba : cmd.slba < zp.nrZones * zp.lbasPerZone) {result : WriteResult}
    (htry : tryWrite zp ftl cmd = some (result, ftl', cmd'))
    (hzid : zid ≠ zp.lbaToZone cmd.slba) :
    ftl'.zoneDescs zid = ftl.zoneDescs zid := by
  obtain ⟨hwrite, -⟩ := tryWrite_eq_some htry
  have hzone := lbaToZone_lt hslba
  have hnr := nrLbasFromRwCmd_pos cmd.length
  rw [znsWrite, lpnToZone_lbaToLpn] at hwrite
  cases hzrwav : (ftl.zoneDescs (zp.lbaToZone cmd.slba)).zrwav with
  | false =>
      rw [hzrwav] at hwrite
      have hserves : Serves zp true (zp.lbaToZone cmd.slba) _ ftl ftl' :=
        serves_writePlain haccounted hzone hzrwav hnr
          (nrLbasFromRwCmd_le cmd.length) hwrite
      exact hserves.others zid hzid
  | true =>
      rw [hzrwav] at hwrite
      have hserves : Serves zp true (zp.lbaToZone cmd.slba) _ ftl ftl' :=
        serves_writeZrwa haccounted hzone hzrwav hnr hwrite
      exact hserves.others zid hzid

/-! ## Runs -/

/-- The command that waits is as the host wrote it. -/
structure SqInv (zp : ZnsParams) (st : SqState) : Prop where
  accounted : Accounted zp st.ftl
  asWritten : ∀ entry, st.entry = some entry → entry.cmd = entry.host
  inNamespace : ∀ entry, st.entry = some entry →
    entry.host.slba < zp.nrZones * zp.lbasPerZone

theorem RefusalOk.harmless (hok : RefusalOk zp .attempt st) {entry : SqEntry}
    (hentry : st.entry = some entry)
    (htry : tryWrite zp st.ftl entry.cmd = some (.putOff, ftl', cmd')) :
    RefusesHarmlessly zp st.ftl entry.cmd := by
  obtain ⟨ftl, waiting⟩ := st
  subst hentry
  exact hok (by rw [htry]; rfl)

theorem attemptOk_iff (hinv : SqInv zp st) (event : SqEvent) :
    AttemptOk zp event st ↔ RefusalOk zp event st := by
  cases event with
  | submit cmd => exact Iff.rfl
  | other event => exact Iff.rfl
  | attempt =>
      obtain ⟨ftl, waiting⟩ := st
      constructor
      · intro hok
        cases waiting with
        | none => trivial
        | some entry =>
            intro hrefused
            obtain ⟨⟨result, ftl', cmd'⟩, htry, rfl⟩ :=
              Option.map_eq_some_iff.mp hrefused
            have hslba := hinv.inNamespace entry rfl
            rw [← hinv.asWritten entry rfl] at hslba
            exact (refused_iff hinv.accounted hslba htry).mp
              ((hok entry _ ftl' cmd' rfl htry).1 rfl)
      · intro hok entry result ftl' cmd' hentry htry
        have hslba := hinv.inNamespace entry hentry
        rw [← hinv.asWritten entry hentry] at hslba ⊢
        refine ⟨?_, fun zid hzid =>
          tryWrite_others hinv.accounted hslba htry hzid⟩
        rintro rfl
        exact (refused_iff hinv.accounted hslba htry).mpr
          (hok.harmless hentry htry)

theorem tryWrite_accounted (haccounted : Accounted zp ftl)
    (hslba : cmd.slba < zp.nrZones * zp.lbasPerZone) {result : WriteResult}
    (htry : tryWrite zp ftl cmd = some (result, ftl', cmd')) :
    Accounted zp ftl' := by
  have hmoves : Moves zp true _ ftl ftl' :=
    moves_znsWrite haccounted hslba (tryWrite_eq_some htry).1
  exact hmoves.accounted

theorem sqStep_inv {event : SqEvent} {st' : SqState} (hinv : SqInv zp st)
    (hevent : event.InNamespace zp) (hok : RefusalOk zp event st)
    (hstep : sqStep zp event st = some st') : SqInv zp st' := by
  cases event with
  | submit cmd =>
      rw [sqStep] at hstep
      split at hstep
      · cases hstep
        refine ⟨hinv.accounted, ?_, ?_⟩
        · rintro entry ⟨⟩
          rfl
        · rintro entry ⟨⟩
          exact hevent
      · cases hstep
  | attempt =>
      cases hentry : st.entry with
      | none =>
          simp only [sqStep, hentry] at hstep
          cases hstep
      | some entry =>
          have hslba := hinv.inNamespace entry hentry
          rw [← hinv.asWritten entry hentry] at hslba
          simp only [sqStep, hentry] at hstep
          split at hstep
          · cases hstep
          · rename_i ftl' cmd' htry
            obtain ⟨rfl, rfl⟩ := (refused_iff hinv.accounted hslba htry).mpr
              (hok.harmless hentry htry)
            cases hstep
            rwa [← hentry]
          · rename_i htry
            cases hstep
            exact ⟨tryWrite_accounted hinv.accounted hslba htry, nofun, nofun⟩
  | other event =>
      obtain ⟨ftl', hznsStep, rfl⟩ := Option.map_eq_some_iff.mp hstep
      have hmoves : Moves zp true _ st.ftl ftl' :=
        moves_znsStep hinv.accounted hevent nofun hznsStep
      exact ⟨hmoves.accounted, hinv.asWritten, hinv.inNamespace⟩

theorem turn_sqInv {event : SqEvent} (hinv : SqInv zp st)
    (hevent : event.InNamespace zp) (hok : RefusalOk zp event st) :
    SqInv zp (turn (sqStep zp) st event) := by
  rw [turn]
  cases hstep : sqStep zp event st with
  | none => exact hinv
  | some st' => exact sqStep_inv hinv hevent hok hstep

/-- Throughout a run, attempts keep to the zones that the host named and the
refused ones change nothing, exactly if every refusal is harmless. -/
theorem refused_writes_retriable_iff (zp : ZnsParams) (events : List SqEvent)
    (hevents : ∀ event ∈ events, event.InNamespace zp) :
    Meets (sqStep zp) (AttemptOk zp) events (sqInit zp) ↔
      Meets (sqStep zp) (RefusalOk zp) events (sqInit zp) := by
  have hdecides : ∀ event st, SqInv zp st → event.InNamespace zp →
      (AttemptOk zp event st ↔ RefusalOk zp event st) :=
    fun event _ hinv _ => attemptOk_iff hinv event
  have hkeeps : ∀ event st, SqInv zp st → event.InNamespace zp →
      RefusalOk zp event st → SqInv zp (turn (sqStep zp) st event) :=
    fun _ _ hinv hevent hok => turn_sqInv hinv hevent hok
  have hinit : SqInv zp (sqInit zp) := ⟨accounted_znsInitFtl zp, nofun, nofun⟩
  exact meets_iff_meets (sqStep zp) hdecides hkeeps hinit
    (meets_of_forall (sqStep zp) hevents _)

instance (zp : ZnsParams) : DecidablePred (SqEvent.InNamespace zp)
  | .submit cmd =>
      inferInstanceAs (Decidable (cmd.slba < zp.nrZones * zp.lbasPerZone))
  | .attempt => inferInstanceAs (Decidable True)
  | .other event => inferInstanceAs (Decidable (event.InNamespace zp))

instance (zp : ZnsParams) (ftl : ZnsFtl) (cmd : RwCommand) :
    Decidable (RefusesHarmlessly zp ftl cmd) :=
  inferInstanceAs (Decidable (_ ∧ _))

instance (zp : ZnsParams) : ∀ event st, Decidable (RefusalOk zp event st)
  | .attempt, ⟨_, some _⟩ => inferInstanceAs (Decidable (_ → _))
  | .attempt, ⟨_, none⟩ | .submit _, _ | .other _, _ =>
      inferInstanceAs (Decidable True)

/-- An append that is addressed to the write pointer of an empty zone waits for
buffer space and is then written there. -/
theorem refused_writes_retriable_append :
    let events : List SqEvent := [.other (.write false 0 7),
      .submit ⟨true, 8, 0⟩, .attempt, .other (.release 0), .attempt]
    ((run (sqStep twoZones) events (sqInit twoZones)).ftl.zoneDescs 1).wp = 9 ∧
      Meets (sqStep twoZones) (AttemptOk twoZones) events (sqInit twoZones) :=
  ⟨by decide,
    (refused_writes_retriable_iff twoZones _ (by decide)).mpr (by decide)⟩

/-- An append to the first zone, which is full, waits for buffer space and is
then written to the second. -/
theorem append_moves_to_next_zone :
    let events : List SqEvent := [.other (.write false 0 7),
      .submit ⟨true, 0, 0⟩, .attempt, .other (.release 0)]
    let st := run (sqStep twoZones) events (sqInit twoZones)
    let st' := turn (sqStep twoZones) st .attempt
    (∀ event ∈ events, event.InNamespace twoZones) ∧
      st.entry = some ⟨⟨true, 0, 0⟩, ⟨true, 8, 0⟩⟩ ∧
      (st.ftl.zoneDescs 1).wp = 8 ∧ (st'.ftl.zoneDescs 1).wp = 9 ∧
      st'.entry = none := by
  decide

end NvmeVirt.Zns
