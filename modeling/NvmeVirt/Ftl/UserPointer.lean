import NvmeVirt.Ftl.ConvFtl

/-!
# The write pointer of user data

A page write moves the write pointer of user data by one page of its one-shot
page, and garbage collection, which has a pointer of its own, leaves it alone.
Nothing is assumed of the state: a write that meets a failed assertion has no
result.
-/

namespace NvmeVirt.Ftl

open Function NvmeVirt.Outcome

variable (spp : SsdParams)

/-- The computation faults or keeps the write pointer of user data. -/
def KeepsWp (wp : WritePointer) : Except Fault ConvFtl → Prop :=
  Ends (fun st => st.wp = wp) fun _ => True

namespace KeepsWp

variable {spp} {wp : WritePointer}

theorem assert {condition : Prop} [Decidable condition]
    {next : Unit → Except Fault ConvFtl} (hnext : KeepsWp wp (next ())) :
    KeepsWp wp (nvmevAssert condition >>= next) :=
  Ends.require_bind (fun _ => hnext) trivial

theorem bind {st : ConvFtl} {x : Except Fault ConvFtl}
    {next : ConvFtl → Except Fault ConvFtl} (hx : KeepsWp st.wp x)
    (hnext : ∀ st', KeepsWp st'.wp (next st')) :
    KeepsWp st.wp (x >>= next) := by
  refine Ends.bind hx fun st' hst' => ?_
  rw [← hst']
  exact hnext st'

theorem foldlM {α : Type} {f : ConvFtl → α → Except Fault ConvFtl}
    (hf : ∀ st a, KeepsWp st.wp (f st a)) (visited : List α) (st : ConvFtl) :
    KeepsWp st.wp (visited.foldlM f st) := by
  induction visited generalizing st with
  | nil => exact rfl
  | cons head tail ih =>
      rw [List.foldlM_cons]
      exact (hf st head).bind ih

end KeepsWp

/-! ## Garbage collection -/

theorem keepsWp_setMaptblEnt (st : ConvFtl) (lpn : ℕ) (ppa : Ppa) :
    KeepsWp st.wp (setMaptblEnt spp st lpn ppa) :=
  .assert rfl

theorem keepsWp_setRmapEnt (st : ConvFtl) (lpn : Option ℕ) (ppa : Ppa) :
    KeepsWp st.wp (setRmapEnt spp st lpn ppa) :=
  .assert rfl

theorem keepsWp_markPageValid (st : ConvFtl) (ppa : Ppa) :
    KeepsWp st.wp (markPageValid spp st ppa) :=
  .assert (.assert (.assert rfl))

theorem wp_lowerVpc (st : ConvFtl) (index : ℕ) :
    (lowerVpc st index).wp = st.wp := by
  unfold lowerVpc
  dsimp only
  split <;> rfl

theorem keepsWp_markPageInvalid (st : ConvFtl) (ppa : Ppa) :
    KeepsWp st.wp (markPageInvalid spp st ppa) := by
  refine KeepsWp.bind (.assert (.assert (.assert rfl))) fun st' => ?_
  refine .assert (.assert (.assert ?_))
  have hlower := wp_lowerVpc (st'.setLine ppa.blk
    { st'.lines ppa.blk with ipc := (st'.lines ppa.blk).ipc + 1 }) ppa.blk
  change ConvFtl.wp (if _ then _ else _) = st'.wp
  split
  · exact hlower
  · exact hlower

theorem keepsWp_dropOldPage (st : ConvFtl) (lpn : ℕ) :
    KeepsWp st.wp (dropOldPage spp st lpn) := by
  unfold dropOldPage
  split
  · exact rfl
  · exact (keepsWp_markPageInvalid spp st _).bind fun st' =>
      keepsWp_setRmapEnt spp st' none _

theorem keepsWp_retireLine (st : ConvFtl) (line : ℕ) :
    KeepsWp st.wp (retireLine spp st line) := by
  unfold retireLine
  dsimp only
  split
  · exact .assert rfl
  · exact .assert (.assert rfl)

theorem wp_getNextFreeLine {st st' : ConvFtl} {line : ℕ}
    (hnext : getNextFreeLine st = some (line, st')) : st'.wp = st.wp := by
  unfold getNextFreeLine at hnext
  split at hnext
  · cases hnext
  · cases hnext
    rfl

theorem keepsWp_openLine (st : ConvFtl) (wpp : WritePointer) :
    KeepsWp st.wp (openLine spp st wpp .gc) := by
  refine .assert ?_
  cases hnext : getNextFreeLine st with
  | none => exact trivial
  | some found =>
      rw [← wp_getNextFreeLine hnext]
      exact .assert (.assert (.assert (.assert (.assert rfl))))

theorem keepsWp_advanceWritePointer (st : ConvFtl) :
    KeepsWp st.wp (advanceWritePointer spp st .gc) := by
  unfold advanceWritePointer
  cases nextPage spp (st.getWp .gc) with
  | error => exact trivial
  | ok found =>
      obtain ⟨wpp, usedUp⟩ := found
      cases usedUp with
      | false => exact rfl
      | true =>
          exact (keepsWp_retireLine spp st _).bind fun st' =>
            keepsWp_openLine spp st' wpp

/-- The steps of `mapNewPage` before the write pointer moves. -/
theorem keepsWp_mapNewPage (st : ConvFtl) (lpn : ℕ) :
    KeepsWp st.wp (mapNewPage spp st .gc lpn) := by
  unfold mapNewPage
  cases getNewPage st .gc with
  | error => exact trivial
  | ok ppa =>
      refine (keepsWp_setMaptblEnt spp st lpn ppa).bind fun st₁ => ?_
      refine (keepsWp_setRmapEnt spp st₁ (some lpn) ppa).bind fun st₂ => ?_
      exact (keepsWp_markPageValid spp st₂ ppa).bind
        (keepsWp_advanceWritePointer spp)

theorem keepsWp_gcWritePage (st : ConvFtl) (ppa : Ppa) :
    KeepsWp st.wp (gcWritePage spp st ppa) := by
  unfold gcWritePage
  cases getRmapEnt spp st ppa with
  | error => exact trivial
  | ok entry =>
      cases entry with
      | none => exact trivial
      | some lpn => exact .assert (keepsWp_mapNewPage spp st lpn)

theorem keepsWp_cleanOneFlashpg (st : ConvFtl) (ppa : Ppa) :
    KeepsWp st.wp (cleanOneFlashpg spp st ppa) := by
  unfold cleanOneFlashpg
  dsimp only
  generalize (List.range spp.pgsPerFlashpg).map _ = pages
  cases pages.forM fun page => nvmevAssert (st.status page ≠ .free) with
  | error => exact trivial
  | ok =>
      change KeepsWp st.wp (if _ then _ else _)
      split
      · exact rfl
      · refine KeepsWp.foldlM (fun st page => ?_) pages st
        split
        · exact keepsWp_gcWritePage spp st page
        · exact rfl

theorem keepsWp_markBlockFree (st : ConvFtl) (addr : BlockAddr) :
    KeepsWp st.wp (markBlockFree spp st addr) := by
  have hreset : ∀ st i, KeepsWp st.wp (resetPage spp addr st i) :=
    fun _ _ => .assert rfl
  exact (KeepsWp.foldlM hreset _ st).bind fun _ => .assert rfl

theorem keepsWp_gcBody (victim : ℕ) (st : ConvFtl) (visit : ℕ × ℕ × ℕ) :
    KeepsWp st.wp (gcBody spp victim st visit) := by
  refine (keepsWp_cleanOneFlashpg spp st _).bind fun st' => ?_
  split
  · exact keepsWp_markBlockFree spp st' _
  · exact rfl

theorem wp_selectVictimLine {st st' : ConvFtl} {force : Bool} {line : ℕ}
    (hselect : selectVictimLine spp st force = some (line, st')) :
    st'.wp = st.wp := by
  unfold selectVictimLine at hselect
  split at hselect
  · cases hselect
  · split at hselect
    · cases hselect
    · cases hselect
      rfl

theorem keepsWp_foregroundGc (st : ConvFtl) :
    KeepsWp st.wp (foregroundGc spp st) := by
  unfold foregroundGc
  split
  · unfold doGc
    cases hselect : selectVictimLine spp st true with
    | none => exact rfl
    | some found =>
        obtain ⟨line, st'⟩ := found
        have hcollect := KeepsWp.foldlM
          (keepsWp_gcBody spp (st'.lines line).id) (gcOrder spp)
          { st' with creditsToRefill := (st'.lines line).ipc }
        rw [← wp_selectVictimLine spp hselect]
        dsimp only
        revert hcollect
        cases (gcOrder spp).foldlM (gcBody spp (st'.lines line).id)
            { st' with creditsToRefill := (st'.lines line).ipc } with
        | error => exact fun _ => trivial
        | ok st'' => exact id
  · exact rfl

theorem keepsWp_checkAndRefillWriteCredit (st : ConvFtl) :
    KeepsWp st.wp (checkAndRefillWriteCredit spp st) := by
  unfold checkAndRefillWriteCredit
  split
  · exact (keepsWp_foregroundGc spp st).bind fun _ => rfl
  · exact rfl

/-! ## Page writes -/

/-- The page after `pg` in the same one-shot page or at the start of another. -/
def NextPg (pg pg' : ℕ) : Prop :=
  pg < spp.pgsPerBlk ∧
    pg' % spp.pgsPerOneshotpg = (pg + 1) % spp.pgsPerOneshotpg

theorem nextPage_pg (wpp : WritePointer) :
    Ends (fun result => NextPg spp wpp.pg result.1.pg) (fun _ => True)
      (nextPage spp wpp) := by
  refine Ends.require_bind (fun hpg => ?_) trivial
  dsimp only
  split
  · exact ⟨hpg, rfl⟩
  rename_i hgroup
  have hgroup : (wpp.pg + 1) % spp.pgsPerOneshotpg = 0 := by simpa using hgroup
  -- The last page of a one-shot page is followed by the first page of one.
  have hfirst : ∀ {pg : ℕ}, pg % spp.pgsPerOneshotpg = 0 →
      NextPg spp wpp.pg pg := fun hmod => ⟨hpg, hmod.trans hgroup.symm⟩
  have hback : (wpp.pg + 1 - spp.pgsPerOneshotpg) % spp.pgsPerOneshotpg = 0 := by
    obtain ⟨groups, hgroups⟩ := Nat.dvd_of_mod_eq_zero hgroup
    rw [hgroups, ← Nat.mul_sub_one, Nat.mul_mod_right]
  refine Ends.require_bind (fun _ => ?_) trivial
  split
  · exact hfirst hback
  refine Ends.require_bind (fun _ => ?_) trivial
  split
  · exact hfirst hback
  split
  · refine hfirst ?_
    rw [Nat.add_mod_right]
    exact hback
  · exact hfirst (Nat.zero_mod _)

/-- The write pointer of user data moves on, unless the computation faults. -/
def AdvancesWp (wp : WritePointer) : Except Fault ConvFtl → Prop :=
  Ends (fun st => NextPg spp wp.pg st.wp.pg) fun _ => True

theorem KeepsWp.advances {wp : WritePointer} {x : Except Fault ConvFtl}
    {next : ConvFtl → Except Fault ConvFtl} (hx : KeepsWp wp x)
    (hnext : ∀ st, AdvancesWp spp st.wp (next st)) :
    AdvancesWp spp wp (x >>= next) := by
  refine Ends.bind hx fun st hst => ?_
  rw [← hst]
  exact hnext st

theorem AdvancesWp.keeps {wp : WritePointer} {x : Except Fault ConvFtl}
    {next : ConvFtl → Except Fault ConvFtl} (hx : AdvancesWp spp wp x)
    (hnext : ∀ st, KeepsWp st.wp (next st)) :
    AdvancesWp spp wp (x >>= next) := by
  refine Ends.bind hx fun st hst => ?_
  refine (hnext st).mono (fun st' hst' => ?_) fun _ => id
  rw [hst']
  exact hst

theorem openLine_pg (st : ConvFtl) (wpp : WritePointer) :
    Ends (fun st' => st'.wp.pg = wpp.pg) (fun _ => True)
      (openLine spp st wpp .user) := by
  refine Ends.require_bind (fun _ => ?_) trivial
  cases getNextFreeLine st with
  | none => exact trivial
  | some found =>
      refine Ends.require_bind (fun _ => ?_) trivial
      refine Ends.require_bind (fun _ => ?_) trivial
      refine Ends.require_bind (fun _ => ?_) trivial
      refine Ends.require_bind (fun _ => ?_) trivial
      exact Ends.require_bind (fun _ => rfl) trivial

theorem advancesWp_advanceWritePointer (st : ConvFtl) :
    AdvancesWp spp st.wp (advanceWritePointer spp st .user) := by
  refine Ends.bind (nextPage_pg spp st.wp) fun result hnext => ?_
  obtain ⟨wpp, usedUp⟩ := result
  cases usedUp with
  | false => exact hnext
  | true =>
      refine Ends.bind (keepsWp_retireLine spp st _) fun st' _ => ?_
      refine (openLine_pg spp st' wpp).mono (fun st'' hst'' => ?_) fun _ => id
      rw [hst'']
      exact hnext

theorem advancesWp_writePage (st : ConvFtl) (lpn : ℕ) :
    AdvancesWp spp st.wp (writePage spp st lpn) := by
  refine AdvancesWp.keeps spp ?_ (keepsWp_checkAndRefillWriteCredit spp)
  refine (keepsWp_dropOldPage spp st lpn).advances spp fun st₁ => ?_
  refine AdvancesWp.keeps spp ?_ fun st₂ => rfl
  unfold mapNewPage
  cases getNewPage st₁ .user with
  | error => exact trivial
  | ok ppa =>
      refine (keepsWp_setMaptblEnt spp st₁ lpn ppa).advances spp fun st₂ => ?_
      refine (keepsWp_setRmapEnt spp st₂ (some lpn) ppa).advances spp
        fun st₃ => ?_
      exact (keepsWp_markPageValid spp st₃ ppa).advances spp
        (advancesWp_advanceWritePointer spp)

end NvmeVirt.Ftl
